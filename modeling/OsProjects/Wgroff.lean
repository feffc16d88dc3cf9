import OsProjects.WgroffMarks
import OsProjects.Lines
import OsProjects.Tokens
import OsProjects.Runs

/-! # `wgroff`

`main` reads its file in pieces of up to 1023 bytes into `line`, which keeps what it held behind
the zero that ends a piece. A pointer into it is the memory from there on. `improper` stands
for the message `Improper formatting on line %d`, `noOutput` for a failed `fopen`.
-/
namespace Wgroff

open CStrings WgroffMarks Lines Runs

def newline : UInt8 := 10
def space : UInt8 := 32
def hashtag : UInt8 := 35
def dash : UInt8 := 45

/-- `".TH"` -/
def TH : Bytes := [46, 84, 72]

/-- `".SH"` -/
def SH : Bytes := [46, 83, 72]

def lineSize : ℕ := 1024

/-- The size of `command`, `section`, `date` and `sectionHeader`. -/
def wordSize : ℕ := 256

inductive Stop where
  | improper (lineNumber : ℕ)
  | noOutput
  | undefined
  deriving DecidableEq, Repr

/-- A file that is opened for output, with what is printed to it. -/
structure Output where
  name : Bytes
  contents : Bytes
  deriving DecidableEq, Repr

/-- `earlier` holds the files of other `.TH` lines, which are not closed. -/
structure State where
  lineNumber : ℕ
  line : Bytes
  date : Option Bytes
  earlier : List Output
  output : Option Output
  deriving DecidableEq, Repr

def State.print (s : State) (b : Bytes) : Except Stop State :=
  match s.output with
  | none => .error .undefined
  | some o => .ok { s with output := some ⟨o.name, o.contents ++ b⟩ }

/-- The bytes up to the first zero. -/
def text (line : Bytes) : Bytes := line.takeWhile (· ≠ 0)

/-- What `%s` reads, up to `n` times. -/
def words : ℕ → Bytes → List Bytes
  | 0, _ => []
  | n + 1, s =>
    match Tokens.cut (isspace · = true) s with
    | none => []
    | some (w, rest) => w :: words n rest

/-- What is left behind the number that `%d` reads. -/
def scanInt (s : Bytes) : Option Bytes :=
  let t := s.dropWhile isspace
  let u := if t.head? = some 45 ∨ t.head? = some 43 then t.tail else t
  if u.head?.any isdigit then some (u.dropWhile isdigit) else none

def scanDash (s : Bytes) : Option Bytes := if s.head? = some dash then some s.tail else none

/-- `sscanf` of `"%d-%d-%d"` finds three numbers. -/
def scanDate (s : Bytes) : Bool :=
  (((((scanInt s).bind scanDash).bind scanInt).bind scanDash).bind scanInt).isSome

structure Title where
  command : Bytes
  sec : Bytes
  date : Bytes
  deriving DecidableEq, Repr

/-- The name of the file that is written. -/
def Title.name (t : Title) : Bytes := t.command ++ 46 :: t.sec

/-- `sscanf` of `".TH %s %s %s"` and the tests behind it. A longer word does not fit. -/
def accept (creates : Bytes → Bool) (lineNumber : ℕ) (line : Bytes) : Except Stop Title :=
  let ws := words 3 ((text line).drop 3)
  if ws.any (wordSize ≤ ·.length) then .error .undefined
  else
    match ws with
    | [command, sec, date] =>
      let t : Title := ⟨command, sec, date⟩
      if !scanDate date then .error (.improper lineNumber)
      else if atoi sec < 1 ∨ atoi sec > 9 then .error (.improper lineNumber)
      else if creates t.name then .ok t else .error .noOutput
    | _ => .error (.improper lineNumber)

/-- `%*s` of an empty text. -/
def spaces (width : ℤ) : Bytes := List.replicate width.natAbs space

/-- `%s(%s)` -/
def Title.label (t : Title) : Bytes := t.command ++ 40 :: (t.sec ++ [41])

def Title.line (t : Title) : Bytes :=
  let padding : ℤ := 80 - (t.command.length + t.sec.length + 2) * 2
  t.label ++ spaces padding ++ t.label ++ [newline]

def dateLine (date : Bytes) : Bytes :=
  let padding : ℤ := 40 - (date.length / 2 : ℕ)
  spaces padding ++ date ++ spaces padding ++ [newline]

def titleHeader (creates : Bytes → Bool) (s : State) : Except Stop State :=
  (accept creates s.lineNumber s.line).map fun t =>
    { s with
      date := some t.date
      earlier := s.earlier ++ s.output.toList
      output := some ⟨t.name, t.line⟩ }

def toupper (c : UInt8) : UInt8 := if 97 ≤ c ∧ c ≤ 122 then c - 32 else c

/-- The loop that applies `toupper`. -/
def upper (line : Bytes) : Bytes := (text line).map toupper ++ line.drop (text line).length

/-- The text at `line + 4` without its newlines. -/
def header (line : Bytes) : Bytes := (text ((upper line).drop 4)).filter (· ≠ newline)

/-- `line` after `removeNewlines(line + 4)`. -/
def headed (line : Bytes) : Bytes :=
  (upper line).take 4 ++ (header line ++ 0 :: (upper line).drop (4 + ((header line).length + 1)))

/-- `"\n\033[1m%s\033[0m\n"` -/
def sectionLine (line : Bytes) : Bytes :=
  newline :: ([27, 91, 49, 109] ++ header line ++ [27, 91, 48, 109] ++ [newline])

def sectionHeader (s : State) : Except Stop State :=
  if wordSize < (sectionLine s.line).length + 1 then .error .undefined
  else ({ s with line := headed s.line }).print (sectionLine s.line)

def indent : Bytes := List.replicate 7 space

/-- `line` when `fgets` has put a piece into it. -/
def put (line piece : Bytes) : Bytes := piece ++ 0 :: line.drop (piece.length + 1)

/-- The body of the loop. -/
def step (creates : Bytes → Bool) (s : State) (piece : Bytes) : Except Stop State :=
  let s := { s with lineNumber := s.lineNumber + 1, line := put s.line piece }
  if s.lineNumber % 4294967296 = 1 ∧
      (s.line.headD 0 ≠ 46 ∨ s.line.getD 1 0 ≠ 84 ∨ s.line.getD 2 0 ≠ 72) then
    .error (.improper s.lineNumber)
  else if s.line.headD 0 = hashtag then .ok s
  else if strncmp 3 s.line TH = 0 then titleHeader creates s
  else if strncmp 3 s.line SH = 0 then sectionHeader s
  else s.print (indent ++ convertFormattingMarks s.line)

/-- The line with the date; without a `.TH` line there is neither a date nor a file. -/
def finish (s : State) : Except Stop (List Output) :=
  match s.date, s.output with
  | some date, some o => .ok (s.earlier ++ [⟨o.name, o.contents ++ dateLine date⟩])
  | _, _ => .error .undefined

/-- `old` is what `line` holds at first; `creates` tells which files can be created. -/
def main (creates : Bytes → Bool) (old file : Bytes) : Except Stop (List Output) :=
  (pieces (· = newline) (lineSize - 1) file).foldlM (step creates) ⟨0, old, none, [], none⟩ >>= finish

/-- What a piece of the body prints; `b` is what `line` holds with it. -/
def bodyOut (b : Bytes) : Bytes :=
  if b.headD 0 = hashtag then []
  else if strncmp 3 b SH = 0 then sectionLine b
  else indent ++ convertFormattingMarks b

/-- The piece is no `.TH` line, and a section header fits. -/
def Calm (b : Bytes) : Prop :=
  b.headD 0 = hashtag ∨ strncmp 3 b TH ≠ 0 ∧ (strncmp 3 b SH = 0 → (sectionLine b).length < wordSize)

def after (b : Bytes) : Bytes := if b.headD 0 ≠ hashtag ∧ strncmp 3 b SH = 0 then headed b else b

/-- What `line` holds with each piece. -/
def buffers (line : Bytes) : List Bytes → List Bytes
  | [] => []
  | p :: ps => put line p :: buffers (after (put line p)) ps

/-- The pieces behind the first `n` are a body: none starts another file, and none is taken for the
first line when the number of lines has come round. -/
def Body (n : ℕ) (line : Bytes) (ps : List Bytes) : Prop :=
  (∀ i < ps.length, (n + i + 1) % 4294967296 ≠ 1) ∧ ∀ b ∈ buffers line ps, Calm b

instance : DecidablePred Calm := fun _ =>
  inferInstanceAs (Decidable (_ ∨ _ ∧ (_ → _)))

instance (n : ℕ) (line : Bytes) (ps : List Bytes) : Decidable (Body n line ps) :=
  @instDecidableAnd _ _ (Nat.decidableBallLT _ _) (List.decidableBAll _ _)

/-- The line is taken for the first line of a page. -/
def Accepts (creates : Bytes → Bool) (l : Bytes) (t : Title) : Prop :=
  TH <+: l ∧ accept creates 1 (l.take (lineSize - 1)) = .ok t

section Steps

variable {creates : Bytes → Bool} {s s' : State} {o : Output} {piece line b : Bytes}
  {ps : List Bytes} {n : ℕ}

theorem title_iff : strncmp 3 b TH = 0 ↔ TH <+: b :=
  strncmp_constant (q := TH) (by decide)

theorem section_iff : strncmp 3 b SH = 0 ↔ SH <+: b :=
  strncmp_constant (q := SH) (by decide)

/-- The test of the first line is the one for a title. -/
theorem title_bytes (h : ¬ (b.headD 0 ≠ 46 ∨ b.getD 1 0 ≠ 84 ∨ b.getD 2 0 ≠ 72)) : TH <+: b := by
  simp only [not_or, not_not] at h
  obtain ⟨h0, h1, h2⟩ := h
  match b, h0, h1, h2 with
  | [], h0, _, _ => exact absurd h0 (by decide)
  | [_], _, h1, _ => exact absurd h1 (by simp)
  | [_, _], _, _, h2 => exact absurd h2 (by simp)
  | c :: d :: e :: r, h0, h1, h2 =>
    obtain rfl : c = 46 := h0
    obtain rfl : d = 84 := h1
    obtain rfl : e = 72 := h2
    exact List.prefix_append TH r

theorem hash_ne_of_title (h : TH <+: b) : b.headD 0 ≠ hashtag := by
  obtain ⟨r, rfl⟩ := h
  exact fun hdot => absurd hdot (by simp [TH, hashtag])

theorem step_calm (creates : Bytes → Bool) (hout : s.output = some o) (hnumber : (s.lineNumber + 1) % 4294967296 ≠ 1)
    (hcalm : Calm (put s.line piece)) : step creates s piece = .ok
      { s with
        lineNumber := s.lineNumber + 1
        line := after (put s.line piece)
        output := some ⟨o.name, o.contents ++ bodyOut (put s.line piece)⟩ } := by
  rw [step]
  dsimp only
  rw [if_neg fun h => hnumber h.1]
  by_cases hhash : (put s.line piece).headD 0 = hashtag
  · rw [if_pos hhash, bodyOut, if_pos hhash, after, if_neg fun h => h.1 hhash, List.append_nil, ← hout]
  · obtain ⟨htitle, hfits⟩ := hcalm.resolve_left hhash
    rw [if_neg hhash, if_neg htitle, bodyOut, if_neg hhash]
    by_cases hsection : strncmp 3 (put s.line piece) SH = 0
    · rw [if_pos hsection, if_pos hsection, after, if_pos ⟨hhash, hsection⟩, sectionHeader,
        if_neg (Nat.not_lt.mpr (hfits hsection)), State.print, hout]
    · rw [if_neg hsection, if_neg hsection, after, if_neg fun h => hsection h.2, State.print, hout]

theorem titleHeader_ok (hout : s.output = some o) (h : titleHeader creates s = .ok s') :
    s.earlier.length < s'.earlier.length ∧ ∃ o', s'.output = some o' := by
  rw [titleHeader] at h
  cases hacc : accept creates s.lineNumber s.line with
  | error e =>
    rw [hacc] at h
    cases h
  | ok t =>
    rw [hacc] at h
    cases h
    simp [hout]

/-- A piece is one of the body or starts another file. -/
theorem step_ok (hout : s.output = some o) (h : step creates s piece = .ok s') :
    (s.lineNumber + 1) % 4294967296 ≠ 1 ∧ Calm (put s.line piece) ∨
      s.earlier.length < s'.earlier.length ∧ ∃ o', s'.output = some o' := by
  rw [step] at h
  dsimp only at h
  split_ifs at h with hnumber hhash htitle hsection
  · refine .inl ⟨fun hone => ?_, .inl hhash⟩
    exact hash_ne_of_title (title_bytes fun hb => hnumber ⟨hone, hb⟩) hhash
  · exact .inr (titleHeader_ok
      (s := { s with lineNumber := s.lineNumber + 1, line := put s.line piece }) hout h)
  · refine .inl ⟨fun hone => ?_, .inr ⟨htitle, fun _ => ?_⟩⟩
    · exact htitle (title_iff.mpr (title_bytes fun hb => hnumber ⟨hone, hb⟩))
    · rw [sectionHeader] at h
      split_ifs at h with hlarge
      exact Nat.not_lt.mp hlarge
  · refine .inl ⟨fun hone => ?_, .inr ⟨htitle, fun hs => absurd hs hsection⟩⟩
    exact htitle (title_iff.mpr (title_bytes fun hb => hnumber ⟨hone, hb⟩))

/-- A body is printed as a whole. -/
theorem run_body (creates : Bytes → Bool) (hout : s.output = some o) (h : Body s.lineNumber s.line ps) :
    ∃ l, ps.foldlM (step creates) s = .ok
      { s with
        lineNumber := s.lineNumber + ps.length
        line := l
        output := some ⟨o.name, o.contents ++ (buffers s.line ps).flatMap bodyOut⟩ } := by
  induction ps generalizing s o with
  | nil => exact ⟨s.line, by simp [buffers, ← hout]; rfl⟩
  | cons p ps ih =>
    obtain ⟨hnumber, hcalm⟩ := h
    rw [buffers, List.forall_mem_cons] at hcalm
    have hstep := step_calm creates hout (hnumber 0 (by simp)) hcalm.1
    have hrest : Body (s.lineNumber + 1) (after (put s.line p)) ps := by
      refine ⟨fun i hi => ?_, hcalm.2⟩
      have h := hnumber (i + 1) (by simpa using hi)
      rwa [show s.lineNumber + (i + 1) + 1 = s.lineNumber + 1 + i + 1 by omega] at h
    obtain ⟨l, hl⟩ := ih (s := { s with
      lineNumber := s.lineNumber + 1
      line := after (put s.line p)
      output := some ⟨o.name, o.contents ++ bodyOut (put s.line p)⟩ }) rfl hrest
    refine ⟨l, ?_⟩
    rw [List.foldlM_cons, hstep]
    refine hl.trans ?_
    rw [buffers, List.flatMap_cons, List.append_assoc, List.length_cons, Nat.add_assoc,
      Nat.add_comm 1]

/-- A run that starts no other file runs over a body. -/
theorem run_ok (hout : s.output = some o) (h : ps.foldlM (step creates) s = .ok s') :
    Body s.lineNumber s.line ps ∨ s.earlier.length < s'.earlier.length := by
  induction ps generalizing s o with
  | nil => exact .inl ⟨fun i hi => absurd hi (Nat.not_lt_zero i), fun b hb => absurd hb List.not_mem_nil⟩
  | cons p ps ih =>
    rw [List.foldlM_cons, bind_eq_ok] at h
    obtain ⟨s₁, hstep, h⟩ := h
    rcases step_ok hout hstep with ⟨hnumber, hcalm⟩ | ⟨hgrown, o₁, hout₁⟩
    · rw [step_calm creates hout hnumber hcalm] at hstep
      cases hstep
      refine (ih rfl h).imp_left fun hrest => ⟨fun i hi => ?_, ?_⟩
      · cases i with
        | zero => exact hnumber
        | succ i =>
          have h := hrest.1 i (by simpa using hi)
          dsimp only at h
          rwa [show s.lineNumber + (i + 1) + 1 = s.lineNumber + 1 + i + 1 by omega]
      · rw [buffers, List.forall_mem_cons]
        exact ⟨hcalm, hrest.2⟩
    · right
      rcases ih hout₁ h with hrest | hmore
      · obtain ⟨l, hl⟩ := run_body creates hout₁ hrest
        rw [h] at hl
        cases hl
        exact hgrown
      · exact hgrown.trans hmore

end Steps

section Buffers

variable {line p b t : Bytes} {ps qs : List Bytes} {c : UInt8}

theorem text_of_notMem (h : 0 ∉ p) : text p = p :=
  List.takeWhile_eq_self_iff.mpr fun _ hc => decide_eq_true fun hzero => h (hzero ▸ hc)

theorem zero_notMem_text (b : Bytes) : 0 ∉ text b := fun h => by
  simpa using List.mem_takeWhile_imp h

theorem text_put (line piece : Bytes) : text (put line piece) = text piece := by
  rw [text, put, List.takeWhile_append, List.takeWhile_cons_of_neg (by simp), List.append_nil, text]
  split_ifs with h
  · exact ((List.takeWhile_prefix _).eq_of_length h).symm
  · rfl

theorem head_put (line p : Bytes) : (put line p).headD 0 = p.headD 0 := by
  cases p <;> rfl

/-- What the old bytes are makes no difference to the tests of a line. -/
theorem prefix_put (ht : 0 ∉ t) : t <+: put line p ↔ t <+: p := by
  rw [← prefix_takeWhile ht, ← prefix_takeWhile (s := p) ht]
  exact iff_of_eq (congrArg _ (text_put line p))

theorem title_put : strncmp 3 (put line p) TH = 0 ↔ TH <+: p := title_iff.trans (prefix_put (by decide))

theorem section_put : strncmp 3 (put line p) SH = 0 ↔ SH <+: p :=
  section_iff.trans (prefix_put (by decide))

/-- The contents of `line` behind some pieces. -/
def settled (line : Bytes) (ps : List Bytes) : Bytes := ps.foldl (fun l p => after (put l p)) line

theorem buffers_append (line : Bytes) (ps qs : List Bytes) :
    buffers line (ps ++ qs) = buffers line ps ++ buffers (settled line ps) qs := by
  induction ps generalizing line with
  | nil => rfl
  | cons p ps ih =>
    rw [List.cons_append, buffers, buffers, ih]
    rfl

theorem convert_put (line p : Bytes) : convertFormattingMarks (put line p) = converted (text p) := by
  rw [convertFormattingMarks_eq, ← text_put line p]
  rfl

theorem bodyOut_hash (h : b.headD 0 = hashtag) : bodyOut b = [] := if_pos h

theorem bodyOut_section (h : SH <+: b) : bodyOut b = sectionLine b := by
  have hdot : b.headD 0 ≠ hashtag := by
    obtain ⟨r, rfl⟩ := h
    exact fun hdot => absurd hdot (by simp [SH, hashtag])
  rw [bodyOut, if_neg hdot, if_pos (section_iff.mpr h)]

theorem bodyOut_plain (hhash : b.headD 0 ≠ hashtag) (hsection : ¬ SH <+: b) :
    bodyOut b = indent ++ convertFormattingMarks b := by
  rw [bodyOut, if_neg hhash, if_neg (mt section_iff.mp hsection)]

/-- Only a comment prints nothing. -/
theorem bodyOut_eq_nil : bodyOut b = [] ↔ b.headD 0 = hashtag := by
  constructor
  · intro h
    by_contra hhash
    by_cases hsection : SH <+: b
    · rw [bodyOut_section hsection] at h
      cases h
    · rw [bodyOut_plain hhash hsection] at h
      cases h
  · exact bodyOut_hash

end Buffers

section Runs

variable {creates : Bytes → Bool} {old file p l : Bytes} {ps qs : List Bytes} {t : Title} {o : Output}

/-- The run over the first piece of an accepted page. -/
theorem step_title (htitle : TH <+: p) (hacc : accept creates 1 p = .ok t) :
    step creates ⟨0, old, none, [], none⟩ p =
      .ok ⟨1, put old p, some t.date, [], some ⟨t.name, t.line⟩⟩ := by
  have hput : TH <+: put old p := htitle.trans (List.prefix_append p _)
  have haccept : accept creates 1 (put old p) = .ok t := by
    rw [accept, text_put]
    exact hacc
  obtain ⟨r, hr⟩ := hput
  have hhead : TH <+: put old p := ⟨r, hr⟩
  rw [step]
  dsimp only
  rw [if_neg (by rw [← hr]; simp [TH]), if_neg (hash_ne_of_title hhead),
    if_pos (title_iff.mpr hhead), titleHeader, haccept]
  rfl

/-- A page is written to one file if and only if its first piece is followed by a body. -/
theorem main_ok_iff (hpieces : pieces (· = newline) (lineSize - 1) file = p :: ps)
    (htitle : TH <+: p) (hacc : accept creates 1 p = .ok t) :
    main creates old file = .ok [o] ↔ Body 1 (put old p) ps ∧
      o = ⟨t.name, t.line ++ (buffers (put old p) ps).flatMap bodyOut ++ dateLine t.date⟩ := by
  have hmain : main creates old file =
      ps.foldlM (step creates) ⟨1, put old p, some t.date, [], some ⟨t.name, t.line⟩⟩ >>= finish := by
    rw [main, hpieces, List.foldlM_cons, step_title htitle hacc]
    rfl
  let first : State := ⟨1, put old p, some t.date, [], some ⟨t.name, t.line⟩⟩
  rw [hmain]
  constructor
  · intro h
    obtain ⟨s', hrun, hfinish⟩ := bind_eq_ok.mp h
    have hfew : s'.earlier.length = 0 := by
      rw [finish] at hfinish
      split at hfinish
      next =>
        have hlen := congrArg List.length (Except.ok.inj hfinish)
        rw [List.length_append, List.length_singleton, List.length_singleton] at hlen
        omega
      next => cases hfinish
    have hbody := (run_ok (s := first) rfl hrun).resolve_right (by omega)
    obtain ⟨l, hl⟩ := run_body creates (s := first) rfl hbody
    rw [hl] at hrun
    cases hrun
    cases hfinish
    exact ⟨hbody, rfl⟩
  · rintro ⟨hbody, rfl⟩
    obtain ⟨l, hl⟩ := run_body creates (s := first) rfl hbody
    rw [hl]
    rfl

end Runs

end Wgroff
