import OsProjects.Wgroff

/-! # The lines of a page

What `wgroff` prints of a line, against what it should print. A line that is longer than the
buffer comes in pieces, each of which is taken for a line. How often a byte is printed that no
mark has tells what became of the pieces.
-/
namespace WgroffLines

open CStrings WgroffMarks Lines Wgroff

/-- What should be printed of a line. -/
def formatted (l : Bytes) : Bytes := if l.head? = some hashtag then [] else indent ++ converted l

def page (t : Title) (ls : List Bytes) : Output :=
  ⟨t.name, t.line ++ ls.flatMap formatted ++ dateLine t.date⟩

/-- The pieces in which `fgets` reads a text. -/
def parts (s : Bytes) : List Bytes := pieces (· = newline) (lineSize - 1) s

/-- Every piece of a comment begins with `#`. Another line fits the buffer and has no zero. -/
def Whole (l : Bytes) : Prop :=
  if l.head? = some hashtag then ∀ p ∈ parts l, p.head? = some hashtag else l.length < lineSize ∧ 0 ∉ l

instance (l : Bytes) : Decidable (Whole l) :=
  inferInstanceAs (Decidable (if l.head? = some hashtag then ∀ p ∈ parts l, p.head? = some hashtag
    else l.length < lineSize ∧ 0 ∉ l))

section Pieces

variable {line l p : Bytes} {ps : List Bytes} {c : UInt8}

/-- What a piece prints that is no section header. -/
def plainOut (p : Bytes) : Bytes := if p.headD 0 = hashtag then [] else indent ++ converted (text p)

theorem head_iff : p.headD 0 = hashtag ↔ p.head? = some hashtag := by
  cases p with
  | nil => exact iff_of_false (by decide) (by simp)
  | cons c p => simp

theorem zero_notMem_plainOut (p : Bytes) : 0 ∉ plainOut p := by
  rw [plainOut]
  split_ifs
  · exact List.not_mem_nil
  · have htext := count_converted (c := 0) (by decide) (text p)
    rw [List.count_eq_zero_of_not_mem (zero_notMem_text p), List.count_eq_zero] at htext
    rw [List.mem_append, not_or]
    exact ⟨by decide, htext⟩

theorem bodyOut_put (h : ¬ SH <+: p) : bodyOut (put line p) = plainOut p := by
  rw [plainOut, ← head_put line p]
  split_ifs with hhash
  · exact bodyOut_hash hhash
  · rw [bodyOut_plain hhash (mt (prefix_put (by decide)).mp h), convert_put]

theorem buffers_plain (h : ∀ p ∈ ps, ¬ SH <+: p) (line : Bytes) :
    (buffers line ps).flatMap bodyOut = ps.flatMap plainOut := by
  induction ps generalizing line with
  | nil => rfl
  | cons p ps ih =>
    rw [List.forall_mem_cons] at h
    rw [buffers, List.flatMap_cons, List.flatMap_cons, bodyOut_put h.1, ih h.2]

/-- A section header prints two newlines. -/
theorem newlines_section (b : Bytes) : (sectionLine b).count newline = 2 := by
  have hheader : (header b).count newline = 0 :=
    List.count_eq_zero_of_not_mem fun h => by simp [header] at h
  rw [sectionLine, List.count_cons_self, List.count_append, List.count_append, List.count_append,
    hheader]
  rfl

theorem newlines_buffers (h : ∃ p ∈ ps, SH <+: p) (line : Bytes) :
    2 ≤ ((buffers line ps).flatMap bodyOut).count newline := by
  induction ps generalizing line with
  | nil =>
    obtain ⟨p, hp, _⟩ := h
    cases hp
  | cons p ps ih =>
    rw [buffers, List.flatMap_cons, List.count_append]
    obtain ⟨q, hq, hsection⟩ := h
    rcases List.mem_cons.mp hq with rfl | hq
    · rw [bodyOut_section ((prefix_put (by decide)).mpr hsection), newlines_section]
      omega
    · have hrest := ih ⟨q, hq, hsection⟩ (after (put line p))
      omega

theorem count_plainOut_le (p : Bytes) : (plainOut p).count hashtag ≤ p.count hashtag := by
  rw [plainOut]
  split_ifs
  · exact Nat.zero_le _
  · rw [List.count_append, count_converted (by decide)]
    have hindent : indent.count hashtag = 0 := rfl
    have htext := (List.takeWhile_sublist (l := p) fun c => decide (c ≠ 0)).count_le hashtag
    rw [hindent, Nat.zero_add]
    exact htext

/-- If no `#` is missing, no piece was dropped. -/
theorem no_comment (h : ps.flatten.count hashtag ≤ (ps.flatMap plainOut).count hashtag) :
    ∀ p ∈ ps, p.headD 0 ≠ hashtag := by
  have hle : ∀ qs : List Bytes, (qs.flatMap plainOut).count hashtag ≤ qs.flatten.count hashtag := by
    intro qs
    induction qs with
    | nil => exact le_rfl
    | cons q qs ih =>
      rw [List.flatMap_cons, List.flatten_cons, List.count_append, List.count_append]
      exact Nat.add_le_add (count_plainOut_le q) ih
  induction ps with
  | nil => exact fun p hp => absurd hp List.not_mem_nil
  | cons p ps ih =>
    rw [List.flatMap_cons, List.flatten_cons, List.count_append, List.count_append] at h
    have hfirst := count_plainOut_le p
    have hrest := hle ps
    rw [List.forall_mem_cons]
    refine ⟨fun hhash => ?_, ih (by omega)⟩
    have hnone : (plainOut p).count hashtag = 0 := by
      rw [plainOut, if_pos hhash]
      rfl
    have hone : 0 < p.count hashtag := by
      obtain ⟨q, rfl⟩ : ∃ q, p = hashtag :: q := by
        cases p with
        | nil => exact absurd hhash (by decide)
        | cons d q => exact ⟨q, by rw [List.headD_cons] at hhash; rw [hhash]⟩
      rw [List.count_cons_self]
      exact Nat.succ_pos _
    omega

/-- Every piece is indented. -/
theorem spaces_plain (h : ∀ p ∈ ps, p.headD 0 ≠ hashtag ∧ 0 ∉ p) :
    (ps.flatMap plainOut).count space = 7 * ps.length + ps.flatten.count space := by
  induction ps with
  | nil => rfl
  | cons p ps ih =>
    rw [List.forall_mem_cons] at h
    have hindent : indent.count space = 7 := rfl
    rw [List.flatMap_cons, List.count_append, ih h.2, plainOut, if_neg h.1.1, List.count_append,
      text_of_notMem h.1.2, count_converted (by decide), hindent, List.flatten_cons,
      List.count_append, List.length_cons]
    omega

end Pieces

section OneLine

variable {line l p : Bytes} {ps : List Bytes}

/-- The pieces of a body and what they print. -/
def Prints (line : Bytes) (ps : List Bytes) (out : Bytes) : Prop :=
  (∀ b ∈ buffers line ps, Calm b) ∧ (buffers line ps).flatMap bodyOut = out

/-- Only comments print nothing. -/
theorem silent_iff : Prints line ps [] ↔ ∀ p ∈ ps, p.head? = some hashtag := by
  induction ps generalizing line with
  | nil => simp [Prints, buffers]
  | cons p ps ih =>
    rw [List.forall_mem_cons, ← @ih (after (put line p)), ← head_iff, Prints, buffers,
      List.forall_mem_cons, List.flatMap_cons, List.append_eq_nil_iff, bodyOut_eq_nil, head_put,
      Prints]
    constructor
    · rintro ⟨⟨-, hcalm⟩, hhash, hout⟩
      exact ⟨hhash, hcalm, hout⟩
    · rintro ⟨hhash, hcalm, hout⟩
      exact ⟨⟨.inl (by rwa [head_put]), hcalm⟩, hhash, hout⟩

theorem newlines_single (h : Single (· = newline) l) : l.count newline ≤ 1 := by
  rcases List.eq_nil_or_concat l with rfl | ⟨t, c, rfl⟩
  · exact Nat.zero_le _
  · rw [List.concat_eq_append] at h ⊢
    rw [List.count_append, List.count_eq_zero_of_not_mem, Nat.zero_add]
    · exact List.count_le_length
    · exact fun hmem => h newline (by rwa [List.dropLast_concat]) rfl

/-- A line that is not kept whole is not printed as it should be, and the others are. -/
theorem line_iff (hne : l ≠ []) (hone : Single (· = newline) l) (htitle : ¬ TH <+: l)
    (hsection : ¬ SH <+: l) (line : Bytes) : Prints line (parts l) (formatted l) ↔ Whole l := by
  rw [Whole, formatted]
  split_ifs with hhash
  · exact silent_iff
  · constructor
    · rintro ⟨-, hout⟩
      have hcount : ∀ c, Unmarked c → ((buffers line (parts l)).flatMap bodyOut).count c =
          indent.count c + l.count c := fun c hc => by
        rw [hout, List.count_append, count_converted hc]
      -- a section header would print too many newlines
      have hplain : ∀ p ∈ parts l, ¬ SH <+: p := by
        by_contra hsome
        push Not at hsome
        have htwo := newlines_buffers hsome line
        have hle := newlines_single hone
        have hindent : indent.count newline = 0 := rfl
        rw [hcount newline (by decide), hindent] at htwo
        omega
      rw [buffers_plain hplain] at hcount
      -- a zero is not printed at all
      have hzero : 0 ∉ l := by
        intro hmem
        have hsome := List.count_pos_iff.mpr hmem
        have hnone : ((parts l).flatMap plainOut).count 0 = 0 := by
          refine List.count_eq_zero_of_not_mem fun h => ?_
          obtain ⟨p, -, hp⟩ := List.mem_flatMap.mp h
          exact zero_notMem_plainOut p hp
        rw [hcount 0 (by decide)] at hnone
        omega
      have hflat : (parts l).flatten = l := flatten_pieces (by decide) l
      have hkept : ∀ p ∈ parts l, p.headD 0 ≠ hashtag := by
        refine no_comment ?_
        rw [hflat, hcount hashtag (by decide)]
        exact Nat.le_add_left _ _
      have hspaces := spaces_plain fun p hp => ⟨hkept p hp, fun hz => hzero
        (hflat ▸ List.mem_flatten_of_mem hp hz)⟩
      have hindent : indent.count space = 7 := rfl
      rw [hcount space (by decide), hflat, hindent] at hspaces
      obtain ⟨p, hp⟩ := List.length_eq_one_iff.mp (show (parts l).length = 1 by omega)
      rw [hp, List.flatten_singleton] at hflat
      have hmem : p ∈ parts l := hp ▸ List.mem_singleton_self p
      have hpiece := (mem_pieces (p := (· = newline)) (n := lineSize - 1) (by decide) hmem).2.1
      exact ⟨hflat ▸ Nat.lt_of_le_pred (by decide) hpiece, hzero⟩
    · rintro ⟨hlen, hzero⟩
      have hparts : parts l = [l] := pieces_short hne (Nat.le_sub_one_of_lt hlen) hone
      have hhead : l.headD 0 ≠ hashtag := mt head_iff.mp hhash
      rw [Prints, hparts, buffers_plain (by simpa using hsection)]
      constructor
      · intro b hb
        obtain rfl := List.mem_singleton.mp hb
        refine .inr ⟨mt title_put.mp htitle, fun h => absurd (section_put.mp h) hsection⟩
      · rw [List.flatMap_singleton, plainOut, if_neg hhead, text_of_notMem hzero]

end OneLine

section Pages

variable {creates : Bytes → Bool} {old file l₀ line x y : Bytes} {ls ps qs : List Bytes} {t : Title}

theorem prints_append (h : Prints line ps x) :
    Prints line (ps ++ qs) (x ++ y) ↔ Prints (settled line ps) qs y := by
  rw [Prints, Prints, buffers_append, List.forall_mem_append, List.flatMap_append, h.2,
    List.append_cancel_left_eq, and_iff_right h.1]

/-- Line by line, from any contents of the buffer. -/
theorem lines_iff (hls : ∀ l ∈ ls, l ≠ [] ∧ Single (· = newline) l)
    (hplain : ∀ l ∈ ls, ¬ TH <+: l ∧ ¬ SH <+: l) (line : Bytes) :
    (∀ k, Prints line ((ls.take k).flatMap parts) ((ls.take k).flatMap formatted)) ↔
      ∀ l ∈ ls, Whole l := by
  induction ls generalizing line with
  | nil => simp [Prints, buffers]
  | cons l ls ih =>
    rw [List.forall_mem_cons] at hls hplain ⊢
    have hfirst := line_iff hls.1.1 hls.1.2 hplain.1.1 hplain.1.2 line
    have hrest := ih hls.2 hplain.2 (settled line (parts l))
    constructor
    · intro h
      have hone : Prints line (parts l) (formatted l) := by simpa using h 1
      refine ⟨hfirst.mp hone, hrest.mp fun k => ?_⟩
      have hnext := h (k + 1)
      rw [List.take_succ_cons, List.flatMap_cons, List.flatMap_cons] at hnext
      exact (prints_append hone).mp hnext
    · rintro ⟨hl, hall⟩ k
      cases k with
      | zero => simp [Prints, buffers]
      | succ k =>
        rw [List.take_succ_cons, List.flatMap_cons, List.flatMap_cons]
        exact (prints_append (hfirst.mpr hl)).mpr (hrest.mpr hall k)

/-- Behind the first piece the number of lines does not come round. -/
theorem numbers_iff (m : ℕ) : (∀ i < m, (1 + i + 1) % 4294967296 ≠ 1) ↔ m < 4294967296 := by
  constructor
  · intro h
    by_contra hlarge
    exact h 4294967295 (by omega) (by norm_num)
  · intro h i hi
    omega

theorem parts_first (hone : Single (· = newline) l₀) (hne : l₀ ≠ []) :
    parts l₀ = l₀.take (lineSize - 1) :: (parts l₀).tail := by
  rw [parts, pieces_single (by decide) hne hone]
  rfl

theorem accepts_first (h : Accepts creates l₀ t) :
    TH <+: l₀.take (lineSize - 1) ∧ accept creates 1 (l₀.take (lineSize - 1)) = .ok t := by
  refine ⟨?_, h.2⟩
  obtain ⟨r, rfl⟩ := h.1
  exact ⟨r.take 1020, rfl⟩

/-- The pieces of a text that is given by its lines. -/
theorem parts_flatten (hlined : Lined (· = newline) (l₀ :: ls)) : parts (l₀ :: ls).flatten =
    l₀.take (lineSize - 1) :: ((parts l₀).tail ++ ls.flatMap parts) := by
  rw [parts, pieces_lined (by decide) hlined, List.flatMap_cons, ← parts,
    parts_first hlined.2.1 hlined.1]
  rfl

/-- The page of a text that is given by its lines. -/
theorem main_page_iff (hlined : Lined (· = newline) (l₀ :: ls)) (hacc : Accepts creates l₀ t)
    (old : Bytes) : main creates old (l₀ :: ls).flatten = .ok [page t ls] ↔
      ((parts l₀).tail ++ ls.flatMap parts).length < 4294967296 ∧
        Prints (put old (l₀.take (lineSize - 1))) ((parts l₀).tail ++ ls.flatMap parts)
          (ls.flatMap formatted) := by
  obtain ⟨htitle, haccept⟩ := accepts_first hacc
  rw [main_ok_iff (parts_flatten hlined) htitle haccept, Body, numbers_iff, and_assoc, Prints]
  refine and_congr_right fun _ => and_congr_right fun _ => ?_
  simp [page, eq_comm]

/-- Every line is whole, with no more than comments behind the buffer in the first line. -/
def Regular (file l₀ : Bytes) (ls : List Bytes) : Prop :=
  (∀ p ∈ (parts l₀).tail, p.head? = some hashtag) ∧ (∀ l ∈ ls, Whole l) ∧
    (parts file).length ≤ 4294967296

/-- A regular text is printed as it should be, and a text is printed so with all its beginnings of
whole lines only if it is regular. -/
theorem pages_iff (creates : Bytes → Bool) (old file l₀ : Bytes) (ls : List Bytes) (t : Title)
    (hlines : lines (· = newline) file = l₀ :: ls) (hacc : Accepts creates l₀ t)
    (hplain : ∀ l ∈ ls, ¬ TH <+: l ∧ ¬ SH <+: l) :
    (Regular file l₀ ls → main creates old file = .ok [page t ls]) ∧
      ((∀ k, main creates old (l₀ :: ls.take k).flatten = .ok [page t (ls.take k)]) ↔
        Regular file l₀ ls) := by
  have hlined : Lined (· = newline) (l₀ :: ls) := hlines ▸ lined_lines file
  have hfile : (l₀ :: ls).flatten = file := hlines ▸ flatten_lines file
  have hlength : (parts file).length = ((parts l₀).tail ++ ls.flatMap parts).length + 1 := by
    rw [← hfile, parts_flatten hlined, List.length_cons]
  have hpage : ∀ k, main creates old (l₀ :: ls.take k).flatten = .ok [page t (ls.take k)] ↔ _ :=
    fun k => main_page_iff (hlined.take (k + 1)) hacc old
  have hbody := lines_iff (fun l hl => hlined.mem (List.mem_cons_of_mem l₀ hl)) hplain
    (settled (put old (l₀.take (lineSize - 1))) (parts l₀).tail)
  have hall : (∀ k, main creates old (l₀ :: ls.take k).flatten = .ok [page t (ls.take k)]) ↔
      Regular file l₀ ls := by
    simp only [hpage]
    constructor
    · intro h
      have hfirst : Prints (put old (l₀.take (lineSize - 1))) (parts l₀).tail [] := by
        simpa using (h 0).2
      refine ⟨silent_iff.mp hfirst, hbody.mp fun k => (prints_append hfirst).mp (h k).2, ?_⟩
      have hlast := (h ls.length).1
      rw [List.take_length] at hlast
      omega
    · rintro ⟨hcomments, hwhole, hlen⟩ k
      refine ⟨?_, (prints_append (silent_iff.mpr hcomments)).mpr (hbody.mpr hwhole k)⟩
      have hsplit : ls.flatMap parts = (ls.take k).flatMap parts ++ (ls.drop k).flatMap parts := by
        rw [← List.flatMap_append, List.take_append_drop]
      rw [hlength, hsplit] at hlen
      simp only [List.length_append] at hlen ⊢
      omega
  refine ⟨fun hregular => ?_, hall⟩
  have hfull := hall.mpr hregular ls.length
  rwa [List.take_length, hfile] at hfull

/-- `.TH a 1 2-3-4` -/
def titleText : Bytes := [46, 84, 72, 32, 97, 32, 49, 32, 50, 45, 51, 45, 52, 10]

def smallTitle : Title := ⟨[97], [49], [50, 45, 51, 45, 52]⟩

/-- A line with a bold word, a comment, an empty line and a last line without an end. -/
def smallBody : List Bytes :=
  [[117, 115, 101, 32, 47, 102, 66, 108, 115, 47, 102, 80, 10], [35, 110, 10], [10], [101, 110, 100]]

theorem small_page : main (fun _ => true) [] (titleText ++ smallBody.flatten) =
      .ok [page smallTitle smallBody] ∧
    smallBody.map formatted = [indent ++ [117, 115, 101, 32, 27, 91, 49, 109, 108, 115, 27, 91, 48,
      109, 10], [], indent ++ [10], indent ++ [101, 110, 100]] := by
  refine ⟨(pages_iff _ [] (titleText ++ smallBody.flatten) titleText smallBody smallTitle
    (by decide) ⟨by decide, by decide⟩ (by decide)).1 ⟨by decide, by decide, by decide⟩, by decide⟩

/-- A line of 1023 `x` and its end. -/
def longLine : Bytes := 120 :: (List.replicate 1022 120 ++ [newline])

theorem single_longLine : Single (· = newline) longLine := by
  have hdrop : longLine.dropLast = 120 :: List.replicate 1022 120 := by
    rw [longLine, ← List.cons_append, List.dropLast_concat]
  rw [Single, hdrop]
  intro c hc hnewline
  rw [← List.replicate_succ] at hc
  rw [List.eq_of_mem_replicate hc] at hnewline
  exact absurd hnewline (by decide)

theorem length_longLine : longLine.length = lineSize := by
  rw [longLine, List.length_cons, List.length_append, List.length_replicate]
  rfl

/-- Its last byte is indented as a line of its own. -/
theorem longLine_split : ¬ ∀ creates old file l₀ ls t, lines (· = newline) file = l₀ :: ls →
    Accepts creates l₀ t → (∀ l ∈ ls, ¬ TH <+: l ∧ ¬ SH <+: l) →
      main creates old file = .ok [page t ls] := by
  intro h
  have hne : longLine ≠ [] := List.cons_ne_nil _ _
  have hlined : Lined (· = newline) [titleText, longLine] :=
    ⟨by decide, by decide, fun _ => ⟨10, rfl, rfl⟩, hne, single_longLine, fun h => absurd rfl h,
      trivial⟩
  have hacc : Accepts (fun _ => true) titleText smallTitle := ⟨by decide, by decide⟩
  have htitle : ¬ TH <+: longLine := fun hpre =>
    absurd (List.cons_prefix_cons.mp hpre).1 (by decide)
  have hsection : ¬ SH <+: longLine := fun hpre =>
    absurd (List.cons_prefix_cons.mp hpre).1 (by decide)
  have hmain := h _ [] _ _ _ _ (lines_flatten hlined) hacc (by simpa using ⟨htitle, hsection⟩)
  have hprints := ((main_page_iff hlined hacc []).mp hmain).2
  have hshort : (parts titleText).tail = [] := by decide
  rw [hshort, List.nil_append, List.flatMap_singleton, List.flatMap_singleton] at hprints
  have hwhole := (line_iff hne single_longLine htitle hsection _).mp hprints
  have hhead : longLine.head? ≠ some hashtag := fun h => absurd (Option.some_inj.mp h) (by decide)
  rw [Whole, if_neg hhead, length_longLine] at hwhole
  exact lt_irrefl _ hwhole.1

end Pages

end WgroffLines
