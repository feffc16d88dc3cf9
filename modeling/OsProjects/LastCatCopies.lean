import OsProjects.LastCat
import OsProjects.Runs
import Mathlib.Data.List.TakeWhile

/-! # The copies of the last name

A name is copied into `buffer` and from there to the caller, each time without the byte that
ends it. `exec` writes this byte to `buffer`, but nothing writes it to the caller. The caller's
pointer is checked for four bytes, `buffer` and `argv` are not checked.
-/
namespace LastCatCopies

open ByteMemory CStrings LastCat

/-- Both loops of `strncpy`; behind the text there is a zero. -/
def strncpy : ℕ → Mem → ℕ → List UInt8 → Mem
  | 0, m, _, _ => m
  | n + 1, m, s, t => strncpy n (storeBytes m s [t.headD 0]) (s + 1) t.tail

/-- The test of the pointer, with `sizeof(&ptr)` for its size. `sz` is the size of the process. -/
def argptr (sz ptr : ℕ) : Bool := ptr < sz ∧ ptr + 4 ≤ sz

def accepted (sz ptr : ℕ) : Bool := argptr sz ptr && ptr != 0

/-- The memory of the caller after the call. -/
def sys_getlastcat (g : Globals) (sz : ℕ) (user : Mem) (ptr : ℕ) : Mem :=
  match (LastCat.sys_getlastcat g (accepted sz ptr)).2 with
  | none => user
  | some m => strncpy m.text.length user ptr m.text

/-- The caller finds the text with its zero. -/
def Returned (user : Mem) (ptr : ℕ) (t : List UInt8) : Prop :=
  loadBytes user ptr (t.length + 1) = t ++ [0]

instance (user : Mem) (ptr : ℕ) (t : List UInt8) : Decidable (Returned user ptr t) :=
  inferInstanceAs (Decidable (_ = _))

/-- What stands in the memory behind `u` completes it to `t` and ends it. -/
def Completes (user : Mem) (ptr : ℕ) (u t : List UInt8) : Prop :=
  u <+: t ∧ loadBytes user (ptr + u.length) (t.length + 1 - u.length) = t.drop u.length ++ [0]

/-- No other program that is taken for `cat`. -/
def Later : Event → Prop
  | .exec _ path _ _ loaded => loaded = true → takenForCat path = false
  | _ => True

instance : DecidablePred Later
  | .exec .. => inferInstanceAs (Decidable (_ → _))
  | .openFile .. => .isTrue trivial
  | .getlastcat .. => .isTrue trivial

/-- A failing open that is noted. -/
def notes : Event → Bool
  | .openFile _ call => call.noted
  | _ => false

/-- The message when an open has failed in between. -/
def noted : Message → Message
  | .name _ => .invalid
  | m => m

/-- The text that is due after an `exec` of `cat`. -/
def answer (args : List CText) (failed : Bool) : List UInt8 :=
  match args.getLast? with
  | none => ascii "No args were passed"
  | some arg => if failed then ascii "Invalid filename" else arg.bytes

section Returning

variable {g : Globals} {m user : Mem} {s sz ptr n : ℕ} {t u : List UInt8} {es : List Event}
  {path : CText} {args : List CText}

/-- As many bytes as the text has are copied without its zero. -/
theorem strncpy_length : strncpy t.length m s t = storeBytes m s t := by
  induction t generalizing m s with
  | nil => exact storeBytes_nil.symm
  | cons c t ih =>
    rw [List.length_cons, strncpy, List.headD_cons, List.tail_cons, ih]
    funext x
    rcases lt_trichotomy x s with hx | rfl | hx
    · rw [storeBytes_outside (.inl (by omega)), storeBytes_outside (.inl hx),
        storeBytes_outside (.inl hx)]
    · rw [storeBytes_outside (by omega), storeBytes, storeBytes]
      simp
    · obtain ⟨k, rfl⟩ := Nat.exists_eq_add_of_lt hx
      by_cases hk : k < t.length
      · have hwhole : storeBytes m s (c :: t) (s + (k + 1)) = t[k] :=
          storeBytes_inside (Nat.succ_lt_succ hk)
        rw [show s + k + 1 = s + (k + 1) by omega, hwhole, show s + (k + 1) = s + 1 + k by omega,
          storeBytes_inside hk]
      · rw [storeBytes_outside (.inr (by omega)), storeBytes_outside (.inr (by simp)),
          storeBytes_outside (.inr (by simp; omega))]

theorem zero_notMem_select : 0 ∉ (select g).text := by
  unfold select
  split_ifs
  · decide
  · decide
  · decide
  · exact fun h => by simpa [Message.text, textAt] using List.mem_takeWhile_imp h

theorem sys_getlastcat_accepted (h : accepted sz ptr = true) :
    sys_getlastcat g sz user ptr = storeBytes user ptr (select g).text := by
  have hselect : (LastCat.sys_getlastcat g true).2 = some (select g) := by
    rw [LastCat.sys_getlastcat]
    split
    next hf => cases hf
    next => dsimp only; split <;> rfl
  rw [sys_getlastcat, h, hselect]
  exact strncpy_length

theorem returned_storeBytes (hu : 0 ∉ u) :
    Returned (storeBytes user ptr u) ptr t ↔ Completes user ptr u t := by
  rw [Returned, Completes]
  rcases Nat.lt_or_ge t.length u.length with hlen | hlen
  · refine iff_of_false (fun h => hu ?_) fun h => absurd h.1.length_le (by omega)
    have hzero : (loadBytes (storeBytes user ptr u) ptr (t.length + 1))[t.length]? = some 0 := by
      rw [h, List.getElem?_append_right le_rfl, Nat.sub_self]
      rfl
    obtain ⟨hlt, hval⟩ := List.getElem?_eq_some_iff.mp hzero
    rw [loadBytes_getElem, storeBytes_inside hlen] at hval
    exact hval ▸ List.getElem_mem hlen
  · have hsplit : loadBytes (storeBytes user ptr u) ptr (t.length + 1) =
        u ++ loadBytes user (ptr + u.length) (t.length + 1 - u.length) := by
      rw [show t.length + 1 = u.length + (t.length + 1 - u.length) by omega, loadBytes_append,
        loadBytes_storeBytes, loadBytes_storeBytes_of_disjoint (.inr le_rfl)]
      congr 2
      omega
    rw [hsplit]
    constructor
    · intro h
      have hpre : u <+: t := List.prefix_of_prefix_length_le ⟨_, h⟩ (List.prefix_append t [0]) hlen
      obtain ⟨v, rfl⟩ := hpre
      rw [List.append_assoc] at h
      exact ⟨List.prefix_append u v, by simpa using List.append_cancel_left h⟩
    · rintro ⟨⟨v, rfl⟩, h⟩
      rw [h]
      simp

theorem completes_self : Completes user ptr t t ↔ user (ptr + t.length) = 0 := by
  rw [Completes, Nat.add_sub_cancel_left, List.drop_length, List.nil_append]
  simp [loadBytes]

theorem next_later (e : Event) (h : Later e) :
    ∃ g', next g e = some g' ∧ select g' = if notes e then noted (select g) else select g := by
  cases e with
  | exec pid path first args loaded =>
    refine ⟨g, ?_, rfl⟩
    cases loaded with
    | false => rfl
    | true => simp [next, exec, h rfl]
  | openFile pid call =>
    refine ⟨_, rfl, ?_⟩
    rw [notes, sys_open_globals]
    cases call.noted with
    | false => simp
    | true =>
      unfold select
      dsimp only
      split_ifs <;> simp_all [noted]
  | getlastcat pid ptr =>
    exact ⟨_, rfl, select_sys_getlastcat g ptr⟩

/-- Behind an `exec` of `cat` only a noted open changes the message. -/
theorem run_later (h : ∀ e ∈ es, Later e) : ∃ g', Runs.run next g es = some g' ∧
    select g' = if es.any notes then noted (select g) else select g := by
  induction es generalizing g with
  | nil => exact ⟨g, rfl, rfl⟩
  | cons e es ih =>
    rw [List.forall_mem_cons] at h
    obtain ⟨g₁, hg₁, hsel₁⟩ := next_later (g := g) e h.1
    obtain ⟨g₂, hg₂, hsel₂⟩ := ih (g := g₁) h.2
    refine ⟨g₂, by rw [Runs.run, hg₁]; exact hg₂, ?_⟩
    rw [hsel₂, hsel₁, List.any_cons]
    cases notes e with
    | false => simp
    | true =>
      have hidem : noted (noted (select g)) = noted (select g) := by
        cases select g <;> rfl
      simp [hidem]

theorem answer_eq {failed : Bool} :
    answer args failed = (if failed then noted (recorded args) else recorded args).text := by
  unfold answer recorded
  cases args.getLast? <;> cases failed <;> rfl

/-- After an `exec` of `cat` and events that run no other program taken for it, the call leaves the
text with its zero in the caller's memory if and only if the zero was there already, or, when
`catNum` comes round to 0, if the memory completes what is written then. It is the same with
the text of the call before any `cat`. -/
theorem returned_iff (g : Globals) (user : Mem) (sz ptr pid : ℕ) (path first : CText)
    (args : List CText) (es : List Event) (hcat : afterLast slash path.bytes = cat)
    (hfit : Fits args) (hlater : ∀ e ∈ es, Later e) (hptr : accepted sz ptr = true) :
    (∃ g', Runs.run next g (.exec pid path first args true :: es) = some g' ∧
      (Returned (sys_getlastcat g' sz user ptr) ptr (answer args (es.any notes)) ↔
        if g.catNum + 1 = 0 then
          Completes user ptr Message.notCalled.text (answer args (es.any notes))
        else user (ptr + (answer args (es.any notes)).length) = 0)) ∧
    (g.catNum = 0 → ∃ g', Runs.run next g es = some g' ∧
      (Returned (sys_getlastcat g' sz user ptr) ptr Message.notCalled.text ↔
        user (ptr + Message.notCalled.text.length) = 0)) := by
  have hcall : ∀ g' t, Returned (sys_getlastcat g' sz user ptr) ptr t ↔
      Completes user ptr (select g').text t := fun g' t =>
    sys_getlastcat_accepted hptr ▸ returned_storeBytes zero_notMem_select
  constructor
  · obtain ⟨g₁, hg₁, hsel₁⟩ := exec_taken (g := g) (takenForCat_of_eq hcat) hfit
    obtain ⟨g₂, hg₂, hsel₂⟩ := run_later (g := g₁) hlater
    refine ⟨g₂, ?_, ?_⟩
    · rw [Runs.run, next, if_pos rfl, hg₁]
      exact hg₂
    · rw [hcall, hsel₂, hsel₁]
      split_ifs with hnotes hround hround
      · exact Iff.rfl
      · rw [answer_eq, hnotes, if_pos rfl]
        exact completes_self
      · exact Iff.rfl
      · rw [answer_eq, if_neg hnotes]
        exact completes_self
  · intro hzero
    obtain ⟨g', hg', hsel⟩ := run_later (g := g) hlater
    refine ⟨g', hg', ?_⟩
    have hnone : select g' = .notCalled := by
      rw [hsel, select_notCalled.mpr hzero]
      exact ite_self _
    rw [hcall, hnone]
    exact completes_self

theorem zero_notMem_aText : (0 : UInt8) ∉ [97] := by decide

def aText : CText := ⟨[97], zero_notMem_aText⟩

def quietOpen : Event := .openFile 4 ⟨true, false, true, some .file, true⟩

/-- `cat a` and an open that does not fail. -/
theorem catA_unterminated :
    ∃ g', Runs.run next boot [.exec 3 catText catText [aText] true, quietOpen] = some g' ∧
      (Returned (sys_getlastcat g' 12288 (fun _ => 1) 8192) 8192 aText.bytes ↔ False) := by
  have hfit : Fits [aText] := fun arg harg => by
    cases harg
    decide
  obtain ⟨g', hg', h⟩ := (returned_iff boot (fun _ => 1) 12288 8192 3 catText catText [aText]
    [quietOpen] (by decide) hfit (by decide) (by decide)).1
  rw [if_neg (by decide)] at h
  exact ⟨g', hg', h.trans (iff_of_false (by decide) id)⟩

/-- The memory of the caller holds ones. -/
theorem zero_missing : ¬ ∀ user : Mem,
    ∃ g', next boot (.exec 3 catText catText [aText] true) = some g' ∧
      Returned (sys_getlastcat g' 12288 user 8192) 8192 aText.bytes := by
  intro h
  obtain ⟨g', hg', hret⟩ := h fun _ => 1
  cases hg'
  revert hret
  decide

end Returning

section Bounds

/-- What the code behind the stack of the new program touches. -/
inductive Access where
  /-- `argv[i]` is read. -/
  | argv (i : ℤ)
  /-- `buffer[i]` is written. -/
  | buffer (i : ℕ)
  deriving DecidableEq, Repr

def MAXARG : ℕ := 32

def PGSIZE : ℕ := 4096

/-- What `sys_exec` hands to `exec`. -/
structure Argv where
  texts : List CText
  few : texts.length < MAXARG

/-- The texts are pushed to the stack page, each at a multiple of four, and `used` is what the
page has lost. -/
def pushTexts (argc used : ℕ) : List CText → Option ℕ
  | [] => some used
  | s :: ss =>
    let used' := (used + (s.bytes.length + 1) + 3) / 4 * 4
    if MAXARG ≤ argc ∨ PGSIZE < used' then none else pushTexts (argc + 1) used' ss

/-- The texts and `ustack` fit. -/
def stackFits (argv : Argv) : Bool :=
  (pushTexts 0 0 argv.texts).any fun used => used + (3 + argv.texts.length + 1) * 4 ≤ PGSIZE

/-- The accesses that record the last argument. -/
def record (argv : Argv) : List Access :=
  let argc : ℤ := argv.texts.length
  if argc = 1 then []
  else
    match argv.texts.getLast? with
    | none => [.argv (argc - 1)]
    | some s => [.argv (argc - 1), .buffer s.bytes.length, .argv (argc - 1), .argv (argc - 1)] ++
        (List.range s.bytes.length).map .buffer

/-- `exec` of a program that is loaded. -/
def exec (path : CText) (argv : Argv) : List Access :=
  if stackFits argv && takenForCat path then record argv else []

def InBounds (argv : Argv) : Access → Prop
  | .argv i => 0 ≤ i ∧ i < argv.texts.length
  | .buffer i => i < 256

/-- The addresses that `sys_getlastcat` writes. -/
def writes (g : Globals) (sz ptr : ℕ) : List ℕ :=
  if accepted sz ptr then (List.range (select g).text.length).map (ptr + ·) else []

variable {g : Globals} {user : Mem} {argv : Argv} {path first : CText} {args : List CText}
  {sz ptr x : ℕ}

theorem mem_writes : x ∈ writes g sz ptr ↔
    accepted sz ptr = true ∧ ptr ≤ x ∧ x < ptr + (select g).text.length := by
  rw [writes]
  split_ifs with hptr
  · rw [List.mem_map, and_iff_right hptr]
    simp only [List.mem_range]
    constructor
    · rintro ⟨k, hk, rfl⟩
      omega
    · rintro ⟨hlo, hhi⟩
      exact ⟨x - ptr, by omega, by omega⟩
  · simp [hptr]

/-- The rest of the caller's memory stays. -/
theorem sys_getlastcat_outside (h : x ∉ writes g sz ptr) :
    sys_getlastcat g sz user ptr x = user x := by
  rw [mem_writes] at h
  cases hptr : accepted sz ptr with
  | false =>
    rw [sys_getlastcat, hptr]
    rfl
  | true =>
    have hout : ¬ (ptr ≤ x ∧ x < ptr + (select g).text.length) := fun hin => h ⟨hptr, hin⟩
    rw [sys_getlastcat_accepted hptr]
    exact storeBytes_outside (by omega)

theorem record_in_bounds_iff : (∀ a ∈ record argv, InBounds argv a) ↔
    argv.texts ≠ [] ∧ (argv.texts.length = 1 ∨ Fits argv.texts) := by
  rw [record]
  rcases List.eq_nil_or_concat argv.texts with h | ⟨ss, s, h⟩
  · rw [h]
    simp [InBounds]
  · rw [List.concat_eq_append] at h
    have hlast : argv.texts.getLast? = some s := by rw [h, List.getLast?_concat]
    have hfit : Fits argv.texts ↔ s.bytes.length < 256 := by
      rw [Fits, hlast]
      simp
    have hpos : 0 < argv.texts.length := by simp [h]
    have hargc : (argv.texts.length : ℤ) = 1 ↔ argv.texts.length = 1 := by omega
    rw [hfit, and_iff_right (List.ne_nil_of_length_pos hpos)]
    simp only [hargc, hlast]
    split_ifs with hone
    · simp [hone]
    · have hread : InBounds argv (.argv (argv.texts.length - 1)) := ⟨by omega, by omega⟩
      constructor
      · exact fun hall => .inr (hall (.buffer s.bytes.length) (by simp))
      · rintro hlen a ha
        have hlen := hlen.resolve_left hone
        simp only [List.mem_append, List.mem_cons, List.not_mem_nil, or_false, List.mem_map,
          List.mem_range] at ha
        rcases ha with (rfl | rfl | rfl | rfl) | ⟨i, hi, rfl⟩
        · exact hread
        · exact hlen
        · exact hread
        · exact hread
        · exact hi.trans hlen

/-- Where the accesses stay in bounds, the last argument is recorded. -/
theorem record_defined_iff (hargs : argv.texts = first :: args) (hcat : takenForCat path = true) :
    (∀ a ∈ record argv, InBounds argv a) ↔ ∃ g', LastCat.exec g path args = some g' := by
  have hfit : (∃ g', LastCat.exec g path args = some g') ↔ Fits args := by
    constructor
    · rintro ⟨g', hg'⟩
      by_contra hnot
      rw [exec_overflow hcat hnot] at hg'
      cases hg'
    · intro h
      obtain ⟨g', hg', -⟩ := exec_taken (g := g) hcat h
      exact ⟨g', hg'⟩
  rw [record_in_bounds_iff, hfit, hargs]
  cases args with
  | nil => simp [Fits]
  | cons s ss => simp [Fits]

/-- An `exec` stays in `argv` and `buffer` unless it is taken for `cat` and is given no texts at
all or a last one of more than 255 bytes behind its name. A call stays in the four bytes that
are checked only for a name of at most four bytes. -/
theorem accesses_iff (path : CText) (argv : Argv) (g : Globals) (sz ptr : ℕ) :
    ((∀ a ∈ exec path argv, InBounds argv a) ↔
      (stackFits argv = true → takenForCat path = true →
        argv.texts ≠ [] ∧ (argv.texts.length = 1 ∨ Fits argv.texts))) ∧
    ((∀ x ∈ writes g sz ptr, ptr ≤ x ∧ x < ptr + 4) ↔
      (accepted sz ptr = true → g.catNum ≠ 0 ∧ g.noArg = false ∧ g.switch1 = false ∧
        (textAt g.buffer 0 256).length ≤ 4)) := by
  constructor
  · rw [exec, ← record_in_bounds_iff]
    cases stackFits argv <;> cases takenForCat path <;> simp
  · have hlen : (select g).text.length ≤ 4 ↔ g.catNum ≠ 0 ∧ g.noArg = false ∧
        g.switch1 = false ∧ (textAt g.buffer 0 256).length ≤ 4 := by
      have hfixed : ¬ Message.notCalled.text.length ≤ 4 ∧ ¬ Message.noArgs.text.length ≤ 4 ∧
          ¬ Message.invalid.text.length ≤ 4 := by decide
      unfold select
      split_ifs with hzero hno hsw
      · simp [hzero, hfixed.1]
      · simp [hno, hfixed.2.1]
      · simp [hsw, hfixed.2.2]
      · rw [Bool.not_eq_true] at hno hsw
        exact ⟨fun h => ⟨hzero, hno, hsw, h⟩, fun h => h.2.2.2⟩
    rw [← hlen]
    constructor
    · intro hall hptr
      by_contra hlong
      have hin := hall (ptr + 4) (mem_writes.mpr ⟨hptr, by omega, by omega⟩)
      omega
    · intro hshort x hx
      obtain ⟨hptr, hlo, hhi⟩ := mem_writes.mp hx
      have hle := hshort hptr
      omega

/-- `exec` of `/cat` with no texts at all reads `argv[-1]`. The answer before any `cat` is longer
than four bytes. -/
theorem accesses_outside :
    (¬ ∀ path argv, ∀ a ∈ exec path argv, InBounds argv a) ∧
    ¬ ∀ g sz ptr, ∀ x ∈ writes g sz ptr, ptr ≤ x ∧ x < ptr + 4 := by
  constructor
  · intro h
    have hread := h ⟨slash :: cat, by decide⟩ ⟨[], by decide⟩ (.argv (-1)) (by decide)
    exact absurd hread.1 (by decide)
  · intro h
    have hwrite := (h boot 12288 8192 8196 (by decide)).2
    omega

end Bounds

end LastCatCopies
