import OsProjects.CStrings
import Mathlib.Data.List.TakeWhile
import Mathlib.Data.List.Infix

/-! # Formatting marks

`convertFormattingMarks` tries the marks one after the other at each place of a line. No mark
begins in the same way as another, so the order of the tries makes no difference, and a table
of the marks says what is written.
-/
namespace WgroffMarks

open CStrings

abbrev Bytes := List UInt8

def slash : UInt8 := 47

structure Mark where
  text : Bytes
  code : Bytes
  deriving DecidableEq, Repr

/-- `/fB`, `/fI`, `/fU`, `/fP` with their escape sequences, and `//`. -/
def marks : List Mark :=
  [⟨[47, 102, 66], [27, 91, 49, 109]⟩, ⟨[47, 102, 73], [27, 91, 51, 109]⟩,
    ⟨[47, 102, 85], [27, 91, 52, 109]⟩, ⟨[47, 102, 80], [27, 91, 48, 109]⟩, ⟨[47, 47], [47]⟩]

/-- The loop of `convertFormattingMarks`, and what it writes; each round moves on by a byte at least. -/
def formatLoop : ℕ → Bytes → Bytes
  | 0, _ => []
  | n + 1, formatted =>
    if formatted.headD 0 = 0 then []
    else if strncmp 3 formatted [47, 102, 66] = 0 then
      [27, 91, 49, 109] ++ formatLoop n (formatted.drop 3)
    else if strncmp 3 formatted [47, 102, 73] = 0 then
      [27, 91, 51, 109] ++ formatLoop n (formatted.drop 3)
    else if strncmp 3 formatted [47, 102, 85] = 0 then
      [27, 91, 52, 109] ++ formatLoop n (formatted.drop 3)
    else if strncmp 3 formatted [47, 102, 80] = 0 then
      [27, 91, 48, 109] ++ formatLoop n (formatted.drop 3)
    else if strncmp 2 formatted [47, 47] = 0 then
      [slash] ++ formatLoop n (formatted.drop 2)
    else formatted.headD 0 :: formatLoop n (formatted.drop 1)

/-- `line` is the memory from the pointer on; the loop ends at a zero. -/
def convertFormattingMarks (line : Bytes) : Bytes := formatLoop line.length line

def convertLoop : ℕ → Bytes → Bytes
  | 0, _ => []
  | _ + 1, [] => []
  | n + 1, c :: s =>
    match marks.find? fun m => m.text.isPrefixOf (c :: s) with
    | some m => m.code ++ convertLoop n ((c :: s).drop m.text.length)
    | none => c :: convertLoop n s

/-- All of a text with its marks converted. -/
def converted (s : Bytes) : Bytes := convertLoop s.length s

/-- A text with every slash doubled. -/
def esc (t : Bytes) : Bytes := t.flatMap fun c => if c = slash then [slash, slash] else [c]

section Table

variable {m : Mark} {s t : Bytes} {c : UInt8} {n k : ℕ}

theorem mark_length (hm : m ∈ marks) : 2 ≤ m.text.length := by
  revert m
  decide

/-- At a mark the table finds this mark. -/
theorem find_mark (hm : m ∈ marks) (s : Bytes) :
    (marks.find? fun m' => m'.text.isPrefixOf (m.text ++ s)) = some m := by
  simp only [marks, List.mem_cons, List.not_mem_nil, or_false] at hm
  rcases hm with rfl | rfl | rfl | rfl | rfl <;> rfl

theorem convertLoop_fuel (hn : s.length ≤ n) (hk : s.length ≤ k) :
    convertLoop n s = convertLoop k s := by
  induction n generalizing k s with
  | zero =>
    obtain rfl := List.eq_nil_of_length_eq_zero (Nat.le_zero.mp hn)
    cases k <;> rfl
  | succ n ih =>
    cases s with
    | nil => cases k <;> rfl
    | cons c s =>
      obtain ⟨k, rfl⟩ := Nat.exists_eq_succ_of_ne_zero (n := k) (by simp at hk; omega)
      rw [List.length_cons] at hn hk
      rw [convertLoop, convertLoop]
      split
      next m hfind =>
        have hpos := mark_length (List.mem_of_find?_eq_some hfind)
        rw [ih (k := k) (by simp; omega) (by simp; omega)]
      next => rw [ih (k := k) (by omega) (by omega)]

theorem convertLoop_mark (hm : m ∈ marks) (s : Bytes) :
    convertLoop (n + 1) (m.text ++ s) = m.code ++ convertLoop n s := by
  have hlen := mark_length hm
  obtain ⟨c, t, ht⟩ := List.exists_cons_of_length_pos (l := m.text) (by omega)
  have hfind := find_mark hm s
  rw [ht, List.cons_append] at hfind ⊢
  rw [convertLoop, hfind]
  dsimp only
  rw [← List.cons_append, ← ht, List.drop_left]

theorem convertLoop_cons (h : ∀ m ∈ marks, ¬ m.text <+: c :: s) :
    convertLoop (n + 1) (c :: s) = c :: convertLoop n s := by
  have hfind : (marks.find? fun m => m.text.isPrefixOf (c :: s)) = none := by
    rw [List.find?_eq_none]
    intro m hm hpre
    exact h m hm (List.isPrefixOf_iff_prefix.mp hpre)
  rw [convertLoop, hfind]

theorem converted_nil : converted [] = [] := rfl

theorem converted_mark (hm : m ∈ marks) (s : Bytes) :
    converted (m.text ++ s) = m.code ++ converted s := by
  have hlen := mark_length hm
  obtain ⟨n, hn⟩ := Nat.exists_eq_add_of_le' (n := (m.text ++ s).length) (m := 1) (by simp; omega)
  rw [List.length_append] at hn
  rw [converted, List.length_append, hn, convertLoop_mark hm]
  exact congrArg _ (convertLoop_fuel (by omega) le_rfl)

theorem converted_cons (h : ∀ m ∈ marks, ¬ m.text <+: c :: s) :
    converted (c :: s) = c :: converted s :=
  convertLoop_cons h

/-- Induction along the places at which the loop stops. -/
theorem mark_induction {P : Bytes → Prop} (nil : P [])
    (mark : ∀ m ∈ marks, ∀ s, P s → P (m.text ++ s))
    (plain : ∀ c s, (∀ m ∈ marks, ¬ m.text <+: c :: s) → P s → P (c :: s)) (s : Bytes) : P s := by
  induction h : s.length using Nat.strong_induction_on generalizing s with
  | _ n ih =>
    cases s with
    | nil => exact nil
    | cons c s =>
      by_cases hmark : ∃ m ∈ marks, m.text <+: c :: s
      · obtain ⟨m, hm, r, hr⟩ := hmark
        have hlen := mark_length hm
        rw [← hr] at h ⊢
        rw [List.length_append] at h
        exact mark m hm r (ih r.length (by omega) r rfl)
      · push Not at hmark
        exact plain c s hmark (ih s.length (by simp at h; omega) s rfl)

end Table

section Conversion

variable {m : Mark} {s t : Bytes} {c : UInt8} {n : ℕ}

/-- No mark has the byte, and no code. -/
def Unmarked (c : UInt8) : Prop := ∀ m ∈ marks, c ∉ m.text ∧ c ∉ m.code

instance (c : UInt8) : Decidable (Unmarked c) := List.decidableBAll _ marks

theorem count_converted (hc : Unmarked c) (s : Bytes) : (converted s).count c = s.count c := by
  induction s using mark_induction with
  | nil => rfl
  | mark m hm s ih =>
    rw [converted_mark hm, List.count_append, List.count_append, ih,
      List.count_eq_zero_of_not_mem (hc m hm).1, List.count_eq_zero_of_not_mem (hc m hm).2]
  | plain d s h ih => rw [converted_cons h, List.count_cons, List.count_cons, ih]

/-- A byte of no mark stays at the end. -/
theorem converted_concat (hc : Unmarked c) (s : Bytes) : converted (s ++ [c]) = converted s ++ [c] := by
  induction s using mark_induction with
  | nil =>
    refine converted_cons fun m hm hpre => ?_
    have hlen := hpre.length_le
    have hmark := mark_length hm
    rw [List.length_singleton] at hlen
    omega
  | mark m hm s ih => rw [List.append_assoc, converted_mark hm, ih, converted_mark hm, List.append_assoc]
  | plain d s h ih =>
    rw [List.cons_append, converted_cons, ih, converted_cons h, List.cons_append]
    intro m hm hpre
    rw [← List.cons_append, List.prefix_concat_iff] at hpre
    rcases hpre with heq | hpre
    · exact (hc m hm).1 (heq ▸ by simp)
    · exact h m hm hpre

theorem slash_head (hm : m ∈ marks) : m.text.head? = some slash := by
  revert m
  decide

theorem doubled_mark : (⟨[slash, slash], [slash]⟩ : Mark) ∈ marks := by decide

/-- A doubled slash and a byte other than a slash stand for themselves in front of anything. -/
theorem converted_esc_append (t v : Bytes) : converted (esc t ++ v) = t ++ converted v := by
  induction t with
  | nil => rfl
  | cons c t ih =>
    rw [esc, List.flatMap_cons, ← esc, List.append_assoc]
    split_ifs with hc
    · rw [hc, converted_mark doubled_mark, ih]
      rfl
    · rw [List.singleton_append, converted_cons, ih, List.cons_append]
      intro m hm hpre
      have hhead := slash_head hm
      obtain ⟨d, r, hd⟩ := List.exists_cons_of_length_pos (l := m.text) (by have := mark_length hm; omega)
      rw [hd, List.head?_cons, Option.some_inj] at hhead
      rw [hd, List.cons_prefix_cons] at hpre
      exact hc (hpre.1.symm.trans hhead)

end Conversion

section Line

variable {s t v : Bytes} {n : ℕ}

/-- A mark in the memory is one in the text that ends at the first zero. -/
theorem prefix_takeWhile (ht : 0 ∉ t) : t <+: s.takeWhile (· ≠ 0) ↔ t <+: s := by
  constructor
  · exact fun h => h.trans (List.takeWhile_prefix _)
  · rintro ⟨r, rfl⟩
    have hall : ∀ c ∈ t, decide (c ≠ 0) = true := fun c hc =>
      decide_eq_true fun hzero => ht (hzero ▸ hc)
    rw [List.takeWhile_append_of_pos hall]
    exact List.prefix_append t _

theorem zero_notMem_mark {m : Mark} (hm : m ∈ marks) : 0 ∉ m.text := by
  revert m
  decide

/-- The tests of the code find the marks of the table. -/
theorem formatLoop_eq (n : ℕ) (s : Bytes) :
    formatLoop n s = convertLoop n (s.takeWhile (· ≠ 0)) := by
  induction n generalizing s with
  | zero => rfl
  | succ n ih =>
    have hmark : ∀ m ∈ marks, strncmp m.text.length s m.text = 0 →
        m.code ++ formatLoop n (s.drop m.text.length) =
          convertLoop (n + 1) (s.takeWhile (· ≠ 0)) := by
      intro m hm hcmp
      have hpre := (strncmp_constant (zero_notMem_mark hm)).mp hcmp
      obtain ⟨r, hr⟩ := (prefix_takeWhile (zero_notMem_mark hm)).mpr hpre
      obtain ⟨u, rfl⟩ := hpre
      have hall : ∀ c ∈ m.text, decide (c ≠ 0) = true := fun c hc =>
        decide_eq_true fun hzero => zero_notMem_mark hm (hzero ▸ hc)
      rw [List.takeWhile_append_of_pos hall, convertLoop_mark hm, List.drop_left, ih]
    cases s with
    | nil => rfl
    | cons c s =>
      rw [formatLoop]
      split_ifs with hzero hB hI hU hP hslash
      · rw [List.takeWhile_cons_of_neg (by simpa using hzero)]
        rfl
      · exact hmark ⟨[47, 102, 66], _⟩ (by decide) hB
      · exact hmark ⟨[47, 102, 73], _⟩ (by decide) hI
      · exact hmark ⟨[47, 102, 85], _⟩ (by decide) hU
      · exact hmark ⟨[47, 102, 80], _⟩ (by decide) hP
      · exact hmark ⟨[47, 47], _⟩ (by decide) hslash
      · have hnone : ∀ m ∈ marks, ¬ m.text <+: (c :: s).takeWhile (· ≠ 0) := by
          intro m hm hpre
          have hcmp := (strncmp_constant (zero_notMem_mark hm)).mpr
            ((prefix_takeWhile (zero_notMem_mark hm)).mp hpre)
          simp only [marks, List.mem_cons, List.not_mem_nil, or_false] at hm
          rcases hm with rfl | rfl | rfl | rfl | rfl
          · exact hB hcmp
          · exact hI hcmp
          · exact hU hcmp
          · exact hP hcmp
          · exact hslash hcmp
        rw [List.takeWhile_cons_of_pos (by simpa using hzero)] at hnone ⊢
        rw [convertLoop_cons hnone]
        exact congrArg _ (ih s)

/-- The function writes the text at its pointer with the marks converted. -/
theorem convertFormattingMarks_eq (s : Bytes) :
    convertFormattingMarks s = converted (s.takeWhile (· ≠ 0)) := by
  rw [convertFormattingMarks, formatLoop_eq, converted]
  exact convertLoop_fuel (List.takeWhile_prefix _).length_le le_rfl

/-- What is escaped is written as it was, whatever follows it. -/
theorem escaped_written (t : CText) (v : Bytes) :
    convertFormattingMarks (esc t.bytes ++ v) = t.bytes ++ convertFormattingMarks v ∧
      convertFormattingMarks (esc t.bytes) = t.bytes := by
  have hesc : ∀ c ∈ esc t.bytes, decide (c ≠ 0) = true := by
    intro c hc
    rw [decide_eq_true_eq]
    rintro rfl
    obtain ⟨d, hd, hmem⟩ := List.mem_flatMap.mp hc
    split_ifs at hmem
    · exact absurd hmem (by decide)
    · exact t.nonzero (List.mem_singleton.mp hmem ▸ hd)
  have happend : ∀ v, convertFormattingMarks (esc t.bytes ++ v) = t.bytes ++ convertFormattingMarks v :=
    fun v => by
      rw [convertFormattingMarks_eq, convertFormattingMarks_eq, List.takeWhile_append_of_pos hesc,
        converted_esc_append]
  refine ⟨happend v, ?_⟩
  have hnil := happend []
  rwa [List.append_nil, convertFormattingMarks_eq [], List.takeWhile_nil, converted_nil,
    List.append_nil] at hnil

end Line

end WgroffMarks
