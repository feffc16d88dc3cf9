import Mathlib.Data.List.Infix
import Mathlib.Data.Nat.Basic

/-! # Lines and bounded reads

A text is a list whose lines end behind the elements of a predicate. A bounded read takes such
a line or, where the line is too long for it, the next part of one. Reading to the end cuts
every line for itself.
-/
namespace Lines

variable {α : Type*} (p : α → Prop)

/-- The list comes to its end with a terminator. -/
def Ends (s : List α) : Prop := ∃ x ∈ s.getLast?, p x

/-- A terminator stands only at the end. -/
def Single (s : List α) : Prop := ∀ x ∈ s.dropLast, ¬ p x

/-- The lines of a text, of which the last may lack its end. -/
def Lined : List (List α) → Prop
  | [] => True
  | l :: ls => l ≠ [] ∧ Single p l ∧ (ls ≠ [] → Ends p l) ∧ Lined ls

section Shapes

variable {p} {s l : List α} {ls : List (List α)} {c : α}

theorem single_cons (hc : ¬ p c) (h : Single p s) : Single p (c :: s) := by
  intro x hx
  cases s with
  | nil => cases hx
  | cons d s =>
    rcases List.mem_cons.mp hx with rfl | hx
    · exact hc
    · exact h x hx

theorem ends_cons (h : Ends p (c :: s)) (hs : s ≠ []) : Ends p s := by
  obtain ⟨x, hx, hp⟩ := h
  obtain ⟨d, t, rfl⟩ := List.exists_cons_of_ne_nil hs
  exact ⟨x, by rwa [List.getLast?_cons_cons] at hx, hp⟩

theorem single_concat (h : ∀ x ∈ s, ¬ p x) (c : α) : Single p (s ++ [c]) := by
  rwa [Single, List.dropLast_concat]

theorem ends_concat (s : List α) (hc : p c) : Ends p (s ++ [c]) := ⟨c, List.getLast?_concat, hc⟩

theorem lined_of_forall (h : ∀ l ∈ ls, Single p l ∧ Ends p l) : Lined p ls := by
  induction ls with
  | nil => trivial
  | cons l ls ih =>
    obtain ⟨⟨hone, x, hx, hp⟩, hls⟩ := List.forall_mem_cons.mp h
    refine ⟨?_, hone, fun _ => ⟨x, hx, hp⟩, ih hls⟩
    rintro rfl
    cases hx

theorem Lined.take (h : Lined p ls) (k : ℕ) : Lined p (ls.take k) := by
  induction ls generalizing k with
  | nil => rwa [List.take_nil]
  | cons l ls ih =>
    cases k with
    | zero => trivial
    | succ k =>
      obtain ⟨hl, hone, hends, hls⟩ := h
      refine ⟨hl, hone, fun hne => hends fun hnil => ?_, ih hls k⟩
      rw [hnil, List.take_nil] at hne
      exact hne rfl

theorem Lined.mem (h : Lined p ls) (hl : l ∈ ls) : l ≠ [] ∧ Single p l := by
  induction ls with
  | nil => cases hl
  | cons m ls ih =>
    rcases List.mem_cons.mp hl with rfl | hl
    · exact ⟨h.1, h.2.1⟩
    · exact ih h.2.2.2 hl

end Shapes

variable [DecidablePred p]

/-- At most `n` elements, up to the first terminator, and what is left. -/
def read : ℕ → List α → List α × List α
  | 0, s => ([], s)
  | _ + 1, [] => ([], [])
  | n + 1, c :: s => if p c then ([c], s) else (c :: (read n s).1, (read n s).2)

/-- Reads to the end; a read takes an element at least. -/
def readLoop (n : ℕ) : ℕ → List α → List (List α)
  | 0, _ => []
  | _ + 1, [] => []
  | k + 1, c :: s => (read p n (c :: s)).1 :: readLoop n k (read p n (c :: s)).2

/-- What the reads of at most `n` elements give. -/
def pieces (n : ℕ) (s : List α) : List (List α) := readLoop p n s.length s

def lines : List α → List (List α)
  | [] => []
  | c :: s =>
    if p c then [c] :: lines s
    else
      match lines s with
      | [] => [[c]]
      | l :: ls => (c :: l) :: ls

instance (s : List α) : Decidable (Single p s) := List.decidableBAll _ _

variable {p} {s t l : List α} {ls : List (List α)} {c : α} {n k : ℕ}

section Reading

theorem read_append (n : ℕ) (s : List α) : (read p n s).1 ++ (read p n s).2 = s := by
  induction n generalizing s with
  | zero => rfl
  | succ n ih =>
    cases s with
    | nil => rfl
    | cons c s =>
      rw [read]
      split_ifs
      · rfl
      · exact congrArg _ (ih s)

theorem length_read (n : ℕ) (s : List α) : (read p n s).1.length ≤ n := by
  induction n generalizing s with
  | zero => exact le_rfl
  | succ n ih =>
    cases s with
    | nil => exact Nat.zero_le _
    | cons c s =>
      rw [read]
      split_ifs
      · exact Nat.succ_le_succ (Nat.zero_le _)
      · exact Nat.succ_le_succ (ih s)

theorem single_read (n : ℕ) (s : List α) : Single p (read p n s).1 := by
  induction n generalizing s with
  | zero => exact fun x hx => absurd hx List.not_mem_nil
  | succ n ih =>
    cases s with
    | nil => exact fun x hx => absurd hx List.not_mem_nil
    | cons c s =>
      rw [read]
      split_ifs with hc
      · exact fun x hx => absurd hx List.not_mem_nil
      · exact single_cons hc (ih s)

theorem read_shorter (hn : 0 < n) (hs : s ≠ []) : (read p n s).2.length < s.length := by
  obtain ⟨n, rfl⟩ := Nat.exists_eq_succ_of_ne_zero hn.ne'
  obtain ⟨c, s, rfl⟩ := List.exists_cons_of_ne_nil hs
  have hlen := congrArg List.length (read_append (p := p) n s)
  rw [List.length_append] at hlen
  rw [read]
  split_ifs
  · exact Nat.lt_succ_self _
  · simp only [List.length_cons]
    omega

theorem read_ne_nil (hn : 0 < n) (hs : s ≠ []) : (read p n s).1 ≠ [] := by
  intro h
  have happ := read_append (p := p) n s
  have hlt := read_shorter (p := p) hn hs
  rw [h, List.nil_append] at happ
  rw [happ] at hlt
  exact lt_irrefl _ hlt

/-- Of a single line as much is read as there is room for. -/
theorem read_single (h : Single p s) (n : ℕ) : read p n s = (s.take n, s.drop n) := by
  induction n generalizing s with
  | zero => rfl
  | succ n ih =>
    cases s with
    | nil => rfl
    | cons c s =>
      rw [read]
      cases s with
      | nil =>
        split_ifs
        · simp
        · cases n <;> rfl
      | cons d s =>
        rw [if_neg (h c List.mem_cons_self), ih fun x hx => h x (List.mem_cons_of_mem c hx)]
        rfl

/-- What stands behind a terminator is not read with it. -/
theorem read_ends (h : Ends p l) (n : ℕ) (s : List α) :
    read p n (l ++ s) = ((read p n l).1, (read p n l).2 ++ s) ∧
      ((read p n l).2 = [] ∨ Ends p (read p n l).2) := by
  induction n generalizing l with
  | zero => exact ⟨rfl, .inr h⟩
  | succ n ih =>
    cases l with
    | nil =>
      obtain ⟨x, hx, _⟩ := h
      cases hx
    | cons c l =>
      rw [List.cons_append, read, read]
      split_ifs with hc
      · refine ⟨rfl, ?_⟩
        rcases eq_or_ne l [] with rfl | hl
        · exact .inl rfl
        · exact .inr (ends_cons h hl)
      · rcases eq_or_ne l [] with rfl | hl
        · obtain ⟨x, hx, hp⟩ := h
          cases hx
          exact absurd hp hc
        · obtain ⟨hread, hrest⟩ := ih (ends_cons h hl)
          exact ⟨by rw [hread], hrest⟩

end Reading

section Pieces

theorem readLoop_fuel (hn : 0 < n) {j : ℕ} (hk : s.length ≤ k) (hj : s.length ≤ j) :
    readLoop p n k s = readLoop p n j s := by
  induction k generalizing j s with
  | zero =>
    obtain rfl := List.eq_nil_of_length_eq_zero (Nat.le_zero.mp hk)
    cases j <;> rfl
  | succ k ih =>
    cases s with
    | nil => cases j <;> rfl
    | cons c s =>
      have hlt := read_shorter (p := p) hn (List.cons_ne_nil c s)
      obtain ⟨j, rfl⟩ := Nat.exists_eq_succ_of_ne_zero (n := j) (by simp at hj; omega)
      rw [readLoop, readLoop, ih (j := j) (by omega) (by omega)]

theorem pieces_nil : pieces p n [] = [] := rfl

theorem pieces_eq (hn : 0 < n) (hs : s ≠ []) :
    pieces p n s = (read p n s).1 :: pieces p n (read p n s).2 := by
  have hlt := read_shorter (p := p) hn hs
  obtain ⟨c, s, rfl⟩ := List.exists_cons_of_ne_nil hs
  rw [pieces, List.length_cons, readLoop, pieces]
  rw [List.length_cons] at hlt
  exact congrArg _ (readLoop_fuel hn (by omega) le_rfl)

/-- Induction along the reads. -/
theorem pieces_induction (hn : 0 < n) {P : List α → Prop} (nil : P [])
    (step : ∀ s, s ≠ [] → P (read p n s).2 → P s) (s : List α) : P s := by
  induction h : s.length using Nat.strong_induction_on generalizing s with
  | _ m ih =>
    rcases eq_or_ne s [] with rfl | hs
    · exact nil
    · exact step s hs (ih _ (h ▸ read_shorter hn hs) _ rfl)

theorem flatten_pieces (hn : 0 < n) (s : List α) : (pieces p n s).flatten = s := by
  induction s using pieces_induction (p := p) hn with
  | nil => rfl
  | step s hs ih => rw [pieces_eq hn hs, List.flatten_cons, ih, read_append]

/-- A piece is a part of one line. -/
theorem mem_pieces (hn : 0 < n) (h : t ∈ pieces p n s) : t ≠ [] ∧ t.length ≤ n ∧ Single p t := by
  induction s using pieces_induction (p := p) hn with
  | nil => cases h
  | step s hs ih =>
    rw [pieces_eq hn hs, List.mem_cons] at h
    rcases h with rfl | h
    · exact ⟨read_ne_nil hn hs, length_read n s, single_read n s⟩
    · exact ih h

theorem pieces_single (hn : 0 < n) (hs : s ≠ []) (h : Single p s) :
    pieces p n s = s.take n :: pieces p n (s.drop n) := by
  rw [pieces_eq hn hs, read_single h]

theorem pieces_short (hs : s ≠ []) (hlen : s.length ≤ n) (h : Single p s) : pieces p n s = [s] := by
  have hpos := List.length_pos_of_ne_nil hs
  rw [pieces_single (by omega) hs h, List.take_of_length_le hlen, List.drop_of_length_le hlen,
    pieces_nil]

theorem pieces_append (hn : 0 < n) (h : Ends p l) (s : List α) :
    pieces p n (l ++ s) = pieces p n l ++ pieces p n s := by
  induction l using pieces_induction (p := p) hn with
  | nil =>
    obtain ⟨x, hx, _⟩ := h
    cases hx
  | step l hl ih =>
    obtain ⟨hread, hrest⟩ := read_ends h n s
    rw [pieces_eq hn (List.append_ne_nil_of_left_ne_nil hl s), hread, pieces_eq hn hl]
    rcases hrest with hnil | hends
    · rw [hnil, List.nil_append, pieces_nil, List.singleton_append]
    · rw [ih hends, List.cons_append]

/-- The lines of a text are read one after the other. -/
theorem pieces_lined (hn : 0 < n) (h : Lined p ls) : pieces p n ls.flatten = ls.flatMap (pieces p n) := by
  induction ls with
  | nil => rfl
  | cons l ls ih =>
    obtain ⟨hl, -, hends, hls⟩ := h
    rw [List.flatten_cons, List.flatMap_cons]
    rcases eq_or_ne ls [] with rfl | hne
    · simp
    · rw [pieces_append hn (hends hne), ih hls]

end Pieces

section Splitting

theorem flatten_lines (s : List α) : (lines p s).flatten = s := by
  induction s with
  | nil => rfl
  | cons c s ih =>
    rw [lines]
    split_ifs
    · rw [List.flatten_cons, ih]
      rfl
    · split
      next h =>
        rw [h] at ih
        rw [← ih]
        rfl
      next l ls h =>
        rw [h] at ih
        rw [List.flatten_cons, List.cons_append, ← List.flatten_cons, ih]

theorem lined_lines (s : List α) : Lined p (lines p s) := by
  induction s with
  | nil => trivial
  | cons c s ih =>
    have hsingle : Single p [c] := fun x hx => absurd hx List.not_mem_nil
    rw [lines]
    split_ifs with hc
    · exact ⟨List.cons_ne_nil c [], hsingle, fun _ => ⟨c, rfl, hc⟩, ih⟩
    · split
      next => exact ⟨List.cons_ne_nil c [], hsingle, fun h => absurd rfl h, trivial⟩
      next l ls h =>
        rw [h] at ih
        obtain ⟨hl, hone, hends, hls⟩ := ih
        refine ⟨List.cons_ne_nil c l, single_cons hc hone, fun hne => ?_, hls⟩
        obtain ⟨x, hx, hp⟩ := hends hne
        obtain ⟨d, t, rfl⟩ := List.exists_cons_of_ne_nil hl
        exact ⟨x, by rwa [List.getLast?_cons_cons], hp⟩

theorem lines_append (h : Ends p l) (hone : Single p l) (s : List α) :
    lines p (l ++ s) = l :: lines p s := by
  induction l with
  | nil =>
    obtain ⟨x, hx, _⟩ := h
    cases hx
  | cons c l ih =>
    rw [List.cons_append, lines]
    cases l with
    | nil =>
      obtain ⟨x, hx, hp⟩ := h
      obtain rfl : c = x := Option.some_inj.mp hx
      rw [if_pos hp]
      rfl
    | cons d l =>
      have hrest := ih (ends_cons h (List.cons_ne_nil d l)) fun x hx =>
        hone x (List.mem_cons_of_mem c hx)
      rw [if_neg (hone c List.mem_cons_self), hrest]

theorem lines_single (hl : l ≠ []) (hone : Single p l) : lines p l = [l] := by
  induction l with
  | nil => exact absurd rfl hl
  | cons c l ih =>
    rw [lines]
    cases l with
    | nil => split_ifs <;> rfl
    | cons d l =>
      have hrest := ih (List.cons_ne_nil d l) fun x hx => hone x (List.mem_cons_of_mem c hx)
      rw [if_neg (hone c List.mem_cons_self), hrest]

/-- A text has its lines in one way. -/
theorem lines_flatten (h : Lined p ls) : lines p ls.flatten = ls := by
  induction ls with
  | nil => rfl
  | cons l ls ih =>
    obtain ⟨hl, hone, hends, hls⟩ := h
    rw [List.flatten_cons]
    rcases eq_or_ne ls [] with rfl | hne
    · rw [List.flatten_nil, List.append_nil, lines_single hl hone]
    · rw [lines_append (hends hne) hone, ih hls]

end Splitting

end Lines
