import Mathlib.Logic.Function.Basic

/-! # Cells under locks

What a cache with a lock on every entry is for. A process takes a cell and learns its value, may
change the value while it has the cell, and gives the cell back. -/
namespace LockedCells

variable {P K V : Type*} [DecidableEq K]

inductive Label (P K V : Type*) where
  | acquire (p : P) (k : K) (v : V)
  | write (p : P) (k : K) (v : V)
  | release (p : P) (k : K)

structure Store (P K V : Type*) where
  value : K → V
  holder : K → Option P

inductive Step : Store P K V → Label P K V → Store P K V → Prop where
  | acquire (a : Store P K V) (p : P) (k : K) (h : a.holder k = none) :
    Step a (.acquire p k (a.value k)) { a with holder := Function.update a.holder k (some p) }
  | write (a : Store P K V) (p : P) (k : K) (v : V) (h : a.holder k = some p) :
    Step a (.write p k v) { a with value := Function.update a.value k v }
  | release (a : Store P K V) (p : P) (k : K) (h : a.holder k = some p) :
    Step a (.release p k) { a with holder := Function.update a.holder k none }

inductive Steps : Store P K V → List (Label P K V) → Store P K V → Prop where
  | nil (a : Store P K V) : Steps a [] a
  | cons {a b c : Store P K V} {l : Label P K V} {ls : List (Label P K V)} :
    Step a l b → Steps b ls c → Steps a (l :: ls) c

def overwrite (k : K) (v : V) : Label P K V → V
  | .write _ k' v' => if k' = k then v' else v
  | _ => v

def hand (k : K) (q : Option P) : Label P K V → Option P
  | .acquire p k' _ => if k' = k then some p else q
  | .release _ k' => if k' = k then none else q
  | .write _ _ _ => q

/-- The value last written to the cell. -/
def latest (k : K) (v₀ : V) (ls : List (Label P K V)) : V := ls.foldl (overwrite k) v₀

/-- Who has the cell after the labels. -/
def keeper (k : K) (ls : List (Label P K V)) : Option P := ls.foldl (hand k) none

section Runs

variable {a b c : Store P K V} {l : Label P K V} {ls ls' : List (Label P K V)}
variable {p : P} {k : K} {v : V}

theorem Steps.single (h : Step a l b) : Steps a [l] b := .cons h (.nil b)

theorem Steps.append (h : Steps a ls b) (k : Steps b ls' c) : Steps a (ls ++ ls') c := by
  induction h with
  | nil => exact k
  | cons h _ ih => exact .cons h (ih k)

theorem Steps.split (h : Steps a (ls ++ ls') c) : ∃ b, Steps a ls b ∧ Steps b ls' c := by
  induction ls generalizing a with
  | nil => exact ⟨a, .nil a, h⟩
  | cons l ls ih =>
    cases h with
    | cons hl h =>
      obtain ⟨b, hb, hc⟩ := ih h
      exact ⟨b, .cons hl hb, hc⟩

theorem Step.value_eq (h : Step a l b) : b.value k = overwrite k (a.value k) l := by
  cases h with
  | acquire p k' => rfl
  | write p k' v => simp only [overwrite, Function.update_apply, eq_comm]
  | release p k' => rfl

theorem Step.holder_eq (h : Step a l b) : b.holder k = hand k (a.holder k) l := by
  cases h with
  | acquire p k' => simp only [hand, Function.update_apply, eq_comm]
  | write p k' v => rfl
  | release p k' => simp only [hand, Function.update_apply, eq_comm]

theorem Steps.value_eq (h : Steps a ls b) : b.value k = latest k (a.value k) ls := by
  induction h with
  | nil => rfl
  | cons hl _ ih => rw [ih, latest, latest, List.foldl_cons, hl.value_eq]

theorem Steps.foldl_hand (h : Steps a ls b) : b.holder k = ls.foldl (hand k) (a.holder k) := by
  induction h with
  | nil => rfl
  | cons hl _ ih => rw [ih, List.foldl_cons, hl.holder_eq]

theorem Steps.holder_eq (h : Steps a ls b) (hfree : a.holder k = none) :
    b.holder k = keeper k ls := by rw [keeper, ← hfree, h.foldl_hand]

/-- Whoever takes a cell finds it free, with the value that was last written to it. -/
theorem Steps.acquire_spec (h : Steps a (ls ++ .acquire p k v :: ls') b)
    (hfree : a.holder k = none) : keeper k ls = none ∧ v = latest k (a.value k) ls := by
  obtain ⟨c, hc, hb⟩ := h.split
  cases hb with
  | cons hl _ =>
    cases hl with
    | acquire _ _ hk => exact ⟨hc.holder_eq hfree ▸ hk, hc.value_eq⟩

theorem Steps.write_spec (h : Steps a (ls ++ .write p k v :: ls') b)
    (hfree : a.holder k = none) : keeper k ls = some p := by
  obtain ⟨c, hc, hb⟩ := h.split
  cases hb with
  | cons hl _ =>
    cases hl with
    | write _ _ _ hk => exact hc.holder_eq hfree ▸ hk

end Runs

end LockedCells
