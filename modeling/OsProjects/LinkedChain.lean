import Mathlib.Data.List.Sort
import Mathlib.Logic.Function.Basic

/-! # Singly linked chains in a heap

A chain is read off a `next` map. The cells are arbitrary; nothing here depends on
what a cell stores, only on which cell its link names.
-/
namespace LinkedChain

variable {α : Type*}

/-- Following `next` from `p` visits exactly the listed cells and then stops. -/
def Chain (next : α → Option α) : Option α → List α → Prop
  | p, [] => p = none
  | p, a :: l => p = some a ∧ Chain next (next a) l

@[simp] theorem chain_nil (next : α → Option α) (p : Option α) :
    Chain next p [] ↔ p = none := Iff.rfl

@[simp] theorem chain_cons (next : α → Option α) (p : Option α) (a : α) (l : List α) :
    Chain next p (a :: l) ↔ p = some a ∧ Chain next (next a) l := Iff.rfl

theorem Chain.unique {next : α → Option α} {l m : List α} {p : Option α}
    (h : Chain next p l) (k : Chain next p m) : l = m := by
  induction l generalizing p m with
  | nil =>
    cases m with
    | nil => rfl
    | cons b m =>
      rw [chain_nil] at h
      simp [h] at k
  | cons a l ih =>
    cases m with
    | nil =>
      rw [chain_nil] at k
      simp [k] at h
    | cons b m =>
      obtain ⟨rfl, hl⟩ := h
      obtain ⟨hab, hm⟩ := k
      obtain rfl := Option.some.inj hab
      rw [ih hl hm]

theorem Chain.congr {next next' : α → Option α} {l : List α} {p : Option α}
    (h : Chain next p l) (agree : ∀ a ∈ l, next' a = next a) : Chain next' p l := by
  induction l generalizing p with
  | nil => exact h
  | cons a l ih =>
    refine ⟨h.1, ?_⟩
    rw [agree a List.mem_cons_self]
    exact ih h.2 fun b hb => agree b (List.mem_cons_of_mem a hb)

variable [DecidableEq α]

/-- Splice the cell `p` in behind the cell `c`: first p's link, then c's. -/
def linkAfter (next : α → Option α) (c p : α) : α → Option α :=
  Function.update (Function.update next p (next c)) c (some p)

theorem linkAfter_of_ne {next : α → Option α} {c p a : α} (hc : a ≠ c) (hp : a ≠ p) :
    linkAfter next c p a = next a := by
  simp [linkAfter, hc, hp]

theorem linkAfter_left (next : α → Option α) (c p : α) :
    linkAfter next c p c = some p := by
  simp [linkAfter]

theorem linkAfter_right {next : α → Option α} {c p : α} (h : p ≠ c) :
    linkAfter next c p p = next c := by
  simp [linkAfter, h]

/-- Splicing `p` in directly behind `c` puts it in front of everything c led to. -/
theorem Chain.link_here {next : α → Option α} {c p : α} {l : List α}
    (h : Chain next (next c) l) (hc : c ∉ l) (hp : p ∉ c :: l) :
    Chain (linkAfter next c p) (linkAfter next c p c) (p :: l) := by
  simp only [List.mem_cons, not_or] at hp
  refine ⟨linkAfter_left next c p, ?_⟩
  rw [linkAfter_right hp.1]
  apply h.congr
  intro a ha
  exact linkAfter_of_ne (fun e => hc (e ▸ ha)) (fun e => hp.2 (e ▸ ha))

end LinkedChain
