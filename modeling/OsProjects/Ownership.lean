import Mathlib.Data.Finset.Card
import Mathlib.Logic.Function.Basic

/-! # Resources with one owner each

Places hold at most one resource, and a finite set of resources is in use. The books are in
order when every resource in use is held by exactly one place and nothing else is held.
-/
namespace Ownership

variable {α β : Type*}

structure Owned (holder : α → Option β) (used : Finset β) : Prop where
  sound : ∀ {a b}, holder a = some b → b ∈ used
  unique : ∀ {a a' b}, holder a = some b → holder a' = some b → a = a'
  complete : ∀ {b}, b ∈ used → ∃ a, holder a = some b

theorem Owned.empty : Owned (fun _ : α => (none : Option β)) ∅ := by
  constructor
  · intro a b h
    cases h
  · intro a a' b h
    cases h
  · intro b h
    exact absurd h (Finset.notMem_empty b)

section Changes

variable [DecidableEq α] [DecidableEq β] {holder : α → Option β} {used : Finset β} {a a' : α} {b : β}

theorem Owned.gain (h : Owned holder used) (ha : holder a = none) (hb : b ∉ used) :
    Owned (Function.update holder a (some b)) (insert b used) := by
  constructor
  · intro c d hc
    by_cases hca : c = a
    · rw [hca, Function.update_self] at hc
      cases hc
      exact Finset.mem_insert_self b used
    · rw [Function.update_of_ne hca] at hc
      exact Finset.mem_insert_of_mem (h.sound hc)
  · intro c c' d hc hc'
    rw [Function.update_apply] at hc hc'
    split_ifs at hc hc' with h₁ h₂ h₂
    · rw [h₁, h₂]
    · cases hc
      exact absurd (h.sound hc') hb
    · cases hc'
      exact absurd (h.sound hc) hb
    · exact h.unique hc hc'
  · intro d hd
    rcases Finset.mem_insert.mp hd with rfl | hd
    · exact ⟨a, Function.update_self ..⟩
    · obtain ⟨c, hc⟩ := h.complete hd
      refine ⟨c, ?_⟩
      rwa [Function.update_of_ne]
      rintro rfl
      rw [ha] at hc
      cases hc

theorem Owned.drop (h : Owned holder used) (ha : holder a = some b) :
    Owned (Function.update holder a none) (used.erase b) := by
  have hold : ∀ {c d}, Function.update holder a none c = some d → c ≠ a ∧ holder c = some d := by
    intro c d hc
    by_cases hca : c = a
    · rw [hca, Function.update_self] at hc
      cases hc
    · rw [Function.update_of_ne hca] at hc
      exact ⟨hca, hc⟩
  constructor
  · intro c d hc
    obtain ⟨hca, hc⟩ := hold hc
    refine Finset.mem_erase.mpr ⟨?_, h.sound hc⟩
    rintro rfl
    exact hca (h.unique hc ha)
  · intro c c' d hc hc'
    exact h.unique (hold hc).2 (hold hc').2
  · intro d hd
    obtain ⟨hne, hd⟩ := Finset.mem_erase.mp hd
    obtain ⟨c, hc⟩ := h.complete hd
    refine ⟨c, ?_⟩
    rwa [Function.update_of_ne]
    rintro rfl
    rw [ha] at hc
    exact hne (Option.some.inj hc).symm

theorem Owned.move (h : Owned holder used) (ha : holder a = some b) (ha' : holder a' = none) :
    Owned (Function.update (Function.update holder a none) a' (some b)) used := by
  have hne : a' ≠ a := by
    rintro rfl
    rw [ha] at ha'
    cases ha'
  have hmoved := (h.drop ha).gain (a := a') (b := b) (by rwa [Function.update_of_ne hne])
    (Finset.notMem_erase b used)
  rwa [Finset.insert_erase (h.sound ha)] at hmoved

omit [DecidableEq β] in
/-- A resource that its place lets go of without being put out of use is lost. -/
theorem Owned.orphan (h : Owned holder used) (ha : holder a = some b) :
    ¬ Owned (Function.update holder a none) used := by
  intro h'
  obtain ⟨c, hc⟩ := h'.complete (h.sound ha)
  by_cases hca : c = a
  · rw [hca, Function.update_self] at hc
    cases hc
  · rw [Function.update_of_ne hca] at hc
    exact hca (h.unique hc ha)

omit [DecidableEq α] [DecidableEq β] in
/-- Several places let go at once, and what they held is put out of use. -/
theorem Owned.dropAll {holder' : α → Option β} {used' : Finset β} (gone : α → Prop)
    (h : Owned holder used) (hgone : ∀ a, gone a → holder' a = none)
    (hrest : ∀ a, ¬ gone a → holder' a = holder a)
    (hused : ∀ b, b ∈ used' ↔ b ∈ used ∧ ∀ a, gone a → holder a ≠ some b) :
    Owned holder' used' := by
  have hold : ∀ {a b}, holder' a = some b → ¬ gone a ∧ holder a = some b := by
    intro a b hb
    by_cases ha : gone a
    · rw [hgone a ha] at hb
      cases hb
    · exact ⟨ha, hrest a ha ▸ hb⟩
  constructor
  · intro a b hb
    obtain ⟨ha, hb⟩ := hold hb
    exact (hused b).mpr ⟨h.sound hb, fun a' ha' hb' => ha (h.unique hb' hb ▸ ha')⟩
  · intro a a' b hb hb'
    exact h.unique (hold hb).2 (hold hb').2
  · intro b hb
    obtain ⟨hb, hnone⟩ := (hused b).mp hb
    obtain ⟨a, ha⟩ := h.complete hb
    exact ⟨a, by rwa [hrest a fun hg => hnone a hg ha]⟩

end Changes

section Counting

variable {holder : α → Option β} {used : Finset β}

/-- There are as many resources in use as places that hold one. -/
theorem Owned.card (h : Owned holder used) {places : Finset α}
    (hplaces : ∀ a, (holder a).isSome = true → a ∈ places) :
    used.card = (places.filter fun a => (holder a).isSome).card := by
  symm
  refine Finset.card_bij (fun a ha => (holder a).get (Finset.mem_filter.mp ha).2)
    (fun a _ => h.sound (Option.some_get _).symm) (fun a ha a' ha' he => ?_) fun b hb => ?_
  · refine h.unique (Option.some_get (Finset.mem_filter.mp ha).2).symm ?_
    rw [he]
    exact (Option.some_get (Finset.mem_filter.mp ha').2).symm
  · obtain ⟨a, ha⟩ := h.complete hb
    have hsome : (holder a).isSome = true := by rw [ha, Option.isSome_some]
    exact ⟨a, Finset.mem_filter.mpr ⟨hplaces a hsome, hsome⟩, Option.get_of_eq_some _ ha⟩

end Counting

end Ownership
