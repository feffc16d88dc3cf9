import Mathlib.Logic.Function.Basic

/-! # Frames mapped by several owners

Every owner has a table from pages to frames, and a frame is either free or allocated. The
tables are sound when no present entry leads to a free frame and a frame that several
entries share sits at the same page everywhere. The frame `null` is never allocated.
-/
namespace FrameLedger

variable {ι P F : Type*}

abbrev Tables (ι P F : Type*) := ι → P → Option F

structure Sound (null : F) (free : F → Bool) (T : Tables ι P F) : Prop where
  held : ∀ {i a f}, T i a = some f → f ≠ null → free f = false
  aligned : ∀ {i j a b f}, T i a = some f → T j b = some f → f ≠ null → a = b

section Frames

variable {null : F} {free : F → Bool} {T T' : Tables ι P F} {i : ι} {a : P} {f : F}

theorem Sound.restrict (h : Sound null free T) (hT : ∀ i a, T' i a = T i a ∨ T' i a = none) :
    Sound null free T' := by
  have hsub : ∀ {i a f}, T' i a = some f → T i a = some f := by
    intro i a f hf
    rcases hT i a with he | he
    · rw [← he, hf]
    · rw [he] at hf
      cases hf
  exact ⟨fun hf => h.held (hsub hf), fun hf hg => h.aligned (hsub hf) (hsub hg)⟩

theorem Sound.unmapped (h : Sound null free T) (hf : free f = true) (hn : f ≠ null) :
    T i a ≠ some f := by
  intro he
  rw [h.held he hn] at hf
  cases hf

end Frames

section Entries

variable [DecidableEq ι] [DecidableEq P]

def setEntry (T : Tables ι P F) (i : ι) (a : P) (e : Option F) : Tables ι P F :=
  Function.update T i (Function.update (T i) a e)

variable {null : F} {free : F → Bool} {T : Tables ι P F} {i j : ι} {a b : P} {f : F}

theorem setEntry_self (e : Option F) : setEntry T i a e i a = e := by simp [setEntry]

theorem setEntry_of_ne (e : Option F) (h : ¬ (j = i ∧ b = a)) : setEntry T i a e j b = T j b := by
  unfold setEntry
  by_cases hj : j = i
  · subst j
    rw [Function.update_self, Function.update_of_ne fun hb => h ⟨rfl, hb⟩]
  · rw [Function.update_of_ne hj]

/-- An entry of the changed table is the new one or an old one. -/
theorem setEntry_some {e : Option F} (h : setEntry T i a e j b = some f) :
    (j = i ∧ b = a ∧ e = some f) ∨ T j b = some f := by
  by_cases hjb : j = i ∧ b = a
  · obtain ⟨rfl, rfl⟩ := hjb
    rw [setEntry_self] at h
    exact Or.inl ⟨rfl, rfl, h⟩
  · rw [setEntry_of_ne e hjb] at h
    exact Or.inr h

/-- A frame just taken from the free ones is mapped for the first time. -/
theorem Sound.mapFresh [DecidableEq F] (h : Sound null free T) (hf : free f = true)
    (hn : f ≠ null) :
    Sound null (Function.update free f false) (setEntry T i a (some f)) := by
  have hnew : ∀ j b, T j b ≠ some f := fun _ _ => h.unmapped hf hn
  constructor
  · intro j b g hg hgn
    rcases eq_or_ne g f with rfl | hne
    · exact Function.update_self ..
    · rw [Function.update_of_ne hne]
      rcases setEntry_some hg with ⟨_, _, he⟩ | hg
      · exact absurd (Option.some.inj he).symm hne
      · exact h.held hg hgn
  · intro j j' b b' g hg hg' hgn
    rcases setEntry_some hg with ⟨_, hb, he⟩ | hT <;>
      rcases setEntry_some hg' with ⟨_, hb', he'⟩ | hT'
    · exact hb.trans hb'.symm
    · cases he
      exact absurd hT' (hnew _ _)
    · cases he'
      exact absurd hT (hnew _ _)
    · exact h.aligned hT hT' hgn

/-- A second entry for a frame that is mapped at the same page already. -/
theorem Sound.mapShared (h : Sound null free T) (hf : f ≠ null → T j a = some f) :
    Sound null free (setEntry T i a (some f)) := by
  have hold : ∀ {k b g}, setEntry T i a (some f) k b = some g → g ≠ null →
      ∃ k', T k' b = some g := by
    intro k b g hg hgn
    rcases setEntry_some hg with ⟨_, rfl, he⟩ | hg
    · cases he
      exact ⟨j, hf hgn⟩
    · exact ⟨k, hg⟩
  constructor
  · intro k b g hg hgn
    obtain ⟨k', hk'⟩ := hold hg hgn
    exact h.held hk' hgn
  · intro k k' b b' g hg hg' hgn
    obtain ⟨_, ho⟩ := hold hg hgn
    obtain ⟨_, ho'⟩ := hold hg' hgn
    exact h.aligned ho ho' hgn

/-- Clearing an entry and freeing its frame, which no other owner maps at that page. -/
theorem Sound.release [DecidableEq F] (h : Sound null free T) (hf : T i a = some f) (hn : f ≠ null)
    (hx : ∀ k, k ≠ i → T k a ≠ some f) :
    Sound null (Function.update free f true) (setEntry T i a none) := by
  refine ⟨fun {j b g} hg hgn => ?_, (h.restrict fun j b => ?_).aligned⟩
  · rcases setEntry_some hg with ⟨_, _, he⟩ | hgT
    · cases he
    · rcases eq_or_ne g f with rfl | hne
      · obtain rfl := h.aligned hgT hf hn
        by_cases hj : j = i
        · subst j
          rw [setEntry_self] at hg
          cases hg
        · exact absurd hgT (hx j hj)
      · rw [Function.update_of_ne hne]
        exact h.held hgT hgn
  · by_cases hjb : j = i ∧ b = a
    · obtain ⟨rfl, rfl⟩ := hjb
      exact Or.inr (setEntry_self none)
    · exact Or.inl (setEntry_of_ne none hjb)

end Entries

end FrameLedger
