import OsProjects.FrameLedger

/-! # Owners that never share a frame

Every owner has a table from pages to frames and a view of what its pages hold. The owners
are isolated when no frame is mapped twice, every mapped frame holds what its owner should
see there, and a live owner should see the blank contents wherever it has no page yet.
-/
namespace PrivatePages

open FrameLedger

variable {ι P F O B : Type*}

/-- `mem` gives the contents of each frame by offset; the frame `null` is never mapped. -/
structure Isolated (null : F) (blank : B) (live : ι → Prop) (free : F → Bool) (T : Tables ι P F)
    (mem : F → O → B) (view : ι → P → O → B) : Prop where
  held : ∀ {i a f}, T i a = some f → f ≠ null ∧ free f = false
  unique : ∀ {i j a b f}, T i a = some f → T j b = some f → i = j ∧ a = b
  shown : ∀ {i a f}, T i a = some f → ∀ o, mem f o = view i a o
  lazy : ∀ {i a}, live i → T i a = none → ∀ o, view i a o = blank

/-- The view in which page `a` of owner `i` holds `bytes`. -/
def setView [DecidableEq ι] [DecidableEq P] (view : ι → P → O → B) (i : ι) (a : P)
    (bytes : O → B) : ι → P → O → B :=
  Function.update view i (Function.update (view i) a bytes)

section Views

variable [DecidableEq ι] [DecidableEq P] {view : ι → P → O → B} {i j : ι} {a b : P}
  {bytes : O → B}

theorem setView_self : setView view i a bytes i a = bytes := by simp [setView]

theorem setView_of_ne (h : ¬ (j = i ∧ b = a)) : setView view i a bytes j b = view j b := by
  unfold setView
  by_cases hj : j = i
  · subst j
    rw [Function.update_self, Function.update_of_ne fun hb => h ⟨rfl, hb⟩]
  · rw [Function.update_of_ne hj]

end Views

variable {null : F} {blank : B} {live live' : ι → Prop} {free free' : F → Bool} {T T' : Tables ι P F}
  {mem mem' : F → O → B} {view view' : ι → P → O → B} {i j : ι} {a : P} {f : F}

/-- Contents of a free frame do not matter. -/
theorem Isolated.scratch (h : Isolated null blank live free T mem view) (hf : free f = true)
    (hmem : ∀ g, g ≠ f → mem' g = mem g) : Isolated null blank live free T mem' view := by
  refine ⟨h.held, h.unique, fun {i a g} hg o => ?_, h.lazy⟩
  have hne : g ≠ f := by
    rintro rfl
    rw [(h.held hg).2] at hf
    cases hf
  rw [hmem g hne]
  exact h.shown hg o

/-- An owner that is no longer live may lose pages and sees nothing any more. -/
theorem Isolated.restrict (h : Isolated null blank live free T mem view)
    (hlive : ∀ i, live' i → live i) (hT : ∀ i a, T' i a = T i a ∨ T' i a = none)
    (hkept : ∀ i, live' i → T' i = T i) : Isolated null blank live' free T' mem view := by
  have hsub : ∀ {i a f}, T' i a = some f → T i a = some f := by
    intro i a f hf
    rcases hT i a with he | he
    · rw [← he, hf]
    · rw [he] at hf
      cases hf
  refine ⟨fun hf => h.held (hsub hf), fun hf hg => h.unique (hsub hf) (hsub hg),
    fun hf => h.shown (hsub hf), fun {i a} hi hn => ?_⟩
  rw [hkept i hi] at hn
  exact h.lazy (hlive i hi) hn

section Changes

variable [DecidableEq ι] [DecidableEq P]

/-- A fresh frame with `bytes` in it. -/
theorem Isolated.map [DecidableEq F] (h : Isolated null blank live free T mem view)
    (hf : free f = true) (hn : f ≠ null) {bytes : O → B} (hnew : mem' f = bytes)
    (hmem : ∀ g, g ≠ f → mem' g = mem g) :
    Isolated null blank live (Function.update free f false) (setEntry T i a (some f)) mem'
      (setView view i a bytes) := by
  have hfresh : ∀ j b, T j b ≠ some f := by
    intro j b hjb
    rw [(h.held hjb).2] at hf
    cases hf
  refine ⟨fun {j b g} hg => ?_, fun {j k b c g} hg hg' => ?_, fun {j b g} hg o => ?_,
    fun {j b} hj hn o => ?_⟩
  · rcases eq_or_ne g f with rfl | hne
    · exact ⟨hn, Function.update_self ..⟩
    · rw [Function.update_of_ne hne]
      rcases setEntry_some hg with ⟨-, -, he⟩ | hg
      · exact absurd (Option.some.inj he).symm hne
      · exact h.held hg
  · rcases setEntry_some hg with ⟨rfl, rfl, he⟩ | hT <;>
      rcases setEntry_some hg' with ⟨rfl, rfl, he'⟩ | hT'
    · exact ⟨rfl, rfl⟩
    · cases he
      exact absurd hT' (hfresh _ _)
    · cases he'
      exact absurd hT (hfresh _ _)
    · exact h.unique hT hT'
  · by_cases hjb : j = i ∧ b = a
    · obtain ⟨rfl, rfl⟩ := hjb
      rw [setEntry_self] at hg
      obtain rfl := Option.some.inj hg
      rw [hnew, setView_self]
    · rw [setEntry_of_ne _ hjb] at hg
      have hne : g ≠ f := fun he => hfresh j b (he ▸ hg)
      rw [hmem g hne, setView_of_ne hjb]
      exact h.shown hg o
  · by_cases hjb : j = i ∧ b = a
    · obtain ⟨rfl, rfl⟩ := hjb
      rw [setEntry_self] at hn
      cases hn
    · rw [setEntry_of_ne _ hjb] at hn
      rw [setView_of_ne hjb]
      exact h.lazy hj hn o

/-- New contents for a mapped frame are seen by its owner alone. -/
theorem Isolated.write (h : Isolated null blank live free T mem view) (hf : T i a = some f)
    {bytes : O → B} (hnew : mem' f = bytes) (hmem : ∀ g, g ≠ f → mem' g = mem g) :
    Isolated null blank live free T mem' (setView view i a bytes) := by
  refine ⟨h.held, h.unique, fun {j b g} hg o => ?_, fun {j b} hj hn o => ?_⟩
  · by_cases hjb : j = i ∧ b = a
    · obtain ⟨rfl, rfl⟩ := hjb
      obtain rfl := Option.some.inj (hg.symm.trans hf)
      rw [hnew, setView_self]
    · have hne : g ≠ f := by
        rintro rfl
        exact hjb (h.unique hg hf)
      rw [hmem g hne, setView_of_ne hjb]
      exact h.shown hg o
  · have hjb : ¬ (j = i ∧ b = a) := by
      rintro ⟨rfl, rfl⟩
      rw [hf] at hn
      cases hn
    rw [setView_of_ne hjb]
    exact h.lazy hj hn o

/-- An owner that is no longer live gives up a page together with its frame. -/
theorem Isolated.release [DecidableEq F] (h : Isolated null blank live free T mem view)
    (hf : T i a = some f) (hi : ¬ live i) :
    Isolated null blank live (Function.update free f true) (setEntry T i a none) mem view := by
  have hsub : ∀ {j b g}, setEntry T i a none j b = some g → T j b = some g ∧ g ≠ f := by
    intro j b g hg
    by_cases hjb : j = i ∧ b = a
    · obtain ⟨rfl, rfl⟩ := hjb
      rw [setEntry_self] at hg
      cases hg
    · rw [setEntry_of_ne _ hjb] at hg
      refine ⟨hg, ?_⟩
      rintro rfl
      exact hjb (h.unique hg hf)
  refine ⟨fun hg => ?_, fun hg hg' => h.unique (hsub hg).1 (hsub hg').1,
    fun hg => h.shown (hsub hg).1, fun {j b} hj hn => ?_⟩
  · rw [Function.update_of_ne (hsub hg).2]
    exact h.held (hsub hg).1
  · have hjb : ¬ (j = i ∧ b = a) := by
      rintro ⟨rfl, -⟩
      exact hi hj
    rw [setEntry_of_ne _ hjb] at hn
    exact h.lazy hj hn

end Changes

/-- A new owner starts without pages and sees blank contents everywhere. -/
theorem Isolated.join [DecidableEq ι] (h : Isolated null blank live free T mem view)
    (hj : ∀ a, T j a = none) :
    Isolated null blank (fun i => live i ∨ i = j) free T mem
      (Function.update view j fun _ _ => blank) := by
  refine ⟨h.held, h.unique, fun {i a f} hf o => ?_, fun {i a} hi hn o => ?_⟩
  · have hne : i ≠ j := by
      rintro rfl
      rw [hj a] at hf
      cases hf
    rw [Function.update_of_ne hne]
    exact h.shown hf o
  · rcases eq_or_ne i j with rfl | hne
    · rw [Function.update_self]
    · rw [Function.update_of_ne hne]
      exact h.lazy (hi.resolve_right hne) hn o

end PrivatePages
