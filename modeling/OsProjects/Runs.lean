import Mathlib.Data.Option.Basic

/-! # Runs of a partial step function

A machine is a step function that may refuse an event. `Along` holds a condition at every
step of a run; a condition that makes each step keep an invariant makes the run keep it.
-/
namespace Runs

variable {S E : Type*} (next : S → E → Option S)

def run (s : S) : List E → Option S
  | [] => some s
  | e :: es => (next s e).bind fun s => run s es

/-- `P` holds of every state of the run and the event that comes next there. -/
def Along (P : S → E → Prop) (s : S) : List E → Prop
  | [] => True
  | e :: es => P s e ∧ ∀ s', next s e = some s' → Along P s' es

variable {next} {P Q : S → E → Prop} {Inv : S → Prop} {s s' : S} {es : List E}

theorem run_invariant (step : ∀ s e s', Inv s → P s e → next s e = some s' → Inv s')
    (h : Inv s) (ha : Along next P s es) (hr : run next s es = some s') : Inv s' := by
  induction es generalizing s with
  | nil =>
    obtain rfl := Option.some.inj hr
    exact h
  | cons e es ih =>
    obtain ⟨u, hu, hrest⟩ := Option.bind_eq_some_iff.mp hr
    exact ih (step s e u h ha.1 hu) (ha.2 u hu) hrest

theorem along_of_forall (h : ∀ s e, P s e) (s : S) (es : List E) : Along next P s es := by
  induction es generalizing s with
  | nil => trivial
  | cons e es ih => exact ⟨h s e, fun s' _ => ih s'⟩

theorem Along.mono (h : Along next P s es) (hpq : ∀ s e, P s e → Q s e) : Along next Q s es := by
  induction es generalizing s with
  | nil => trivial
  | cons e es ih => exact ⟨hpq s e h.1, fun s' hs => ih (h.2 s' hs)⟩

theorem run_append (s : S) (es es' : List E) :
    run next s (es ++ es') = (run next s es).bind fun s => run next s es' := by
  induction es generalizing s with
  | nil => rfl
  | cons e es ih =>
    rw [List.cons_append, run, run, Option.bind_assoc]
    exact Option.bind_congr fun u _ => ih u

theorem run_append_some {es' : List E} (hr : run next s es = some s') :
    run next s (es ++ es') = run next s' es' := by
  rw [run_append, hr, Option.bind_some]

theorem run_concat {e : E} {t : S} (hr : run next s es = some s') (hn : next s' e = some t) :
    run next s (es ++ [e]) = some t := by
  rw [run_append, hr, Option.bind_some, run, hn, Option.bind_some, run]

/-- Two conditions that agree wherever the invariant holds agree along every run. -/
theorem along_iff (agree : ∀ s e, Inv s → (P s e ↔ Q s e))
    (step : ∀ s e s', Inv s → Q s e → next s e = some s' → Inv s') (h : Inv s) :
    Along next P s es ↔ Along next Q s es := by
  induction es generalizing s with
  | nil => exact Iff.rfl
  | cons e es ih =>
    constructor
    · rintro ⟨hp, hrest⟩
      have hq := (agree s e h).mp hp
      exact ⟨hq, fun s' hs => (ih (step s e s' h hq hs)).mp (hrest s' hs)⟩
    · rintro ⟨hq, hrest⟩
      exact ⟨(agree s e h).mpr hq, fun s' hs => (ih (step s e s' h hq hs)).mpr (hrest s' hs)⟩

/-- A machine that refuses nothing. -/
theorem along_total {f : S → E → S} {e : E} : Along (fun s e => some (f s e)) P s (e :: es) ↔
    P s e ∧ Along (fun s e => some (f s e)) P (f s e) es := by
  refine and_congr_right fun _ => ⟨fun h => h _ rfl, ?_⟩
  rintro h s' hs
  obtain rfl := Option.some.inj hs
  exact h

/-- A condition under which every step keeps the invariant and has `Q` gives `Q` along the run. -/
theorem along_of_along (step : ∀ s e, Inv s → P s e → Q s e ∧ ∀ s', next s e = some s' → Inv s')
    (h : Inv s) (ha : Along next P s es) : Along next Q s es := by
  induction es generalizing s with
  | nil => trivial
  | cons e es ih =>
    obtain ⟨hq, hinv⟩ := step s e h ha.1
    exact ⟨hq, fun s' hn => ih (hinv s' hn) (ha.2 s' hn)⟩

theorem Along.at {e : E} {rest : List E} (h : Along next P s (es ++ e :: rest))
    (hr : run next s es = some s') : P s' e := by
  induction es generalizing s with
  | nil =>
    obtain rfl := Option.some.inj hr
    exact h.1
  | cons e es ih =>
    obtain ⟨u, hu, hrest⟩ := Option.bind_eq_some_iff.mp hr
    exact ih (h.2 u hu) hrest

theorem Along.append {es' : List E} (h : Along next P s (es ++ es'))
    (hr : run next s es = some s') : Along next P s' es' := by
  induction es generalizing s with
  | nil =>
    obtain rfl := Option.some.inj hr
    exact h
  | cons e es ih =>
    obtain ⟨u, hu, hrest⟩ := Option.bind_eq_some_iff.mp hr
    exact ih (h.2 u hu) hrest

theorem Along.left {es' : List E} (h : Along next P s (es ++ es')) : Along next P s es := by
  induction es generalizing s with
  | nil => trivial
  | cons e es ih => exact ⟨h.1, fun t ht => ih (h.2 t ht)⟩

theorem bind_eq_ok {F A B : Type} {x : Except F A} {f : A → Except F B} {b : B} :
    x >>= f = .ok b ↔ ∃ a, x = .ok a ∧ f a = .ok b := by
  cases x with
  | error e =>
    constructor
    · exact fun h => nomatch h
    · rintro ⟨a, ha, -⟩
      cases ha
  | ok a =>
    constructor
    · exact fun h => ⟨a, rfl, h⟩
    · rintro ⟨_, ⟨⟩, h⟩
      exact h

theorem exists_ok_of_any {F A : Type} {x : Except F A} {P : A → Bool}
    (h : x.toOption.any P = true) : ∃ a, x = .ok a ∧ P a = true := by
  cases x with
  | error e => cases h
  | ok a => exact ⟨a, rfl, h⟩

theorem rel_refl {A : Type*} {R : A → A → Prop} (hr : ∀ a, R a a) (x : Option A) :
    Option.Rel R x x := by
  cases x with
  | none => exact .none
  | some a => exact .some (hr a)

theorem rel_map {A B : Type*} {R : A → A → Prop} {Q : B → B → Prop} {f g : A → B} {x y : Option A}
    (h : Option.Rel R x y) (hf : ∀ a b, R a b → Q (f a) (g b)) :
    Option.Rel Q (x.map f) (y.map g) := by
  cases h with
  | none => exact .none
  | some h => exact .some (hf _ _ h)

/-- A relation that every step keeps holds at the ends of two runs over the same events, and
neither run stops alone. -/
theorem run_rel {R : S → S → Prop}
    (step : ∀ s t e, R s t → Option.Rel R (next s e) (next t e)) {s t : S} (h : R s t)
    (es : List E) : Option.Rel R (run next s es) (run next t es) := by
  induction es generalizing s t with
  | nil => exact .some h
  | cons e es ih =>
    have hstep := step s t e h
    rw [run, run]
    generalize next s e = a at hstep
    generalize next t e = b at hstep
    cases hstep with
    | some h => exact ih h
    | none => exact .none

instance decidableAlong [∀ s e, Decidable (P s e)] :
    (s : S) → (es : List E) → Decidable (Along next P s es)
  | _, [] => inferInstanceAs (Decidable True)
  | s, e :: es =>
    match hn : next s e with
    | none => decidable_of_iff (P s e) (by simp [Along, hn])
    | some u =>
      have := decidableAlong u es
      decidable_of_iff (P s e ∧ Along next P u es) (by simp [Along, hn])

end Runs
