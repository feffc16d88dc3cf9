import Mathlib.Data.Option.Basic

/-! # Programs over a machine

A program calls the operations of a machine one after another, and may choose each call by the
results before it. Two machines that answer each operation alike run each program alike.
-/
namespace Programs

variable {O R A B S T : Type}

/-- `fail` is a call that no machine answers. -/
inductive Prog (O R A : Type) where
  | ret (a : A)
  | fail
  | call (o : O) (k : R → Prog O R A)

def Prog.bind : Prog O R A → (A → Prog O R B) → Prog O R B
  | .ret a, f => f a
  | .fail, _ => .fail
  | .call o k, f => .call o fun r => (k r).bind f

instance : Monad (Prog O R) where
  pure := .ret
  bind := .bind

def exec (next : S → O → Option (S × R)) : Prog O R A → S → Option (S × A)
  | .ret a, s => some (s, a)
  | .fail, _ => none
  | .call o k, s => (next s o).bind fun u => exec next (k u.2) u.1

/-- Every operation that the program may call satisfies `P`. -/
def Issues (P : O → Prop) : Prog O R A → Prop
  | .ret _ => True
  | .fail => True
  | .call o k => P o ∧ ∀ r, Issues P (k r)

section Laws

variable {next : S → O → Option (S × R)} {s : S} {p : Prog O R A} {f : A → Prog O R B}
  {P : O → Prop}

@[simp] theorem exec_pure {a : A} : exec next (pure a) s = some (s, a) := rfl

@[simp] theorem exec_fail : exec next (.fail : Prog O R A) s = none := rfl

theorem exec_bind : exec next (p >>= f) s = (exec next p s).bind fun u => exec next (f u.2) u.1 := by
  change exec next (p.bind f) s = _
  induction p generalizing s with
  | ret a => rfl
  | fail => rfl
  | call o k ih =>
    rw [Prog.bind, exec, exec, Option.bind_assoc]
    exact Option.bind_congr fun u _ => ih u.2

@[simp] theorem issues_pure {a : A} : Issues P (pure a : Prog O R A) := trivial

@[simp] theorem issues_fail : Issues P (.fail : Prog O R A) := trivial

theorem issues_bind (hp : Issues P p) (hf : ∀ a, Issues P (f a)) : Issues P (p >>= f) := by
  change Issues P (p.bind f)
  induction p with
  | ret a => exact hf a
  | fail => trivial
  | call o k ih => exact ⟨hp.1, fun r => ih r (hp.2 r)⟩

end Laws

section Simulation

/-- The machines fail together and have the same results, as long as the operations satisfy `P`. -/
structure Lockstep (next : S → O → Option (S × R)) (next' : T → O → Option (T × R))
    (P : O → Prop) (rel : S → T → Prop) : Prop where
  fails : ∀ {s t o}, rel s t → P o → (next s o = none ↔ next' t o = none)
  steps : ∀ {s t o s' r}, rel s t → P o → next s o = some (s', r) →
    ∃ t', next' t o = some (t', r) ∧ rel s' t'

variable {next : S → O → Option (S × R)} {next' : T → O → Option (T × R)} {P : O → Prop}
  {rel : S → T → Prop} {s s' : S} {t : T} {p : Prog O R A} {a : A}

theorem Lockstep.exec_steps (h : Lockstep next next' P rel) (hp : Issues P p) (hrel : rel s t)
    (he : exec next p s = some (s', a)) : ∃ t', exec next' p t = some (t', a) ∧ rel s' t' := by
  induction p generalizing s t with
  | ret b =>
    obtain ⟨rfl, rfl⟩ := Prod.mk.inj (Option.some.inj he)
    exact ⟨t, rfl, hrel⟩
  | fail => cases he
  | call o k ih =>
    obtain ⟨⟨u, r⟩, hn, he⟩ := Option.bind_eq_some_iff.mp he
    obtain ⟨v, hn', hrel'⟩ := h.steps hrel hp.1 hn
    obtain ⟨t', he', hrel''⟩ := ih r (hp.2 r) hrel' he
    exact ⟨t', by rw [exec, hn', Option.bind_some, he'], hrel''⟩

theorem Lockstep.exec_fails (h : Lockstep next next' P rel) (hp : Issues P p) (hrel : rel s t) :
    exec next p s = none ↔ exec next' p t = none := by
  induction p generalizing s t with
  | ret b => simp only [exec, reduceCtorEq]
  | fail => simp only [exec]
  | call o k ih =>
    rw [exec, exec]
    cases hn : next s o with
    | none =>
      rw [(h.fails hrel hp.1).mp hn, Option.bind_none, Option.bind_none]
      exact Iff.intro (fun _ => rfl) fun _ => rfl
    | some u =>
      obtain ⟨v, hn', hrel'⟩ := h.steps hrel hp.1 hn
      rw [hn', Option.bind_some, Option.bind_some]
      exact ih u.2 (hp.2 u.2) hrel'

end Simulation

end Programs
