import OsProjects.SchedSteps
import Mathlib.Data.Int.ModEq

/-! # What a slot of the process table keeps

The counters behind the priority of a process belong to its slot. They change when the
scheduler recalculates, when it switches to the slot, and through calls of the process
itself. Nothing else ever resets them.
-/
namespace SchedAccounts

open SchedKernel SchedPriority SchedSteps

/-- What one step may do to the counters of a process; `own` if it is the one on the CPU. No
process starts running by itself. -/
structure Charged (own : Prop) (p q : Proc) : Prop where
  ticks : q.ticks = p.ticks
  priority : q.priority = p.priority
  total_cpu : q.total_cpu = p.total_cpu
  nice : q.nice = p.nice ∨ own ∧ 0 ≤ q.nice ∧ q.nice ≤ 20
  sleep_ticks : own ∨ (p.sleep_ticks = 0 → q.sleep_ticks = 0)
  running : q.state = .RUNNING → p.state = .RUNNING

/-- All processes of a table, of which `cur` is on the CPU. -/
def ChargedTable (cur : Slot) (t t' : Table) : Prop := ∀ i, Charged (i = cur) (t i) (t' i)

section Charged

variable {own : Prop} {p q r : Proc} {t t' : Table} {cur i j : Slot} {k k' : Kernel} {e : Event}
  {rest : List Slot}

theorem Charged.refl (p : Proc) : Charged own p p := ⟨rfl, rfl, rfl, .inl rfl, .inr id, id⟩

theorem Charged.trans (h : Charged own p q) (h' : Charged own q r) : Charged own p r := by
  refine ⟨h'.ticks.trans h.ticks, h'.priority.trans h.priority, h'.total_cpu.trans h.total_cpu,
    ?_, ?_, fun hr => h.running (h'.running hr)⟩
  · rcases h'.nice with hn | hn
    · rw [hn]
      exact h.nice
    · exact .inr hn
  · rcases h.sleep_ticks with ho | hz
    · exact .inl ho
    · exact h'.sleep_ticks.imp_right fun hz' hp => hz' (hz hp)

theorem Charged.mono {own' : Prop} (h : Charged own p q) (ho : own → own') : Charged own' p q :=
  ⟨h.ticks, h.priority, h.total_cpu, h.nice.imp_right fun hn => ⟨ho hn.1, hn.2⟩,
    h.sleep_ticks.imp_left ho, h.running⟩

theorem ChargedTable.refl (t : Table) : ChargedTable cur t t := fun i => .refl (t i)

theorem ChargedTable.update (h : ChargedTable cur t t') (hq : Charged (j = cur) (t' j) q) :
    ChargedTable cur t (Function.update t' j q) := by
  intro i
  rcases eq_or_ne i j with rfl | hi
  · rw [Function.update_self]
    exact (h i).trans hq
  · rw [Function.update_of_ne hi]
    exact h i

theorem wakeup1_charged (c : Chan) (p : Table) (i : Slot) :
    Charged own (p i) (wakeup1 c p i) := by
  unfold wakeup1
  split_ifs with h₁ h₂
  · exact ⟨rfl, rfl, rfl, .inl rfl, .inr id, fun hr => nomatch hr⟩
  · exact ⟨rfl, rfl, rfl, .inl rfl, .inr fun hz => absurd hz (by omega), id⟩
  · exact .refl _

theorem ChargedTable.wakeup1 (h : ChargedTable cur t t') (c : Chan) :
    ChargedTable cur t (wakeup1 c t') :=
  fun i => (h i).trans (wakeup1_charged c t' i)

theorem ChargedTable.reparent {initproc : Slot} (h : ChargedTable cur t t') (j : Slot) :
    ChargedTable cur t (reparent cur initproc t' j) := by
  unfold SchedKernel.reparent
  have hupdate : ChargedTable cur t
      (Function.update t' j { t' j with parent := some initproc }) :=
    h.update ⟨rfl, rfl, rfl, .inl rfl, .inr id, id⟩
  dsimp only
  split_ifs
  · exact hupdate.wakeup1 _
  · exact hupdate
  · exact h

theorem ChargedTable.foldl_reparent {initproc : Slot} (l : List Slot) (h : ChargedTable cur t t') :
    ChargedTable cur t (l.foldl (SchedKernel.reparent cur initproc) t') := by
  induction l generalizing t' with
  | nil => exact h
  | cons j l ih => exact ih (h.reparent j)

theorem sys_sleep_loop_charged (n : BitVec 32) (ticks0 : ℕ) :
    ChargedTable cur k.proc (sys_sleep_loop k cur rest n ticks0).proc := by
  unfold sys_sleep_loop
  split_ifs
  · exact (ChargedTable.refl _).update ⟨rfl, rfl, rfl, .inl rfl, .inr id, fun hr => nomatch hr⟩
  · exact (ChargedTable.refl _).update ⟨rfl, rfl, rfl, .inl rfl, .inr id, id⟩

/-- Whatever the process on the CPU does, only its own `nice` and `sleep_ticks` are set. -/
theorem act_charged (k : Kernel) (cur : Slot) (rest : List Slot) (e : Event) :
    ChargedTable cur k.proc (act k cur rest e).proc := by
  have hself := @ChargedTable.refl cur k.proc
  have htick : ChargedTable cur k.proc (tick k).proc := hself.wakeup1 .ticks
  cases e with
  | timer => exact htick.update ⟨rfl, rfl, rfl, .inl rfl, .inr id, by rintro ⟨⟩⟩
  | timerKilled => exact htick
  | wakeup chan => exact hself.wakeup1 chan
  | fault => exact hself.update ⟨rfl, rfl, rfl, .inl rfl, .inr id, id⟩
  | sleep chan => exact hself.update ⟨rfl, rfl, rfl, .inl rfl, .inr id, by rintro ⟨⟩⟩
  | sys_sleep n => exact hself.update ⟨rfl, rfl, rfl, .inl rfl, .inl rfl, id⟩
  | sys_sleep_enter =>
    simp only [act, sys_sleep_enter]
    split
    · exact sys_sleep_loop_charged _ _
    · exact hself
  | sys_sleep_check =>
    simp only [act, sys_sleep_check]
    split
    · exact sys_sleep_loop_charged _ _
    · exact hself
  | nice n =>
    simp only [act, SchedKernel.nice]
    split_ifs with hn
    · exact hself
    · exact hself.update
        ⟨rfl, rfl, rfl, .inr ⟨rfl, by dsimp only; omega, by dsimp only; omega⟩, .inr id, id⟩
  | kill pid =>
    simp only [act, kill]
    split
    · exact hself
    · refine hself.update ⟨rfl, rfl, rfl, .inl rfl, .inr id, fun hr => ?_⟩
      dsimp only at hr
      split_ifs at hr
      exact hr
  | forkAlloc =>
    simp only [act, forkAlloc, allocproc]
    split <;> rename_i heq <;> split at heq <;> cases heq
    · exact hself
    · refine ChargedTable.update (hself.update ?_) ?_
      · exact ⟨rfl, rfl, rfl, .inl rfl, .inr id, by rintro ⟨⟩⟩
      · exact ⟨rfl, rfl, rfl, .inl rfl, .inr id, id⟩
  | forkFail =>
    simp only [act, forkFail]
    split
    · refine ChargedTable.update (hself.update ?_) ?_
      · exact ⟨rfl, rfl, rfl, .inl rfl, .inr id, by rintro ⟨⟩⟩
      · exact ⟨rfl, rfl, rfl, .inl rfl, .inr id, id⟩
    · exact hself
  | forkDone =>
    simp only [act, forkDone]
    split
    · refine ChargedTable.update (hself.update ?_) ?_
      · exact ⟨rfl, rfl, rfl, .inl rfl, .inr id, by rintro ⟨⟩⟩
      · exact ⟨rfl, rfl, rfl, .inl rfl, .inr id, id⟩
    · exact hself
  | wait =>
    simp only [act, wait]
    split
    · refine ChargedTable.update (hself.update ?_) ?_
      · exact ⟨rfl, rfl, rfl, .inl rfl, .inr id, by rintro ⟨⟩⟩
      · exact ⟨rfl, rfl, rfl, .inl rfl, .inr id, id⟩
    · split_ifs
      · exact hself.update ⟨rfl, rfl, rfl, .inl rfl, .inr id, id⟩
      · exact hself.update ⟨rfl, rfl, rfl, .inl rfl, .inr id, by rintro ⟨⟩⟩
  | exit =>
    have hloop := @ChargedTable.foldl_reparent _ _ _ k.initproc (List.finRange 64)
      (hself.wakeup1 (.proc ((k.proc cur).parent.getD k.initproc)))
    simp only [act, exit]
    generalize (List.finRange 64).foldl _ _ = t at hloop ⊢
    exact hloop.update ⟨rfl, rfl, rfl, .inl rfl, .inr id, by rintro ⟨⟩⟩
  | scan => exact hself
  | switch => exact hself
  | release => exact hself

theorem scan_proc (k : Kernel) (i : Slot) :
    (scan k).proc i = k.proc i ∨ (scan k).proc i = decay (k.proc i) := by
  have hpick : ∀ m : Kernel, (pick m).proc = m.proc := fun m => by
    unfold pick
    split <;> rfl
  rw [scan, hpick]
  unfold recalculate
  split_ifs
  · exact .inr rfl
  · exact .inl rfl

/-- Everything a step can do to the counters of process `i`. -/
theorem step_charged (hs : next k e = some k') (i : Slot) :
    Charged (∃ rest, k.cpu = .running i rest) (k.proc i) (k'.proc i) ∨
      (e = .scan ∧ k.cpu = .idle ∧ k'.proc i = decay (k.proc i)) ∨
      (e = .switch ∧ (∃ rest, k.cpu = .dispatching (i :: rest)) ∧
        k'.proc i = dispatched (k.proc i)) := by
  unfold next at hs
  split at hs
  next hk =>
    cases e with
    | scan =>
      cases hs
      rcases scan_proc k i with h | h
      · rw [h]
        exact .inl (.refl _)
      · exact .inr (.inl ⟨rfl, hk, h⟩)
    | timer => cases hs; exact .inl (wakeup1_charged .ticks k.proc i)
    | wakeup chan => cases hs; exact .inl (wakeup1_charged chan k.proc i)
    | _ => cases hs
  next hk =>
    cases e with
    | release => cases hs; exact .inl (.refl _)
    | _ => cases hs
  next p rest hk =>
    cases e with
    | switch =>
      cases hs
      rcases eq_or_ne i p with rfl | hi
      · exact .inr (.inr ⟨rfl, ⟨rest, hk⟩, Function.update_self ..⟩)
      · left
        simp only [Kernel.set, Function.update_of_ne hi]
        exact .refl _
    | _ => cases hs
  next cur rest hk =>
    rw [Option.ite_none_right_eq_some] at hs
    obtain ⟨-, hs⟩ := hs
    cases hs
    refine .inl ((act_charged k cur rest e i).mono ?_)
    rintro rfl
    exact ⟨rest, hk⟩

end Charged

/-- The process that the event switches to. -/
def target (k : Kernel) (e : Event) : Option Slot :=
  match k.cpu, e with
  | .dispatching (p :: _), .switch => some p
  | _, _ => none

/-- The processes switched to in a run, in this order. -/
def switched (k : Kernel) : List Event → List Slot
  | [] => []
  | e :: es => (target k e).toList ++ ((next k e).elim [] fun k => switched k es)

/-- The counters of a new process, as they should be. -/
def Clean (p : Proc) : Prop :=
  p.nice = 0 ∧ p.priority = 0 ∧ p.ticks = 0 ∧ p.total_cpu = 0 ∧ p.sleep_ticks = 0

instance (p : Proc) : Decidable (Clean p) := inferInstanceAs (Decidable (_ ∧ _))

/-- No process has run in the slot yet. -/
structure Untouched (k : Kernel) (i : Slot) : Prop where
  clean : Clean (k.proc i)
  off : ∀ rest, k.cpu ≠ .running i rest

section Runs

variable {k k' : Kernel} {e : Event} {es : List Event} {i : Slot} {p q : Proc}

theorem Clean.charged (h : Clean p) (hc : Charged False p q) : Clean q := by
  obtain ⟨hnice, hprio, hticks, htotal, hsleep⟩ := h
  refine ⟨?_, hc.priority.trans hprio, hc.ticks.trans hticks, hc.total_cpu.trans htotal, ?_⟩
  · rcases hc.nice with hn | hn
    · rw [hn, hnice]
    · exact hn.1.elim
  · rcases hc.sleep_ticks with ho | hz
    · exact ho.elim
    · exact hz hsleep

theorem Clean.decay (h : Clean p) : Clean (decay p) := by
  obtain ⟨hnice, -, hticks, htotal, hsleep⟩ := h
  simp [Clean, SchedKernel.decay, hnice, hticks, htotal, hsleep]

theorem target_switch {rest : List Slot} (hk : k.cpu = .dispatching (i :: rest)) :
    target k .switch = some i := by
  simp only [target, hk]

/-- The CPU gets to a process by a switch and by nothing else. -/
theorem step_running (hs : next k e = some k') {rest : List Slot} (hk' : k'.cpu = .running i rest) :
    target k e = some i ∨ k.cpu = .running i rest := by
  unfold next at hs
  split at hs
  next hk =>
    cases e with
    | scan =>
      cases hs
      have hcpu : (recalculate k).cpu = .idle := (recalculate_cpu k).trans hk
      rw [scan, pick] at hk'
      split at hk'
      · rw [hcpu] at hk'
        cases hk'
      · cases hk'
    | timer => cases hs; cases hk.symm.trans hk'
    | wakeup chan => cases hs; cases hk.symm.trans hk'
    | _ => cases hs
  next hk =>
    cases e with
    | release => cases hs; cases hk'
    | _ => cases hs
  next p rest hk =>
    cases e with
    | switch =>
      cases hs
      cases hk'
      exact .inl (target_switch hk)
    | _ => cases hs
  next cur rest hk =>
    rw [Option.ite_none_right_eq_some] at hs
    obtain ⟨-, hs⟩ := hs
    cases hs
    rcases act_cpu e hk with hc | hc
    · right
      rw [hk, ← hc, hk']
    · cases hc.symm.trans hk'

theorem Untouched.step (h : Untouched k i) (hs : next k e = some k') (ht : target k e ≠ some i) :
    Untouched k' i := by
  refine ⟨?_, fun rest hk' => ?_⟩
  · rcases step_charged hs i with hc | ⟨-, -, hd⟩ | ⟨rfl, ⟨rest, hk⟩, -⟩
    · exact h.clean.charged (hc.mono fun ⟨rest, hk⟩ => h.off rest hk)
    · rw [hd]
      exact h.clean.decay
    · exact absurd (target_switch hk) ht
  · rcases step_running hs hk' with hr | hr
    · exact ht hr
    · exact h.off rest hr

theorem Untouched.run (h : Untouched k i) (hr : run k es = some k') (hi : i ∉ switched k es) :
    Untouched k' i := by
  induction es generalizing k with
  | nil => cases hr; exact h
  | cons e es ih =>
    rw [SchedKernel.run, Option.bind_eq_some_iff] at hr
    obtain ⟨m, hm, hr⟩ := hr
    rw [switched, hm, Option.elim_some, List.mem_append, not_or] at hi
    refine ih (h.step hm fun ht => hi.1 ?_) hr hi.2
    rw [ht]
    exact List.mem_singleton_self i

theorem int32_modEq (z : ℤ) : int32 z ≡ z [ZMOD 4294967296] := by
  rw [int32, Int.ModEq]
  exact Int.bmod_emod

theorem dispatched_total_cpu (p : Proc) : (dispatched p).total_cpu = int32 (p.total_cpu + 1) := by
  unfold dispatched resume
  split <;> rfl

theorem target_some (hs : next k e = some k') (ht : target k e = some i) :
    k'.proc i = dispatched (k.proc i) := by
  unfold target at ht
  split at ht
  next p rest hk =>
    cases ht
    simp only [next, hk, Option.some.injEq] at hs
    rw [← hs]
    exact Function.update_self ..
  next => cases ht

/-- Every switch to the slot is counted once. -/
theorem step_total_cpu (hs : next k e = some k') (i : Slot) : (k'.proc i).total_cpu ≡
    (k.proc i).total_cpu + (target k e).toList.count i [ZMOD 4294967296] := by
  by_cases ht : target k e = some i
  · rw [target_some hs ht, dispatched_total_cpu, ht]
    simpa using int32_modEq _
  · have hzero : (target k e).toList.count i = 0 := by
      rw [List.count_eq_zero]
      intro hi
      exact ht (Option.mem_toList.mp hi)
    rw [hzero, Nat.cast_zero, add_zero]
    rcases step_charged hs i with hc | ⟨-, -, hd⟩ | ⟨rfl, ⟨rest, hk⟩, -⟩
    · rw [hc.total_cpu]
    · rw [hd]
      rfl
    · exact absurd (target_switch hk) ht

theorem run_total_cpu (hr : run k es = some k') (i : Slot) : (k'.proc i).total_cpu ≡
    (k.proc i).total_cpu + (switched k es).count i [ZMOD 4294967296] := by
  induction es generalizing k with
  | nil =>
    cases hr
    simp only [switched, List.count_nil, Nat.cast_zero, add_zero]
    exact Int.ModEq.refl _
  | cons e es ih =>
    rw [run, Option.bind_eq_some_iff] at hr
    obtain ⟨m, hm, hr⟩ := hr
    have hstep := (step_total_cpu hm i).add_right ((switched m es).count i : ℤ)
    rw [switched, hm, Option.elim_some, List.count_append, Nat.cast_add, ← add_assoc]
    exact (ih hr).trans hstep

theorem boot_untouched (i : Slot) : Untouched boot i := by
  refine ⟨?_, fun rest hk => nomatch hk⟩
  simp only [boot]
  split_ifs <;> simp [Clean, Proc.zero]

end Runs

/-- A fork hands out the counters that its slot has. They are all zero if the scheduler never
switched to the slot before; and if they are all zero, the number of switches to it is a
multiple of 2^32. -/
theorem forked_process_clean {es : List Event} {k k' : Kernel} {cur np : Slot} {rest : List Slot}
    (hr : run boot es = some k) (hk : k.cpu = .running cur rest)
    (hp : (k.proc cur).point = .forking np) (hs : next k .forkDone = some k') :
    (k'.proc np).state = .RUNNABLE ∧ (np ∉ switched boot es → Clean (k'.proc np)) ∧
      (Clean (k'.proc np) → 4294967296 ∣ (switched boot es).count np) := by
  have hsane := run_sane hr boot_sane
  have hne : np ≠ cur := by
    rintro rfl
    have hembryo := hsane.forks.embryo np np hp
    rw [hsane.current np rest hk] at hembryo
    cases hembryo
  have hdone : k' = forkDone k cur := by
    simp only [next, hk, Option.ite_none_right_eq_some] at hs
    exact (Option.some.inj hs.2).symm
  have hchild : k'.proc np =
      { k.proc np with parent := some cur, state := .RUNNABLE, point := .free } := by
    rw [hdone, forkDone, hp]
    simp [Kernel.set, hne]
  refine ⟨by rw [hchild], fun hnew => ?_, fun hclean => ?_⟩
  · rw [hchild]
    exact ((boot_untouched np).run hr hnew).clean
  · have hcount := run_total_cpu hr np
    have hstart := (boot_untouched np).clean.2.2.2.1
    have hzero : (k.proc np).total_cpu = 0 := by
      rw [hchild] at hclean
      exact hclean.2.2.2.1
    rw [hzero, hstart, zero_add] at hcount
    exact_mod_cast Int.modEq_zero_iff_dvd.mp hcount.symm

/-- The first process forks before anything else has run. -/
def firstFork : List Event := [.scan, .switch, .forkAlloc]

theorem first_child_clean : ∃ k k', run boot firstFork = some k ∧ k.cpu = .running 0 [] ∧
    (k.proc 0).point = .forking 1 ∧ next k .forkDone = some k' ∧ Clean (k'.proc 1) := by
  have hsome : ((run boot firstFork).any fun k => k.cpu = .running 0 [] ∧
      (k.proc 0).point = .forking 1 ∧ (next k .forkDone).isSome = true) = true := by
    decide +kernel
  obtain ⟨k, hr, hk⟩ := (Option.any_eq_true _ _).mp hsome
  simp only [decide_eq_true_eq] at hk
  obtain ⟨hcpu, hpoint, hnext⟩ := hk
  obtain ⟨k', hk'⟩ := Option.isSome_iff_exists.mp hnext
  have hnew : 1 ∉ switched boot firstFork := by decide +kernel
  exact ⟨k, k', hr, hcpu, hpoint, hk', (forked_process_clean hr hcpu hpoint hk').2.1 hnew⟩

/-- A child runs and exits, and the next child gets its slot. -/
def secondFork : List Event :=
  [.scan, .switch, .forkAlloc, .forkDone, .wait, .release, .scan, .switch, .exit, .release, .scan,
    .switch, .wait, .forkAlloc, .forkDone]

theorem second_child_charged : ∃ k, run boot secondFork = some k ∧
    (k.proc 1).state = .RUNNABLE ∧ (k.proc 1).total_cpu = 1 ∧ ¬ Clean (k.proc 1) := by
  have hsome : ((run boot secondFork).any fun k => (k.proc 1).state = .RUNNABLE ∧
      (k.proc 1).total_cpu = 1 ∧ ¬ Clean (k.proc 1)) = true := by
    decide +kernel
  obtain ⟨k, hr, hk⟩ := (Option.any_eq_true _ _).mp hsome
  exact ⟨k, hr, by simpa using hk⟩

end SchedAccounts
