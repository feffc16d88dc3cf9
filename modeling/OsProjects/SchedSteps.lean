import OsProjects.SchedPriority
import Mathlib.Logic.Function.Iterate

/-! # What one step does to one process

Sleeping and waking depend on five fields of a process. A step changes them by the calls
of `wakeup1` it makes, by putting the process on the CPU to sleep, or in a process that is
awake before and after.
-/
namespace SchedSteps

open SchedKernel SchedPriority

structure View where
  state : ProcState
  chan : Option Chan
  sleep_ticks : ℤ
  point : Point
  killed : Bool
  deriving DecidableEq, Repr

def view (p : Proc) : View := ⟨p.state, p.chan, p.sleep_ticks, p.point, p.killed⟩

/-- What `wakeup1` does to one process. -/
def wake (v : View) : View :=
  if v.state = .SLEEPING ∧ v.sleep_ticks = 0 then { v with state := .RUNNABLE }
  else if v.state = .SLEEPING ∧ v.sleep_ticks > 0 then { v with sleep_ticks := v.sleep_ticks - 1 }
  else v

/-- How often the event calls `wakeup1`. -/
def wakeups (k : Kernel) : Event → ℕ
  | .timer => 1
  | .timerKilled => 1
  | .wakeup _ => 1
  | .exit => match k.cpu with
    | .running cur _ => zombieChildren k.proc cur + 1
    | _ => 0
  | _ => 0

/-- The events that move the clock. -/
def isTick : Event → Bool
  | .timer => true
  | .timerKilled => true
  | _ => false

/-- The ticks since `ticks0`, as `sys_sleep` computes them. -/
def elapsed (k : Kernel) (ticks0 : ℕ) : ℕ := (k.ticks + 4294967296 - ticks0) % 4294967296

def countsOn (k : Kernel) (cur : Slot) (n : BitVec 32) (ticks0 : ℕ) : Option (Chan × Point) :=
  if elapsed k ticks0 < n.toNat ∧ (k.proc cur).killed = false then
    some (.ticks, .counting n ticks0)
  else none

/-- The channel and the place at which `cur` goes to sleep in this event. -/
def fallsAsleep (k : Kernel) (cur : Slot) : Event → Option (Chan × Point)
  | .sleep chan => some (chan, .blocked)
  | .wait =>
    if (∀ i, isZombieChild k.proc cur i = false) ∧ (∃ i, (k.proc i).parent = some cur) ∧
        (k.proc cur).killed = false then some (.proc cur, .waiting)
    else none
  | .sys_sleep_enter => match (k.proc cur).point with
    | .armed n => countsOn k cur n k.ticks
    | _ => none
  | .sys_sleep_check => match (k.proc cur).point with
    | .counting n ticks0 => countsOn k cur n ticks0
    | _ => none
  | _ => none

/-- The process `i` before the step and its view `v` after it. -/
inductive Moves (k : Kernel) (e : Event) (i : Slot) (v : View) : Prop where
  | woken (h : v = wake^[wakeups k e] (view (k.proc i)))
  | asleep (rest : List Slot) (chan : Chan) (point : Point) (running : k.cpu = .running i rest)
      (falls : fallsAsleep k i e = some (chan, point))
      (h : v = { view (k.proc i) with state := .SLEEPING, chan := some chan, point := point })
  | awake (now : v.state ≠ .SLEEPING)
      (before : (k.proc i).state ≠ .SLEEPING ∨ ∃ pid, e = .kill pid ∧ (k.proc i).pid = pid)

/-- A slot taken by a fork belongs to that fork alone, and `sleep_ticks` is the argument of
a `sys_sleep` that has not slept yet. -/
structure Forks (t : Table) : Prop where
  embryo : ∀ p np, (t p).point = .forking np → (t np).state = .EMBRYO
  single : ∀ p q np, (t p).point = .forking np → (t q).point = .forking np → p = q
  armed : ∀ i n, (t i).point = .armed n → (t i).state ≠ .SLEEPING ∧ (t i).sleep_ticks = n.toInt

/-- The process on the CPU is RUNNING and the collected ones are RUNNABLE. -/
structure Sane (k : Kernel) : Prop where
  current : ∀ cur rest, k.cpu = .running cur rest → (k.proc cur).state = .RUNNING
  batch : ∀ q ∈ waitingBatch k, (k.proc q).state = .RUNNABLE
  nodup : (waitingBatch k).Nodup
  forks : Forks k.proc

section Wake

variable {t : Table} {v : View}

theorem view_wakeup1 (c : Chan) (t : Table) (i : Slot) :
    view (wakeup1 c t i) = wake (view (t i)) := by
  unfold wakeup1
  split_ifs with h₁ h₂
  · exact (if_pos h₁).symm
  · exact ((if_neg h₁).trans (if_pos h₂)).symm
  · exact ((if_neg h₁).trans (if_neg h₂)).symm

theorem wake_of_awake (h : v.state ≠ .SLEEPING) : wake v = v := by
  simp [wake, h]

theorem iterate_wake_of_awake (h : v.state ≠ .SLEEPING) (m : ℕ) : wake^[m] v = v :=
  Function.iterate_fixed (wake_of_awake h) m

theorem wake_runnable_iff (hv : v.state = .SLEEPING) :
    (wake v).state = .RUNNABLE ↔ v.sleep_ticks = 0 := by
  unfold wake
  split_ifs with h₁ h₂
  · exact iff_of_true rfl h₁.2
  · exact iff_of_false (by simp [hv]) fun h => h₁ ⟨hv, h⟩
  · exact iff_of_false (by simp [hv]) fun h => h₁ ⟨hv, h⟩

theorem iterate_wake_point (v : View) (m : ℕ) : (wake^[m] v).point = v.point := by
  induction m generalizing v with
  | zero => rfl
  | succ m ih =>
    rw [Function.iterate_succ_apply, ih, wake]
    split_ifs <;> rfl

theorem reparent_view (cur initproc : Slot) (t : Table) (j i : Slot) :
    view (reparent cur initproc t j i) =
      wake^[if isZombieChild t cur j then 1 else 0] (view (t i)) := by
  unfold reparent
  by_cases hp : (t j).parent = some cur
  · let u : Table := Function.update t j { t j with parent := some initproc }
    have hmoved : ∀ i, view (u i) = view (t i) := by
      intro i
      rcases eq_or_ne i j with rfl | hi
      · simp [u, view]
      · simp [u, hi]
    have hstate : (u j).state = (t j).state := congrArg View.state (hmoved j)
    rw [if_pos hp]
    change view ((if (u j).state = .ZOMBIE then wakeup1 (.proc initproc) u else u) i) = _
    by_cases hz : (t j).state = .ZOMBIE
    · rw [if_pos (hstate.trans hz), view_wakeup1, hmoved]
      simp [isZombieChild, hp, hz]
    · rw [if_neg (hstate ▸ hz), hmoved]
      simp [isZombieChild, hz]
  · simp [isZombieChild, hp]

theorem reparent_child {cur initproc : Slot} (t : Table) {j j' : Slot} (hj : j' ≠ j) :
    isZombieChild (reparent cur initproc t j) cur j' = isZombieChild t cur j' := by
  unfold reparent
  split_ifs with hp
  · dsimp only
    split_ifs
    · rw [wakeup1_child]
      simp [isZombieChild, hj]
    · simp [isZombieChild, hj]
  · rfl

theorem reparents_view (cur initproc : Slot) (l : List Slot) (hl : l.Nodup) (t : Table)
    (i : Slot) : view (l.foldl (reparent cur initproc) t i) =
      wake^[l.countP (isZombieChild t cur)] (view (t i)) := by
  induction l generalizing t with
  | nil => rfl
  | cons j l ih =>
    obtain ⟨hj, hl⟩ := List.nodup_cons.mp hl
    have hsame : l.countP (isZombieChild (reparent cur initproc t j) cur) =
        l.countP (isZombieChild t cur) := by
      apply List.countP_congr
      intro j' hj'
      rw [reparent_child t (ne_of_mem_of_not_mem hj' hj)]
    rw [List.foldl_cons, ih hl, hsame, reparent_view, List.countP_cons, Function.iterate_add_apply]

end Wake

section Moves

variable {k : Kernel} {e : Event} {cur i j : Slot} {rest : List Slot} {p : Proc}

theorem Moves.same (hm : wakeups k e = 0) (hp : view p = view (k.proc i)) :
    Moves k e i (view p) := by
  apply Moves.woken
  rw [hm, hp]
  rfl

theorem Moves.refl (hm : wakeups k e = 0) : Moves k e i (view (k.proc i)) := .same hm rfl

theorem Moves.stays (now : p.state ≠ .SLEEPING) (before : (k.proc i).state ≠ .SLEEPING) :
    Moves k e i (view p) :=
  .awake now (Or.inl before)

theorem Moves.current (h : Sane k) (hk : k.cpu = .running cur rest) (hp : p.state ≠ .SLEEPING) :
    Moves k e cur (view p) := by
  apply Moves.stays hp
  rw [h.current cur rest hk]
  decide

theorem Moves.update (hm : wakeups k e = 0) (hj : Moves k e j (view p)) (i : Slot) :
    Moves k e i (view (Function.update k.proc j p i)) := by
  rcases eq_or_ne i j with rfl | hi
  · rwa [Function.update_self]
  · rw [Function.update_of_ne hi]
    exact .same hm rfl

/-- The slot `j` and then the process on the CPU. -/
theorem Moves.update_both {q : Proc} (hm : wakeups k e = 0) (hne : j ≠ cur)
    (hj : Moves k e j (view p)) (hcur : Moves k e cur (view q)) (i : Slot) :
    Moves k e i (view (Function.update (Function.update k.proc j p) cur q i)) := by
  rw [Function.update_comm hne]
  rcases eq_or_ne i j with rfl | hi
  · rwa [Function.update_self]
  · rw [Function.update_of_ne hi]
    exact Moves.update hm hcur i

theorem sys_sleep_loop_eq (k : Kernel) (cur : Slot) (rest : List Slot) (n : BitVec 32)
    (ticks0 : ℕ) : sys_sleep_loop k cur rest n ticks0 =
      match countsOn k cur n ticks0 with
      | some (chan, point) => sleep k cur rest chan point
      | none => k.set cur { k.proc cur with point := .free } := by
  by_cases hc : elapsed k ticks0 < n.toNat ∧ (k.proc cur).killed = false
  · rw [countsOn, if_pos hc]
    exact if_pos hc
  · rw [countsOn, if_neg hc]
    exact if_neg hc

theorem sys_sleep_enter_eq {n : BitVec 32} (hp : (k.proc cur).point = .armed n) :
    sys_sleep_enter k cur rest = sys_sleep_loop k cur rest n k.ticks := by
  simp only [sys_sleep_enter, hp]

theorem sys_sleep_check_eq {n : BitVec 32} {ticks0 : ℕ}
    (hp : (k.proc cur).point = .counting n ticks0) :
    sys_sleep_check k cur rest = sys_sleep_loop k cur rest n ticks0 := by
  simp only [sys_sleep_check, hp]

theorem sys_sleep_loop_moves (h : Sane k) (hk : k.cpu = .running cur rest) {n : BitVec 32}
    {ticks0 : ℕ} (hm : wakeups k e = 0) (hf : fallsAsleep k cur e = countsOn k cur n ticks0) :
    Moves k e i (view ((sys_sleep_loop k cur rest n ticks0).proc i)) := by
  have hawake : (k.proc cur).state ≠ .SLEEPING := by
    rw [h.current cur rest hk]
    decide
  rw [sys_sleep_loop_eq, ← hf]
  cases hfalls : fallsAsleep k cur e with
  | some x => exact Moves.update hm (.asleep rest x.1 x.2 hk hfalls rfl) i
  | none =>
    apply Moves.update hm
    exact .current h hk hawake

theorem fork_moves (h : Sane k) (hk : k.cpu = .running cur rest) (hm : wakeups k e = 0)
    (hj : (k.proc j).state = .UNUSED ∨ (k.proc j).state = .EMBRYO) (hp : p.state ≠ .SLEEPING)
    (point : Point) :
    Moves k e i (view (Function.update (Function.update k.proc j p) cur
      { Function.update k.proc j p cur with point := point } i)) := by
  have hstate := h.current cur rest hk
  have hne : cur ≠ j := by
    rintro rfl
    rcases hj with hj | hj <;> rw [hstate] at hj <;> cases hj
  rw [Function.update_of_ne hne]
  apply Moves.update_both hm hne.symm
  · apply Moves.stays hp
    rcases hj with hj | hj <;> rw [hj] <;> decide
  · apply Moves.current h hk
    change (k.proc cur).state ≠ .SLEEPING
    rw [hstate]
    decide

theorem kill_moves (pid : ℤ) : Moves k (.kill pid) i (view ((kill k pid).proc i)) := by
  unfold kill
  cases hf : (List.finRange 64).find? fun i => (k.proc i).pid = pid with
  | none => exact .refl rfl
  | some j =>
    have hpid : (k.proc j).pid = pid := by simpa using List.find?_some hf
    apply Moves.update rfl
    refine .awake ?_ (Or.inr ⟨pid, rfl, hpid⟩)
    change (if (k.proc j).state = .SLEEPING then ProcState.RUNNABLE else (k.proc j).state) ≠ _
    split_ifs with hs
    · decide
    · exact hs

theorem wait_moves (h : Sane k) (hk : k.cpu = .running cur rest) :
    Moves k .wait i (view ((wait k cur rest).proc i)) := by
  have hstate := h.current cur rest hk
  have hawake : (k.proc cur).state ≠ .SLEEPING := by
    rw [hstate]
    decide
  unfold wait
  cases hf : (List.finRange 64).find? (isZombieChild k.proc cur) with
  | some j =>
    have hz : (k.proc j).state = .ZOMBIE := by
      have hchild := List.find?_some hf
      simp only [isZombieChild, decide_eq_true_eq] at hchild
      exact hchild.2
    have hne : cur ≠ j := by
      rintro rfl
      rw [hstate] at hz
      cases hz
    change Moves k .wait i (view (Function.update (Function.update k.proc j _) cur
      { Function.update k.proc j _ cur with point := .free } i))
    rw [Function.update_of_ne hne]
    apply Moves.update_both rfl hne.symm
    · apply Moves.stays
      · simp [reaped]
      · rw [hz]
        decide
    · exact .current h hk hawake
  | none =>
    dsimp only
    split_ifs with hc
    · apply Moves.update rfl
      exact .current h hk hawake
    · rw [not_or, not_forall] at hc
      obtain ⟨⟨child, hchild⟩, hkilled⟩ := hc
      have hfalls : fallsAsleep k cur .wait = some (.proc cur, .waiting) := by
        refine if_pos ⟨fun j => ?_, ⟨child, not_not.mp hchild⟩, by simpa using hkilled⟩
        simpa using List.find?_eq_none.mp hf j (List.mem_finRange j)
      exact Moves.update (e := .wait) rfl (.asleep rest _ _ hk hfalls rfl) i

/-- `exit` wakes with every call and then leaves the CPU. -/
theorem exit_eq (hk : k.cpu = .running cur rest) : ∃ t : Table,
    exit k cur rest = sched { k with proc := t } cur rest { t cur with state := .ZOMBIE } ∧
      ∀ i, view (t i) = wake^[wakeups k .exit] (view (k.proc i)) := by
  refine ⟨_, rfl, fun i => ?_⟩
  have hzombies : ∀ c, isZombieChild (wakeup1 c k.proc) cur = isZombieChild k.proc cur :=
    fun c => funext fun _ => wakeup1_child
  have hcount : wakeups k .exit = (List.finRange 64).countP (isZombieChild k.proc cur) + 1 := by
    rw [wakeups, hk]
    rfl
  rw [reparents_view cur k.initproc _ (List.nodup_finRange 64), view_wakeup1, hzombies, hcount,
    Function.iterate_succ_apply]

theorem exit_moves (h : Sane k) (hk : k.cpu = .running cur rest) :
    Moves k .exit i (view ((exit k cur rest).proc i)) := by
  obtain ⟨t, heq, hview⟩ := exit_eq hk
  rw [heq]
  change Moves k .exit i (view (Function.update t cur { t cur with state := .ZOMBIE } i))
  rcases eq_or_ne i cur with rfl | hi
  · rw [Function.update_self]
    exact .current h hk (by simp)
  · rw [Function.update_of_ne hi]
    exact .woken (hview i)

/-- What the process on the CPU does, seen from any process. -/
theorem act_moves (h : Sane k) (hk : k.cpu = .running cur rest)
    (hcan : CanAct (k.proc cur) (cur = k.initproc) e) (i : Slot) :
    Moves k e i (view ((act k cur rest e).proc i)) := by
  have hawake : (k.proc cur).state ≠ .SLEEPING := by
    rw [h.current cur rest hk]
    decide
  cases e with
  | timer =>
    change Moves k .timer i (view (Function.update (wakeup1 .ticks k.proc) cur _ i))
    rcases eq_or_ne i cur with rfl | hi
    · rw [Function.update_self]
      exact .current h hk (by simp)
    · rw [Function.update_of_ne hi]
      exact .woken (view_wakeup1 .ticks _ _)
  | timerKilled => exact .woken (view_wakeup1 .ticks _ _)
  | wakeup chan => exact .woken (view_wakeup1 chan _ _)
  | fault =>
    apply Moves.update rfl
    exact .current h hk hawake
  | sleep chan =>
    apply Moves.update rfl
    exact .asleep rest _ _ hk rfl rfl
  | sys_sleep n =>
    apply Moves.update rfl
    exact .current h hk hawake
  | sys_sleep_enter =>
    rw [act]
    cases hp : (k.proc cur).point with
    | armed n =>
      rw [sys_sleep_enter_eq hp]
      exact sys_sleep_loop_moves h hk rfl (by simp only [fallsAsleep, hp])
    | _ => simp [CanAct, hp] at hcan
  | sys_sleep_check =>
    rw [act]
    cases hp : (k.proc cur).point with
    | counting n ticks0 =>
      rw [sys_sleep_check_eq hp]
      exact sys_sleep_loop_moves h hk rfl (by simp only [fallsAsleep, hp])
    | _ => simp [CanAct, hp] at hcan
  | nice n =>
    simp only [act, nice]
    split_ifs
    · exact .same rfl rfl
    · apply Moves.update rfl
      exact .same rfl rfl
  | kill pid => exact kill_moves pid
  | forkAlloc =>
    simp only [act, forkAlloc, allocproc]
    cases hf : (List.finRange 64).find? fun i => (k.proc i).state = .UNUSED with
    | none => exact .refl rfl
    | some np =>
      have hnp : (k.proc np).state = .UNUSED := by simpa using List.find?_some hf
      exact fork_moves h hk rfl (Or.inl hnp) (by simp) _
  | forkFail =>
    simp only [act, forkFail]
    split
    next np hp => exact fork_moves h hk rfl (Or.inr (h.forks.embryo cur np hp)) (by simp) _
    next => exact .refl rfl
  | forkDone =>
    simp only [act, forkDone]
    split
    next np hp => exact fork_moves h hk rfl (Or.inr (h.forks.embryo cur np hp)) (by simp) _
    next => exact .refl rfl
  | wait => exact wait_moves h hk
  | exit => exact exit_moves h hk
  | scan => exact .refl rfl
  | switch => exact .refl rfl
  | release => exact .refl rfl

theorem scan_view (k : Kernel) (i : Slot) : view ((scan k).proc i) = view (k.proc i) := by
  have hpick : ∀ m : Kernel, (pick m).proc = m.proc := by
    intro m
    unfold pick
    split <;> rfl
  rw [scan, hpick]
  unfold recalculate
  split_ifs <;> rfl

/-- Every step is one of the three kinds for every process. -/
theorem step_moves {k' : Kernel} (h : Sane k) (hs : next k e = some k') (i : Slot) :
    Moves k e i (view (k'.proc i)) := by
  unfold next at hs
  split at hs
  next hk =>
    cases e with
    | scan => cases hs; exact .same rfl (scan_view k i)
    | timer => cases hs; exact .woken (view_wakeup1 .ticks _ _)
    | wakeup chan => cases hs; exact .woken (view_wakeup1 chan _ _)
    | _ => cases hs
  next hk =>
    cases e with
    | release => cases hs; exact .same rfl rfl
    | _ => cases hs
  next p rest hk =>
    have hbatch : waitingBatch k = p :: rest := by rw [waitingBatch, hk]
    have hrunnable := h.batch p (hbatch ▸ List.mem_cons_self)
    cases e with
    | switch =>
      cases hs
      apply Moves.update rfl
      apply Moves.stays
      · rw [dispatched_state]
        decide
      · rw [hrunnable]
        decide
    | _ => cases hs
  next cur rest hk =>
    rw [Option.ite_none_right_eq_some] at hs
    obtain ⟨hcan, hs⟩ := hs
    cases hs
    exact act_moves h hk hcan i

end Moves

section Sane

variable {k : Kernel} {e : Event} {cur j : Slot} {rest : List Slot} {p : Proc} {t t' : Table}

theorem Forks.update (h : Forks t) (hforking : ∀ np, p.point = .forking np → (t j).point = .forking np)
    (htaken : ∀ q, (t q).point = .forking j → p.state = .EMBRYO)
    (harmed : ∀ n, p.point = .armed n → p.state ≠ .SLEEPING ∧ p.sleep_ticks = n.toInt) :
    Forks (Function.update t j p) := by
  have hpoint : ∀ q np, (Function.update t j p q).point = .forking np →
      (t q).point = .forking np := by
    intro q np hq
    rcases eq_or_ne q j with rfl | hne
    · rw [Function.update_self] at hq
      exact hforking np hq
    · rwa [Function.update_of_ne hne] at hq
  refine ⟨fun q np hq => ?_, fun q q' np hq hq' => ?_, fun i n hi => ?_⟩
  · rcases eq_or_ne np j with rfl | hne
    · rw [Function.update_self]
      exact htaken q (hpoint q np hq)
    · rw [Function.update_of_ne hne]
      exact h.embryo q np (hpoint q np hq)
  · exact h.single q q' np (hpoint q np hq) (hpoint q' np hq')
  · rcases eq_or_ne i j with rfl | hne
    · rw [Function.update_self] at hi ⊢
      exact harmed n hi
    · rw [Function.update_of_ne hne] at hi ⊢
      exact h.armed i n hi

theorem Forks.fork (h : Forks t) (hj : (t j).state = .EMBRYO) (hfree : ∀ q, (t q).point ≠ .forking j)
    (hne : j ≠ cur) (htaken : ∀ q, (t q).point ≠ .forking cur) (hp : p.point = .forking j) :
    Forks (Function.update t cur p) := by
  have hpoint : ∀ q np, (Function.update t cur p q).point = .forking np →
      (q = cur ∧ np = j) ∨ (q ≠ cur ∧ (t q).point = .forking np) := by
    intro q np hq
    rcases eq_or_ne q cur with rfl | hne
    · rw [Function.update_self, hp] at hq
      cases hq
      exact Or.inl ⟨rfl, rfl⟩
    · rw [Function.update_of_ne hne] at hq
      exact Or.inr ⟨hne, hq⟩
  refine ⟨fun q np hq => ?_, fun q q' np hq hq' => ?_, fun i n hi => ?_⟩
  · have hother : np ≠ cur ∧ (t np).state = .EMBRYO := by
      rcases hpoint q np hq with ⟨_, rfl⟩ | ⟨_, hold⟩
      · exact ⟨hne, hj⟩
      · exact ⟨fun hnp => htaken q (hnp ▸ hold), h.embryo q np hold⟩
    rw [Function.update_of_ne hother.1]
    exact hother.2
  · rcases hpoint q np hq with ⟨rfl, rfl⟩ | ⟨hne, hold⟩ <;>
      rcases hpoint q' np hq' with ⟨rfl, hnp⟩ | ⟨hne', hold'⟩
    · rfl
    · exact absurd hold' (hfree q')
    · exact absurd (hnp ▸ hold) (hfree q)
    · exact h.single q q' np hold hold'
  · rcases eq_or_ne i cur with rfl | hne
    · rw [Function.update_self, hp] at hi
      cases hi
    · rw [Function.update_of_ne hne] at hi ⊢
      exact h.armed i n hi

theorem Forks.woken (h : Forks t) (hv : ∀ i, ∃ m, view (t' i) = wake^[m] (view (t i))) :
    Forks t' := by
  have hpoint : ∀ i, (t' i).point = (t i).point := by
    intro i
    obtain ⟨m, hm⟩ := hv i
    exact (congrArg View.point hm).trans (iterate_wake_point _ _)
  have hsame : ∀ i, (t i).state ≠ .SLEEPING → view (t' i) = view (t i) := by
    intro i hi
    obtain ⟨m, hm⟩ := hv i
    exact hm.trans (iterate_wake_of_awake (v := view (t i)) hi m)
  refine ⟨fun q np hq => ?_, fun q q' np hq hq' => ?_, fun i n hi => ?_⟩
  · have hnp := h.embryo q np ((hpoint q).symm.trans hq)
    exact (congrArg View.state (hsame np (by rw [hnp]; decide))).trans hnp
  · exact h.single q q' np ((hpoint q).symm.trans hq) ((hpoint q').symm.trans hq')
  · obtain ⟨hs, ht⟩ := h.armed i n ((hpoint i).symm.trans hi)
    have hview := hsame i hs
    refine ⟨?_, (congrArg View.sleep_ticks hview).trans ht⟩
    rw [show (t' i).state = (t i).state from congrArg View.state hview]
    exact hs

theorem Sane.woken (h : Sane k) (hv : ∀ i, ∃ m, view (t i) = wake^[m] (view (k.proc i)))
    (ticks : ℕ) : Sane { k with proc := t, ticks := ticks } := by
  have hsame : ∀ i, (k.proc i).state ≠ .SLEEPING → (t i).state = (k.proc i).state := by
    intro i hi
    obtain ⟨m, hm⟩ := hv i
    exact congrArg View.state (hm.trans (iterate_wake_of_awake (v := view (k.proc i)) hi m))
  refine ⟨fun cur rest hk => ?_, fun q hq => ?_, h.nodup, h.forks.woken hv⟩
  · have hrun := h.current cur rest hk
    exact (hsame cur (by rw [hrun]; decide)).trans hrun
  · have hrun := h.batch q hq
    exact (hsame q (by rw [hrun]; decide)).trans hrun

theorem Sane.congr {k' : Kernel} (h : Sane k) (hcpu : k'.cpu = k.cpu) (hproc : k'.proc = k.proc) :
    Sane k' := by
  have hbatch : waitingBatch k' = waitingBatch k := by simp only [waitingBatch, hcpu]
  refine ⟨fun cur rest hk => ?_, fun q hq => ?_, hbatch ▸ h.nodup, hproc ▸ h.forks⟩
  · rw [hproc]
    exact h.current cur rest (hcpu ▸ hk)
  · rw [hproc]
    exact h.batch q (hbatch ▸ hq)

/-- A slot changes and keeps its part in the schedule. -/
theorem Sane.update (h : Sane k) (hf : Forks (Function.update k.proc j p))
    (hrunnable : (k.proc j).state = .RUNNABLE → p.state = .RUNNABLE)
    (hrunning : (k.proc j).state = .RUNNING → p.state = .RUNNING) : Sane (k.set j p) := by
  refine ⟨fun cur rest hk => ?_, fun q hq => ?_, h.nodup, hf⟩
  · have hrun := h.current cur rest hk
    rcases eq_or_ne cur j with rfl | hne
    · simpa [Kernel.set] using hrunning hrun
    · simpa [Kernel.set, hne] using hrun
  · have hrun := h.batch q hq
    rcases eq_or_ne q j with rfl | hne
    · simpa [Kernel.set] using hrunnable hrun
    · simpa [Kernel.set, hne] using hrun

/-- The process on the CPU stays there. -/
theorem Sane.current_set (h : Sane k) (hk : k.cpu = .running cur rest) (hp : p.state = .RUNNING)
    (hforking : ∀ np, p.point = .forking np → (k.proc cur).point = .forking np)
    (harmed : ∀ n, p.point = .armed n → p.sleep_ticks = n.toInt) : Sane (k.set cur p) := by
  have hstate := h.current cur rest hk
  refine h.update (h.forks.update hforking (fun q hq => ?_) fun n hn => ⟨?_, harmed n hn⟩)
    (fun hr => ?_) fun _ => hp
  · rw [h.forks.embryo q cur hq] at hstate
    cases hstate
  · rw [hp]
    decide
  · rw [hstate] at hr
    cases hr

theorem Sane.sched (h : Sane k) (hk : k.cpu = .running cur rest)
    (hforking : ∀ np, p.point = .forking np → (k.proc cur).point = .forking np)
    (harmed : ∀ n, p.point = .armed n → p.state ≠ .SLEEPING ∧ p.sleep_ticks = n.toInt) :
    Sane (sched k cur rest p) := by
  have hstate := h.current cur rest hk
  have hbatch : waitingBatch k = rest := by rw [waitingBatch, hk]
  refine ⟨fun cur' rest' hk' => ?_, fun q hq => ?_, hbatch ▸ h.nodup, ?_⟩
  · cases hk'
  · have hrun := h.batch q (hbatch ▸ hq)
    have hne : q ≠ cur := by
      rintro rfl
      rw [hstate] at hrun
      cases hrun
    simpa [SchedKernel.sched, Kernel.set, hne] using hrun
  · refine h.forks.update hforking (fun q hq => ?_) harmed
    rw [h.forks.embryo q cur hq] at hstate
    cases hstate

/-- A fork takes the slot `j` for the process on the CPU. -/
theorem Sane.fork (h : Sane k) (hk : k.cpu = .running cur rest) (hj : (k.proc j).state = .UNUSED)
    {q : Proc} (hp : p.state = .EMBRYO) (hpoint : p.point = (k.proc j).point)
    (hticks : p.sleep_ticks = (k.proc j).sleep_ticks) (hq : q.state = .RUNNING)
    (hforking : q.point = .forking j) : Sane ((k.set j p).set cur q) := by
  have hstate := h.current cur rest hk
  have hfree : ∀ r, (k.proc r).point ≠ .forking j := by
    intro r hr
    rw [h.forks.embryo r j hr] at hj
    cases hj
  have hset : Sane (k.set j p) := by
    refine h.update (h.forks.update (fun np hnp => hpoint ▸ hnp) (fun r hr => absurd hr (hfree r))
      fun n hn => ?_) (fun hr => ?_) fun hr => ?_
    · rw [hticks, hp]
      exact ⟨by decide, (h.forks.armed j n (hpoint ▸ hn)).2⟩
    · rw [hj] at hr
      cases hr
    · rw [hj] at hr
      cases hr
  have hrunning : ((k.set j p).proc cur).state = .RUNNING := hset.current cur rest hk
  have hunique : ∀ r, ((k.set j p).proc r).point ≠ .forking j := by
    intro r hr
    rcases eq_or_ne r j with rfl | hne
    · simp only [Kernel.set, Function.update_self] at hr
      exact hfree r (hpoint.symm.trans hr)
    · simp only [Kernel.set, Function.update_of_ne hne] at hr
      exact hfree r hr
  have hne : j ≠ cur := by
    rintro rfl
    simp only [Kernel.set, Function.update_self, hp] at hrunning
    cases hrunning
  refine hset.update (hset.forks.fork ?_ hunique hne ?_ hforking) (fun hr => ?_) fun _ => hq
  · simpa [Kernel.set] using hp
  · intro r hr
    rw [hset.forks.embryo r cur hr] at hrunning
    cases hrunning
  · rw [hrunning] at hr
    cases hr

/-- The fork gives the slot `j` up or starts the child there. -/
theorem Sane.unfork (h : Sane k) (hk : k.cpu = .running cur rest)
    (hj : (k.proc cur).point = .forking j) {q : Proc} (hq : q.state = .RUNNING)
    (hpoint : q.point = .free) (hp : ∀ np, p.point = .forking np → (k.proc j).point = .forking np)
    (harmed : ∀ n, p.point = .armed n → p.state ≠ .SLEEPING ∧ p.sleep_ticks = n.toInt) :
    Sane ((k.set j p).set cur q) := by
  have hembryo := h.forks.embryo cur j hj
  have hne : j ≠ cur := by
    rintro rfl
    rw [h.current j rest hk] at hembryo
    cases hembryo
  have hset : Sane (k.set cur q) := by
    refine h.current_set hk hq (fun np hnp => ?_) fun n hn => ?_
    · rw [hpoint] at hnp
      cases hnp
    · rw [hpoint] at hn
      cases hn
  have hsame : (k.set cur q).proc j = k.proc j := Function.update_of_ne hne _ _
  have hcomm : (k.set j p).set cur q = (k.set cur q).set j p := by
    simp only [Kernel.set, Function.update_comm hne]
  rw [hcomm]
  refine hset.update (hset.forks.update (fun np hnp => hsame ▸ hp np hnp) (fun r hr => ?_) harmed)
    (fun hr => ?_) fun hr => ?_
  · -- only `cur` had the slot
    have hrcur : r = cur := by
      by_contra hrne
      simp only [Kernel.set, Function.update_of_ne hrne] at hr
      exact hrne (h.forks.single r cur j hr hj)
    subst hrcur
    simp only [Kernel.set, Function.update_self, hpoint] at hr
    cases hr
  · rw [hsame, hembryo] at hr
    cases hr
  · rw [hsame, hembryo] at hr
    cases hr

theorem kill_sane (h : Sane k) (pid : ℤ) : Sane (kill k pid) := by
  unfold kill
  cases hf : (List.finRange 64).find? fun i => (k.proc i).pid = pid with
  | none => exact h
  | some j =>
    have hstate : ∀ s, s ≠ .SLEEPING → (k.proc j).state = s →
        (if (k.proc j).state = .SLEEPING then ProcState.RUNNABLE else (k.proc j).state) = s := by
      rintro s hs rfl
      exact if_neg hs
    refine h.update (h.forks.update (fun np hnp => hnp) (fun q hq => ?_) fun n hn => ?_)
      (hstate _ (by decide)) (hstate _ (by decide))
    · exact hstate _ (by decide) (h.forks.embryo q j hq)
    · obtain ⟨hs, ht⟩ := h.forks.armed j n hn
      exact ⟨(hstate _ hs rfl).trans_ne hs, ht⟩

theorem sys_sleep_loop_sane (h : Sane k) (hk : k.cpu = .running cur rest) (n : BitVec 32)
    (ticks0 : ℕ) : Sane (sys_sleep_loop k cur rest n ticks0) := by
  rw [sys_sleep_loop_eq, countsOn]
  split_ifs with hc
  · exact h.sched hk (fun np hnp => by cases hnp) fun n hn => by cases hn
  · exact h.current_set hk (h.current cur rest hk) (fun np hnp => by cases hnp) fun n hn => by
      cases hn

theorem wait_sane (h : Sane k) (hk : k.cpu = .running cur rest) : Sane (wait k cur rest) := by
  have hstate := h.current cur rest hk
  unfold wait
  cases hf : (List.finRange 64).find? (isZombieChild k.proc cur) with
  | some j =>
    have hz : (k.proc j).state = .ZOMBIE := by
      have hchild := List.find?_some hf
      simp only [isZombieChild, decide_eq_true_eq] at hchild
      exact hchild.2
    have hset : Sane (k.set j (reaped (k.proc j))) := by
      refine h.update (h.forks.update (fun np hnp => hnp) (fun q hq => ?_) fun n hn => ?_)
        (fun hr => ?_) fun hr => ?_
      · rw [h.forks.embryo q j hq] at hz
        cases hz
      · exact ⟨by simp [reaped], (h.forks.armed j n hn).2⟩
      · rw [hz] at hr
        cases hr
      · rw [hz] at hr
        cases hr
    exact hset.current_set hk (hset.current cur rest hk) (fun np hnp => by cases hnp) fun n hn => by
      cases hn
  | none =>
    dsimp only
    split_ifs with hc
    · exact h.current_set hk hstate (fun np hnp => by cases hnp) fun n hn => by cases hn
    · exact h.sched hk (fun np hnp => by cases hnp) fun n hn => by cases hn

theorem exit_sane (h : Sane k) (hk : k.cpu = .running cur rest)
    (hpoint : (k.proc cur).point = .free) : Sane (exit k cur rest) := by
  obtain ⟨t, heq, hview⟩ := exit_eq hk
  have hfree : (t cur).point = .free :=
    (congrArg View.point (hview cur)).trans ((iterate_wake_point _ _).trans hpoint)
  have hwoken : Sane { k with proc := t } := h.woken (fun i => ⟨_, hview i⟩) k.ticks
  rw [heq]
  refine hwoken.sched hk (fun np hnp => ?_) fun n hn => ?_
  · cases hfree.symm.trans hnp
  · cases hfree.symm.trans hn

/-- The collected processes are RUNNABLE, and none of them is met again. -/
structure Batched (t : Table) (l : List Slot) (b : Best) : Prop where
  runnable : ∀ q ∈ b.proc_, (t q).state = .RUNNABLE
  nodup : b.proc_.Nodup
  fresh : ∀ q ∈ b.proc_, q ∉ l

theorem consider_batched {i : Slot} {l : List Slot} {b : Best} (h : Batched t (i :: l) b)
    (hi : i ∉ l) : Batched t l (consider t b i) := by
  unfold consider
  split_ifs with h₁ h₂
  · refine ⟨?_, List.nodup_singleton i, ?_⟩ <;> intro q hq <;> rw [List.mem_singleton.mp hq]
    · exact h₁.1
    · exact hi
  · refine ⟨fun q hq => ?_, ?_, fun q hq => ?_⟩
    · rcases List.mem_append.mp hq with hq | hq
      · exact h.runnable q hq
      · rw [List.mem_singleton.mp hq]
        exact h₂.1
    · refine List.nodup_append.mpr ⟨h.nodup, List.nodup_singleton i, ?_⟩
      rintro a ha b hb rfl
      rw [List.mem_singleton.mp hb] at ha
      exact h.fresh i ha List.mem_cons_self
    · rcases List.mem_append.mp hq with hq | hq
      · exact fun hl => h.fresh q hq (List.mem_cons_of_mem i hl)
      · rw [List.mem_singleton.mp hq]
        exact hi
  · exact ⟨h.runnable, h.nodup, fun q hq hl => h.fresh q hq (List.mem_cons_of_mem i hl)⟩

theorem foldl_batched {l : List Slot} {b : Best} (hl : l.Nodup) (h : Batched t l b) :
    Batched t [] (l.foldl (consider t) b) := by
  induction l generalizing b with
  | nil => exact h
  | cons i l ih =>
    obtain ⟨hi, hl⟩ := List.nodup_cons.mp hl
    exact ih hl (consider_batched h hi)

theorem dispatched_point (p : Proc) :
    (dispatched p).point = p.point ∨ (dispatched p).point = .free := by
  unfold dispatched resume
  split
  · exact Or.inr rfl
  · exact Or.inl rfl
  · exact Or.inl rfl
  · exact Or.inl rfl

theorem dispatched_sleep_ticks (p : Proc) : (dispatched p).sleep_ticks = p.sleep_ticks := by
  unfold dispatched resume
  split <;> rfl

theorem scan_sane (h : Sane k) : Sane (scan k) := by
  have hrecalc : Sane (recalculate k) := by
    unfold recalculate
    split_ifs
    · have hwoken := h.woken (t := fun i => decay (k.proc i)) (fun i => ⟨0, rfl⟩) k.ticks
      exact ⟨hwoken.current, hwoken.batch, hwoken.nodup, hwoken.forks⟩
    · exact h
  have hbatch := foldl_batched (t := (recalculate k).proc) (b := ⟨INT_MAX, []⟩)
    (List.nodup_finRange 64) ⟨by simp, by simp, by simp⟩
  unfold scan pick
  split
  · exact hrecalc
  · exact ⟨fun cur rest hr => (nomatch hr), hbatch.runnable, hbatch.nodup, hrecalc.forks⟩

theorem switch_sane {q : Slot} (h : Sane k) (hk : k.cpu = .dispatching (q :: rest)) :
    Sane { k.set q (dispatched (k.proc q)) with cpu := .running q rest } := by
  have hbatch : waitingBatch k = q :: rest := by rw [waitingBatch, hk]
  have hrunnable := h.batch q (hbatch ▸ List.mem_cons_self)
  have hnodup := List.nodup_cons.mp (hbatch ▸ h.nodup)
  refine ⟨fun cur' rest' hr => ?_, fun r hr => ?_, hnodup.2,
    h.forks.update (fun np hnp => ?_) (fun r hr => ?_) fun n hn => ⟨?_, ?_⟩⟩
  · cases hr
    simp only [Kernel.set, Function.update_self, dispatched_state]
  · have hne : r ≠ q := ne_of_mem_of_not_mem hr hnodup.1
    simp only [Kernel.set, Function.update_of_ne hne]
    exact h.batch r (hbatch ▸ List.mem_cons_of_mem q hr)
  · rcases dispatched_point (k.proc q) with hp | hp
    · exact hp.symm.trans hnp
    · cases hp.symm.trans hnp
  · rw [h.forks.embryo r q hr] at hrunnable
    cases hrunnable
  · rw [dispatched_state]
    decide
  · rw [dispatched_sleep_ticks]
    rcases dispatched_point (k.proc q) with hp | hp
    · exact (h.forks.armed q n (hp.symm.trans hn)).2
    · cases hp.symm.trans hn

theorem act_sane (h : Sane k) (hk : k.cpu = .running cur rest)
    (hcan : CanAct (k.proc cur) (cur = k.initproc) e) : Sane (act k cur rest e) := by
  have hstate := h.current cur rest hk
  have htick : Sane (tick k) := h.woken (fun i => ⟨1, view_wakeup1 .ticks k.proc i⟩) _
  have hforked : ∀ np, (k.proc np).state = .EMBRYO → cur ≠ np := by
    rintro np hnp rfl
    rw [hstate] at hnp
    cases hnp
  cases e with
  | timer =>
    refine htick.sched hk (fun np hnp => hnp) fun n hn => ⟨by simp, ?_⟩
    exact (htick.forks.armed cur n hn).2
  | timerKilled => exact htick
  | wakeup chan => exact h.woken (fun i => ⟨1, view_wakeup1 chan k.proc i⟩) k.ticks
  | fault =>
    exact h.current_set hk hstate (fun np hnp => hnp) fun n hn => (h.forks.armed cur n hn).2
  | sleep chan => exact h.sched hk (fun np hnp => by cases hnp) fun n hn => by cases hn
  | sys_sleep n =>
    refine h.current_set hk hstate (fun np hnp => by cases hnp) fun m hm => ?_
    cases hm
    rfl
  | sys_sleep_enter =>
    rw [act]
    cases hp : (k.proc cur).point with
    | armed n =>
      rw [sys_sleep_enter_eq hp]
      exact sys_sleep_loop_sane h hk n _
    | _ => simp [CanAct, hp] at hcan
  | sys_sleep_check =>
    rw [act]
    cases hp : (k.proc cur).point with
    | counting n ticks0 =>
      rw [sys_sleep_check_eq hp]
      exact sys_sleep_loop_sane h hk n ticks0
    | _ => simp [CanAct, hp] at hcan
  | nice n =>
    simp only [act, nice]
    split_ifs
    · exact h
    · exact h.current_set hk hstate (fun np hnp => hnp) fun n hn => (h.forks.armed cur n hn).2
  | kill pid => exact kill_sane h pid
  | forkAlloc =>
    simp only [act, forkAlloc, allocproc]
    cases hf : (List.finRange 64).find? fun i => (k.proc i).state = .UNUSED with
    | none => exact h
    | some np =>
      have hnp : (k.proc np).state = .UNUSED := by simpa using List.find?_some hf
      have hne : cur ≠ np := by
        rintro rfl
        rw [hstate] at hnp
        cases hnp
      have hfork := h.fork hk hnp (p := { k.proc np with state := .EMBRYO, pid := k.nextpid })
        (q := { k.proc cur with point := .forking np }) rfl rfl rfl hstate rfl
      refine hfork.congr ?_ ?_
      · rfl
      · simp only [Kernel.set, Function.update_of_ne hne]
  | forkFail =>
    simp only [act, forkFail]
    split
    next np hp =>
      have hembryo := h.forks.embryo cur np hp
      refine h.unfork hk hp ?_ rfl (fun x hx => hx) fun n hn => ⟨by simp, ?_⟩
      · simpa [Kernel.set, hforked np hembryo] using hstate
      · exact (h.forks.armed np n hn).2
    next => exact h
  | forkDone =>
    simp only [act, forkDone]
    split
    next np hp =>
      have hembryo := h.forks.embryo cur np hp
      refine h.unfork hk hp ?_ rfl (fun x hx => by cases hx) fun n hn => by cases hn
      simpa [Kernel.set, hforked np hembryo] using hstate
    next => exact h
  | wait => exact wait_sane h hk
  | exit => exact exit_sane h hk (by simp only [CanAct, decide_eq_true_eq] at hcan; exact hcan.1)
  | scan => exact h
  | switch => exact h
  | release => exact h

theorem step_sane {k' : Kernel} (hs : next k e = some k') (h : Sane k) : Sane k' := by
  unfold next at hs
  split at hs
  next hk =>
    cases e with
    | scan => cases hs; exact scan_sane h
    | timer => cases hs; exact h.woken (fun i => ⟨1, view_wakeup1 .ticks k.proc i⟩) _
    | wakeup chan => cases hs; exact h.woken (fun i => ⟨1, view_wakeup1 chan k.proc i⟩) k.ticks
    | _ => cases hs
  next hk =>
    cases e with
    | release =>
      cases hs
      exact ⟨fun cur rest hr => (nomatch hr), fun q hq => (nomatch hq), List.nodup_nil, h.forks⟩
    | _ => cases hs
  next q rest hk =>
    cases e with
    | switch => cases hs; exact switch_sane h hk
    | _ => cases hs
  next cur rest hk =>
    rw [Option.ite_none_right_eq_some] at hs
    obtain ⟨hcan, hs⟩ := hs
    cases hs
    exact act_sane h hk hcan

theorem boot_sane : Sane boot := by
  have hpoint : ∀ i, (boot.proc i).point = .free := by
    intro i
    simp only [boot]
    split_ifs <;> rfl
  refine ⟨fun cur rest hk => (nomatch hk), fun q hq => (nomatch hq), List.nodup_nil, ?_⟩
  refine ⟨fun p np hp => ?_, fun p q np hp => ?_, fun i n hi => ?_⟩
  · cases (hpoint p).symm.trans hp
  · cases (hpoint p).symm.trans hp
  · cases (hpoint i).symm.trans hi

theorem run_sane {k' : Kernel} {es : List Event} (hr : run k es = some k') (h : Sane k) :
    Sane k' := by
  induction es generalizing k with
  | nil => cases hr; exact h
  | cons e es ih =>
    rw [run, Option.bind_eq_some_iff] at hr
    obtain ⟨m, hm, hr⟩ := hr
    exact ih hr (step_sane hm h)

theorem act_ticks (e : Event) : (act k cur rest e).ticks =
    if isTick e then (k.ticks + 1) % 4294967296 else k.ticks := by
  cases e with
  | sys_sleep_enter =>
    change (sys_sleep_enter k cur rest).ticks = k.ticks
    unfold sys_sleep_enter
    split
    · rw [sys_sleep_loop_eq]
      split <;> rfl
    · rfl
  | sys_sleep_check =>
    change (sys_sleep_check k cur rest).ticks = k.ticks
    unfold sys_sleep_check
    split
    · rw [sys_sleep_loop_eq]
      split <;> rfl
    · rfl
  | nice n =>
    change (nice k cur n).ticks = k.ticks
    unfold nice
    split_ifs <;> rfl
  | kill pid =>
    change (kill k pid).ticks = k.ticks
    unfold kill
    split <;> rfl
  | forkAlloc =>
    change (forkAlloc k cur).ticks = k.ticks
    unfold forkAlloc allocproc
    cases (List.finRange 64).find? fun i => (k.proc i).state = .UNUSED <;> rfl
  | forkFail =>
    change (forkFail k cur).ticks = k.ticks
    unfold forkFail
    split <;> rfl
  | forkDone =>
    change (forkDone k cur).ticks = k.ticks
    unfold forkDone
    split <;> rfl
  | wait =>
    change (wait k cur rest).ticks = k.ticks
    unfold wait
    split
    · rfl
    · split_ifs <;> rfl
  | _ => rfl

theorem step_ticks {k' : Kernel} (hs : next k e = some k') :
    k'.ticks = if isTick e then (k.ticks + 1) % 4294967296 else k.ticks := by
  have hscan : (scan k).ticks = k.ticks := by
    have hpick : ∀ m : Kernel, (pick m).ticks = m.ticks := by
      intro m
      unfold pick
      split <;> rfl
    rw [scan, hpick]
    unfold recalculate
    split_ifs <;> rfl
  unfold next at hs
  split at hs
  next hk =>
    cases e with
    | scan => cases hs; exact hscan
    | timer => cases hs; rfl
    | wakeup chan => cases hs; rfl
    | _ => cases hs
  next hk =>
    cases e with
    | release => cases hs; rfl
    | _ => cases hs
  next q rest hk =>
    cases e with
    | switch => cases hs; rfl
    | _ => cases hs
  next cur rest hk =>
    rw [Option.ite_none_right_eq_some] at hs
    obtain ⟨hcan, hs⟩ := hs
    cases hs
    exact act_ticks e

/-- A process that goes to sleep leaves the CPU. -/
theorem falls_asleep {k' : Kernel} {chan : Chan} {point : Point} (hs : next k e = some k')
    (hk : k.cpu = .running cur rest) (hf : fallsAsleep k cur e = some (chan, point)) :
    k' = sleep k cur rest chan point := by
  have hact : k' = act k cur rest e := by
    simp only [next, hk, Option.ite_none_right_eq_some] at hs
    exact (Option.some.inj hs.2).symm
  rw [hact]
  cases e with
  | sleep c =>
    cases hf
    rfl
  | wait =>
    rw [fallsAsleep, Option.ite_none_right_eq_some] at hf
    obtain ⟨⟨hnone, ⟨child, hchild⟩, hkilled⟩, hf⟩ := hf
    cases hf
    have hfind : (List.finRange 64).find? (isZombieChild k.proc cur) = none :=
      List.find?_eq_none.mpr fun i _ => by simp [hnone i]
    have hstay : ¬ ((∀ i, (k.proc i).parent ≠ some cur) ∨ (k.proc cur).killed = true) := by
      rintro (hnobody | hdead)
      · exact hnobody child hchild
      · rw [hkilled] at hdead
        cases hdead
    simp only [act, wait, hfind, if_neg hstay]
  | sys_sleep_enter =>
    cases hp : (k.proc cur).point with
    | armed n =>
      simp only [fallsAsleep, hp] at hf
      rw [act, sys_sleep_enter_eq hp, sys_sleep_loop_eq, hf]
    | _ => simp [fallsAsleep, hp] at hf
  | sys_sleep_check =>
    cases hp : (k.proc cur).point with
    | counting n ticks0 =>
      simp only [fallsAsleep, hp] at hf
      rw [act, sys_sleep_check_eq hp, sys_sleep_loop_eq, hf]
    | _ => simp [fallsAsleep, hp] at hf
  | _ => cases hf

end Sane

end SchedSteps
