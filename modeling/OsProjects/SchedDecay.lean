import OsProjects.SchedSteps

/-! # When priorities are recalculated

The test for a multiple of 100 ticks stands at the top of the scheduler's outer loop. The loop
gets there once in every pass, not once in every tick, so the recalculation of a tick count is
missed when a whole tick goes by inside a pass.
-/
namespace SchedDecay

open SchedKernel SchedPriority SchedSteps

/-- The event runs the recalculation loop. -/
def Recalculates (k : Kernel) (e : Event) : Prop :=
  e = .scan ∧ k.cpu = .idle ∧ k.ticks % 100 = 0 ∧ k.pre_tick ≠ k.ticks

instance (k : Kernel) (e : Event) : Decidable (Recalculates k e) :=
  inferInstanceAs (Decidable (_ ∧ _))

/-- How often the loop is run. -/
def decays (k : Kernel) : List Event → ℕ
  | [] => 0
  | e :: es => (if Recalculates k e then 1 else 0) + (next k e).elim 0 fun k => decays k es

/-- The scheduler gets to the top of its loop before the next timer interrupt. -/
def ScansFirst (es : List Event) : Prop := .scan ∈ es.takeWhile fun e => !isTick e

instance (es : List Event) : Decidable (ScansFirst es) := inferInstanceAs (Decidable (_ ∈ _))

section Steps

variable {k k' : Kernel} {e : Event} {es : List Event}

theorem recalculate_pre_tick (k : Kernel) : (recalculate k).pre_tick =
    if k.ticks % 100 = 0 ∧ k.pre_tick ≠ k.ticks then k.ticks else k.pre_tick := by
  unfold recalculate
  split_ifs <;> rfl

/-- The test of the loop is the only one that changes `pre_tick`. -/
theorem act_pre_tick (k : Kernel) (cur : Slot) (rest : List Slot) (e : Event) :
    (act k cur rest e).pre_tick = k.pre_tick := by
  cases e with
  | sys_sleep_enter =>
    simp only [act, sys_sleep_enter]
    split
    · rw [sys_sleep_loop_eq]
      split <;> rfl
    · rfl
  | sys_sleep_check =>
    simp only [act, sys_sleep_check]
    split
    · rw [sys_sleep_loop_eq]
      split <;> rfl
    · rfl
  | nice n =>
    simp only [act, nice]
    split_ifs <;> rfl
  | kill pid =>
    simp only [act, kill]
    split <;> rfl
  | forkAlloc =>
    simp only [act, forkAlloc, allocproc]
    cases (List.finRange 64).find? fun i => (k.proc i).state = .UNUSED <;> rfl
  | forkFail =>
    simp only [act, forkFail]
    split <;> rfl
  | forkDone =>
    simp only [act, forkDone]
    split <;> rfl
  | wait =>
    simp only [act, wait]
    split
    · rfl
    · split_ifs <;> rfl
  | _ => rfl

theorem step_pre_tick (hs : next k e = some k') :
    k'.pre_tick = if Recalculates k e then k.ticks else k.pre_tick := by
  unfold next at hs
  split at hs
  next hk =>
    cases e with
    | scan =>
      cases hs
      have hpick : ∀ m : Kernel, (pick m).pre_tick = m.pre_tick := fun m => by
        unfold pick
        split <;> rfl
      rw [scan, hpick, recalculate_pre_tick]
      simp only [Recalculates, hk, true_and]
    | timer => cases hs; simp [Recalculates, tick, wakeup]
    | wakeup chan => cases hs; simp [Recalculates, wakeup]
    | _ => cases hs
  next hk =>
    cases e with
    | release => cases hs; simp [Recalculates]
    | _ => cases hs
  next p rest hk =>
    cases e with
    | switch => cases hs; simp [Recalculates, Kernel.set]
    | _ => cases hs
  next cur rest hk =>
    rw [Option.ite_none_right_eq_some] at hs
    obtain ⟨-, hs⟩ := hs
    cases hs
    rw [act_pre_tick, if_neg]
    rintro ⟨-, hidle, -⟩
    cases hk.symm.trans hidle

theorem scan_idle (hs : next k .scan = some k') : k.cpu = .idle := by
  unfold next at hs
  split at hs
  · assumption
  · cases hs
  · cases hs
  · simp [CanAct] at hs

end Steps

section Window

variable {k k' : Kernel} {es : List Event} {m : ℕ}

/-- Between two multiples of 100 nothing is recalculated. -/
theorem decays_between {j : ℕ} (hm : 100 * (m + 1) < 4294967296) (hj : 0 < j)
    (hk : k.ticks = 100 * m + j) (hcount : es.countP isTick + j ≤ 99)
    (hr : run k es = some k') : decays k es = 0 := by
  induction es generalizing k j with
  | nil => rfl
  | cons e es ih =>
    rw [run, Option.bind_eq_some_iff] at hr
    obtain ⟨k₁, hs, hr⟩ := hr
    have hnot : ¬ Recalculates k e := by
      rintro ⟨-, -, hmod, -⟩
      omega
    have hticks := step_ticks hs
    rw [decays, hs, Option.elim_some, if_neg hnot, Nat.zero_add]
    cases he : isTick e with
    | true =>
      rw [List.countP_cons_of_pos he] at hcount
      rw [he, if_pos rfl, hk, Nat.mod_eq_of_lt (by omega)] at hticks
      exact ih (j := j + 1) (by omega) hticks (by omega) hr
    | false =>
      rw [List.countP_cons_of_neg (by simp [he])] at hcount
      rw [he, if_neg Bool.false_ne_true] at hticks
      exact ih hj (hticks.trans hk) hcount hr

/-- From a multiple of 100 to the next one the loop is run once or not at all. -/
theorem decays_window (hm : 100 * (m + 1) < 4294967296) (hk : k.ticks = 100 * m)
    (hcount : es.countP isTick ≤ 99) (hr : run k es = some k') :
    decays k es = if ScansFirst es ∧ k.pre_tick ≠ 100 * m then 1 else 0 := by
  induction es generalizing k with
  | nil => simp [decays, ScansFirst]
  | cons e es ih =>
    rw [run, Option.bind_eq_some_iff] at hr
    obtain ⟨k₁, hs, hr⟩ := hr
    have hticks := step_ticks hs
    have hpre := step_pre_tick hs
    rw [decays, hs, Option.elim_some]
    cases he : isTick e with
    | true =>
      have hnot : ¬ Recalculates k e := by
        rintro ⟨rfl, -⟩
        cases he
      have hlate : ¬ ScansFirst (e :: es) := by simp [ScansFirst, he]
      rw [List.countP_cons_of_pos he] at hcount
      rw [he, if_pos rfl, hk, Nat.mod_eq_of_lt (by omega)] at hticks
      rw [if_neg hnot, if_neg fun h => hlate h.1,
        decays_between hm Nat.one_pos hticks (by omega) hr]
    | false =>
      have hrest : k₁.ticks = 100 * m := by
        rw [hticks, he, if_neg Bool.false_ne_true, hk]
      have hih := ih hrest (by rwa [List.countP_cons_of_neg (by simp [he])] at hcount) hr
      by_cases hscan : e = .scan
      · subst hscan
        have hfirst : ScansFirst (.scan :: es) := by simp [ScansFirst, he]
        have hrec : Recalculates k .scan ↔ k.pre_tick ≠ 100 * m := by
          simp only [Recalculates, scan_idle hs, hk, true_and]
          simp
        by_cases hp : k.pre_tick = 100 * m
        · rw [if_neg (mt hrec.mp fun h => h hp), if_neg fun h => h.2 hp, Nat.zero_add, hih, if_neg]
          rintro ⟨-, hne⟩
          rw [hpre, if_neg (mt hrec.mp fun h => h hp)] at hne
          exact hne hp
        · rw [if_pos (hrec.mpr hp), if_pos ⟨hfirst, hp⟩, hih, if_neg]
          rintro ⟨-, hne⟩
          rw [hpre, if_pos (hrec.mpr hp)] at hne
          exact hne hk
      · have hnot : ¬ Recalculates k e := fun h => hscan h.1
        have hfirst : ScansFirst (e :: es) ↔ ScansFirst es := by
          simp [ScansFirst, he, Ne.symm hscan]
        rw [hpre, if_neg hnot] at hih
        rw [if_neg hnot, Nat.zero_add, hih]
        simp only [hfirst]

end Window

/-- Between the interrupt that makes the tick count `100 * m` and the one that makes it
`100 * (m + 1)` the priorities are recalculated exactly once if and only if the scheduler gets
to the top of its loop before the next interrupt (and the count is not the one it recalculated
for last, which takes a full wrap of the counter). -/
theorem decays_once_iff {mid : List Event} {e : Event} {k k₁ k₂ : Kernel} {m : ℕ}
    (hm : 100 * (m + 1) < 4294967296) (he : isTick e = true) (hs : next k e = some k₁)
    (hk₁ : k₁.ticks = 100 * m) (hmid : run k₁ mid = some k₂) (hcount : mid.countP isTick = 99) :
    decays k₁ mid = 1 ↔ ScansFirst mid ∧ k.pre_tick ≠ 100 * m := by
  have hpre : k₁.pre_tick = k.pre_tick := by
    rw [step_pre_tick hs, if_neg]
    rintro ⟨rfl, -⟩
    cases he
  rw [decays_window hm hk₁ hcount.le hmid, hpre]
  split_ifs with h
  · simp [h]
  · simp [h]

section FullSlices

variable {k k' : Kernel} {p : Slot} {batch rest : List Slot} {t t' : Table} {es es' : List Event}

theorem run_append : run k (es ++ es') = (run k es).bind fun k => run k es' := by
  induction es generalizing k with
  | nil => rfl
  | cons e es ih =>
    simp only [List.cons_append, run, Option.bind_assoc]
    congr 1
    funext m
    exact ih

/-- Some process is ready or on the CPU. -/
def Busy (k : Kernel) (_e : Event) : Prop :=
  ∃ i, (k.proc i).state = .RUNNABLE ∨ (k.proc i).state = .RUNNING

theorem along_append {P : Kernel → Event → Prop} (h : Along P k es) (hr : run k es = some k')
    (h' : Along P k' es') : Along P k (es ++ es') := by
  induction es generalizing k with
  | nil =>
    cases hr
    exact h'
  | cons e es ih =>
    rw [run, Option.bind_eq_some_iff] at hr
    obtain ⟨m, hm, hr⟩ := hr
    refine ⟨h.1, fun m' hm' => ?_⟩
    cases hm.symm.trans hm'
    exact ih (h.2 m hm) hr

theorem along_mono {P Q : Kernel → Event → Prop} (h : Along P k es) (hpq : ∀ k e, P k e → Q k e) :
    Along Q k es := by
  induction es generalizing k with
  | nil => trivial
  | cons e es ih => exact ⟨hpq k e h.1, fun m hm => ih (h.2 m hm)⟩

/-- The two tables differ in the counters of the processes only. -/
def Alike (t t' : Table) : Prop :=
  ∀ i, (t' i).state = (t i).state ∧ (t' i).priority = (t i).priority ∧ (t' i).point = (t i).point

theorem Alike.trans {t'' : Table} (h : Alike t t') (h' : Alike t' t'') : Alike t t'' :=
  fun i => ⟨(h' i).1.trans (h i).1, (h' i).2.1.trans (h i).2.1, (h' i).2.2.trans (h i).2.2⟩

theorem Alike.collect_eq (h : Alike t t') : collect t' = collect t := by
  have hconsider : consider t' = consider t := by
    funext b i
    simp only [consider, (h i).1, (h i).2.1]
  rw [collect, hconsider, collect]

theorem wakeup1_awake (c : Chan) (h : ∀ i, (t i).state ≠ .SLEEPING) : wakeup1 c t = t := by
  funext i
  simp [wakeup1, h i]

/-- Nobody sleeps, and the processes of the batch are ready to use their slices. -/
structure Ready (t : Table) (batch : List Slot) : Prop where
  awake : ∀ i, (t i).state ≠ .SLEEPING
  runnable : ∀ i ∈ batch, (t i).state = .RUNNABLE ∧ (t i).point = .free

theorem Ready.alike (h : Ready t batch) (ha : Alike t t') : Ready t' batch := by
  refine ⟨fun i => ?_, fun i hi => ?_⟩
  · rw [(ha i).1]
    exact h.awake i
  · rw [(ha i).1, (ha i).2.2]
    exact h.runnable i hi

/-- What a stretch of full slices of `n` ticks leads to. -/
structure Elapsed (k k' : Kernel) (n : ℕ) : Prop where
  ticks : k'.ticks = k.ticks + n
  pre_tick : k'.pre_tick = k.pre_tick
  alike : Alike k.proc k'.proc

theorem Elapsed.trans {k'' : Kernel} {m n : ℕ} (h : Elapsed k k' m) (h' : Elapsed k' k'' n) :
    Elapsed k k'' (m + n) :=
  ⟨by rw [h'.ticks, h.ticks, Nat.add_assoc], h'.pre_tick.trans h.pre_tick, h.alike.trans h'.alike⟩

/-- A process that is switched to and keeps the CPU until the next interrupt. -/
theorem full_slice (hk : k.cpu = .dispatching (p :: rest)) (h : Ready k.proc (p :: rest))
    (hticks : k.ticks + 1 < 4294967296) :
    ∃ k', run k [.switch, .timer] = some k' ∧ k'.cpu = .dispatching rest ∧ Elapsed k k' 1 ∧
      Along Busy k [.switch, .timer] := by
  obtain ⟨hstate, hpoint⟩ := h.runnable p List.mem_cons_self
  have hdispatched : dispatched (k.proc p) = { k.proc p with
      state := .RUNNING
      ticks := int32 ((k.proc p).ticks + 1)
      total_cpu := int32 ((k.proc p).total_cpu + 1) } := by
    simp [dispatched, resume, hpoint]
  set k₁ : Kernel := { k.set p (dispatched (k.proc p)) with cpu := .running p rest } with hk₁
  have hself : k₁.proc p = dispatched (k.proc p) := Function.update_self ..
  have hother : ∀ i, i ≠ p → k₁.proc i = k.proc i := fun i hi => Function.update_of_ne hi ..
  have hswitch : next k .switch = some k₁ := by
    simp only [next, hk]
    rfl
  have hwake : (tick k₁).proc = k₁.proc := by
    refine wakeup1_awake .ticks fun i => ?_
    change (k₁.proc i).state ≠ .SLEEPING
    rcases eq_or_ne i p with rfl | hi
    · rw [hself, dispatched_state]
      decide
    · rw [hother i hi]
      exact h.awake i
  have htimer : next k₁ .timer = some (yield (tick k₁) p rest) := by
    have hcan : CanAct (k₁.proc p) (p = k₁.initproc) .timer = true := by
      simp [CanAct, hself, hdispatched, hpoint]
    simp only [next, hk₁]
    exact if_pos hcan
  refine ⟨yield (tick k₁) p rest, ?_, rfl, ⟨?_, rfl, fun i => ?_⟩, ⟨p, .inl hstate⟩,
    fun m hm => ⟨⟨p, .inr ?_⟩, fun _ _ => trivial⟩⟩
  · rw [run, hswitch, Option.bind_some, run, htimer]
    rfl
  · change (k.ticks + 1) % 4294967296 = k.ticks + 1
    exact Nat.mod_eq_of_lt hticks
  · change (Function.update (tick k₁).proc p _ i).state = _ ∧ _
    rw [hwake]
    rcases eq_or_ne i p with rfl | hi
    · simp [yield, sched, Kernel.set, hwake, hself, hdispatched, hstate]
    · simp [yield, sched, Kernel.set, hwake, hother i hi, hi]
  · cases hswitch.symm.trans hm
    rw [hself, dispatched_state]

def slices : ℕ → List Event
  | 0 => []
  | n + 1 => [.switch, .timer] ++ slices n

/-- The whole batch, one tick for each process. -/
theorem full_batch (hk : k.cpu = .dispatching batch) (h : Ready k.proc batch)
    (hticks : k.ticks + batch.length < 4294967296) :
    ∃ k', run k (slices batch.length) = some k' ∧ k'.cpu = .dispatching [] ∧
      Elapsed k k' batch.length ∧ Along Busy k (slices batch.length) := by
  induction batch generalizing k with
  | nil => exact ⟨k, rfl, hk, ⟨rfl, rfl, fun i => ⟨rfl, rfl, rfl⟩⟩, trivial⟩
  | cons p rest ih =>
    rw [List.length_cons] at hticks
    obtain ⟨k₁, hr₁, hk₁, he₁, hb₁⟩ := full_slice hk h (by omega)
    have hrest : Ready k₁.proc rest :=
      ⟨(h.alike he₁.alike).awake, fun i hi => (h.alike he₁.alike).runnable i
        (List.mem_cons_of_mem p hi)⟩
    obtain ⟨k₂, hr₂, hk₂, he₂, hb₂⟩ := ih hk₁ hrest (by rw [he₁.ticks]; omega)
    refine ⟨k₂, ?_, hk₂, ?_, ?_⟩
    · rw [List.length_cons, slices, run_append, hr₁, Option.bind_some, hr₂]
    · rw [List.length_cons, Nat.add_comm]
      exact he₁.trans he₂
    · rw [List.length_cons, slices]
      exact along_append hb₁ hr₁ hb₂

/-- One pass of the outer loop in which everybody uses the whole slice. -/
def pass (n : ℕ) : List Event := .scan :: slices n ++ [.release]

/-- Between two recalculations such a pass takes as many ticks as the batch is long, and the
next one collects the same processes. -/
theorem full_pass (hk : k.cpu = .idle) (hquiet : ¬ Recalculates k .scan)
    (hbatch : (collect k.proc).proc_ = batch) (hne : batch ≠ []) (h : Ready k.proc batch)
    (hticks : k.ticks + batch.length < 4294967296) :
    next k .scan = some { k with cpu := .dispatching batch } ∧
      ∃ k', run k (pass batch.length) = some k' ∧ k'.cpu = .idle ∧ Elapsed k k' batch.length ∧
        Along Busy k (pass batch.length) := by
  have hscan : next k .scan = some { k with cpu := .dispatching batch } := by
    have hsame : recalculate k = k := if_neg fun hc => hquiet ⟨rfl, hk, hc⟩
    simp only [next, hk, scan, hsame, pick, hbatch]
  obtain ⟨p, hp⟩ := List.exists_mem_of_ne_nil batch hne
  obtain ⟨k₁, hr, hk₁, he, hb⟩ := full_batch (k := { k with cpu := .dispatching batch }) rfl h hticks
  have hrelease : run k₁ [.release] = some { k₁ with cpu := .idle } := by
    simp only [run, next, hk₁, Option.bind_some]
  refine ⟨hscan, { k₁ with cpu := .idle }, ?_, rfl, ⟨he.ticks, he.pre_tick, he.alike⟩, ?_⟩
  · rw [pass, List.cons_append, run, hscan, Option.bind_some, run_append, hr]
    exact hrelease
  · refine ⟨⟨p, .inl (h.runnable p hp).1⟩, fun m hm => ?_⟩
    cases hscan.symm.trans hm
    refine along_append hb hr ⟨⟨p, .inl ?_⟩, fun _ _ => trivial⟩
    rw [(he.alike p).1]
    exact (h.runnable p hp).1

def passes (n : ℕ) : ℕ → List Event
  | 0 => []
  | m + 1 => pass n ++ passes n m

/-- Passes that never start at a multiple of 100. -/
theorem full_passes (hk : k.cpu = .idle) (hbatch : (collect k.proc).proc_ = batch) (hne : batch ≠ [])
    (h : Ready k.proc batch) {m : ℕ}
    (hquiet : ∀ j, j < m → (k.ticks + batch.length * j) % 100 ≠ 0)
    (hticks : k.ticks + batch.length * m < 4294967296) :
    ∃ k', run k (passes batch.length m) = some k' ∧ k'.cpu = .idle ∧
      Elapsed k k' (batch.length * m) ∧ Along Busy k (passes batch.length m) := by
  induction m generalizing k with
  | zero => exact ⟨k, rfl, hk, ⟨rfl, rfl, fun i => ⟨rfl, rfl, rfl⟩⟩, trivial⟩
  | succ m ih =>
    rw [Nat.mul_succ] at hticks
    have hfirst : ¬ Recalculates k .scan := fun hrec => hquiet 0 (Nat.succ_pos m) hrec.2.2.1
    obtain ⟨-, k₁, hr₁, hk₁, he₁, hb₁⟩ := full_pass hk hfirst hbatch hne h (by omega)
    have hlater : ∀ j, j < m → (k₁.ticks + batch.length * j) % 100 ≠ 0 := by
      intro j hj
      have hnext := hquiet (j + 1) (Nat.succ_lt_succ hj)
      rw [Nat.mul_succ] at hnext
      rw [he₁.ticks]
      omega
    obtain ⟨k₂, hr₂, hk₂, he₂, hb₂⟩ := ih hk₁ (by rw [he₁.alike.collect_eq, hbatch])
      (h.alike he₁.alike) hlater (by rw [he₁.ticks]; omega)
    refine ⟨k₂, ?_, hk₂, ?_, along_append hb₁ hr₁ hb₂⟩
    · rw [passes, run_append, hr₁, Option.bind_some, hr₂]
    · rw [Nat.mul_succ, Nat.add_comm]
      exact he₁.trans he₂

end FullSlices

/-- Tick 99 of a machine on which only the first process runs. -/
def lateSlice : Kernel :=
  { boot with
    proc := Function.update boot.proc boot.initproc { boot.proc boot.initproc with state := .RUNNING }
    ticks := 99
    cpu := .running boot.initproc [] }

def lonePasses : List Event := .release :: pass 1 ++ passes 1 98

theorem lone_process_decays : ∃ k₁ k₂, next lateSlice .timer = some k₁ ∧ k₁.ticks = 100 * 1 ∧
    run k₁ lonePasses = some k₂ ∧ lonePasses.countP isTick = 99 ∧ decays k₁ lonePasses = 1 := by
  have hsome : ((next lateSlice .timer).any fun k₁ => k₁.ticks = 100 * 1 ∧
      ((run k₁ (.release :: pass 1)).any fun k => k.cpu = .idle ∧ k.ticks = 101 ∧
        (collect k.proc).proc_ = [0] ∧ (∀ i, (k.proc i).state ≠ .SLEEPING) ∧
        ∀ i ∈ [0], (k.proc i).state = .RUNNABLE ∧ (k.proc i).point = .free) = true) = true := by
    decide +kernel
  obtain ⟨k₁, hs, hk₁⟩ := (Option.any_eq_true _ _).mp hsome
  rw [decide_eq_true_eq] at hk₁
  obtain ⟨hticks, hrest⟩ := hk₁
  obtain ⟨k, hr, hk⟩ := (Option.any_eq_true _ _).mp hrest
  rw [decide_eq_true_eq] at hk
  obtain ⟨hidle, hnow, hbatch, hawake, hready⟩ := hk
  obtain ⟨k₂, hr₂, -⟩ := full_passes (m := 98) hidle hbatch (by decide) ⟨hawake, hready⟩
    (by rw [hnow]; decide) (by rw [hnow]; decide)
  have hrun : run k₁ lonePasses = some k₂ := by
    rw [lonePasses, run_append, hr, Option.bind_some]
    exact hr₂
  have hcount : lonePasses.countP isTick = 99 := by decide +kernel
  have hfirst : ScansFirst lonePasses := by decide +kernel
  exact ⟨k₁, k₂, hs, hticks, hrun, hcount,
    (decays_once_iff (m := 1) (by decide) (e := .timer) rfl hs hticks hrun hcount).mpr
      ⟨hfirst, by decide⟩⟩

/-- The first process runs for two ticks and forks in its third slice. -/
def oddFork : List Event :=
  pass 1 ++ pass 1 ++ [.scan, .switch, .forkAlloc, .forkDone, .timer, .release]

theorem oddFork_run : ∃ k, run boot oddFork = some k ∧ k.cpu = .idle ∧ k.ticks = 3 ∧
    (collect k.proc).proc_ = [0, 1] ∧ Ready k.proc [0, 1] ∧ Along Busy boot oddFork := by
  have hsome : ((run boot oddFork).any fun k => k.cpu = .idle ∧ k.ticks = 3 ∧
      (collect k.proc).proc_ = [0, 1] ∧ (∀ i, (k.proc i).state ≠ .SLEEPING) ∧
      ∀ i ∈ [0, 1], (k.proc i).state = .RUNNABLE ∧ (k.proc i).point = .free) = true := by
    decide +kernel
  have hbusy : Along (fun k _ => (k.proc 0).state = .RUNNABLE ∨ (k.proc 0).state = .RUNNING) boot
      oddFork := by
    decide +kernel
  obtain ⟨k, hr, hk⟩ := (Option.any_eq_true _ _).mp hsome
  rw [decide_eq_true_eq] at hk
  obtain ⟨hidle, hticks, hbatch, hawake, hready⟩ := hk
  exact ⟨k, hr, hidle, hticks, hbatch, ⟨hawake, hready⟩, along_mono hbusy fun k e h => ⟨0, h⟩⟩

/-- From tick 3 on two processes share the CPU, so every pass takes two ticks. -/
def toHundred : List Event := oddFork ++ passes 2 48 ++ [.scan, .switch]

def beyondHundred : List Event := [.switch, .timer, .release] ++ passes 2 49

theorem split_passes : toHundred ++ .timer :: beyondHundred = oddFork ++ passes 2 98 := by
  decide +kernel

/-- The scans come at odd tick counts, so the recalculation of tick 100 never happens. -/
theorem pairs_miss_decay : Along Busy boot (toHundred ++ .timer :: beyondHundred) ∧
    ∃ k k₁ k₂, run boot toHundred = some k ∧ next k .timer = some k₁ ∧ k₁.ticks = 100 * 1 ∧
      run k₁ beyondHundred = some k₂ ∧ beyondHundred.countP isTick = 99 ∧
      decays k₁ beyondHundred = 0 := by
  obtain ⟨k₀, hr₀, hk₀, hticks₀, hbatch, hready, hbusy⟩ := oddFork_run
  obtain ⟨k', hr', -, -, hb'⟩ := full_passes (m := 98) hk₀ hbatch (by decide) hready
    (by rw [hticks₀]; decide) (by rw [hticks₀]; decide)
  refine ⟨?_, ?_⟩
  · rw [split_passes]
    exact along_append hbusy hr₀ hb'
  obtain ⟨a, hra, hka, hea, -⟩ := full_passes (m := 48) hk₀ hbatch (by decide) hready
    (by rw [hticks₀]; decide) (by rw [hticks₀]; decide)
  have hta : a.ticks = 99 := by rw [hea.ticks, hticks₀]; rfl
  have hreadya := hready.alike hea.alike
  have hbatcha : (collect a.proc).proc_ = [0, 1] := by rw [hea.alike.collect_eq, hbatch]
  have hquiet : ¬ Recalculates a .scan := by
    rintro ⟨-, -, hmod, -⟩
    rw [hta] at hmod
    cases hmod
  obtain ⟨hscan, -⟩ := full_pass hka hquiet hbatcha (by decide) hreadya (by rw [hta]; decide)
  -- the pass that starts at tick 99: the first slice ends at 100, the second one at 101
  obtain ⟨k₁, hr₁, hk₁, he₁, -⟩ := full_slice (k := { a with cpu := .dispatching [0, 1] }) rfl
    hreadya (by change a.ticks + 1 < _; rw [hta]; decide)
  have ht₁ : k₁.ticks = 100 := by rw [he₁.ticks]; change a.ticks + 1 = 100; rw [hta]
  rw [run, Option.bind_eq_some_iff] at hr₁
  obtain ⟨k, hswitch, htimer⟩ := hr₁
  have hnext : next k .timer = some k₁ := by
    simpa [run] using htimer
  have hready₁ := hreadya.alike he₁.alike
  obtain ⟨c, hrc, hkc, hec, -⟩ := full_slice hk₁
    ⟨hready₁.awake, fun i hi => hready₁.runnable i (List.mem_cons_of_mem 0 hi)⟩
    (by rw [ht₁]; decide)
  have htc : c.ticks = 101 := by rw [hec.ticks, ht₁]
  have hrelease : next c .release = some { c with cpu := .idle } := by
    simp only [next, hkc]
  have hreadyc : Ready c.proc [0, 1] := hready₁.alike hec.alike
  have hbatchc : (collect c.proc).proc_ = [0, 1] := by
    rw [hec.alike.collect_eq, he₁.alike.collect_eq]
    exact hbatcha
  obtain ⟨k₂, hr₂, -⟩ := full_passes (k := { c with cpu := .idle }) (m := 49) rfl hbatchc
    (by decide) hreadyc (by change ∀ j, j < 49 → (c.ticks + 2 * j) % 100 ≠ 0; rw [htc]; decide)
    (by change c.ticks + 2 * 49 < _; rw [htc]; decide)
  have hmid : run k₁ beyondHundred = some k₂ := by
    have hstart : run k₁ [.switch, .timer, .release] = some { c with cpu := .idle } := by
      rw [show [Event.switch, .timer, .release] = [.switch, .timer] ++ [.release] from rfl,
        run_append, hrc, Option.bind_some, run, hrelease]
      rfl
    rw [beyondHundred, run_append, hstart, Option.bind_some]
    exact hr₂
  have hcount : beyondHundred.countP isTick = 99 := by decide +kernel
  have hlate : ¬ ScansFirst beyondHundred := by decide +kernel
  refine ⟨k, k₁, k₂, ?_, hnext, ht₁, hmid, hcount, ?_⟩
  · rw [toHundred, List.append_assoc, run_append, hr₀, Option.bind_some, run_append]
    rw [show run k₀ (passes 2 48) = some a from hra, Option.bind_some, run, hscan, Option.bind_some,
      run, hswitch]
    rfl
  · rw [decays_window (m := 1) (by decide) ht₁ hcount.le hmid, if_neg fun h => hlate h.1]

end SchedDecay
