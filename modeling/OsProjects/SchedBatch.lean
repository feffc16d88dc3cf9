import OsProjects.SchedAccounts

/-! # The batch that the scheduler dispatches

A pass of the outer loop collects pointers once and switches to each of them later, without
looking at the table again. Only the process on the CPU stops being RUNNABLE, so every pointer
is still good when its turn comes, and the pass runs exactly the processes it collected.
-/
namespace SchedBatch

open SchedKernel SchedPriority SchedSteps SchedAccounts

/-- The RUNNABLE processes of the lowest priority value, in table order. -/
def lowest (t : Table) : List Slot :=
  (List.finRange 64).filter fun i =>
    (t i).state = .RUNNABLE ∧ ∀ j, (t j).state = .RUNNABLE → (t i).priority ≤ (t j).priority

section Collect

variable {t : Table} {seen : List Slot} {b : Best}

/-- What the scan holds after the processes in `seen`. -/
structure Scanned (t : Table) (seen : List Slot) (b : Best) : Prop where
  batch : b.proc_ = seen.filter fun i =>
    (t i).state = .RUNNABLE ∧ (t i).priority = b.highest_priority
  least : ∀ i ∈ seen, (t i).state = .RUNNABLE → b.highest_priority ≤ (t i).priority
  reached : b.highest_priority = INT_MAX ∨
    ∃ i, (t i).state = .RUNNABLE ∧ (t i).priority = b.highest_priority

theorem consider_scanned (h : Scanned t seen b) (i : Slot) :
    Scanned t (seen ++ [i]) (consider t b i) := by
  unfold consider
  split_ifs with hlow heq
  · refine ⟨?_, fun j hj hr => ?_, .inr ⟨i, hlow.1, rfl⟩⟩
    · have hnone : seen.filter (fun j =>
          decide ((t j).state = .RUNNABLE ∧ (t j).priority = (t i).priority)) = [] := by
        rw [List.filter_eq_nil_iff]
        intro j hj hcond
        rw [decide_eq_true_eq] at hcond
        have hle := h.least j hj hcond.1
        have hlt := hlow.2
        omega
      rw [List.filter_append, hnone, List.nil_append, List.filter_singleton]
      simp [hlow.1]
    · rcases List.mem_append.mp hj with hj | hj
      · exact hlow.2.le.trans (h.least j hj hr)
      · rw [List.mem_singleton.mp hj]
  · refine ⟨?_, fun j hj hr => ?_, h.reached⟩
    · rw [List.filter_append, ← h.batch, List.filter_singleton]
      simp [heq]
    · rcases List.mem_append.mp hj with hj | hj
      · exact h.least j hj hr
      · rw [List.mem_singleton.mp hj, heq.2]
  · refine ⟨?_, fun j hj hr => ?_, h.reached⟩
    · rw [List.filter_append, ← h.batch, List.filter_singleton]
      simp [heq]
    · rcases List.mem_append.mp hj with hj | hj
      · exact h.least j hj hr
      · rw [List.mem_singleton.mp hj] at hr ⊢
        exact not_lt.mp fun hlt => hlow ⟨hr, hlt⟩

theorem foldl_scanned {l : List Slot} (h : Scanned t seen b) :
    Scanned t (seen ++ l) (l.foldl (consider t) b) := by
  induction l generalizing seen b with
  | nil =>
    rw [List.append_nil]
    exact h
  | cons i l ih =>
    rw [List.append_cons]
    exact ih (consider_scanned h i)

/-- A priority that is an int never exceeds the bound the search starts with. -/
theorem collect_eq (hint : ∀ i, (t i).priority ≤ INT_MAX) : (collect t).proc_ = lowest t := by
  have h : Scanned t (List.finRange 64) (collect t) :=
    @foldl_scanned _ [] _ _ ⟨rfl, fun i hi => absurd hi List.not_mem_nil, .inl rfl⟩
  rw [h.batch, lowest]
  refine List.filter_congr fun i hi => ?_
  rw [decide_eq_decide, and_congr_right_iff]
  intro hr
  constructor
  · intro heq j hj
    rw [heq]
    exact h.least j (List.mem_finRange j) hj
  · intro hmin
    have hle := h.least i hi hr
    rcases h.reached with hmax | ⟨j, hj, hprio⟩
    · have := hint i
      omega
    · have := hmin j hj
      omega

end Collect

section Bounds

variable {k k' : Kernel} {e : Event} {es : List Event} {p q : Proc}

/-- The counters that make up the priority fit into an int. -/
structure Bounded (p : Proc) : Prop where
  ticks : -2147483648 ≤ p.ticks ∧ p.ticks < 2147483648
  nice : 0 ≤ p.nice ∧ p.nice ≤ 20
  priority : p.priority ≤ INT_MAX

theorem int32_bounds (z : ℤ) : -2147483648 ≤ int32 z ∧ int32 z < 2147483648 := by
  have hlow := Int.le_bmod (x := z) (m := 4294967296) (by decide)
  have hhigh := Int.bmod_lt (x := z) (m := 4294967296) (by decide)
  unfold int32
  omega

theorem Bounded.charged {own : Prop} (h : Bounded p) (hc : Charged own p q) : Bounded q := by
  refine ⟨by rw [hc.ticks]; exact h.ticks, ?_, by rw [hc.priority]; exact h.priority⟩
  rcases hc.nice with hn | hn
  · rw [hn]
    exact h.nice
  · exact hn.2

theorem tdiv_two_bounds {z : ℤ} (hlow : -2147483648 ≤ z) (hhigh : z < 2147483648) :
    -2147483648 ≤ z.tdiv 2 ∧ z.tdiv 2 < 1073741824 := by
  rcases le_or_gt 0 z with hz | hz
  · rw [Int.tdiv_eq_ediv_of_nonneg hz]
    omega
  · obtain ⟨w, rfl⟩ : ∃ w, z = -w := ⟨-z, by omega⟩
    rw [Int.neg_tdiv, Int.tdiv_eq_ediv_of_nonneg (by omega)]
    omega

theorem Bounded.decay (h : Bounded p) : Bounded (decay p) := by
  obtain ⟨⟨hlow, hhigh⟩, hnice, -⟩ := h
  have hhalf := tdiv_two_bounds hlow hhigh
  have hquarter := tdiv_two_bounds hhalf.1 (by omega)
  refine ⟨⟨hhalf.1, by simp only [SchedKernel.decay]; omega⟩, hnice, ?_⟩
  simp only [SchedKernel.decay, INT_MAX]
  omega

theorem Bounded.dispatched (h : Bounded p) : Bounded (dispatched p) := by
  have hbounds := int32_bounds (p.ticks + 1)
  unfold SchedKernel.dispatched resume
  split <;> exact ⟨hbounds, h.nice, h.priority⟩

theorem step_bounded (hs : next k e = some k') (h : ∀ i, Bounded (k.proc i)) (i : Slot) :
    Bounded (k'.proc i) := by
  rcases step_charged hs i with hc | ⟨-, -, hd⟩ | ⟨-, -, hd⟩
  · exact (h i).charged hc
  · rw [hd]
    exact (h i).decay
  · rw [hd]
    exact (h i).dispatched

/-- A RUNNING process is the one on the CPU. -/
def Alone (k : Kernel) : Prop := ∀ i, (k.proc i).state = .RUNNING → ∃ rest, k.cpu = .running i rest

end Bounds

section Leaves

variable {k k' : Kernel} {cur : Slot} {rest : List Slot} {e : Event} {es : List Event}

theorem sched_leaves {p : Proc} (k : Kernel) (cur : Slot) (rest : List Slot)
    (h : p.state ≠ .RUNNING) : (sched k cur rest p).cpu = .dispatching rest ∧
      ((sched k cur rest p).proc cur).state ≠ .RUNNING := by
  refine ⟨rfl, ?_⟩
  simpa [sched, Kernel.set] using h

theorem exit_leaves (k : Kernel) (cur : Slot) (rest : List Slot) :
    (exit k cur rest).cpu = .dispatching rest ∧
      ((exit k cur rest).proc cur).state ≠ .RUNNING := by
  unfold exit
  dsimp only
  generalize (List.finRange 64).foldl _ _ = t
  exact sched_leaves _ cur rest (by simp)


theorem sys_sleep_loop_leaves {n : BitVec 32} {ticks0 : ℕ} (hk : k.cpu = .running cur rest)
    (h : (sys_sleep_loop k cur rest n ticks0).cpu = .dispatching rest) :
    ((sys_sleep_loop k cur rest n ticks0).proc cur).state ≠ .RUNNING := by
  rw [sys_sleep_loop_eq] at h ⊢
  split at h
  · exact (sched_leaves k cur rest (by simp)).2
  · cases hk.symm.trans h

theorem act_leaves (e : Event) (hk : k.cpu = .running cur rest)
    (h : (act k cur rest e).cpu = .dispatching rest) :
    ((act k cur rest e).proc cur).state ≠ .RUNNING := by
  cases e with
  | timer => exact (sched_leaves (tick k) cur rest (by simp)).2
  | sleep chan => exact (sched_leaves k cur rest (by simp)).2
  | exit => exact (exit_leaves k cur rest).2
  | sys_sleep_enter =>
    rw [act] at h ⊢
    cases hp : (k.proc cur).point with
    | armed n =>
      rw [sys_sleep_enter_eq hp] at h ⊢
      exact sys_sleep_loop_leaves hk h
    | _ =>
      simp only [sys_sleep_enter, hp] at h
      cases hk.symm.trans h
  | sys_sleep_check =>
    rw [act] at h ⊢
    cases hp : (k.proc cur).point with
    | counting n ticks0 =>
      rw [sys_sleep_check_eq hp] at h ⊢
      exact sys_sleep_loop_leaves hk h
    | _ =>
      simp only [sys_sleep_check, hp] at h
      cases hk.symm.trans h
  | wait =>
    simp only [act, wait] at h ⊢
    split at h
    · cases hk.symm.trans h
    · split_ifs at h ⊢
      · cases hk.symm.trans h
      · exact (sched_leaves k cur rest (by simp)).2
  | nice n =>
    simp only [act, nice] at h
    split_ifs at h <;> cases hk.symm.trans h
  | kill pid =>
    simp only [act, kill] at h
    split at h <;> cases hk.symm.trans h
  | forkAlloc =>
    simp only [act, forkAlloc, allocproc] at h
    split at h <;> rename_i heq <;> split at heq <;> cases heq <;> cases hk.symm.trans h
  | forkFail =>
    simp only [act, forkFail] at h
    split at h <;> cases hk.symm.trans h
  | forkDone =>
    simp only [act, forkDone] at h
    split at h <;> cases hk.symm.trans h
  | timerKilled => cases hk.symm.trans h
  | wakeup chan => cases hk.symm.trans h
  | fault => cases hk.symm.trans h
  | sys_sleep n => cases hk.symm.trans h
  | scan => cases hk.symm.trans h
  | switch => cases hk.symm.trans h
  | release => cases hk.symm.trans h

theorem step_alone (hs : next k e = some k') (h : Alone k) : Alone k' := by
  intro i hi
  rcases step_charged hs i with hc | ⟨-, hk, hd⟩ | ⟨rfl, ⟨rest, hk⟩, -⟩
  · obtain ⟨rest, hk⟩ := h i (hc.running hi)
    simp only [next, hk, Option.ite_none_right_eq_some] at hs
    obtain ⟨-, hs⟩ := hs
    cases hs
    rcases act_cpu e hk with hcpu | hcpu
    · exact ⟨rest, hcpu⟩
    · exact absurd hi (act_leaves e hk hcpu)
  · rw [hd] at hi
    obtain ⟨rest, hrun⟩ := h i hi
    cases hk.symm.trans hrun
  · simp only [next, hk, Option.some.injEq] at hs
    exact ⟨rest, by rw [← hs]⟩

/-- Every event but a scan takes at most the first of the waiting processes. -/
theorem step_batch (hs : next k e = some k') (he : e ≠ .scan) :
    (target k e).toList ++ waitingBatch k' = waitingBatch k := by
  unfold next at hs
  split at hs
  next hk =>
    cases e with
    | scan => exact absurd rfl he
    | timer => cases hs; simp [target, waitingBatch, tick, wakeup, hk]
    | wakeup chan => cases hs; simp [target, waitingBatch, wakeup, hk]
    | _ => cases hs
  next hk =>
    cases e with
    | release => cases hs; simp [target, waitingBatch, hk]
    | _ => cases hs
  next p rest hk =>
    cases e with
    | switch => cases hs; simp [target, waitingBatch, hk]
    | _ => cases hs
  next cur rest hk =>
    rw [Option.ite_none_right_eq_some] at hs
    obtain ⟨-, hs⟩ := hs
    cases hs
    have htarget : target k e = none := by simp [target, hk]
    rw [htarget, waitingBatch, waitingBatch, hk]
    rcases act_cpu e hk with hcpu | hcpu <;> rw [hcpu]
    · rfl
    · rfl

theorem run_batch (hr : run k es = some k') (hes : .scan ∉ es) :
    switched k es ++ waitingBatch k' = waitingBatch k := by
  induction es generalizing k with
  | nil =>
    cases hr
    rfl
  | cons e es ih =>
    rw [run, Option.bind_eq_some_iff] at hr
    obtain ⟨m, hm, hr⟩ := hr
    have he : e ≠ .scan := fun he => hes (he ▸ List.mem_cons_self)
    rw [switched, hm, Option.elim_some, List.append_assoc,
      ih hr fun hmem => hes (List.mem_cons_of_mem e hmem)]
    exact step_batch hm he

structure Invariant (k : Kernel) : Prop where
  sane : Sane k
  alone : Alone k
  bounded : ∀ i, Bounded (k.proc i)

theorem boot_invariant : Invariant boot := by
  refine ⟨boot_sane, fun i hi => ?_, fun i => ?_⟩
  · simp only [boot] at hi
    split_ifs at hi
    cases hi
  · simp only [boot]
    split_ifs <;> exact ⟨by simp [Proc.zero], by simp [Proc.zero], by simp [Proc.zero, INT_MAX]⟩

theorem run_invariant (hr : run k es = some k') (h : Invariant k) : Invariant k' := by
  induction es generalizing k with
  | nil =>
    cases hr
    exact h
  | cons e es ih =>
    rw [run, Option.bind_eq_some_iff] at hr
    obtain ⟨m, hm, hr⟩ := hr
    exact ih hr ⟨step_sane hm h.sane, step_alone hm h.alone, step_bounded hm h.bounded⟩

theorem scan_batch (h : Invariant k) (hs : next k .scan = some k') :
    waitingBatch k' = lowest (recalculate k).proc := by
  have hidle : k.cpu = .idle := by
    unfold next at hs
    split at hs
    · assumption
    · cases hs
    · cases hs
    · simp [CanAct] at hs
  have hbounded : ∀ i, ((recalculate k).proc i).priority ≤ INT_MAX := by
    intro i
    unfold recalculate
    split_ifs
    · exact (h.bounded i).decay.priority
    · exact (h.bounded i).priority
  simp only [next, hidle, Option.some.injEq] at hs
  rw [← hs, scan, ← collect_eq hbounded, pick]
  split
  next hnil => rw [hnil, waitingBatch, recalculate_cpu, hidle]
  next => rfl

end Leaves

/-- Every switch goes to a RUNNABLE process, no two processes are ever RUNNING, and from a scan
on the switches are those to the processes that were best at the scan, in table order, until
none of them is left. -/
theorem batch_dispatch_safe {es : List Event} {k : Kernel} (hr : run boot es = some k) :
    (∀ p rest, k.cpu = .dispatching (p :: rest) → (k.proc p).state = .RUNNABLE) ∧
    (∀ i j, (k.proc i).state = .RUNNING → (k.proc j).state = .RUNNING → i = j) ∧
    ∀ k' es' k'', next k .scan = some k' → run k' es' = some k'' → .scan ∉ es' →
      switched k' es' ++ waitingBatch k'' = lowest (recalculate k).proc := by
  have h := run_invariant hr boot_invariant
  refine ⟨fun p rest hk => ?_, fun i j hi hj => ?_, fun k' es' k'' hs hr' hes => ?_⟩
  · refine h.sane.batch p ?_
    rw [waitingBatch, hk]
    exact List.mem_cons_self
  · obtain ⟨rest, hrun⟩ := h.alone i hi
    obtain ⟨rest', hrun'⟩ := h.alone j hj
    cases hrun.symm.trans hrun'
    rfl
  · rw [run_batch hr' hes, scan_batch h hs]

/-- The first process forks in its second slice. -/
def forked : List Event :=
  [.scan, .switch, .timer, .release, .scan, .switch, .forkAlloc, .forkDone, .timer, .release]

/-- One slice for each of the two processes. -/
def slices : List Event := [.switch, .timer, .switch, .timer, .release]

theorem both_dispatched : ∃ k k' k'', run boot forked = some k ∧ next k .scan = some k' ∧
    run k' slices = some k'' ∧ .scan ∉ slices ∧ k''.cpu = .idle ∧ switched k' slices = [0, 1] := by
  have hsome : ((run boot forked).any fun k => lowest (recalculate k).proc = [0, 1] ∧
      ((next k .scan).any fun k' => (run k' slices).any fun k'' => k''.cpu = .idle) = true) =
        true := by
    decide +kernel
  obtain ⟨k, hr, hk⟩ := (Option.any_eq_true _ _).mp hsome
  rw [decide_eq_true_eq] at hk
  obtain ⟨hlow, hnext⟩ := hk
  obtain ⟨k', hs, hk'⟩ := (Option.any_eq_true _ _).mp hnext
  obtain ⟨k'', hr', hidle⟩ := (Option.any_eq_true _ _).mp hk'
  rw [decide_eq_true_eq] at hidle
  have hpass := (batch_dispatch_safe hr).2.2 k' slices k'' hs hr' (by decide)
  rw [waitingBatch, hidle, List.append_nil, hlow] at hpass
  exact ⟨k, k', k'', hr, hs, hr', by decide, hidle, hpass⟩

end SchedBatch
