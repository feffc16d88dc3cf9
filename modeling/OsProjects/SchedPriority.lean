import OsProjects.SchedKernel

/-! # Which process the scheduler switches to

`scheduler` collects the best processes once and then runs all of them. A switch goes to a
best process as long as nothing better is made runnable while collected processes wait.
-/
namespace SchedPriority

open SchedKernel

/-- A sleeper that `n` calls of `wakeup1` in a row make runnable. -/
def WakesWithin (p : Proc) (n : ℕ) : Prop :=
  p.state = .SLEEPING ∧ 0 ≤ p.sleep_ticks ∧ p.sleep_ticks < n

def zombieChildren (t : Table) (cur : Slot) : ℕ :=
  (List.finRange 64).countP (isZombieChild t cur)

/-- The processes an event of `cur` takes out of sleep or creates. -/
def Wakes (k : Kernel) (cur : Slot) : Event → Slot → Prop
  | .timer, i => WakesWithin (k.proc i) 1
  | .timerKilled, i => WakesWithin (k.proc i) 1
  | .wakeup _, i => WakesWithin (k.proc i) 1
  | .exit, i => WakesWithin (k.proc i) (zombieChildren k.proc cur + 1)
  | .kill pid, i => (k.proc i).pid = pid ∧ (k.proc i).state = .SLEEPING
  | .forkDone, i => (k.proc cur).point = .forking i
  | _, _ => False

/-- No process that the event makes runnable is better than one still waiting for its turn. -/
def Harmless (k : Kernel) (e : Event) : Prop :=
  match k.cpu with
  | .running cur rest => ∀ i, Wakes k cur e i → ∀ q ∈ rest,
      (k.proc q).priority ≤ (k.proc i).priority
  | _ => True

def Along (P : Kernel → Event → Prop) (k : Kernel) : List Event → Prop
  | [] => True
  | e :: es => P k e ∧ ∀ k', next k e = some k' → Along P k' es

instance (p : Proc) (n : ℕ) : Decidable (WakesWithin p n) :=
  inferInstanceAs (Decidable (_ ∧ _ ∧ _))

instance (k : Kernel) (cur : Slot) : ∀ e i, Decidable (Wakes k cur e i)
  | .timer, i => inferInstanceAs (Decidable (WakesWithin (k.proc i) 1))
  | .timerKilled, i => inferInstanceAs (Decidable (WakesWithin (k.proc i) 1))
  | .wakeup _, i => inferInstanceAs (Decidable (WakesWithin (k.proc i) 1))
  | .exit, i => inferInstanceAs (Decidable (WakesWithin (k.proc i) _))
  | .kill pid, i => inferInstanceAs (Decidable ((k.proc i).pid = pid ∧ _))
  | .forkDone, i => inferInstanceAs (Decidable ((k.proc cur).point = .forking i))
  | .scan, _ | .switch, _ | .release, _ | .fault, _ | .sleep _, _ | .sys_sleep _, _
  | .sys_sleep_enter, _ | .sys_sleep_check, _ | .nice _, _ | .forkAlloc, _ | .forkFail, _
  | .wait, _ => inferInstanceAs (Decidable False)

instance (k : Kernel) (e : Event) : Decidable (Harmless k e) :=
  match h : k.cpu with
  | .running cur rest =>
    decidable_of_iff (∀ i, Wakes k cur e i → ∀ q ∈ rest, (k.proc q).priority ≤ (k.proc i).priority)
      (by rw [Harmless, h])
  | .idle => isTrue (by rw [Harmless, h]; trivial)
  | .dispatching _ => isTrue (by rw [Harmless, h]; trivial)

instance instDecidableAlong (P : Kernel → Event → Prop) [∀ k e, Decidable (P k e)] :
    ∀ k es, Decidable (Along P k es)
  | _, [] => isTrue trivial
  | k, e :: es =>
    have : ∀ k, Decidable (Along P k es) := fun k => instDecidableAlong P k es
    match h : next k e with
    | none => decidable_of_iff (P k e) (by simp [Along, h])
    | some k' => decidable_of_iff (P k e ∧ Along P k' es) (by simp [Along, h])

/-- Priorities stay and only the processes in `woken` become runnable. -/
structure Rouses (t t' : Table) (woken : Slot → Prop) : Prop where
  priority : ∀ i, (t' i).priority = (t i).priority
  runnable : ∀ i, (t' i).state = .RUNNABLE → (t i).state = .RUNNABLE ∨ woken i

section Rouses

variable {t t' t'' : Table} {woken : Slot → Prop}

theorem Rouses.refl : Rouses t t woken := ⟨fun _ => rfl, fun _ h => Or.inl h⟩

theorem Rouses.mono {more : Slot → Prop} (h : Rouses t t' woken) (hm : ∀ i, woken i → more i) :
    Rouses t t' more :=
  ⟨h.priority, fun i hi => (h.runnable i hi).imp_right (hm i)⟩

theorem Rouses.trans {more : Slot → Prop} (h : Rouses t t' woken) (h' : Rouses t' t'' more)
    (hm : ∀ i, more i → (t i).state = .RUNNABLE ∨ woken i) : Rouses t t'' woken := by
  refine ⟨fun i => (h'.priority i).trans (h.priority i), fun i hi => ?_⟩
  rcases h'.runnable i hi with hr | hw
  · exact h.runnable i hr
  · exact hm i hw

theorem Rouses.update {i : Slot} {p : Proc} (h : Rouses t t' woken)
    (hp : p.priority = (t' i).priority)
    (hr : p.state = .RUNNABLE → (t' i).state = .RUNNABLE ∨ woken i) :
    Rouses t (Function.update t' i p) woken := by
  constructor
  · intro j
    rcases eq_or_ne j i with rfl | hj
    · rw [Function.update_self, hp, h.priority]
    · rw [Function.update_of_ne hj, h.priority]
  · intro j hj
    rcases eq_or_ne j i with rfl | hne
    · rw [Function.update_self] at hj
      rcases hr hj with hj | hj
      · exact h.runnable j hj
      · exact Or.inr hj
    · rw [Function.update_of_ne hne] at hj
      exact h.runnable j hj

theorem wakeup1_rouses (c : Chan) (t : Table) :
    Rouses t (wakeup1 c t) fun i => WakesWithin (t i) 1 := by
  constructor
  · intro i
    unfold wakeup1
    split_ifs <;> rfl
  · intro i hi
    unfold wakeup1 at hi
    split_ifs at hi with h₁ h₂
    · exact Or.inr ⟨h₁.1, by omega, by omega⟩
    · exact Or.inl hi
    · exact Or.inl hi

theorem wakeup1_within {c : Chan} {i : Slot} {n : ℕ} (h : WakesWithin (wakeup1 c t i) n) :
    WakesWithin (t i) (n + 1) := by
  obtain ⟨hs, h0, hn⟩ := h
  unfold wakeup1 at hs h0 hn
  split_ifs at hs h0 hn with h₁ h₂
  · have hlt : (t i).sleep_ticks - 1 < n := hn
    exact ⟨h₂.1, by omega, by push_cast; omega⟩
  · exact ⟨hs, h0, by omega⟩

theorem wakeup1_child {c : Chan} {cur i : Slot} :
    isZombieChild (wakeup1 c t) cur i = isZombieChild t cur i := by
  unfold isZombieChild wakeup1
  split_ifs with h₁ h₂
  · simp [h₁.1]
  · simp [h₂.1]
  · rfl

/-- A round of the loop wakes like one `wakeup1` for a zombie child and not at all
otherwise, and no new child of `cur` appears. -/
theorem reparent_step {cur initproc : Slot} (hne : cur ≠ initproc) (t : Table) (j : Slot) :
    (∀ i, isZombieChild (reparent cur initproc t j) cur i → isZombieChild t cur i) ∧
    Rouses t (reparent cur initproc t j) (fun i => WakesWithin (t i) 1 ∧ isZombieChild t cur j) ∧
    ∀ i n, WakesWithin (reparent cur initproc t j i) n →
      WakesWithin (t i) (if isZombieChild t cur j then n + 1 else n) := by
  unfold reparent
  by_cases hp : (t j).parent = some cur
  · let u : Table := Function.update t j { t j with parent := some initproc }
    have hu : ∀ i, (u i).state = (t i).state ∧ (u i).sleep_ticks = (t i).sleep_ticks ∧
        (u i).priority = (t i).priority := by
      intro i
      rcases eq_or_ne i j with rfl | hi
      · simp [u]
      · simp [u, hi]
    have hchild : ∀ i, isZombieChild u cur i → isZombieChild t cur i := by
      intro i
      rcases eq_or_ne i j with rfl | hi
      · simp [isZombieChild, u, Ne.symm hne]
      · simp [isZombieChild, u, hi]
    have hwithin : ∀ i n, WakesWithin (u i) n → WakesWithin (t i) n := by
      intro i n h
      unfold WakesWithin at h ⊢
      rwa [(hu i).1, (hu i).2.1] at h
    have hrouse : Rouses t u fun i => WakesWithin (t i) 1 ∧ isZombieChild t cur j :=
      ⟨fun i => (hu i).2.2, fun i hi => Or.inl ((hu i).1 ▸ hi)⟩
    rw [if_pos hp]
    by_cases hz : (t j).state = .ZOMBIE
    · have hzj : isZombieChild t cur j := by simp [isZombieChild, hp, hz]
      rw [if_pos (show (u j).state = .ZOMBIE from (hu j).1.trans hz)]
      refine ⟨fun i hi => hchild i (wakeup1_child ▸ hi), ?_, fun i n h => ?_⟩
      · exact hrouse.trans (wakeup1_rouses _ u) fun i hi => Or.inr ⟨hwithin i 1 hi, hzj⟩
      · rw [if_pos hzj]
        exact hwithin i _ (wakeup1_within h)
    · have hzj : ¬ isZombieChild t cur j = true := by simp [isZombieChild, hz]
      rw [if_neg (show ¬ (u j).state = .ZOMBIE from fun h => hz ((hu j).1 ▸ h))]
      refine ⟨hchild, hrouse, fun i n h => ?_⟩
      rw [if_neg hzj]
      exact hwithin i n h
  · have hzj : ¬ isZombieChild t cur j = true := by simp [isZombieChild, hp]
    rw [if_neg hp]
    refine ⟨fun _ hi => hi, Rouses.refl, fun i n h => ?_⟩
    rw [if_neg hzj]
    exact h

theorem reparent_rouses {cur initproc : Slot} (hne : cur ≠ initproc) (l : List Slot)
    (t : Table) :
    Rouses t (l.foldl (reparent cur initproc) t)
      (fun i => WakesWithin (t i) (l.countP (isZombieChild t cur))) := by
  induction l generalizing t with
  | nil => exact Rouses.refl
  | cons j l ih =>
    obtain ⟨hchild, hrouse, hwithin⟩ := reparent_step hne t j
    have hcount : l.countP (isZombieChild (reparent cur initproc t j) cur) ≤
        l.countP (isZombieChild t cur) := List.countP_mono_left fun i _ => hchild i
    rw [List.foldl_cons, List.countP_cons]
    refine (hrouse.mono ?_).trans (ih _) ?_
    · rintro i ⟨⟨hs, h0, h1⟩, hz⟩
      refine ⟨hs, h0, ?_⟩
      rw [if_pos hz]
      omega
    · intro i hi
      obtain ⟨hs, h0, hn⟩ := hwithin i _ hi
      refine Or.inr ⟨hs, h0, lt_of_lt_of_le hn ?_⟩
      split_ifs <;> omega

end Rouses

section Act

variable {k : Kernel} {cur : Slot} {rest : List Slot}

theorem tick_rouses (k : Kernel) :
    Rouses k.proc (tick k).proc fun i => WakesWithin (k.proc i) 1 :=
  wakeup1_rouses .ticks k.proc

theorem yield_rouses (k : Kernel) (cur : Slot) (rest : List Slot) :
    Rouses k.proc (yield k cur rest).proc (· = cur) :=
  Rouses.refl.update rfl fun _ => Or.inr rfl

theorem sleep_rouses (k : Kernel) (cur : Slot) (rest : List Slot) (c : Chan) (q : Point)
    {woken : Slot → Prop} : Rouses k.proc (sleep k cur rest c q).proc woken :=
  Rouses.refl.update rfl fun h => by cases h

theorem sys_sleep_loop_rouses (k : Kernel) (cur : Slot) (rest : List Slot) (n : BitVec 32)
    (ticks0 : ℕ) {woken : Slot → Prop} :
    Rouses k.proc (sys_sleep_loop k cur rest n ticks0).proc woken := by
  unfold sys_sleep_loop
  split_ifs
  · exact sleep_rouses ..
  · exact Rouses.refl.update rfl Or.inl

theorem sys_sleep_enter_rouses (k : Kernel) (cur : Slot) (rest : List Slot)
    {woken : Slot → Prop} : Rouses k.proc (sys_sleep_enter k cur rest).proc woken := by
  unfold sys_sleep_enter
  split
  · exact sys_sleep_loop_rouses ..
  · exact Rouses.refl

theorem sys_sleep_check_rouses (k : Kernel) (cur : Slot) (rest : List Slot)
    {woken : Slot → Prop} : Rouses k.proc (sys_sleep_check k cur rest).proc woken := by
  unfold sys_sleep_check
  split
  · exact sys_sleep_loop_rouses ..
  · exact Rouses.refl

theorem forkAlloc_rouses (k : Kernel) (cur : Slot) {woken : Slot → Prop} :
    Rouses k.proc (forkAlloc k cur).proc woken := by
  unfold forkAlloc allocproc
  cases hf : (List.finRange 64).find? fun i => (k.proc i).state = .UNUSED with
  | none => exact Rouses.refl
  | some np =>
    have hnp : Rouses k.proc (Function.update k.proc np
        { k.proc np with state := .EMBRYO, pid := k.nextpid }) woken :=
      Rouses.refl.update rfl fun h => by cases h
    exact hnp.update rfl Or.inl

theorem forkFail_rouses (k : Kernel) (cur : Slot) {woken : Slot → Prop} :
    Rouses k.proc (forkFail k cur).proc woken := by
  unfold forkFail
  split
  next np _ =>
    have hnp : Rouses k.proc (Function.update k.proc np { k.proc np with state := .UNUSED })
        woken := Rouses.refl.update rfl fun h => by cases h
    exact hnp.update rfl Or.inl
  next => exact Rouses.refl

theorem forkDone_rouses (k : Kernel) (cur : Slot) : Rouses k.proc (forkDone k cur).proc
    fun i => (k.proc cur).point = .forking i := by
  unfold forkDone
  split
  next np hp =>
    have hnp : Rouses k.proc (Function.update k.proc np
        { k.proc np with parent := some cur, state := .RUNNABLE, point := .free })
        fun i => (k.proc cur).point = .forking i := Rouses.refl.update rfl fun _ => Or.inr hp
    exact hnp.update rfl Or.inl
  next => exact Rouses.refl

theorem kill_rouses (k : Kernel) (pid : ℤ) : Rouses k.proc (kill k pid).proc
    fun i => (k.proc i).pid = pid ∧ (k.proc i).state = .SLEEPING := by
  unfold kill
  cases hf : (List.finRange 64).find? fun i => (k.proc i).pid = pid with
  | none => exact Rouses.refl
  | some i =>
    have hpid : (k.proc i).pid = pid := by simpa using List.find?_some hf
    refine Rouses.refl.update rfl fun h => ?_
    by_cases hs : (k.proc i).state = .SLEEPING
    · exact Or.inr ⟨hpid, hs⟩
    · left
      simpa [hs] using h

theorem nice_rouses (k : Kernel) (cur : Slot) (n : ℤ) {woken : Slot → Prop} :
    Rouses k.proc (nice k cur n).proc woken := by
  unfold nice
  split_ifs
  · exact Rouses.refl
  · exact Rouses.refl.update rfl Or.inl

theorem wait_rouses (k : Kernel) (cur : Slot) (rest : List Slot) {woken : Slot → Prop} :
    Rouses k.proc (wait k cur rest).proc woken := by
  unfold wait
  cases (List.finRange 64).find? (isZombieChild k.proc cur) with
  | some i =>
    have hi : Rouses k.proc (Function.update k.proc i (reaped (k.proc i))) woken :=
      Rouses.refl.update rfl fun h => by cases h
    exact hi.update rfl Or.inl
  | none =>
    dsimp only
    split_ifs
    · exact Rouses.refl.update rfl Or.inl
    · exact sleep_rouses ..

theorem exit_rouses (hne : cur ≠ k.initproc) : Rouses k.proc (exit k cur rest).proc
    fun i => WakesWithin (k.proc i) (zombieChildren k.proc cur + 1) := by
  simp only [exit]
  set c := Chan.proc ((k.proc cur).parent.getD k.initproc)
  have hwake := wakeup1_rouses c k.proc
  have hloop := reparent_rouses hne (List.finRange 64) (wakeup1 c k.proc)
  have hboth : Rouses k.proc
      ((List.finRange 64).foldl (reparent cur k.initproc) (wakeup1 c k.proc))
      fun i => WakesWithin (k.proc i) (zombieChildren k.proc cur + 1) := by
    refine (hwake.mono ?_).trans hloop ?_
    · rintro i ⟨hs, h0, h1⟩
      exact ⟨hs, h0, by push_cast; omega⟩
    · intro i hi
      have hsame : isZombieChild (wakeup1 c k.proc) cur = isZombieChild k.proc cur :=
        funext fun _ => wakeup1_child
      rw [hsame] at hi
      exact Or.inr (wakeup1_within hi)
  generalize (List.finRange 64).foldl (reparent cur k.initproc) (wakeup1 c k.proc) = t at hboth ⊢
  exact hboth.update rfl fun h => by cases h

/-- Whatever the process on the CPU does, only the processes it wakes, and it itself when
it yields, become runnable. -/
theorem act_rouses (k : Kernel) (cur : Slot) (rest : List Slot) (e : Event)
    (hne : e = .exit → cur ≠ k.initproc) :
    Rouses k.proc (act k cur rest e).proc fun i => Wakes k cur e i ∨ i = cur := by
  cases e with
  | timer =>
    exact ((tick_rouses k).mono fun i => Or.inl).trans (yield_rouses ..)
      fun i hi => Or.inr (Or.inr hi)
  | timerKilled => exact (tick_rouses k).mono fun i => Or.inl
  | wakeup chan => exact (wakeup1_rouses chan k.proc).mono fun i => Or.inl
  | fault => exact Rouses.refl.update rfl Or.inl
  | sleep chan => exact sleep_rouses ..
  | sys_sleep n => exact Rouses.refl.update rfl Or.inl
  | sys_sleep_enter => exact sys_sleep_enter_rouses ..
  | sys_sleep_check => exact sys_sleep_check_rouses ..
  | nice n => exact nice_rouses ..
  | kill pid => exact (kill_rouses k pid).mono fun i => Or.inl
  | forkAlloc => exact forkAlloc_rouses ..
  | forkFail => exact forkFail_rouses ..
  | forkDone => exact (forkDone_rouses k cur).mono fun i => Or.inl
  | wait => exact wait_rouses ..
  | exit => exact (exit_rouses (hne rfl)).mono fun i => Or.inl
  | scan => exact Rouses.refl
  | switch => exact Rouses.refl
  | release => exact Rouses.refl

/-- The CPU stays with the process or goes back to the scheduler with the rest. -/
theorem act_cpu (e : Event) (hk : k.cpu = .running cur rest) :
    (act k cur rest e).cpu = .running cur rest ∨ (act k cur rest e).cpu = .dispatching rest := by
  cases e with
  | timer => exact Or.inr rfl
  | sleep chan => exact Or.inr rfl
  | exit => exact Or.inr rfl
  | sys_sleep_enter =>
    simp only [act, sys_sleep_enter, sys_sleep_loop]
    split
    · split_ifs
      · exact Or.inr rfl
      · exact Or.inl hk
    · exact Or.inl hk
  | sys_sleep_check =>
    simp only [act, sys_sleep_check, sys_sleep_loop]
    split
    · split_ifs
      · exact Or.inr rfl
      · exact Or.inl hk
    · exact Or.inl hk
  | wait =>
    simp only [act, wait]
    split
    · exact Or.inl hk
    · split_ifs
      · exact Or.inl hk
      · exact Or.inr rfl
  | nice n =>
    simp only [act, nice]
    split_ifs <;> exact Or.inl hk
  | kill pid =>
    simp only [act, kill]
    split <;> exact Or.inl hk
  | forkAlloc =>
    simp only [act, forkAlloc, allocproc]
    split <;> rename_i heq <;> split at heq <;> cases heq <;> exact Or.inl hk
  | forkFail =>
    simp only [act, forkFail]
    split <;> exact Or.inl hk
  | forkDone =>
    simp only [act, forkDone]
    split <;> exact Or.inl hk
  | timerKilled => exact Or.inl hk
  | wakeup chan => exact Or.inl hk
  | fault => exact Or.inl hk
  | sys_sleep n => exact Or.inl hk
  | scan => exact Or.inl hk
  | switch => exact Or.inl hk
  | release => exact Or.inl hk

end Act

/-- What the scan has established about the processes it has looked at. -/
structure Collected (t : Table) (seen : List Slot) (b : Best) : Prop where
  equal : ∀ q ∈ b.proc_, (t q).priority = b.highest_priority
  least : ∀ i ∈ seen, (t i).state = .RUNNABLE → b.highest_priority ≤ (t i).priority

theorem consider_collected {t : Table} {seen : List Slot} {b : Best} (h : Collected t seen b)
    (i : Slot) : Collected t (seen ++ [i]) (consider t b i) := by
  have hle : (consider t b i).highest_priority ≤ b.highest_priority ∧
      ((t i).state = .RUNNABLE → (consider t b i).highest_priority ≤ (t i).priority) := by
    unfold consider
    split_ifs with h₁ h₂
    · exact ⟨le_of_lt h₁.2, fun _ => le_rfl⟩
    · exact ⟨le_rfl, fun _ => le_of_eq h₂.2.symm⟩
    · exact ⟨le_rfl, fun hr => not_lt.mp fun hlt => h₁ ⟨hr, hlt⟩⟩
  constructor
  · intro q hq
    unfold consider at hq ⊢
    split_ifs at hq ⊢ with h₁ h₂
    · simp only [List.mem_singleton] at hq
      rw [hq]
    · rcases List.mem_append.mp hq with hq | hq
      · exact h.equal q hq
      · rw [List.mem_singleton.mp hq]
        exact h₂.2
    · exact h.equal q hq
  · intro j hj hr
    rcases List.mem_append.mp hj with hj | hj
    · exact hle.1.trans (h.least j hj hr)
    · rw [List.mem_singleton] at hj
      subst j
      exact hle.2 hr

theorem foldl_collected {t : Table} {seen l : List Slot} {b : Best} (h : Collected t seen b) :
    Collected t (seen ++ l) (l.foldl (consider t) b) := by
  induction l generalizing seen b with
  | nil => simpa using h
  | cons i l ih =>
    rw [List.foldl_cons, List.append_cons seen i l]
    exact ih (consider_collected h i)

theorem collect_collected (t : Table) : Collected t (List.finRange 64) (collect t) :=
  by
  have hnil : Collected t [] ⟨INT_MAX, []⟩ := ⟨by simp, by simp⟩
  exact foldl_collected hnil

def waitingBatch (k : Kernel) : List Slot :=
  match k.cpu with
  | .idle => []
  | .dispatching batch => batch
  | .running _ rest => rest

/-- A process that competes with the ones waiting for their turn. -/
def Contends (k : Kernel) (i : Slot) : Prop :=
  (k.proc i).state = .RUNNABLE ∨ (∃ rest, k.cpu = .running i rest) ∨ i ∈ waitingBatch k

def Invariant (k : Kernel) : Prop :=
  ∀ q ∈ waitingBatch k, ∀ i, Contends k i → (k.proc q).priority ≤ (k.proc i).priority

theorem boot_invariant : Invariant boot := fun _ hq => by cases hq

theorem Invariant.of_idle {k : Kernel} (h : k.cpu = .idle) : Invariant k := by
  intro q hq
  rw [waitingBatch, h] at hq
  cases hq

theorem pick_invariant {k : Kernel} (hk : k.cpu = .idle) : Invariant (pick k) := by
  have hc := collect_collected k.proc
  unfold pick
  split
  · exact Invariant.of_idle hk
  · rintro q hq i (hr | ⟨_, hr⟩ | hr)
    · exact (hc.equal q hq).trans_le (hc.least i (List.mem_finRange i) hr)
    · cases hr
    · exact ((hc.equal q hq).trans (hc.equal i hr).symm).le

theorem recalculate_cpu (k : Kernel) : (recalculate k).cpu = k.cpu := by
  unfold recalculate
  split_ifs <;> rfl

theorem scan_invariant {k : Kernel} (hk : k.cpu = .idle) : Invariant (scan k) :=
  pick_invariant ((recalculate_cpu k).trans hk)

theorem dispatched_priority (p : Proc) : (dispatched p).priority = p.priority := by
  unfold dispatched resume
  split <;> rfl

theorem dispatched_state (p : Proc) : (dispatched p).state = .RUNNING := by
  unfold dispatched resume
  split <;> rfl

theorem switch_invariant {k : Kernel} {p : Slot} {rest : List Slot}
    (hk : k.cpu = .dispatching (p :: rest)) (h : Invariant k) :
    Invariant { k.set p (dispatched (k.proc p)) with cpu := .running p rest } := by
  have hprio : ∀ i, (Function.update k.proc p (dispatched (k.proc p)) i).priority =
      (k.proc i).priority := by
    intro i
    rcases eq_or_ne i p with rfl | hi
    · rw [Function.update_self, dispatched_priority]
    · rw [Function.update_of_ne hi]
  have hbatch : waitingBatch k = p :: rest := by rw [waitingBatch, hk]
  intro q hq i hi
  have hcontends : Contends k i := by
    rcases hi with hr | ⟨rest', hr⟩ | hr
    · rcases eq_or_ne i p with rfl | hne
      · exact Or.inr (Or.inr (hbatch ▸ List.mem_cons_self))
      · left
        simpa [Kernel.set, hne] using hr
    · cases hr
      exact Or.inr (Or.inr (hbatch ▸ List.mem_cons_self))
    · exact Or.inr (Or.inr (hbatch ▸ List.mem_cons_of_mem p hr))
  show (Function.update k.proc p _ q).priority ≤ (Function.update k.proc p _ i).priority
  rw [hprio, hprio]
  exact h q (hbatch ▸ List.mem_cons_of_mem p hq) i hcontends

theorem act_invariant {k : Kernel} {cur : Slot} {rest : List Slot} {e : Event}
    (hk : k.cpu = .running cur rest) (hi : e = .exit → cur ≠ k.initproc)
    (hh : Harmless k e) (h : Invariant k) : Invariant (act k cur rest e) := by
  have hrouse := act_rouses k cur rest e hi
  have hcpu := act_cpu e hk
  have hbatch : waitingBatch k = rest := by rw [waitingBatch, hk]
  have hbatch' : waitingBatch (act k cur rest e) = rest := by
    rcases hcpu with hc | hc <;> rw [waitingBatch, hc]
  have hcur : Contends k cur := Or.inr (Or.inl ⟨rest, hk⟩)
  rw [Harmless, hk] at hh
  intro q hq i hcon
  rw [hbatch'] at hq
  rw [hrouse.priority, hrouse.priority]
  rcases hcon with hr | ⟨rest', hr⟩ | hr
  · rcases hrouse.runnable i hr with hr | hw | rfl
    · exact h q (hbatch ▸ hq) i (Or.inl hr)
    · exact hh i hw q hq
    · exact h q (hbatch ▸ hq) i hcur
  · rcases hcpu with hc | hc
    · cases hc.symm.trans hr
      exact h q (hbatch ▸ hq) _ hcur
    · cases hc.symm.trans hr
  · exact h q (hbatch ▸ hq) i (Or.inr (Or.inr (by rw [hbatch]; rwa [hbatch'] at hr)))

theorem step_preserves_invariant {k k' : Kernel} {e : Event} (hs : next k e = some k')
    (hh : Harmless k e) (h : Invariant k) : Invariant k' := by
  unfold next at hs
  split at hs
  next hk =>
    cases e with
    | scan => cases hs; exact scan_invariant hk
    | timer => cases hs; exact Invariant.of_idle hk
    | wakeup chan => cases hs; exact Invariant.of_idle hk
    | _ => cases hs
  next hk =>
    cases e with
    | release => cases hs; exact Invariant.of_idle rfl
    | _ => cases hs
  next p rest hk =>
    cases e with
    | switch => cases hs; exact switch_invariant hk h
    | _ => cases hs
  next cur rest hk =>
    rw [Option.ite_none_right_eq_some] at hs
    obtain ⟨hcan, hs⟩ := hs
    cases hs
    refine act_invariant hk ?_ hh h
    rintro rfl rfl
    simp [CanAct] at hcan

theorem run_invariant {k k' : Kernel} {es : List Event} (hr : run k es = some k')
    (hh : Along Harmless k es) (h : Invariant k) : Invariant k' := by
  induction es generalizing k with
  | nil => cases hr; exact h
  | cons e es ih =>
    rw [run, Option.bind_eq_some_iff] at hr
    obtain ⟨m, hm, hr⟩ := hr
    exact ih hr (hh.2 m hm) (step_preserves_invariant hm hh.1 h)

/-- In a run of harmless events, every switch goes to a process of the highest priority
that is runnable at that moment. -/
theorem highest_priority_switched {es : List Event} {k : Kernel} {p : Slot} {rest : List Slot}
    (hr : run boot es = some k) (hh : Along Harmless boot es)
    (hk : k.cpu = .dispatching (p :: rest)) (q : Slot) (hq : (k.proc q).state = .RUNNABLE) :
    (k.proc p).priority ≤ (k.proc q).priority := by
  have hbatch : waitingBatch k = p :: rest := by rw [waitingBatch, hk]
  exact run_invariant hr hh boot_invariant p (hbatch ▸ List.mem_cons_self) q (Or.inl hq)

/-- The first process runs for one tick, forks in its second slice, and both are collected. -/
def forkOnce : List Event :=
  [.scan, .switch, .timer, .release, .scan, .switch, .forkAlloc, .forkDone, .timer, .release,
    .scan]

/-- Two processes of equal priority use up one slice each. -/
def twoSlices : List Event := [.switch, .timer, .switch, .timer, .release, .scan]

/-- Nothing is woken while another collected process waits, so the first switch after the
fork goes to a best process. -/
theorem forkOnce_switched : ∃ k, run boot forkOnce = some k ∧ k.cpu = .dispatching [0, 1] ∧
    (k.proc 1).state = .RUNNABLE ∧ (k.proc 0).priority ≤ (k.proc 1).priority := by
  have hsome : ((run boot forkOnce).any fun k =>
      k.cpu = .dispatching [0, 1] ∧ (k.proc 1).state = .RUNNABLE) = true := by
    decide +kernel
  obtain ⟨k, hr, hk⟩ := (Option.any_eq_true _ _).mp hsome
  simp only [decide_eq_true_eq] at hk
  have hharmless : Along Harmless boot forkOnce := by decide +kernel
  exact ⟨k, hr, hk.1, hk.2, highest_priority_switched hr hharmless hk.1 1 hk.2⟩

/-- At tick 100 both processes drop to priority 12. The first then forks into a fresh slot
of priority 0 and yields, and the scheduler switches to the second. -/
theorem forked_child_overtaken : ∃ k,
    run boot (forkOnce ++ (List.replicate 49 twoSlices).flatten ++
      [.switch, .forkAlloc, .forkDone, .timer]) = some k ∧
    k.cpu = .dispatching [1] ∧ (k.proc 2).state = .RUNNABLE ∧
    (k.proc 2).priority < (k.proc 1).priority := by
  have hsome : ((run boot (forkOnce ++ (List.replicate 49 twoSlices).flatten ++
      [.switch, .forkAlloc, .forkDone, .timer])).any fun k =>
        k.cpu = .dispatching [1] ∧ (k.proc 2).state = .RUNNABLE ∧
          (k.proc 2).priority < (k.proc 1).priority) = true := by
    decide +kernel
  obtain ⟨k, hr, hk⟩ := (Option.any_eq_true _ _).mp hsome
  exact ⟨k, hr, by simpa using hk⟩

end SchedPriority
