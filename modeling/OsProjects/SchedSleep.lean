import OsProjects.SchedSteps

/-! # How long `sys_sleep` sleeps

A sleeper is made RUNNABLE by the wakeup after `sleep_ticks` has been counted down to zero,
and every call of `wakeup1` counts, whoever makes it.
-/
namespace SchedSleep

open SchedKernel SchedPriority SchedSteps

def ticksIn (es : List Event) : ℕ := es.countP isTick

/-- The calls of `wakeup1` in a run that are not the timer's. -/
def otherWakeups (k : Kernel) : List Event → ℕ
  | [] => 0
  | e :: es => (if isTick e then 0 else wakeups k e) +
    match next k e with
    | some k' => otherWakeups k' es
    | none => 0

/-- The event is not a `kill` of process `i`. -/
def Spared (i : Slot) (k : Kernel) (e : Event) : Prop := ∀ pid, e = .kill pid → (k.proc i).pid ≠ pid

/-- The process sleeps in every state of the run. -/
def Asleep (i : Slot) (k : Kernel) : List Event → Prop
  | [] => (k.proc i).state = .SLEEPING
  | e :: es => (k.proc i).state = .SLEEPING ∧ ∀ k', next k e = some k' → Asleep i k' es

section Countdown

variable {v : View} {n m : ℕ}

theorem iterate_wake_count (hs : v.state = .SLEEPING) (ht : v.sleep_ticks = n) (hm : m ≤ n) :
    wake^[m] v = { v with sleep_ticks := n - m } := by
  induction m with
  | zero =>
    obtain ⟨state, chan, ticks, point, killed⟩ := v
    cases ht
    simp
  | succ m ih =>
    have hpos : (0 : ℤ) < n - m := by omega
    rw [Function.iterate_succ_apply', ih (Nat.le_of_succ_le hm), wake, if_neg fun h => hpos.ne' h.2,
      if_pos ⟨hs, hpos⟩]
    simp only [View.mk.injEq, true_and, and_true]
    omega

theorem iterate_wake_runnable (hs : v.state = .SLEEPING) (ht : v.sleep_ticks = n) (hm : n < m) :
    (wake^[m] v).state = .RUNNABLE := by
  obtain ⟨d, rfl⟩ := Nat.exists_eq_add_of_lt hm
  have hwoken : wake (wake^[n] v) = { v with state := .RUNNABLE, sleep_ticks := 0 } := by
    rw [iterate_wake_count hs ht le_rfl, Int.sub_self]
    exact if_pos ⟨hs, rfl⟩
  rw [show n + d + 1 = d + (n + 1) by omega, Function.iterate_add_apply,
    Function.iterate_succ_apply', hwoken, iterate_wake_of_awake (by simp)]

end Countdown

section Sleeper

variable {k k' : Kernel} {e : Event} {i : Slot} {es : List Event} {n : ℕ}

/-- A sleeper that is not killed is changed by the wakeups alone. -/
theorem step_sleeper (hsane : Sane k) (hs : next k e = some k')
    (hi : (k.proc i).state = .SLEEPING) (hspared : Spared i k e) :
    view (k'.proc i) = wake^[wakeups k e] (view (k.proc i)) := by
  cases step_moves hsane hs i with
  | woken h => exact h
  | asleep rest chan point hk _ _ =>
    rw [hsane.current i rest hk] at hi
    cases hi
  | awake _ before =>
    rcases before with hawake | ⟨pid, he, hpid⟩
    · exact absurd hi hawake
    · exact absurd hpid (hspared pid he)

theorem tick_spared (he : isTick e = true) : Spared i k e := by
  rintro pid rfl
  cases he

theorem tick_wakeups (he : isTick e = true) : wakeups k e = 1 := by
  cases e with
  | timer => rfl
  | timerKilled => rfl
  | _ => cases he

theorem wakeups_cons (hs : next k e = some k') :
    ticksIn (e :: es) + otherWakeups k (e :: es) =
      wakeups k e + (ticksIn es + otherWakeups k' es) := by
  have hrest : otherWakeups k (e :: es) =
      (if isTick e then 0 else wakeups k e) + otherWakeups k' es := by
    simp only [otherWakeups, hs]
  rw [ticksIn, List.countP_cons, hrest]
  by_cases he : isTick e = true
  · rw [if_pos he, if_pos he, tick_wakeups he, ticksIn]
    omega
  · rw [if_neg he, if_neg he, ticksIn]
    omega

/-- With at most `n` wakeups the sleeper sleeps on and has counted each of them. -/
theorem run_counted (hsane : Sane k) (hr : run k es = some k') (hspared : Along (Spared i) k es)
    (hi : (k.proc i).state = .SLEEPING) (ht : (k.proc i).sleep_ticks = n)
    (hn : ticksIn es + otherWakeups k es ≤ n) :
    Asleep i k es ∧ (k'.proc i).state = .SLEEPING ∧
      (k'.proc i).sleep_ticks = n - (ticksIn es + otherWakeups k es : ℕ) := by
  induction es generalizing k n with
  | nil =>
    cases hr
    refine ⟨hi, hi, ?_⟩
    simp [ht, ticksIn, otherWakeups]
  | cons e es ih =>
    rw [run, Option.bind_eq_some_iff] at hr
    obtain ⟨m, hs, hr⟩ := hr
    rw [wakeups_cons hs] at hn ⊢
    have hview := step_sleeper hsane hs hi hspared.1
    rw [iterate_wake_count (v := view (k.proc i)) hi ht (by omega)] at hview
    have hstate : (m.proc i).state = .SLEEPING := (congrArg View.state hview).trans hi
    have hticks : (m.proc i).sleep_ticks = (n - wakeups k e : ℕ) := by
      have hcount : (m.proc i).sleep_ticks = n - wakeups k e := congrArg View.sleep_ticks hview
      omega
    obtain ⟨hasleep, hend, hleft⟩ := ih (step_sane hs hsane) hr (hspared.2 m hs) hstate hticks
      (by omega)
    refine ⟨⟨hi, fun m' hm' => ?_⟩, hend, ?_⟩
    · cases hs.symm.trans hm'
      exact hasleep
    · rw [hleft]
      omega

/-- A process that sleeps throughout has not seen more than `n` wakeups. -/
theorem asleep_counted (hsane : Sane k) (hr : run k es = some k')
    (hspared : Along (Spared i) k es) (ht : (k.proc i).sleep_ticks = n) (h : Asleep i k es) :
    ticksIn es + otherWakeups k es ≤ n := by
  induction es generalizing k n with
  | nil => simp [ticksIn, otherWakeups]
  | cons e es ih =>
    rw [run, Option.bind_eq_some_iff] at hr
    obtain ⟨m, hs, hr⟩ := hr
    rw [wakeups_cons hs]
    have hview := step_sleeper hsane hs h.1 hspared.1
    have hrest := h.2 m hs
    have hstate : (m.proc i).state = .SLEEPING := by
      cases es with
      | nil => exact hrest
      | cons => exact hrest.1
    have hle : wakeups k e ≤ n := by
      by_contra hlt
      have hrunnable := iterate_wake_runnable (v := view (k.proc i)) h.1 ht (not_le.mp hlt)
      cases hstate.symm.trans ((congrArg View.state hview).trans hrunnable)
    rw [iterate_wake_count (v := view (k.proc i)) h.1 ht hle] at hview
    have hticks : (m.proc i).sleep_ticks = (n - wakeups k e : ℕ) := by
      have hcount : (m.proc i).sleep_ticks = n - wakeups k e := congrArg View.sleep_ticks hview
      omega
    have := ih (step_sane hs hsane) hr (hspared.2 m hs) hticks hrest
    omega

theorem run_ticks (hr : run k es = some k') (hk : k.ticks < 4294967296) :
    k'.ticks = (k.ticks + ticksIn es) % 4294967296 := by
  induction es generalizing k with
  | nil =>
    cases hr
    exact (Nat.mod_eq_of_lt hk).symm
  | cons e es ih =>
    rw [run, Option.bind_eq_some_iff] at hr
    obtain ⟨m, hs, hr⟩ := hr
    have hstep := step_ticks hs
    rw [ticksIn, List.countP_cons]
    by_cases he : isTick e = true
    · rw [if_pos he] at hstep ⊢
      rw [ih hr (by omega), hstep, ticksIn]
      omega
    · rw [if_neg he] at hstep ⊢
      rw [ih hr (by omega), hstep, ticksIn]
      rfl

end Sleeper

section Exactly

variable {k k₁ k₂ k₃ : Kernel} {e : Event} {cur : Slot} {rest : List Slot} {es mid : List Event}
  {n : BitVec 32}

/-- `sys_sleep(n)` with `n > 0` goes to sleep with all its ticks. -/
theorem sleep_entered (hsane : Sane k) (hk : k.cpu = .running cur rest)
    (hp : (k.proc cur).point = .armed n) (hn : 0 < n.toInt) (hlive : (k.proc cur).killed = false)
    (hs : next k .sys_sleep_enter = some k₁) : (k₁.proc cur).state = .SLEEPING ∧
      (k₁.proc cur).sleep_ticks = n.toNat ∧ k₁.ticks = k.ticks := by
  have hpos : (n.toNat : ℤ) = n.toInt ∧ 0 < n.toNat := by
    have := BitVec.toInt_eq_toNat_cond n
    split_ifs at this <;> omega
  have hfalls : fallsAsleep k cur .sys_sleep_enter = some (.ticks, .counting n k.ticks) := by
    have hzero : elapsed k k.ticks = 0 := by
      rw [elapsed]
      omega
    simp only [fallsAsleep, hp]
    rw [countsOn, if_pos ⟨hzero ▸ hpos.2, hlive⟩]
  obtain rfl := falls_asleep hs hk hfalls
  refine ⟨by simp [sleep, sched, Kernel.set], ?_, rfl⟩
  rw [hpos.1, ← (hsane.forks.armed cur n hp).2]
  simp [sleep, sched, Kernel.set]

/-- A process that goes to sleep in `sys_sleep(n)` at tick `t` and is not killed sleeps up to
the interrupt that sets `ticks` to `t + n` and is RUNNABLE after it, exactly when one wakeup
other than the timer's falls into that time. -/
theorem sleep_exact_iff_one_wakeup (hr : run boot es = some k) (hk : k.cpu = .running cur rest)
    (hp : (k.proc cur).point = .armed n) (hn : 0 < n.toInt) (hlive : (k.proc cur).killed = false)
    (hs : next k .sys_sleep_enter = some k₁) (hmid : run k₁ mid = some k₂)
    (hspared : Along (Spared cur) k₁ mid) (he : isTick e = true)
    (hcount : ticksIn mid + 1 = n.toNat) (hlast : next k₂ e = some k₃) :
    k₃.ticks = (k.ticks + n.toNat) % 4294967296 ∧
      (Asleep cur k₁ mid ∧ (k₃.proc cur).state = .RUNNABLE ↔ otherWakeups k₁ mid = 1) := by
  have hsane := run_sane hr boot_sane
  have hsane₁ := step_sane hs hsane
  have hsane₂ := run_sane hmid hsane₁
  obtain ⟨hstate, hticks, hclock⟩ := sleep_entered hsane hk hp hn hlive hs
  have hlast' : ∀ m : ℕ, (k₂.proc cur).state = .SLEEPING → (k₂.proc cur).sleep_ticks = m →
      ((k₃.proc cur).state = .RUNNABLE ↔ m = 0) := by
    intro m hi hm
    have hview := step_sleeper hsane₂ hlast hi (tick_spared he)
    rw [tick_wakeups he] at hview
    have hwake : (k₃.proc cur).state = (wake (view (k₂.proc cur))).state := congrArg View.state hview
    rw [hwake, wake_runnable_iff (v := view (k₂.proc cur)) hi]
    exact (congrArg (· = 0) hm).to_iff.trans (by simp)
  constructor
  · have hlt : k.ticks < 4294967296 := by
      rw [run_ticks hr (by simp [boot])]
      exact Nat.mod_lt _ (by decide)
    rw [step_ticks hlast, if_pos he, run_ticks hmid (hclock ▸ hlt), hclock, ← hcount]
    omega
  · constructor
    · rintro ⟨hasleep, hrunnable⟩
      have hle := asleep_counted hsane₁ hmid hspared hticks hasleep
      obtain ⟨-, hend, hleft⟩ := run_counted hsane₁ hmid hspared hstate hticks hle
      have hzero := (hlast' (n.toNat - (ticksIn mid + otherWakeups k₁ mid)) hend
        (by rw [hleft]; omega)).mp hrunnable
      omega
    · intro hone
      obtain ⟨hasleep, hend, hleft⟩ := run_counted hsane₁ hmid hspared hstate hticks (by omega)
      exact ⟨hasleep, (hlast' 0 hend (by rw [hleft]; omega)).mpr rfl⟩

end Exactly

instance (i : Slot) (k : Kernel) (e : Event) : Decidable (Spared i k e) :=
  match e with
  | .kill pid => decidable_of_iff ((k.proc i).pid ≠ pid) (by simp [Spared])
  | .scan | .switch | .release | .timer | .timerKilled | .wakeup _ | .fault | .sleep _
  | .sys_sleep _ | .sys_sleep_enter | .sys_sleep_check | .nice _ | .forkAlloc | .forkFail
  | .forkDone | .wait | .exit => isTrue (by simp [Spared])

/-- The first process is in `sys_sleep(1)` and has not read the clock yet. -/
def sleepOne : List Event := [.scan, .switch, .sys_sleep 1]

/-- One interrupt of the console makes up for the tick that is missing. -/
theorem one_wakeup_exact : ∃ k k₁ k₂ k₃, run boot sleepOne = some k ∧
    next k .sys_sleep_enter = some k₁ ∧ run k₁ [.release, .wakeup (.object 5)] = some k₂ ∧
    next k₂ .timer = some k₃ ∧ Asleep 0 k₁ [.release, .wakeup (.object 5)] ∧
    (k₃.proc 0).state = .RUNNABLE := by
  have hall : ((run boot sleepOne).any fun k => k.cpu = .running 0 [] ∧
      (k.proc 0).point = .armed 1 ∧ (k.proc 0).killed = false ∧
      ((next k .sys_sleep_enter).any fun k₁ =>
        Along (Spared 0) k₁ [.release, .wakeup (.object 5)] ∧
        otherWakeups k₁ [.release, .wakeup (.object 5)] = 1 ∧
        ((run k₁ [.release, .wakeup (.object 5)]).any fun k₂ => (next k₂ .timer).isSome))) = true := by
    decide +kernel
  obtain ⟨k, hr, hall⟩ := (Option.any_eq_true _ _).mp hall
  simp only [decide_eq_true_eq] at hall
  obtain ⟨hk, hp, hlive, hall⟩ := hall
  obtain ⟨k₁, hs, hall⟩ := (Option.any_eq_true _ _).mp hall
  simp only [decide_eq_true_eq] at hall
  obtain ⟨hspared, hone, hall⟩ := hall
  obtain ⟨k₂, hmid, hall⟩ := (Option.any_eq_true _ _).mp hall
  obtain ⟨k₃, hlast⟩ := Option.isSome_iff_exists.mp hall
  have hexact := (sleep_exact_iff_one_wakeup hr hk hp (by decide) hlive hs hmid hspared rfl rfl
    hlast).2.mpr hone
  exact ⟨k, k₁, k₂, k₃, hr, hs, hmid, hlast, hexact⟩

/-- With no other wakeup `sys_sleep(1)` sleeps through tick 1, and with two it is RUNNABLE
at tick 0. -/
theorem sleep_late_and_early :
    (∃ k, run boot (sleepOne ++ [.sys_sleep_enter, .release, .timer]) = some k ∧ k.ticks = 1 ∧
      (k.proc 0).state = .SLEEPING) ∧
    ∃ k, run boot (sleepOne ++ [.sys_sleep_enter, .release, .wakeup (.object 5),
      .wakeup (.object 5)]) = some k ∧ k.ticks = 0 ∧ (k.proc 0).state = .RUNNABLE := by
  constructor
  · have hsome : ((run boot (sleepOne ++ [.sys_sleep_enter, .release, .timer])).any fun k =>
        k.ticks = 1 ∧ (k.proc 0).state = .SLEEPING) = true := by
      decide +kernel
    obtain ⟨k, hr, hk⟩ := (Option.any_eq_true _ _).mp hsome
    exact ⟨k, hr, by simpa using hk⟩
  · have hsome : ((run boot (sleepOne ++ [.sys_sleep_enter, .release, .wakeup (.object 5),
        .wakeup (.object 5)])).any fun k => k.ticks = 0 ∧ (k.proc 0).state = .RUNNABLE) = true := by
      decide +kernel
    obtain ⟨k, hr, hk⟩ := (Option.any_eq_true _ _).mp hsome
    exact ⟨k, hr, by simpa using hk⟩

end SchedSleep
