import OsProjects.SchedSteps

/-! # Which processes a wakeup reaches

`wakeup1` does not look at its channel. It goes by `sleep_ticks`, which only `sys_sleep`
sets and which stays behind when a sleeper is killed, exits and gives up its slot.
-/
namespace SchedWakeup

open SchedKernel SchedPriority SchedSteps

/-- `ticks++` of the timer interrupt, before its wakeup. -/
def clock (k : Kernel) : Kernel := { k with ticks := (k.ticks + 1) % 4294967296 }

/-- In the loop of `sys_sleep` with ticks left to sleep. -/
def Unexpired (k : Kernel) (i : Slot) : Prop :=
  match (k.proc i).point with
  | .counting n ticks0 => elapsed k ticks0 < n.toNat
  | _ => False

/-- `wakeup(c)` reaches who sleeps on `c` and nobody else. -/
structure Exact (c : Chan) (k : Kernel) : Prop where
  wakes : ∀ i, (k.proc i).state = .SLEEPING → (k.proc i).chan = some c → ¬ Unexpired k i →
    ((wakeup k c).proc i).state = .RUNNABLE
  spares : ∀ i, (k.proc i).state = .SLEEPING → (k.proc i).chan ≠ some c →
    ((wakeup k c).proc i).state = .SLEEPING ∧
      ((wakeup k c).proc i).sleep_ticks = (k.proc i).sleep_ticks

/-- The states of a run in which a wakeup can be called. -/
inductive Visits : Kernel → List Event → Kernel → Prop where
  | here (k : Kernel) (es : List Event) : Visits k es k
  | ticked {k k' : Kernel} {e : Event} (es : List Event) (hs : next k e = some k')
      (he : isTick e = true) : Visits k (e :: es) (clock k)
  | later {k k' u : Kernel} {e : Event} {es : List Event} (hs : next k e = some k')
      (hu : Visits k' es u) : Visits k (e :: es) u

def isCounting : Point → Bool
  | .counting .. => true
  | _ => false

/-- The count with which a process may go to sleep on `chan`, seen from channel `c`. -/
def Settled (c chan : Chan) (point : Point) (sleep_ticks : ℤ) : Prop :=
  if chan = c then isCounting point = true ∨ sleep_ticks = 0 else sleep_ticks < 0

/-- Whoever goes to sleep on `c`, other than in `sys_sleep`, has no ticks left over, and on
another channel a negative number of them. A sleep on `c` that expires with this tick has
been counted down to zero. -/
structure Fit (c : Chan) (k : Kernel) (e : Event) : Prop where
  sleeps : ∀ i rest chan point, k.cpu = .running i rest →
    fallsAsleep k i e = some (chan, point) → Settled c chan point (k.proc i).sleep_ticks
  expires : isTick e = true → ∀ i, (k.proc i).state = .SLEEPING → (k.proc i).chan = some c →
    Unexpired k i → ¬ Unexpired (clock k) i → (k.proc i).sleep_ticks = 0

/-- The counters of the sleepers, as `wakeup(c)` needs them. -/
def Ready (c : Chan) (k : Kernel) : Prop :=
  ∀ i, (k.proc i).state = .SLEEPING →
    ((k.proc i).chan = some c → ¬ Unexpired k i → (k.proc i).sleep_ticks = 0) ∧
    ((k.proc i).chan ≠ some c → (k.proc i).sleep_ticks < 0)

instance (k : Kernel) (i : Slot) : Decidable (Unexpired k i) :=
  match h : (k.proc i).point with
  | .counting n ticks0 => decidable_of_iff (elapsed k ticks0 < n.toNat) (by rw [Unexpired, h])
  | .free | .blocked | .waiting | .forking _ | .armed _ => isFalse (by rw [Unexpired, h]; exact id)

instance (c chan : Chan) (point : Point) (sleep_ticks : ℤ) :
    Decidable (Settled c chan point sleep_ticks) :=
  inferInstanceAs (Decidable (if chan = c then isCounting point = true ∨ sleep_ticks = 0
    else sleep_ticks < 0))

/-- What `Fit.sleeps` asks of the process on the CPU. -/
def settles (c : Chan) (k : Kernel) (e : Event) : Bool :=
  match k.cpu with
  | .running cur _ => (fallsAsleep k cur e).all fun x => Settled c x.1 x.2 (k.proc cur).sleep_ticks
  | _ => true

instance (c : Chan) (k : Kernel) (e : Event) : Decidable (Fit c k e) :=
  decidable_of_iff (settles c k e = true ∧ (isTick e = true → ∀ i, (k.proc i).state = .SLEEPING →
      (k.proc i).chan = some c → Unexpired k i → ¬ Unexpired (clock k) i →
      (k.proc i).sleep_ticks = 0)) (by
    have hsettles : settles c k e = true ↔ ∀ i rest chan point, k.cpu = .running i rest →
        fallsAsleep k i e = some (chan, point) → Settled c chan point (k.proc i).sleep_ticks := by
      unfold settles
      cases k.cpu with
      | running cur rest =>
        simp only [Option.all_eq_true, decide_eq_true_eq, Prod.forall, Cpu.running.injEq, and_imp]
        constructor
        · rintro h i rest' chan point rfl rfl hf
          exact h chan point hf
        · intro h chan point hf
          exact h cur rest chan point rfl rfl hf
      | _ => simp
    rw [hsettles]
    exact ⟨fun h => ⟨h.1, h.2⟩, fun h => ⟨h.sleeps, h.expires⟩⟩)

section Wake

variable {v : View} {c : Chan} {k : Kernel} {i : Slot}

theorem wake_unchanged_iff (hv : v.state = .SLEEPING) :
    ((wake v).state = .SLEEPING ∧ (wake v).sleep_ticks = v.sleep_ticks) ↔ v.sleep_ticks < 0 := by
  unfold wake
  split_ifs with h₁ h₂
  · exact iff_of_false (by simp) (by omega)
  · refine iff_of_false (fun h => ?_) (by omega)
    have hsame : v.sleep_ticks - 1 = v.sleep_ticks := h.2
    omega
  · refine iff_of_true ⟨hv, rfl⟩ ?_
    rw [hv] at h₁ h₂
    simp only [true_and] at h₁ h₂
    omega

/-- What is left of a sleeper after some wakeups that did not wake it. -/
theorem iterate_wake_asleep {m : ℕ} (h : (wake^[m] v).state = .SLEEPING) :
    v.state = .SLEEPING ∧ (wake^[m] v).chan = v.chan ∧
      (v.sleep_ticks ≤ 0 → (wake^[m] v).sleep_ticks = v.sleep_ticks) := by
  induction m generalizing v with
  | zero => exact ⟨h, rfl, fun _ => rfl⟩
  | succ m ih =>
    rw [Function.iterate_succ_apply] at h ⊢
    obtain ⟨hs, hchan, hticks⟩ := ih h
    rw [hchan]
    unfold wake at hs hticks ⊢
    split_ifs at hs hticks ⊢ with h₁ h₂
    · exact ⟨h₂.1, rfl, fun hle => absurd h₂.2 (not_lt.mpr hle)⟩
    · exact ⟨hs, rfl, hticks⟩

theorem exact_iff_ready : Exact c k ↔ Ready c k := by
  have hwake : ∀ i, view ((wakeup k c).proc i) = wake (view (k.proc i)) := view_wakeup1 c k.proc
  have hstate : ∀ i, ((wakeup k c).proc i).state = (wake (view (k.proc i))).state :=
    fun i => congrArg View.state (hwake i)
  have hticks : ∀ i, ((wakeup k c).proc i).sleep_ticks = (wake (view (k.proc i))).sleep_ticks :=
    fun i => congrArg View.sleep_ticks (hwake i)
  constructor
  · intro h i hi
    refine ⟨fun hc hu => ?_, fun hc => ?_⟩
    · exact (wake_runnable_iff (v := view (k.proc i)) hi).mp (hstate i ▸ h.wakes i hi hc hu)
    · have hsame := h.spares i hi hc
      rw [hstate, hticks] at hsame
      exact (wake_unchanged_iff (v := view (k.proc i)) hi).mp hsame
  · intro h
    refine ⟨fun i hi hc hu => ?_, fun i hi hc => ?_⟩
    · rw [hstate]
      exact (wake_runnable_iff (v := view (k.proc i)) hi).mpr ((h i hi).1 hc hu)
    · rw [hstate, hticks]
      exact (wake_unchanged_iff (v := view (k.proc i)) hi).mpr ((h i hi).2 hc)

end Wake

section Steps

variable {c : Chan} {k k' : Kernel} {e : Event} {i : Slot}

theorem unexpired_congr {u : Kernel} (hp : (u.proc i).point = (k.proc i).point)
    (ht : u.ticks = k.ticks) : Unexpired u i ↔ Unexpired k i := by
  simp only [Unexpired, elapsed, hp, ht]

/-- `sys_sleep` goes to sleep only with ticks left. -/
theorem fallsAsleep_counting {chan : Chan} {n : BitVec 32} {ticks0 : ℕ}
    (h : fallsAsleep k i e = some (chan, .counting n ticks0)) : elapsed k ticks0 < n.toNat := by
  have hcounts : ∀ m t, countsOn k i m t = some (chan, .counting n ticks0) →
      elapsed k ticks0 < n.toNat := by
    intro m t hm
    rw [countsOn, Option.ite_none_right_eq_some] at hm
    obtain ⟨⟨hlt, _⟩, heq⟩ := hm
    cases heq
    exact hlt
  cases e with
  | sys_sleep_enter =>
    simp only [fallsAsleep] at h
    split at h
    · exact hcounts _ _ h
    · cases h
  | sys_sleep_check =>
    simp only [fallsAsleep] at h
    split at h
    · exact hcounts _ _ h
    · cases h
  | wait =>
    rw [fallsAsleep, Option.ite_none_right_eq_some] at h
    cases h.2
  | _ => cases h

theorem fallsAsleep_not_tick {x : Chan × Point} (h : fallsAsleep k i e = some x) :
    isTick e = false := by
  cases e with
  | timer => cases h
  | timerKilled => cases h
  | _ => rfl

theorem clock_ready (he : isTick e = true) (hf : Fit c k e) (h : Ready c k) :
    Ready c (clock k) := by
  intro i hi
  refine ⟨fun hc hu => ?_, (h i hi).2⟩
  by_cases hold : Unexpired k i
  · exact hf.expires he i hi hc hold hu
  · exact (h i hi).1 hc hold

theorem step_ready (hsane : Sane k) (hs : next k e = some k') (hf : Fit c k e) (h : Ready c k) :
    Ready c k' := by
  -- the table as the wakeups of this step find it
  obtain ⟨m, hm, hproc, hticks⟩ : ∃ m, Ready c m ∧ m.proc = k.proc ∧ m.ticks = k'.ticks := by
    have hstep := step_ticks hs
    by_cases he : isTick e = true
    · exact ⟨clock k, clock_ready he hf h, rfl, by rw [hstep, if_pos he]; rfl⟩
    · exact ⟨k, h, rfl, by rw [hstep, if_neg he]⟩
  intro i hi
  cases step_moves hsane hs i with
  | woken hv =>
    have hasleep : (wake^[wakeups k e] (view (k.proc i))).state = .SLEEPING := hv ▸ hi
    obtain ⟨hs', hchan, hleft⟩ := iterate_wake_asleep hasleep
    have hpoint : (k'.proc i).point = (m.proc i).point := by
      rw [hproc]
      exact (congrArg View.point hv).trans (iterate_wake_point _ _)
    have hchan' : (k'.proc i).chan = (m.proc i).chan := by
      rw [hproc]
      exact (congrArg View.chan hv).trans hchan
    have hleft' : (m.proc i).sleep_ticks ≤ 0 →
        (k'.proc i).sleep_ticks = (m.proc i).sleep_ticks := by
      rw [hproc]
      exact fun hle => (congrArg View.sleep_ticks hv).trans (hleft hle)
    obtain ⟨hown, hother⟩ := hm i (hproc ▸ hs')
    rw [hchan']
    refine ⟨fun hc hu => ?_, fun hc => ?_⟩
    · have hzero := hown hc (mt (unexpired_congr hpoint hticks.symm).mpr hu)
      rw [hleft' hzero.le, hzero]
    · have hneg := hother hc
      rw [hleft' hneg.le]
      exact hneg
  | asleep rest chan point hk hfalls hv =>
    have hset := hf.sleeps i rest chan point hk hfalls
    have hticks' : (k'.proc i).sleep_ticks = (k.proc i).sleep_ticks := congrArg View.sleep_ticks hv
    have hchan : (k'.proc i).chan = some chan := congrArg View.chan hv
    have hpoint : (k'.proc i).point = point := congrArg View.point hv
    unfold Settled at hset
    rw [hticks', hchan]
    refine ⟨fun hc hu => ?_, fun hc => ?_⟩
    · rw [if_pos (Option.some.inj hc)] at hset
      refine hset.resolve_left fun hcounting => hu ?_
      cases point with
      | counting n ticks0 =>
        have hstep := step_ticks hs
        rw [fallsAsleep_not_tick hfalls, if_neg (by decide)] at hstep
        simp only [Unexpired, hpoint, elapsed, hstep]
        exact fallsAsleep_counting hfalls
      | _ => cases hcounting
    · rwa [if_neg fun heq => hc (congrArg some heq)] at hset
  | awake now before => exact absurd hi now

/-- A process that goes to sleep unsettled is not served by the next wakeup. -/
theorem fit_of_ready (hs : next k e = some k') (h' : Ready c k')
    (hclock : isTick e = true → Ready c (clock k)) : Fit c k e := by
  constructor
  · intro i rest chan point hk hfalls
    obtain rfl := falls_asleep hs hk hfalls
    have hi : (sleep k i rest chan point).proc i =
        { k.proc i with chan := some chan, state := .SLEEPING, point := point } := by
      simp [sleep, sched, Kernel.set]
    have hready := h' i (by rw [hi])
    rw [hi] at hready
    unfold Settled
    split_ifs with hc
    · by_cases hcounting : isCounting point = true
      · exact Or.inl hcounting
      · refine Or.inr (hready.1 (congrArg some hc) fun hu => hcounting ?_)
        simp only [Unexpired, hi] at hu
        cases point with
        | counting n ticks0 => rfl
        | _ => exact absurd hu id
    · exact hready.2 fun heq => hc (Option.some.inj heq)
  · intro he i hi hc _ hu
    exact (hclock he i hi).1 hc hu

end Steps

section Runs

variable {c : Chan} {k k' u : Kernel} {es : List Event}

theorem visits_ready (hsane : Sane k) (hr : run k es = some k') (hf : Along (Fit c) k es)
    (h : Ready c k) (hu : Visits k es u) : Ready c u := by
  induction hu with
  | here k es => exact h
  | ticked es hs he => exact clock_ready he hf.1 h
  | later hs _ ih =>
    rw [run, hs] at hr
    exact ih (step_sane hs hsane) hr (hf.2 _ hs) (step_ready hsane hs hf.1 h)

theorem fit_of_visits_ready (hr : run k es = some k') (h : ∀ u, Visits k es u → Ready c u) :
    Along (Fit c) k es := by
  induction es generalizing k with
  | nil => trivial
  | cons e es ih =>
    rw [run, Option.bind_eq_some_iff] at hr
    obtain ⟨m, hs, hr⟩ := hr
    refine ⟨?_, fun k₁ hs₁ => ?_⟩
    · exact fit_of_ready hs (h m (.later hs (.here m es))) fun he => h _ (.ticked es hs he)
    · cases hs.symm.trans hs₁
      exact ih hr fun u hu => h u (.later hs hu)

/-- `wakeup(c)` is exact wherever a run may call it, exactly when every step of the run is
fit for `c`. -/
theorem wakeup_exact_iff_fit (c : Chan) (hr : run boot es = some k) :
    (∀ u, Visits boot es u → Exact c u) ↔ Along (Fit c) boot es := by
  have hboot : Ready c boot := by
    intro i hi
    simp only [boot] at hi
    split_ifs at hi
    cases hi
  constructor
  · intro h
    exact fit_of_visits_ready hr fun u hu => exact_iff_ready.mp (h u hu)
  · intro hf u hu
    exact exact_iff_ready.mpr (visits_ready boot_sane hr hf hboot hu)

end Runs

/-- The first process waits for the console, and its wakeup comes. -/
def consoleRead : List Event :=
  [.scan, .switch, .sleep (.object 5), .release, .wakeup (.object 5)]

theorem consoleRead_exact : ∃ k, run boot consoleRead = some k ∧ (k.proc 0).state = .RUNNABLE ∧
    ∀ u, Visits boot consoleRead u → Exact (.object 5) u := by
  have hsome : ((run boot consoleRead).any fun k => (k.proc 0).state = .RUNNABLE) = true := by
    decide +kernel
  obtain ⟨k, hr, hk⟩ := (Option.any_eq_true _ _).mp hsome
  have hfit : Along (Fit (.object 5)) boot consoleRead := by decide +kernel
  exact ⟨k, hr, by simpa using hk, (wakeup_exact_iff_fit _ hr).mpr hfit⟩

/-- The child sleeps in `sys_sleep(5)`, is killed, and sleeps on its way out. -/
def killedSleeper : List Event :=
  forkOnce ++ [.switch, .timer, .switch, .sys_sleep 5, .sys_sleep_enter, .release, .scan, .switch,
    .kill 2, .timer, .release, .scan, .switch, .timer, .switch, .sys_sleep_check,
    .sleep (.object 7)]

/-- Its wakeup is lost; and the console reader wakes up for the disk. -/
theorem wakeup_lost_and_stray :
    (∃ k, run boot killedSleeper = some k ∧ ¬ Exact (.object 7) k) ∧
      ∃ k, run boot [.scan, .switch, .sleep (.object 5)] = some k ∧ ¬ Exact (.object 6) k := by
  constructor
  · have hsome : ((run boot killedSleeper).any fun k =>
        (k.proc 1).state = .SLEEPING ∧ (k.proc 1).chan = some (.object 7) ∧ ¬ Unexpired k 1 ∧
          ((wakeup k (.object 7)).proc 1).state = .SLEEPING) = true := by
      decide +kernel
    obtain ⟨k, hr, hk⟩ := (Option.any_eq_true _ _).mp hsome
    simp only [decide_eq_true_eq] at hk
    obtain ⟨hstate, hchan, hu, hafter⟩ := hk
    refine ⟨k, hr, fun h => ?_⟩
    cases hafter.symm.trans (h.wakes 1 hstate hchan hu)
  · have hsome : ((run boot [.scan, .switch, .sleep (.object 5)]).any fun k =>
        (k.proc 0).state = .SLEEPING ∧ (k.proc 0).chan = some (.object 5) ∧
          ((wakeup k (.object 6)).proc 0).state = .RUNNABLE) = true := by
      decide +kernel
    obtain ⟨k, hr, hk⟩ := (Option.any_eq_true _ _).mp hsome
    simp only [decide_eq_true_eq] at hk
    obtain ⟨hstate, hchan, hafter⟩ := hk
    refine ⟨k, hr, fun h => ?_⟩
    cases hafter.symm.trans (h.spares 0 hstate (by simp [hchan])).1

end SchedWakeup
