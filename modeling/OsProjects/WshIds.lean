import OsProjects.WshJobs

/-! # Job ids of the shell

A new job gets the smallest id that no unreaped job holds as long as every slot belongs to an
unreaped child when it is created. Slots are released in two places and children reaped in
four; the conditions below are on the state before each of these.
-/
namespace WshIds

open Runs WshJobs

/-- The job with this id was created and its process is not reaped yet. -/
def Held (s : Shell) (id : ℤ) : Prop := ∃ pid c, s.children pid = some c ∧ c.job = id

/-- The id is the smallest positive one that is not held. -/
structure Smallest (s : Shell) (id : ℤ) : Prop where
  positive : 0 < id
  free : ¬ Held s id
  below : ∀ m, 0 < m → m < id → Held s m

/-- Index `i` is that of an entry of `jobs` and `id`. -/
def Index (i : ℤ) : Prop := 0 ≤ i ∧ i < MAX_ARGS

/-- No slot belongs to a reaped job. -/
structure Occupied (s : Shell) : Prop where
  jobs : ∀ i j, Index i → s.jobs i = some j → ∃ c, s.children j.pid = some c ∧ c.job = i + 1
  ids : ∀ i, Index i → s.id i = true → Held s (i + 1)

/-- When a job is created, its id is the smallest free one and the table holds no reaped job. -/
def Right (s : Shell) : Event → Prop
  | .step _ => s.causes = [] → ∀ pid background, s.point = .forked pid background →
    Occupied s ∧ ∃ id, (add_job s pid background).point = .added pid id background ∧ Smallest s id
  | _ => True

/-- The slot of a child that is reaped is already free, or the pending delivery frees it. -/
def Settled (s : Shell) (pid : ℕ) : Prop :=
  ∀ c, s.children pid = some c → c.process = .zombie →
    (∀ j, s.jobs (c.job - 1) = some j → j.pid ≠ pid) ∨ s.causes ≠ [] ∧ s.cur_id = c.job

/-- The handler frees the slot of the current job if the process is reaped or about to be,
and of no other. -/
def Releases (s : Shell) (j : Job) : Prop :=
  (j.status = 1 → ∀ c, s.children j.pid = some c → c.job = s.cur_id →
    c.process = .zombie ∧ s.point = .waiting j.pid s.cur_id) ∧
  (j.status ≠ 1 → ∃ c, s.children j.pid = some c ∧ c.job = s.cur_id)

/-- The condition on the state before each step. -/
def Safe (s : Shell) : Event → Prop
  | .step _ =>
    match s.point with
    -- The sweep would free the slot of a child that has just stopped.
    | .sweep i _ => i < MAX_ARGS → ∀ j c, s.jobs i = some j → s.children j.pid = some c →
      c.process ≠ .stopped false
    | .forked _ _ => ∃ i : ℕ, i < MAX_ARGS ∧ s.id i = false
    | _ => True
  | .endWait _ =>
    match s.point with
    | .added pid _ _ => Settled s pid
    | .waiting pid _ => Settled s pid
    | .fgWaiting pid _ => Settled s pid
    | _ => True
  | .deliver => s.cur_id ≠ -1 → ∀ j, s.jobs (s.cur_id - 1) = some j → Releases s j
  | _ => True

/-- Slots and unreaped children match, up to a reaped child whose slot the pending delivery
frees and a child about to be reaped whose slot is free. -/
structure Invariant (s : Shell) : Prop where
  marked : ∀ i, Index i → (s.id i = true ↔ s.jobs i ≠ none)
  current : s.cur_id = -1 ∨ Index (s.cur_id - 1)
  occupied : ∀ i j, Index i → s.jobs i = some j →
    (∃ c, s.children j.pid = some c ∧ c.job = i + 1) ∨ s.causes ≠ [] ∧ s.cur_id = i + 1
  held : ∀ pid c, s.children pid = some c →
    (c.job = 0 ∧ ∃ background, s.point = .forked pid background) ∨
      (Index (c.job - 1) ∧ ∃ j, s.jobs (c.job - 1) = some j ∧ j.pid = pid) ∨
      (Index (c.job - 1) ∧ c.process = .zombie ∧ s.point = .waiting pid c.job)
  forked : ∀ pid background, s.point = .forked pid background →
    ∃ c, s.children pid = some c ∧ c.job = 0
  added : ∀ pid id background, s.point = .added pid id background → Index (id - 1)

section Updates

variable {s : Shell} {pid : ℕ} {c : Child} {q : Point}

/-- Points at which no child waits for its job and none for being reaped. -/
def Plain (q : Point) : Prop :=
  (∀ pid background, q ≠ .forked pid background) ∧ (∀ pid id, q ≠ .waiting pid id)

theorem Invariant.slot (h : Invariant s) (hp : Plain s.point) (hc : s.children pid = some c) :
    Index (c.job - 1) ∧ ∃ j, s.jobs (c.job - 1) = some j ∧ j.pid = pid := by
  rcases h.held pid c hc with ⟨-, background, hpoint⟩ | hslot | ⟨-, -, hpoint⟩
  · exact absurd hpoint (hp.1 pid background)
  · exact hslot
  · exact absurd hpoint (hp.2 pid c.job)

/-- The shell goes from one point to another without touching its tables. -/
theorem Invariant.move (h : Invariant s) (hp : Plain s.point)
    (hforked : ∀ pid background, q ≠ .forked pid background)
    (hadded : ∀ pid id background, q = .added pid id background → Index (id - 1)) :
    Invariant { s with point := q } where
  marked := h.marked
  current := h.current
  occupied := h.occupied
  held _ _ hc := .inr (.inl (h.slot hp hc))
  forked pid background hq := absurd hq (hforked pid background)
  added := hadded

theorem Invariant.setStatus (h : Invariant s) (i : ℤ) (status : ℕ) :
    Invariant (s.setStatus i status) := by
  have hkeep : ∀ k, (s.setStatus i status).jobs k ≠ none ↔ s.jobs k ≠ none := by
    intro k
    rcases eq_or_ne k i with rfl | hk
    · simp [Shell.setStatus]
    · simp [Shell.setStatus, Function.update_of_ne hk]
  have hpid : ∀ {k j}, s.jobs k = some j →
      ∃ j', (s.setStatus i status).jobs k = some j' ∧ j'.pid = j.pid := by
    intro k j hj
    rcases eq_or_ne k i with rfl | hk
    · exact ⟨{ j with status := status }, by simp [Shell.setStatus, hj], rfl⟩
    · exact ⟨j, by simp [Shell.setStatus, Function.update_of_ne hk, hj], rfl⟩
  refine ⟨fun k hk => (h.marked k hk).trans (hkeep k).symm, h.current, fun k j hk hj => ?_,
    fun pid c hc => ?_, h.forked, h.added⟩
  · obtain ⟨j₀, hj₀⟩ := Option.ne_none_iff_exists'.mp ((hkeep k).mp (by rw [hj]; simp))
    obtain ⟨j', hj', hp⟩ := hpid hj₀
    obtain rfl := Option.some.inj (hj.symm.trans hj')
    rw [hp]
    exact h.occupied k j₀ hk hj₀
  · refine (h.held pid c hc).imp_right (Or.imp_left fun ⟨hi, j, hj, hp⟩ => ?_)
    obtain ⟨j', hj', hp'⟩ := hpid hj
    exact ⟨hi, j', hj', hp'.trans hp⟩

/-- A child that is no zombie changes. -/
theorem Invariant.setProcess (h : Invariant s) (hc : s.children pid = some c)
    (hz : c.process ≠ .zombie) (p : Process) {causes : List ℕ}
    (hcauses : s.causes ≠ [] → causes ≠ []) :
    Invariant { s.setProcess pid p with causes := causes } := by
  have hkeep : ∀ {q d}, s.children q = some d →
      ∃ d', (s.setProcess pid p).children q = some d' ∧ d'.job = d.job ∧ (q ≠ pid → d' = d) := by
    intro q d hd
    rcases eq_or_ne q pid with rfl | hq
    · exact ⟨{ d with process := p }, by simp [Shell.setProcess, hd], rfl, fun hne => absurd rfl hne⟩
    · exact ⟨d, by simp [Shell.setProcess, Function.update_of_ne hq, hd], rfl, fun _ => rfl⟩
  refine ⟨h.marked, h.current, fun k j hk hj => ?_, fun q d hd => ?_, fun q background hq => ?_,
    h.added⟩
  · rcases h.occupied k j hk hj with ⟨d, hd, hjob⟩ | ⟨hpending, hcur⟩
    · obtain ⟨d', hd', hsame, -⟩ := hkeep hd
      exact .inl ⟨d', hd', hsame.trans hjob⟩
    · exact .inr ⟨hcauses hpending, hcur⟩
  · rcases eq_or_ne q pid with rfl | hq
    · have hsame : d.job = c.job := by
        obtain ⟨d', hd', hjob, -⟩ := hkeep hc
        obtain rfl := Option.some.inj (hd.symm.trans hd')
        exact hjob
      rw [hsame]
      rcases h.held q c hc with hnew | hslot | ⟨-, hzombie, -⟩
      · exact .inl hnew
      · exact .inr (.inl hslot)
      · exact absurd hzombie hz
    · have hold : s.children q = some d := by
        simpa [Shell.setProcess, Function.update_of_ne hq] using hd
      exact h.held q d hold
  · obtain ⟨d, hd, hjob⟩ := h.forked q background hq
    obtain ⟨d', hd', hsame, -⟩ := hkeep hd
    exact ⟨d', hd', hsame.trans hjob⟩

theorem Invariant.cont (h : Invariant s) (pid : ℕ) : Invariant (WshJobs.cont s pid) := by
  unfold WshJobs.cont
  split
  next reported job hc =>
    exact h.setProcess hc (by simp) .running fun _ => List.cons_ne_nil _ _
  next => exact h

@[simp] theorem cont_point (s : Shell) (pid : ℕ) : (WshJobs.cont s pid).point = s.point := by
  unfold WshJobs.cont
  split <;> rfl

/-- A zombie is reaped whose slot is free, or freed by the pending delivery. -/
theorem Invariant.reap (h : Invariant s) (hc : s.children pid = some c) (hz : c.process = .zombie)
    (hsettled : Settled s pid) (hforked : ∀ pid background, s.point ≠ .forked pid background)
    (hwaiting : ∀ other id, s.point = .waiting other id → other = pid) (hq : Plain q)
    (hadded : ∀ pid id background, q ≠ .added pid id background) :
    Invariant { s with children := Function.update s.children pid none, point := q } := by
  refine ⟨h.marked, h.current, fun k j hk hj => ?_, fun other d hd => ?_,
    fun other background hpoint => absurd hpoint (hq.1 other background),
    fun other id background hpoint => absurd hpoint (hadded other id background)⟩
  · rcases h.occupied k j hk hj with ⟨d, hd, hjob⟩ | hpending
    · rcases eq_or_ne j.pid pid with hpid | hpid
      · rw [hpid] at hd
        obtain rfl := Option.some.inj (hc.symm.trans hd)
        rcases hsettled c hc hz with hfree | ⟨hpending, hcur⟩
        · rw [hjob, Int.add_sub_cancel] at hfree
          exact absurd hpid (hfree j hj)
        · exact .inr ⟨hpending, hcur.trans hjob⟩
      · exact .inl ⟨d, (Function.update_of_ne hpid ..).trans hd, hjob⟩
    · exact .inr hpending
  · rcases eq_or_ne other pid with rfl | hne
    · simp at hd
    · have hold : s.children other = some d := (Function.update_of_ne hne ..).symm.trans hd
      rcases h.held other d hold with ⟨-, background, hpoint⟩ | hslot | ⟨-, -, hpoint⟩
      · exact absurd hpoint (hforked other background)
      · exact .inr (.inl hslot)
      · exact absurd (hwaiting other d.job hpoint) hne

/-- A slot is freed, and no change is pending then. -/
theorem Invariant.clear {i cur : ℤ} {j : Job} {children : ℕ → Option Child} (h : Invariant s)
    (hj : s.jobs i = some j) (hcur : cur = -1 ∨ Index (cur - 1))
    (hothers : ∀ k j', k ≠ i → Index k → s.jobs k = some j' →
      ∃ c, children j'.pid = some c ∧ c.job = k + 1)
    (hchildren : ∀ pid c, children pid = some c → s.children pid = some c)
    (hown : ∀ c, children j.pid = some c → c.job = i + 1 →
      c.process = .zombie ∧ s.point = .waiting j.pid c.job)
    (hforked : ∀ pid background, s.point = .forked pid background →
      ∃ c, children pid = some c ∧ c.job = 0) :
    Invariant { s.clear i with children := children, cur_id := cur, causes := [] } := by
  have hother : ∀ {k}, k ≠ i → (s.clear i).jobs k = s.jobs k := fun hk =>
    Function.update_of_ne hk ..
  refine ⟨fun k hk => ?_, hcur, fun k j' hk hj' => ?_, fun pid c hc => ?_, hforked, h.added⟩
  · rcases eq_or_ne k i with rfl | hki
    · simp [Shell.clear]
    · simpa [Shell.clear, Function.update_of_ne hki] using h.marked k hk
  · rcases eq_or_ne k i with rfl | hki
    · simp [Shell.clear] at hj'
    · exact .inl (hothers k j' hki hk ((hother hki).symm.trans hj'))
  · rcases h.held pid c (hchildren pid c hc) with hnew | ⟨hindex, j', hj', rfl⟩ | hreaped
    · exact .inl hnew
    · rcases eq_or_ne (c.job - 1) i with rfl | hki
      · obtain rfl := Option.some.inj (hj.symm.trans hj')
        exact .inr (.inr ⟨hindex, hown c hc (Int.sub_add_cancel ..).symm⟩)
      · exact .inr (.inl ⟨hindex, j', (hother hki).trans hj', rfl⟩)
    · exact .inr (.inr hreaped)

end Updates

section Steps

variable {s s' : Shell}

theorem deliver_invariant (h : Invariant s)
    (hsafe : s.cur_id ≠ -1 → ∀ j, s.jobs (s.cur_id - 1) = some j → Releases s j)
    (hs : sigchild_handler s = some s') : Invariant s' := by
  by_cases hcur : s.cur_id = -1
  · rw [sigchild_handler, if_pos hcur] at hs
    cases hs
    refine ⟨h.marked, h.current, fun k j hk hj => ?_, h.held, h.forked, h.added⟩
    rcases h.occupied k j hk hj with hchild | ⟨-, hk'⟩
    · exact .inl hchild
    · have := hk.1
      omega
  · cases hj : s.jobs (s.cur_id - 1) with
    | none => simp [sigchild_handler, hcur, hj] at hs
    | some j =>
      rw [handler_of_current hcur hj] at hs
      obtain ⟨hfrees, hkeeps⟩ := hsafe hcur j hj
      have hothers : ∀ k j', k ≠ s.cur_id - 1 → Index k → s.jobs k = some j' →
          ∃ c, s.children j'.pid = some c ∧ c.job = k + 1 := by
        intro k j' hk hindex hj'
        rcases h.occupied k j' hindex hj' with hchild | ⟨-, hk'⟩
        · exact hchild
        · omega
      by_cases hstatus : j.status = 1
      · rw [if_pos hstatus] at hs
        cases hs
        refine h.clear hj (.inl rfl) hothers (fun _ _ hc => hc) (fun c hc hjob => ?_) h.forked
        have hcurrent : c.job = s.cur_id := by omega
        rw [hcurrent]
        exact hfrees hstatus c hc hcurrent
      · rw [if_neg hstatus] at hs
        cases hs
        refine ⟨h.marked, .inl rfl, fun k j' hk hj' => ?_, h.held, h.forked, h.added⟩
        rcases eq_or_ne k (s.cur_id - 1) with rfl | hne
        · obtain rfl := Option.some.inj (hj.symm.trans hj')
          obtain ⟨c, hc, hjob⟩ := hkeeps hstatus
          exact .inl ⟨c, hc, by omega⟩
        · exact .inl (hothers k j' hne hk hj')

theorem sweepRound_invariant {i : ℕ} (h : Invariant s) (hp : Plain s.point)
    (hcauses : s.causes = []) (hi : i < MAX_ARGS)
    (hsafe : ∀ j c, s.jobs i = some j → s.children j.pid = some c → c.process ≠ .stopped false)
    (hs : sweepRound s i = some s') : Invariant s' ∧ s'.point = s.point := by
  have hindex : Index i := ⟨Int.natCast_nonneg i, by exact_mod_cast hi⟩
  unfold sweepRound at hs
  split_ifs at hs with hmarked
  swap
  · cases hs
    exact ⟨h, rfl⟩
  cases hj : s.jobs i with
  | none => simp [hj] at hs
  | some j =>
    rw [hj] at hs
    obtain ⟨c, hc, hjob⟩ : ∃ c, s.children j.pid = some c ∧ c.job = (i : ℤ) + 1 := by
      rcases h.occupied i j hindex hj with hchild | ⟨hpending, -⟩
      · exact hchild
      · exact absurd hcauses hpending
    have hnew := hsafe j c hj hc
    cases hprocess : c.process with
    | running =>
      simp only [waitpid, hc, hprocess] at hs
      cases hs
      exact ⟨h, rfl⟩
    | stopped reported =>
      cases reported with
      | false => exact absurd hprocess hnew
      | true =>
        simp only [waitpid, hc, hprocess] at hs
        cases hs
        exact ⟨h, rfl⟩
    | zombie =>
      simp only [waitpid, hc, hprocess] at hs
      cases hs
      have hclear := @Invariant.clear _ _ s.cur_id _ (Function.update s.children j.pid none) h
        hj h.current (fun k j' hki hk hj' => by
          rcases h.occupied k j' hk hj' with ⟨d, hd, hdjob⟩ | ⟨hpending, -⟩
          · have hne : j'.pid ≠ j.pid := by
              intro hpid
              rw [hpid] at hd
              obtain rfl := Option.some.inj (hc.symm.trans hd)
              omega
            exact ⟨d, (Function.update_of_ne hne ..).trans hd, hdjob⟩
          · exact absurd hcauses hpending)
        (fun pid d hd => by
          rcases eq_or_ne pid j.pid with rfl | hne
          · simp at hd
          · exact (Function.update_of_ne hne ..).symm.trans hd)
        (fun d hd => by simp at hd)
        (fun pid background hpoint => absurd hpoint (hp.1 pid background))
      rw [← hcauses] at hclear
      exact ⟨hclear, rfl⟩

theorem fg_invariant (h : Invariant s) (hp : Plain s.point) (job_id : ℤ) :
    Invariant (fg_command s job_id) := by
  unfold fg_command
  split
  · exact h.move hp nofun nofun
  · split
    · exact h.move hp nofun nofun
    next j _ =>
      exact ((h.setStatus _ 1).cont j.pid).move (by rw [cont_point]; exact hp) nofun nofun

theorem bg_invariant (h : Invariant s) (hp : Plain s.point) (job_id : ℤ) :
    Invariant (bg_command s job_id) := by
  unfold bg_command
  split
  · exact h.move hp nofun nofun
  · split
    · exact h.move hp nofun nofun
    next j _ =>
      exact ((h.setStatus _ 0).cont j.pid).move (by rw [cont_point]; exact hp) nofun nofun

theorem fork_invariant (h : Invariant s) (hp : Plain s.point) (hcauses : s.causes = [])
    {pid : ℕ} (hpid : s.children pid = none) (background : Bool) :
    Invariant { s with
      children := Function.update s.children pid (some ⟨.running, 0⟩)
      point := .forked pid background } := by
  refine ⟨h.marked, h.current, fun k j hk hj => ?_, fun other c hc => ?_,
    fun other b hpoint => ?_, nofun⟩
  · rcases h.occupied k j hk hj with ⟨c, hc, hjob⟩ | ⟨hpending, -⟩
    · have hne : j.pid ≠ pid := by
        rintro rfl
        rw [hpid] at hc
        cases hc
      exact .inl ⟨c, (Function.update_of_ne hne ..).trans hc, hjob⟩
    · exact absurd hcauses hpending
  · rcases eq_or_ne other pid with rfl | hne
    · simp only [Function.update_self, Option.some.injEq] at hc
      subst hc
      exact .inl ⟨rfl, background, rfl⟩
    · exact .inr (.inl (h.slot hp ((Function.update_of_ne hne ..).symm.trans hc)))
  · cases hpoint
    exact ⟨⟨.running, 0⟩, Function.update_self .., rfl⟩

/-- With a free id, the job is entered in the first free slot. -/
theorem next_proc_id_some (hfree : ∃ i : ℕ, i < MAX_ARGS ∧ s.id i = false) :
    ∃ n : ℕ, next_proc_id s.id = some n ∧ n < MAX_ARGS ∧ s.id n = false ∧
      ∀ m : ℕ, m < n → s.id m = true := by
  obtain ⟨i, hi, hfree⟩ := hfree
  cases hn : next_proc_id s.id with
  | none =>
    have hall := List.find?_eq_none.mp hn i (List.mem_range.mpr hi)
    simp [hfree] at hall
  | some n =>
    obtain ⟨hid, k, hk, hget, hbefore⟩ := List.find?_eq_some_iff_getElem.mp hn
    rw [List.getElem_range] at hget
    subst hget
    rw [List.length_range] at hk
    refine ⟨k, rfl, hk, by simpa using hid, fun m hm => ?_⟩
    simpa using hbefore m hm

theorem add_job_eq {n pid : ℕ} (hn : next_proc_id s.id = some n) (background : Bool) :
    add_job s pid background = { s with
      id := Function.update s.id n true
      jobs := Function.update s.jobs n (some ⟨pid, n + 1, if background then 0 else 1⟩)
      children := Function.update s.children pid
        ((s.children pid).map fun c => { c with job := n + 1 })
      point := .added pid (n + 1) background } := by
  have hpos : (n : ℤ) + 1 ≠ 0 := by omega
  simp only [add_job, hn, hpos, if_false, Int.add_sub_cancel]

theorem add_invariant {pid : ℕ} {background : Bool} (h : Invariant s) (hcauses : s.causes = [])
    (hpoint : s.point = .forked pid background)
    (hfree : ∃ i : ℕ, i < MAX_ARGS ∧ s.id i = false) : Invariant (add_job s pid background) := by
  obtain ⟨n, hn, hn256, hid, -⟩ := next_proc_id_some hfree
  have hindex : Index n := ⟨Int.natCast_nonneg n, by exact_mod_cast hn256⟩
  have hempty : s.jobs n = none := by
    by_contra hne
    rw [(h.marked n hindex).mpr hne] at hid
    cases hid
  obtain ⟨c₀, hc₀, hjob₀⟩ := h.forked pid background hpoint
  rw [add_job_eq hn]
  refine ⟨fun k hk => ?_, h.current, fun k j hk hj => ?_, fun other c hc => ?_, nofun,
    fun other id b hadded => ?_⟩
  · rcases eq_or_ne k n with rfl | hkn
    · simp
    · simpa [Function.update_of_ne hkn] using h.marked k hk
  · left
    rcases eq_or_ne k n with rfl | hkn
    · simp only [Function.update_self, Option.some.injEq] at hj
      subst hj
      exact ⟨{ c₀ with job := n + 1 }, by simp [hc₀], rfl⟩
    · have hold : s.jobs k = some j := (Function.update_of_ne hkn ..).symm.trans hj
      rcases h.occupied k j hk hold with ⟨c, hc, hjob⟩ | ⟨hpending, -⟩
      · have hne : j.pid ≠ pid := by
          intro hsame
          rw [hsame, hc₀] at hc
          obtain rfl := Option.some.inj hc
          have := hk.1
          omega
        exact ⟨c, (Function.update_of_ne hne ..).trans hc, hjob⟩
      · exact absurd hcauses hpending
  · right
    left
    rcases eq_or_ne other pid with rfl | hne
    · simp only [Function.update_self, hc₀, Option.map_some, Option.some.injEq] at hc
      subst hc
      simp only [Int.add_sub_cancel]
      exact ⟨hindex, _, Function.update_self .., rfl⟩
    · have hold : s.children other = some c := (Function.update_of_ne hne ..).symm.trans hc
      rcases h.held other c hold with ⟨-, b, hother⟩ | ⟨hidx, j, hj, hjpid⟩ | ⟨-, -, hother⟩
      · rw [hpoint] at hother
        cases hother
        exact absurd rfl hne
      · have hkn : c.job - 1 ≠ n := by
          intro heq
          rw [heq, hempty] at hj
          cases hj
        exact ⟨hidx, j, (Function.update_of_ne hkn ..).trans hj, hjpid⟩
      · rw [hpoint] at hother
        cases hother
  · cases hadded
    simpa using hindex

/-- Every slot is that of an unreaped child when a job is created. -/
theorem occupied_of_invariant (h : Invariant s) (hcauses : s.causes = []) : Occupied s := by
  have hjobs : ∀ i j, Index i → s.jobs i = some j →
      ∃ c, s.children j.pid = some c ∧ c.job = i + 1 := by
    intro i j hi hj
    rcases h.occupied i j hi hj with hchild | ⟨hpending, -⟩
    · exact hchild
    · exact absurd hcauses hpending
  refine ⟨hjobs, fun i hi hid => ?_⟩
  obtain ⟨j, hj⟩ := Option.ne_none_iff_exists'.mp ((h.marked i hi).mp hid)
  obtain ⟨c, hc, hjob⟩ := hjobs i j hi hj
  exact ⟨j.pid, c, hc, hjob⟩

theorem add_right {pid : ℕ} {background : Bool} (h : Invariant s) (hcauses : s.causes = [])
    (hpoint : s.point = .forked pid background)
    (hfree : ∃ i : ℕ, i < MAX_ARGS ∧ s.id i = false) :
    ∃ id, (add_job s pid background).point = .added pid id background ∧ Smallest s id := by
  obtain ⟨n, hn, hn256, hid, hbelow⟩ := next_proc_id_some hfree
  have hindex : Index n := ⟨Int.natCast_nonneg n, by exact_mod_cast hn256⟩
  have hoccupied := occupied_of_invariant h hcauses
  refine ⟨n + 1, by rw [add_job_eq hn], by omega, ?_, fun m hm hlt => ?_⟩
  · rintro ⟨other, c, hc, hjob⟩
    rcases h.held other c hc with ⟨hzero, -⟩ | ⟨-, j, hj, -⟩ | ⟨-, -, hwaiting⟩
    · omega
    · rw [hjob, Int.add_sub_cancel] at hj
      rw [(h.marked n hindex).mpr (by rw [hj]; simp)] at hid
      cases hid
    · rw [hpoint] at hwaiting
      cases hwaiting
  · obtain ⟨k, rfl⟩ : ∃ k : ℕ, m = k + 1 := ⟨(m - 1).toNat, by omega⟩
    exact hoccupied.ids k ⟨by omega, by simp only [MAX_ARGS] at hn256 ⊢; omega⟩ (hbelow k (by omega))

/-- One step in user mode keeps the invariant. -/
theorem userStep_invariant {pid : Option ℕ} (h : Invariant s) (hcauses : s.causes = [])
    (hsafe : Safe s (.step pid)) (hs : userStep s pid = some s') : Invariant s' := by
  cases hpoint : s.point with
  | prompt => simp [userStep, hpoint] at hs
  | waiting p id => simp [userStep, hpoint] at hs
  | fgWaiting p i => simp [userStep, hpoint] at hs
  | sweep i c =>
    have hp : Plain s.point := by rw [hpoint]; exact ⟨nofun, nofun⟩
    simp only [userStep, hpoint] at hs
    simp only [Safe, hpoint] at hsafe
    split_ifs at hs with hi
    · obtain ⟨t, ht, rfl⟩ := Option.map_eq_some_iff.mp hs
      obtain ⟨hinv, hsame⟩ := sweepRound_invariant h hp hcauses hi (hsafe hi) ht
      exact hinv.move (by rw [hsame]; exact hp) nofun nofun
    · cases hs
      exact h.move hp nofun nofun
  | ready c =>
    have hp : Plain s.point := by rw [hpoint]; exact ⟨nofun, nofun⟩
    cases c with
    | launch background =>
      simp only [userStep, hpoint] at hs
      cases pid with
      | none =>
        cases hs
        exact h.move hp nofun nofun
      | some pid =>
        dsimp only at hs
        split_ifs at hs with hunused
        cases hs
        exact fork_invariant h hp hcauses hunused background
    | fg job_id =>
      simp only [userStep, hpoint] at hs
      cases hs
      exact fg_invariant h hp job_id
    | bg job_id =>
      simp only [userStep, hpoint] at hs
      cases hs
      exact bg_invariant h hp job_id
    | other =>
      simp only [userStep, hpoint] at hs
      cases hs
      exact h.move hp nofun nofun
  | forked p background =>
    simp only [userStep, hpoint] at hs
    simp only [Safe, hpoint] at hsafe
    cases hs
    exact add_invariant h hcauses hpoint hsafe
  | added p id background =>
    have hp : Plain s.point := by rw [hpoint]; exact ⟨nofun, nofun⟩
    cases background with
    | true => simp [userStep, hpoint] at hs
    | false =>
      simp only [userStep, hpoint] at hs
      cases hs
      refine ⟨h.marked, .inr (h.added p id false hpoint), fun k j hk hj => ?_,
        fun other c hc => .inr (.inl (h.slot hp hc)), nofun, nofun⟩
      rcases h.occupied k j hk hj with hchild | ⟨hpending, -⟩
      · exact .inl hchild
      · exact absurd hcauses hpending
  | fgStopped p i =>
    have hp : Plain s.point := by rw [hpoint]; exact ⟨nofun, nofun⟩
    simp only [userStep, hpoint] at hs
    cases hs
    split_ifs
    · exact (h.setStatus i 2).move hp nofun nofun
    · exact h.move hp nofun nofun

/-- What a wait for one child can do. -/
inductive Waited (s : Shell) (pid : ℕ) (untraced : Bool) : Answer × Shell → Prop where
  | failed (none : s.children pid = none) : Waited s pid untraced (.failed, s)
  | none (c : Child) (child : s.children pid = some c) (alive : c.process ≠ .zombie) :
      Waited s pid untraced (.none, s)
  | stopped (c : Child) (child : s.children pid = some c) (fresh : c.process = .stopped false) :
      Waited s pid untraced (.stopped, s.setProcess pid (.stopped true))
  | exited (c : Child) (child : s.children pid = some c) (ended : c.process = .zombie) :
      Waited s pid untraced
        (.exited, { s with children := Function.update s.children pid Option.none })

theorem waitpid_waited (s : Shell) (pid : ℕ) (untraced : Bool) :
    Waited s pid untraced (waitpid s pid untraced) := by
  unfold waitpid
  cases hc : s.children pid with
  | none => exact .failed hc
  | some c =>
    cases hprocess : c.process with
    | running => simpa [hprocess] using Waited.none c hc (by simp [hprocess])
    | zombie => simpa [hprocess] using Waited.exited c hc hprocess
    | stopped reported =>
      cases reported with
      | true => simpa [hprocess] using Waited.none c hc (by simp [hprocess])
      | false =>
        cases untraced with
        | true => simpa [hprocess] using Waited.stopped c hc hprocess
        | false => simpa [hprocess] using Waited.none c hc (by simp [hprocess])

/-- The shell stops waiting for a child that has not ended. -/
theorem Invariant.leave {pid : ℕ} {id : ℤ} (h : Invariant s) (hpoint : s.point = .waiting pid id)
    (halive : ∀ c, s.children pid = some c → c.process ≠ .zombie) :
    Invariant { s with point := .prompt } := by
  refine ⟨h.marked, h.current, h.occupied, fun other c hc => .inr (.inl ?_), nofun, nofun⟩
  rcases h.held other c hc with ⟨-, b, hother⟩ | hslot | ⟨-, hzombie, hother⟩
  · rw [hpoint] at hother
    cases hother
  · exact hslot
  · rw [hpoint] at hother
    cases hother
    exact absurd hzombie (halive c hc)

theorem setProcess_child {pid : ℕ} {c : Child} (hc : s.children pid = some c) (p : Process) :
    (s.setProcess pid p).children pid = some { c with process := p } := by
  simp [Shell.setProcess, hc]

theorem endWait_invariant {garbage : Bool} (h : Invariant s) (hsafe : Safe s (.endWait garbage))
    (hs : endWait s garbage = some s') : Invariant s' := by
  cases hpoint : s.point with
  | added pid id background =>
    have hp : Plain s.point := by rw [hpoint]; exact ⟨nofun, nofun⟩
    simp only [Safe, hpoint] at hsafe
    cases background with
    | false => simp [endWait, hpoint] at hs
    | true =>
      simp only [endWait, hpoint] at hs
      cases hs
      cases hw : waitpid s pid false with
      | mk answer t =>
        have hwaited := waitpid_waited s pid false
        rw [hw] at hwaited
        cases hwaited with
        | failed hnone => exact h.move hp nofun nofun
        | none c hc halive => exact h.move hp nofun nofun
        | stopped c hc hfresh =>
          exact (h.setProcess hc (by simp [hfresh]) (.stopped true) fun hn => hn).move hp nofun nofun
        | exited c hc hended =>
          exact h.reap hc hended hsafe hp.1 (fun other n hq => absurd hq (hp.2 other n))
            ⟨nofun, nofun⟩ nofun
  | waiting pid id =>
    simp only [Safe, hpoint] at hsafe
    simp only [endWait, hpoint] at hs
    have hwaited := waitpid_waited s pid true
    generalize waitpid s pid true = r at hs hwaited
    cases hwaited with
    | failed hnone =>
      cases hs
      exact h.leave hpoint fun c hc => by rw [hnone] at hc; cases hc
    | none c hc halive => cases hs
    | stopped c hc hfresh =>
      cases hs
      refine (h.setProcess hc (by simp [hfresh]) (.stopped true) fun hn => hn).leave hpoint ?_
      intro d hd
      obtain rfl := Option.some.inj ((setProcess_child hc _).symm.trans hd)
      simp
    | exited c hc hended =>
      cases hs
      refine h.reap hc hended hsafe (by rw [hpoint]; nofun) (fun other n hq => ?_) ⟨nofun, nofun⟩
        nofun
      rw [hpoint] at hq
      cases hq
      rfl
  | fgWaiting pid i =>
    have hp : Plain s.point := by rw [hpoint]; exact ⟨nofun, nofun⟩
    simp only [Safe, hpoint] at hsafe
    simp only [endWait, hpoint] at hs
    have hwaited := waitpid_waited s pid true
    generalize waitpid s pid true = r at hs hwaited
    cases hwaited with
    | failed hnone =>
      cases hs
      split_ifs
      · exact h.move hp nofun nofun
      · exact h.move hp nofun nofun
    | none c hc halive => cases hs
    | stopped c hc hfresh =>
      cases hs
      exact (h.setProcess hc (by simp [hfresh]) (.stopped true) fun hn => hn).move hp nofun nofun
    | exited c hc hended =>
      cases hs
      exact h.reap hc hended hsafe hp.1 (fun other n hq => absurd hq (hp.2 other n))
        ⟨nofun, nofun⟩ nofun
  | prompt => simp [endWait, hpoint] at hs
  | sweep i c => simp [endWait, hpoint] at hs
  | ready c => simp [endWait, hpoint] at hs
  | forked p b => simp [endWait, hpoint] at hs
  | fgStopped p i => simp [endWait, hpoint] at hs

theorem forward_invariant (h : Invariant s) (status : ℕ) : Invariant (forward s status) := by
  unfold forward
  split_ifs
  · exact h.setStatus _ status
  · exact h

theorem next_invariant {e : Event} (h : Invariant s) (hsafe : Safe s e)
    (hs : next s e = some s') : Invariant s' := by
  cases e with
  | command c =>
    simp only [next] at hs
    split_ifs at hs with hprompt
    cases hs
    have hplain : Plain s.point := by
      rw [hprompt.1]
      constructor <;> rintro _ _ ⟨⟩
    exact h.move hplain (by rintro _ _ ⟨⟩) (by rintro _ _ _ ⟨⟩)
  | step pid =>
    simp only [next] at hs
    split_ifs at hs with hcauses
    exact userStep_invariant h hcauses hsafe hs
  | endWait garbage => exact endWait_invariant h hsafe hs
  | change pid p =>
    simp only [next] at hs
    cases hc : s.children pid with
    | none => simp [hc] at hs
    | some c =>
      simp only [hc] at hs
      split_ifs at hs with hchange
      cases hs
      refine h.setProcess hc (fun hz => ?_) p fun _ => List.cons_ne_nil _ _
      simp [hz, canChange] at hchange
  | deliver =>
    simp only [next] at hs
    split_ifs at hs with hcauses
    exact deliver_invariant h hsafe hs
  | ctrlC =>
    cases hs
    exact forward_invariant h 1
  | ctrlZ =>
    cases hs
    exact forward_invariant h 2

theorem right_of_invariant {e : Event} (h : Invariant s) (hsafe : Safe s e) : Right s e := by
  cases e with
  | step pid =>
    intro hcauses p background hpoint
    simp only [Safe, hpoint] at hsafe
    exact ⟨occupied_of_invariant h hcauses, add_right h hcauses hpoint hsafe⟩
  | _ => trivial

end Steps

theorem start_invariant : Invariant start where
  marked _ _ := iff_of_false Bool.false_ne_true fun h => h rfl
  current := .inl rfl
  occupied _ _ _ hj := absurd hj (Option.some_ne_none _).symm
  held _ _ hc := absurd hc (Option.some_ne_none _).symm
  forked _ _ hpoint := absurd hpoint Point.noConfusion
  added _ _ _ hpoint := absurd hpoint Point.noConfusion

theorem along_right {s : Shell} (h : Invariant s) {es : List Event} (hc : Along next Safe s es) :
    Along next Right s es := by
  induction es generalizing s with
  | nil => trivial
  | cons e es ih =>
    exact ⟨right_of_invariant h hc.1, fun s' hs => ih (next_invariant h hc.1 hs) (hc.2 s' hs)⟩

/-- In a run whose steps are all safe every job gets the smallest free id, and no slot is left
to a reaped job when it is created. -/
theorem ids_smallest {es : List Event} (hc : Along next Safe start es) :
    Along next Right start es := along_right start_invariant hc

section Decidability

variable {α : Type} {p : α → Prop} [DecidablePred p]

instance decidableForallSome (o : Option α) : Decidable (∀ a, o = some a → p a) :=
  match o with
  | none => isTrue nofun
  | some a => decidable_of_iff (p a) ⟨fun h _ hb => Option.some.inj hb ▸ h, fun h => h a rfl⟩

instance decidableExistsSome (o : Option α) : Decidable (∃ a, o = some a ∧ p a) :=
  match o with
  | none => isFalse nofun
  | some a => decidable_of_iff (p a) ⟨fun h => ⟨a, rfl, h⟩, fun ⟨_, hb, h⟩ => Option.some.inj hb ▸ h⟩

instance (s : Shell) (pid : ℕ) : Decidable (Settled s pid) :=
  inferInstanceAs (Decidable (∀ c, _ = some c → _ → (∀ j, _ = some j → _) ∨ _ ∧ _))

instance (s : Shell) (j : Job) : Decidable (Releases s j) :=
  inferInstanceAs (Decidable ((_ → ∀ c, _ = some c → _ → _ ∧ _) ∧ (_ → ∃ c, _ = some c ∧ _)))

instance (s : Shell) (e : Event) : Decidable (Safe s e) :=
  match e with
  | .step pid =>
    match hp : s.point with
    | .sweep i c =>
      decidable_of_iff (i < MAX_ARGS → ∀ j, s.jobs i = some j → ∀ c, s.children j.pid = some c →
        c.process ≠ .stopped false)
        (by simp only [Safe, hp]; exact ⟨fun h hi j c hj => h hi j hj c, fun h hi j hj c => h hi j c hj⟩)
    | .forked _ _ =>
      decidable_of_iff (∃ i : ℕ, i < MAX_ARGS ∧ s.id i = false) (by simp only [Safe, hp])
    | .prompt | .ready _ | .added _ _ _ | .waiting _ _ | .fgWaiting _ _ | .fgStopped _ _ =>
      isTrue (by simp only [Safe, hp])
  | .endWait garbage =>
    match hp : s.point with
    | .added pid _ _ | .waiting pid _ | .fgWaiting pid _ =>
      decidable_of_iff (Settled s pid) (by simp only [Safe, hp])
    | .prompt | .sweep _ _ | .ready _ | .forked _ _ | .fgStopped _ _ =>
      isTrue (by simp only [Safe, hp])
  | .deliver =>
    inferInstanceAs (Decidable (s.cur_id ≠ -1 → ∀ j, s.jobs (s.cur_id - 1) = some j → Releases s j))
  | .command _ => isTrue trivial
  | .change _ _ => isTrue trivial
  | .ctrlC => isTrue trivial
  | .ctrlZ => isTrue trivial

end Decidability

def launch (background : Bool) (pid : ℕ) : List Event :=
  [.command (.launch background)] ++ sweeping ++ [.step (some pid), .step none]

/-- A foreground job that is stopped, a background job, the end of the first one, and a
foreground job that gets its id. -/
def session : List Event :=
  launch false 1 ++ [.step none, .ctrlZ, .change 1 (.stopped false), .deliver, .endWait false] ++
    launch true 2 ++ [.endWait false, .change 1 .zombie, .deliver] ++
    launch false 3 ++ [.step none, .change 3 .zombie, .deliver, .endWait false]

theorem session_ids : (run next start session).isSome = true ∧ Along next Right start session :=
  ⟨by decide +kernel, ids_smallest (by decide +kernel)⟩

/-- A background job is brought to the foreground and ends: its slot stays. -/
def foregrounded : List Event :=
  launch true 1 ++ [.endWait false, .command (.fg (-1))] ++ sweeping ++
    [.step none, .change 1 .zombie, .endWait false, .deliver, .command (.launch true)] ++ sweeping ++
    [.step (some 2)]

/-- The next job gets id 2, and slot 1 still belongs to the reaped job. -/
theorem reaped_job_keeps_slot : ¬ Along next Right start (foregrounded ++ [.step none]) := by
  intro h
  have hrun : (run next start foregrounded).any (fun s => s.causes = [] ∧
      s.point = .forked 2 true ∧ s.jobs 0 = some ⟨1, 1, 1⟩ ∧ s.children 1 = none) = true := by
    decide +kernel
  obtain ⟨s, hs, hstate⟩ := (Option.any_eq_true _ _).mp hrun
  obtain ⟨hcauses, hpoint, hj, hc⟩ := of_decide_eq_true hstate
  obtain ⟨hoccupied, -⟩ := h.at hs hcauses 2 true hpoint
  obtain ⟨c, hchild, -⟩ := hoccupied.jobs 0 _ ⟨Int.le_refl 0, by decide⟩ hj
  rw [hc] at hchild
  cases hchild

end WshIds
