import OsProjects.PageSteps

/-! # Which locks `copyPage` leaves behind

One process calls `copyPage` again and again, nobody else runs. A page that is neither
cached nor inside its file costs the slot it would have been loaded into: `getPage` returns
with the slot's lock held, and `copyPage` does not know the slot.
-/
namespace PageLocks

open ByteMemory Word32 PageCache PageSteps Runs

variable {P : Type} [DecidableEq P]

/-- The steps of a process until its call has returned. -/
def finish (F : Frames) (p : P) : ℕ → State P → Option (State P)
  | 0, s => if s.point p = .idle then some s else none
  | n + 1, s => if s.point p = .idle then some s else (advance F s p).bind (finish F p n)

structure Request where
  ip : Inode
  offset : BitVec 32
  deriving DecidableEq, Repr

/-- `copyPage` as the steps of `getPage` and the `releasesleep` that follows. No result means
that the call waits for ever. -/
def copyPage (F : Frames) (p : P) (s : State P) (c : Request) : Option (State P) :=
  (next F s (.getPage p c.ip c.offset)).bind (finish F p 5)

def Free (s : State P) : Prop := s.holder = none ∧ ∀ i, (s.pages i).locked = false

/-- Between two calls of the process. -/
structure Ready (p : P) (s : State P) : Prop where
  free : Free s
  idle : s.point p = .idle
  counter : s.totalCount < NPAGECACHE

/-- The page lies behind the end of the file, or its end behind the last address. -/
def Outside (s : State P) (c : Request) : Prop :=
  (s.data c.ip).length < wrap (pageOffset c.offset) ∨
  (wrap (pageOffset c.offset) + PGSIZE) % 4294967296 < wrap (pageOffset c.offset)

def Cached (s : State P) (c : Request) : Prop := ∃ i, tag (s.pages i) = (c.ip, pageOffset c.offset)

/-- No lookup of a file ends at the slot. -/
def Unmatched (c : CachedPage) : Prop := ∀ ip offset, ip.inum ≠ 0 → tag c ≠ (ip, offset)

/-- The call returns, all locks are free then, and the slot of a failed load is not found
any more. -/
def Balanced (F : Frames) (p : P) (s : State P) (c : Request) : Prop :=
  ∃ s', copyPage F p s c = some s' ∧ Free s' ∧
    (¬ Cached s c → Outside s c → ∀ i : Slot, i.val = s.totalCount → Unmatched (s'.pages i))

/-- The page is in the cache or in the file. -/
def Loadable (s : State P) (c : Request) : Prop := Cached s c ∨ ¬ Outside s c

section Steps

variable {F : Frames} {p : P} {s s' : State P} {c : Request} {t : Tag} {i : Slot} {n : ℕ}

omit [DecidableEq P] in
theorem findPage_eq_none_iff : findPage s c.ip (pageOffset c.offset) = none ↔ ¬ Cached s c := by
  constructor
  · rintro h ⟨i, hi⟩
    exact findPage_missed h i hi
  · intro h
    rw [PageSteps.findPage, List.find?_eq_none]
    exact fun i _ hi => h ⟨i, tag_eq_iff.mpr hi⟩

omit [DecidableEq P] in
theorem readi_eq_none_iff : readi (s.data c.ip) (wrap (pageOffset c.offset)) PGSIZE = none ↔
    Outside s c := by
  unfold readi Outside
  split_ifs with h
  · exact iff_of_true rfl h
  · exact iff_of_false (by simp) h

/-- The slot a miss takes, cleared, filled with `bs`, and the counter moved on. -/
def taken (F : Frames) (s : State P) (i : Slot) (bs : List UInt8) (c : CachedPage) : State P :=
  { s with
    mem := storeBytes (storeBytes s.mem (F.base i) (List.replicate PGSIZE 0)) (F.base i) bs
    pages := Function.update s.pages i c
    totalCount := if s.totalCount + 1 = NPAGECACHE then 0 else s.totalCount + 1 }

theorem copyPage_eq (hidle : s.point p = .idle) (hholder : s.holder = none) :
    copyPage F p s c = finish F p 5 (enter s p c.ip (pageOffset c.offset)) := by
  simp [copyPage, PageSteps.next, hidle, hholder]

theorem copyPage_hit (hidle : s.point p = .idle) (hholder : s.holder = none)
    (hfind : findPage s c.ip (pageOffset c.offset) = some i) :
    copyPage F p s c = if (s.pages i).locked then none else some s := by
  have hpoint : Function.update s.point p .idle = s.point := by rw [← hidle, Function.update_eq_self]
  rw [copyPage_eq hidle hholder, enter, hfind]
  dsimp only
  split_ifs with hlock
  · simp [finish, advance, State.goto]
  · have hself : Function.update s.pages i { s.pages i with locked := false } = s.pages := by
      rw [← Bool.not_eq_true _ |>.mp hlock, Function.update_eq_self]
    simp [finish, advance, State.goto, PageSteps.State.setPage, hself, hpoint, hidle]

theorem copyPage_miss (hidle : s.point p = .idle) (hholder : s.holder = none)
    (hfind : findPage s c.ip (pageOffset c.offset) = none) (hi : s.totalCount = i.val) :
    copyPage F p s c = if (s.pages i).locked then none
      else match readi (s.data c.ip) (wrap (pageOffset c.offset)) PGSIZE with
        | none => some (taken F s i [] { s.pages i with locked := true })
        | some bs => some (taken F s i bs ⟨c.ip.dev, c.ip.inum, pageOffset c.offset, false⟩) := by
  have hpoint : Function.update s.point p .idle = s.point := by rw [← hidle, Function.update_eq_self]
  rw [copyPage_eq hidle hholder, enter, hfind]
  dsimp only
  split_ifs with hlock
  · simp [finish, advance, State.goto, hi, hlock]
  · cases hread : readi (s.data c.ip) (wrap (pageOffset c.offset)) PGSIZE with
    | none =>
      simp [finish, advance, State.goto, PageSteps.State.setPage, hi, hlock, hread, taken, hpoint,
        hidle]
    | some bs =>
      simp [finish, advance, State.goto, PageSteps.State.setPage, hi, hlock, hread, taken, hpoint,
        hidle]

theorem copyPage_cached (h : Ready p s) (hc : Cached s c) : copyPage F p s c = some s := by
  cases hf : PageSteps.findPage s c.ip (pageOffset c.offset) with
  | none => exact absurd hc (findPage_eq_none_iff.mp hf)
  | some i => simp [copyPage_hit h.idle h.free.1 hf, h.free.2 i]

theorem copyPage_loads (h : Ready p s) (hc : ¬ Cached s c) (ho : ¬ Outside s c) :
    ∃ s', copyPage F p s c = some s' ∧ Ready p s' := by
  obtain ⟨bs, hbs⟩ := Option.ne_none_iff_exists'.mp (mt readi_eq_none_iff.mp ho)
  have hmiss := copyPage_miss (F := F) (i := ⟨s.totalCount, h.counter⟩) h.idle h.free.1
    (findPage_eq_none_iff.mpr hc) rfl
  simp only [h.free.2, Bool.false_eq_true, if_false, hbs] at hmiss
  refine ⟨_, hmiss, ⟨h.free.1, fun j => ?_⟩, h.idle, ?_⟩
  · by_cases hj : j = ⟨s.totalCount, h.counter⟩
    · simp [taken, hj]
    · simp [taken, hj, h.free.2]
  · have hlt := h.counter
    simp only [taken]
    split_ifs <;> omega

theorem copyPage_fails (h : Ready p s) (hc : ¬ Cached s c) (ho : Outside s c) :
    ∃ s' i, copyPage F p s c = some s' ∧ (s'.pages i).locked = true := by
  have hmiss := copyPage_miss (F := F) (i := ⟨s.totalCount, h.counter⟩) h.idle h.free.1
    (findPage_eq_none_iff.mpr hc) rfl
  simp only [h.free.2, Bool.false_eq_true, if_false, readi_eq_none_iff.mpr ho] at hmiss
  exact ⟨_, ⟨s.totalCount, h.counter⟩, hmiss, by simp [taken]⟩

theorem balanced_iff (h : Ready p s) : Balanced F p s c ↔ Loadable s c := by
  by_cases hc : Cached s c
  · exact iff_of_true ⟨s, copyPage_cached h hc, h.free, fun hn => absurd hc hn⟩ (.inl hc)
  · by_cases ho : Outside s c
    · refine iff_of_false ?_ (by simp [Loadable, hc, ho])
      rintro ⟨u, hu, hfree, -⟩
      obtain ⟨s', i, hs', hlock⟩ := copyPage_fails (F := F) h hc ho
      obtain rfl := Option.some.inj (hu.symm.trans hs')
      rw [hfree.2 i] at hlock
      cases hlock
    · obtain ⟨s', hs', hready⟩ := copyPage_loads (F := F) h hc ho
      exact iff_of_true ⟨s', hs', hready.free, fun _ hout => absurd hout ho⟩ (.inr ho)

theorem copyPage_ready (h : Ready p s) (hl : Loadable s c) (hs : copyPage F p s c = some s') :
    Ready p s' := by
  by_cases hc : Cached s c
  · rw [copyPage_cached h hc] at hs
    obtain rfl := Option.some.inj hs
    exact h
  · obtain ⟨u, hu, hready⟩ := copyPage_loads (F := F) h hc (hl.resolve_left hc)
    obtain rfl := Option.some.inj (hu.symm.trans hs)
    exact hready

/-- Every call of a run returns with all locks free exactly when every call finds its page in
the cache or in the file. -/
theorem copies_balanced_iff {cs : List Request} (h : Ready p s) :
    Along (copyPage F p) (Balanced F p) s cs ↔ Along (copyPage F p) Loadable s cs :=
  along_iff (fun _ _ h => balanced_iff h) (fun _ _ _ h hl hs => copyPage_ready h hl hs) h

/-- What the two models of the cache have in common. -/
structure Same (s : State P) (u : PageCache.State) : Prop where
  mem : s.mem = u.mem
  pages : s.pages = u.pages
  totalCount : s.totalCount = u.totalCount.val
  data : s.data = u.data

theorem next_count : ∀ i : Slot,
    (i + 1).val = if i.val + 1 = NPAGECACHE then 0 else i.val + 1 := by
  decide

/-- Undisturbed, the steps of a call amount to `copyPage` of the sequential model: it returns
exactly when that does, with the same cache. -/
theorem copyPage_sequential {u : PageCache.State} (hidle : s.point p = .idle)
    (hholder : s.holder = none) (h : Same s u) (size dest_offset : ℕ) :
    Option.Rel (fun s' r => Same s' r.1 ∧ s'.point p = .idle ∧ s'.holder = none)
      (copyPage F p s c) (PageCache.copyPage F u c.ip c.offset size dest_offset) := by
  have hfind : PageSteps.findPage s c.ip (pageOffset c.offset) =
      PageCache.findPage u c.ip (pageOffset c.offset) := by
    rw [PageSteps.findPage, h.pages]
    rfl
  unfold PageCache.copyPage PageCache.getPage
  rw [← hfind]
  cases hf : PageSteps.findPage s c.ip (pageOffset c.offset) with
  | some i =>
    rw [copyPage_hit hidle hholder hf, h.pages]
    dsimp only
    split_ifs with hlock
    · exact .none
    · refine .some ⟨⟨h.mem, ?_, h.totalCount, h.data⟩, hidle, hholder⟩
      have hself : { u.pages i with locked := false } = u.pages i := by
        rw [← Bool.not_eq_true _ |>.mp hlock]
      simp [PageCache.releasesleep, PageCache.State.setPage, hself, h.pages]
  | none =>
    rw [copyPage_miss hidle hholder hf h.totalCount, h.pages, h.data]
    dsimp only
    split_ifs with hlock
    · exact .none
    · cases hread : readi (u.data c.ip) (wrap (pageOffset c.offset)) PGSIZE with
      | none =>
        refine .some ⟨⟨?_, ?_, ?_, h.data⟩, hidle, hholder⟩
        · simp [taken, PageCache.State.setPage, h.mem]
        · simp [taken, PageCache.State.setPage, h.pages]
        · rw [PageCache.State.setPage, next_count, ← h.totalCount]
          rfl
      | some bs =>
        refine .some ⟨⟨?_, ?_, ?_, h.data⟩, hidle, hholder⟩
        · simp [taken, PageCache.releasesleep, PageCache.State.setPage, h.mem]
        · simp [taken, PageCache.releasesleep, PageCache.State.setPage, h.pages]
        · rw [PageCache.releasesleep, PageCache.State.setPage, PageCache.State.setPage, next_count,
            ← h.totalCount]
          rfl

end Steps

instance (s : State P) (c : Request) : Decidable (Loadable s c) :=
  inferInstanceAs (Decidable ((∃ _, _ = _) ∨ ¬ (_ < _ ∨ _ < _)))

theorem emptyCache_ready : Ready () emptyCache := ⟨⟨rfl, fun _ => rfl⟩, rfl, by decide⟩

/-- The first pages of two empty files, the first one again at the end. -/
theorem first_pages_balanced : Along (copyPage PageCoherence.adjacentFrames ())
    (Balanced PageCoherence.adjacentFrames ()) emptyCache
    [⟨⟨1, 5⟩, 0⟩, ⟨⟨1, 6⟩, 0⟩, ⟨⟨1, 5⟩, 0⟩] :=
  (copies_balanced_iff emptyCache_ready).mpr (by decide +kernel)

/-- Page 1 of an empty file, and then a page of each of 29 other files. -/
def behindEnd : List Request :=
  ⟨⟨1, 5⟩, 4096⟩ :: (List.range 29).map fun k => ⟨⟨1, k + 6⟩, 0⟩

/-- The call behind the end of the file leaves the lock of slot 0, and the thirtieth miss
after it waits for that lock. -/
theorem behind_end_never_unlocks :
    ¬ Along (copyPage PageCoherence.adjacentFrames ()) (Balanced PageCoherence.adjacentFrames ())
      emptyCache behindEnd ∧
    (run (copyPage PageCoherence.adjacentFrames ()) emptyCache behindEnd).any
      (fun s => (s.pages 0).locked) = true ∧
    run (copyPage PageCoherence.adjacentFrames ()) emptyCache (behindEnd ++ [⟨⟨1, 40⟩, 0⟩]) =
      none := by
  refine ⟨fun h => ?_, by decide +kernel, ?_⟩
  · have hl := (balanced_iff emptyCache_ready).mp h.1
    exact absurd hl (by decide)
  · rw [← Option.isNone_iff_eq_none]
    decide +kernel

end PageLocks
