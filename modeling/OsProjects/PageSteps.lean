import OsProjects.PageCache
import OsProjects.PageCoherence
import OsProjects.Runs
import Mathlib.Data.Fintype.Basic

/-! # Concurrent calls of `getPage`

The same `getPage` cut where other processes can come between: the part under
`pagecache.lock`, `acquiresleep`, the wrap of the counter, `readi`, and the three stores of
the tag. `totalCount` is a plain counter here; a process that has taken an index behind the
array is not followed further.
-/
namespace PageSteps

open ByteMemory Word32 PageCache Runs

abbrev Tag := Inode × ℤ

/-- `asleep` is a process that found its page locked: `acquiresleep` then sleeps with
`pagecache.lock` still held, and `sched` panics. -/
inductive Point where
  | idle
  | asleep (i : Slot)
  | chosen (t : Tag) (i : ℕ)
  | locked (t : Tag) (i : Slot)
  | wrapped (t : Tag) (i : Slot)
  | loaded (t : Tag) (i : Slot)
  | holding (i : Slot)
  deriving DecidableEq, Repr

/-- The page a process has missed and not yet tagged. -/
def Point.page : Point → Option Tag
  | .chosen t _ | .locked t _ | .wrapped t _ | .loaded t _ => some t
  | .idle | .asleep _ | .holding _ => none

/-- The index of a process that has advanced the counter and not yet looked whether to
wrap it. -/
def Point.unwrapped : Point → Option ℕ
  | .chosen _ i => some i
  | .locked _ i => some i
  | .idle | .asleep _ | .wrapped _ _ | .loaded _ _ | .holding _ => none

/-- `holder` is the process inside `pagecache.lock`, if one stays there. -/
structure State (P : Type) where
  mem : Mem
  pages : Slot → CachedPage
  totalCount : ℕ
  data : Inode → List UInt8
  holder : Option P
  point : P → Point

def tag (p : CachedPage) : Tag := (⟨p.dev, p.inode_number⟩, p.offset)

inductive Action (P : Type) where
  | getPage (p : P) (ip : Inode) (offset : BitVec 32)
  | advance (p : P)
  deriving DecidableEq, Repr

section Machine

variable {P : Type}

def State.setPage (s : State P) (i : Slot) (c : CachedPage) : State P :=
  { s with pages := Function.update s.pages i c }

def findPage (s : State P) (ip : Inode) (offset : ℤ) : Option Slot :=
  (List.finRange NPAGECACHE).find? fun i => Matches (s.pages i) ip offset

/-- After `pagecacheinit`, with any files on disk. -/
def initial (mem : Mem) (data : Inode → List UInt8) : State P :=
  ⟨mem, fun _ => ⟨0, 0, 0, false⟩, 0, data, none, fun _ => .idle⟩

/-- Every index taken from the counter is an index of the array. -/
def InRange (s : State P) : Prop := ∀ p t i, s.point p = .chosen t i → i < NPAGECACHE

def Unique (s : State P) : Prop :=
  ∀ i j, (tag (s.pages i)).1.inum ≠ 0 → tag (s.pages i) = tag (s.pages j) → i = j

/-- A miss starts neither on a page that another process is loading, nor before the process
that took the last slot has wrapped the counter. -/
def Apart (s : State P) : Action P → Prop
  | .getPage _ ip offset => findPage s ip (pageOffset offset) = none → ∀ q,
    (s.point q).page ≠ some (ip, pageOffset offset) ∧
    (s.point q).unwrapped ≠ some (NPAGECACHE - 1)
  | .advance _ => True

structure Invariant (s : State P) : Prop where
  taken : ∀ q i, (s.point q).unwrapped = some i → i < NPAGECACHE
  counter : s.totalCount ≤ NPAGECACHE
  last : s.totalCount = NPAGECACHE → ∃ q, (s.point q).unwrapped = some (NPAGECACHE - 1)
  fresh : ∀ q t, (s.point q).page = some t → ∀ i, tag (s.pages i) ≠ t
  single : ∀ q r t, (s.point q).page = some t → (s.point r).page = some t → q = r
  unique : Unique s

@[simp] theorem tag_locked (c : CachedPage) (b : Bool) : tag { c with locked := b } = tag c := rfl

theorem tag_eq_iff {c : CachedPage} {ip : Inode} {offset : ℤ} :
    tag c = (ip, offset) ↔ Matches c ip offset = true := by
  cases ip
  simp [tag, Matches]
  tauto

theorem findPage_missed {s : State P} {ip : Inode} {offset : ℤ}
    (h : findPage s ip offset = none) (i : Slot) : tag (s.pages i) ≠ (ip, offset) := by
  rw [findPage, List.find?_eq_none] at h
  exact fun ht => h i (List.mem_finRange i) (tag_eq_iff.mp ht)

theorem tag_setPage_lock (s : State P) (i j : Slot) (b : Bool) :
    tag ((s.setPage i { s.pages i with locked := b }).pages j) = tag (s.pages j) := by
  by_cases hj : j = i
  · subst j
    simp [State.setPage]
  · simp [State.setPage, hj]

theorem initial_invariant (mem : Mem) (data : Inode → List UInt8) :
    Invariant (initial mem data : State P) := by
  constructor <;> simp [initial, Point.page, Point.unwrapped, Unique, tag]

theorem Invariant.inRange {s : State P} (h : Invariant s) : InRange s := by
  intro p t i hp
  exact h.taken p i (by rw [hp]; rfl)

variable [DecidableEq P]

def State.goto (s : State P) (p : P) (l : Point) : State P :=
  { s with point := Function.update s.point p l }

/-- From `acquire` to `release`. -/
def enter (s : State P) (p : P) (ip : Inode) (offset : ℤ) : State P :=
  match findPage s ip offset with
  | some i =>
    if (s.pages i).locked then { s with holder := some p }.goto p (.asleep i)
    else (s.setPage i { s.pages i with locked := true }).goto p (.holding i)
  | none => { s with totalCount := s.totalCount + 1 }.goto p (.chosen (ip, offset) s.totalCount)

/-- The rest of a miss, up to the `releasesleep` of the caller. -/
def advance (F : Frames) (s : State P) (p : P) : Option (State P) :=
  match s.point p with
  | .idle | .asleep _ => none
  | .chosen t i =>
    if h : i < NPAGECACHE then
      if (s.pages ⟨i, h⟩).locked then none
      else some ((s.setPage ⟨i, h⟩ { s.pages ⟨i, h⟩ with locked := true }).goto p
        (.locked t ⟨i, h⟩))
    else none
  | .locked t i =>
    some ({ s with
      totalCount := if s.totalCount = NPAGECACHE then 0 else s.totalCount
      mem := storeBytes s.mem (F.base i) (List.replicate PGSIZE 0) }.goto p (.wrapped t i))
  | .wrapped t i =>
    match readi (s.data t.1) (wrap t.2) PGSIZE with
    | none => some (s.goto p .idle)
    | some bs => some ({ s with mem := storeBytes s.mem (F.base i) bs }.goto p (.loaded t i))
  | .loaded t i =>
    some ((s.setPage i { s.pages i with
      dev := t.1.dev, inode_number := t.1.inum, offset := t.2 }).goto p (.holding i))
  | .holding i => some ((s.setPage i { s.pages i with locked := false }).goto p .idle)

def next (F : Frames) (s : State P) : Action P → Option (State P)
  | .getPage p ip offset =>
    if s.point p = .idle ∧ s.holder = none then some (enter s p ip (pageOffset offset)) else none
  | .advance p => advance F s p

structure Missed (s s' : State P) (p : P) (t : Tag) : Prop where
  miss : findPage s t.1 t.2 = none
  tags : ∀ i, tag (s'.pages i) = tag (s.pages i)
  count : s'.totalCount = s.totalCount + 1
  page : (s'.point p).page = some t
  unwrapped : (s'.point p).unwrapped = some s.totalCount

/-- What any other step of process `p` can do to the counter, to the tags and to what is
known of the process. -/
inductive Effect (s s' : State P) (p : P) : Prop where
  | quiet (tags : ∀ i, tag (s'.pages i) = tag (s.pages i)) (count : s'.totalCount = s.totalCount)
      (page : (s'.point p).page = (s.point p).page ∨ (s'.point p).page = none)
      (unwrapped : (s'.point p).unwrapped = (s.point p).unwrapped)
  | wrapped (tags : ∀ i, tag (s'.pages i) = tag (s.pages i))
      (count : s'.totalCount = if s.totalCount = NPAGECACHE then 0 else s.totalCount)
      (page : (s'.point p).page = (s.point p).page) (unwrapped : (s'.point p).unwrapped = none)
  | tagged (t : Tag) (i : Slot) (own : tag (s'.pages i) = t)
      (others : ∀ j, j ≠ i → tag (s'.pages j) = tag (s.pages j))
      (count : s'.totalCount = s.totalCount) (was : (s.point p).page = some t)
      (page : (s'.point p).page = none)
      (unwrapped : (s'.point p).unwrapped = (s.point p).unwrapped)

theorem enter_effect {s : State P} {p : P} (hp : s.point p = .idle) (ip : Inode) (offset : ℤ) :
    Missed s (enter s p ip offset) p (ip, offset) ∨ Effect s (enter s p ip offset) p := by
  unfold enter
  cases hf : findPage s ip offset with
  | none =>
    exact .inl ⟨hf, fun _ => rfl, rfl, by simp [State.goto, Point.page],
      by simp [State.goto, Point.unwrapped]⟩
  | some i =>
    refine .inr ?_
    dsimp only
    split_ifs
    · exact .quiet (fun _ => rfl) rfl (by simp [State.goto, Point.page])
        (by simp [State.goto, Point.unwrapped, hp])
    · exact .quiet (fun j => tag_setPage_lock s i j true) rfl (by simp [State.goto, Point.page])
        (by simp [State.goto, Point.unwrapped, hp])

theorem advance_effect {F : Frames} {s s' : State P} {p : P} (h : advance F s p = some s') :
    Effect s s' p := by
  unfold advance at h
  cases hp : s.point p with
  | idle => simp [hp] at h
  | asleep i => simp [hp] at h
  | chosen t i =>
    simp only [hp] at h
    split_ifs at h with hi hl
    obtain rfl := Option.some.inj h
    exact .quiet (fun j => tag_setPage_lock s _ j true) rfl
      (by simp [State.goto, Point.page, hp]) (by simp [State.goto, Point.unwrapped, hp])
  | locked t i =>
    simp only [hp] at h
    obtain rfl := Option.some.inj h
    exact .wrapped (fun _ => rfl) rfl (by simp [State.goto, Point.page, hp])
      (by simp [State.goto, Point.unwrapped])
  | wrapped t i =>
    simp only [hp] at h
    cases hr : readi (s.data t.1) (wrap t.2) PGSIZE with
    | none =>
      simp only [hr] at h
      obtain rfl := Option.some.inj h
      exact .quiet (fun _ => rfl) rfl (by simp [State.goto, Point.page])
        (by simp [State.goto, Point.unwrapped, hp])
    | some bs =>
      simp only [hr] at h
      obtain rfl := Option.some.inj h
      exact .quiet (fun _ => rfl) rfl (by simp [State.goto, Point.page, hp])
        (by simp [State.goto, Point.unwrapped, hp])
  | loaded t i =>
    simp only [hp] at h
    obtain rfl := Option.some.inj h
    refine .tagged t i (by simp [State.goto, State.setPage, tag]) ?_ rfl
      (by simp [Point.page, hp]) (by simp [State.goto, Point.page])
      (by simp [State.goto, Point.unwrapped, hp])
    intro j hj
    simp [State.goto, State.setPage, hj]
  | holding i =>
    simp only [hp] at h
    obtain rfl := Option.some.inj h
    exact .quiet (fun j => tag_setPage_lock s i j false) rfl (by simp [State.goto, Point.page])
      (by simp [State.goto, Point.unwrapped, hp])

theorem enter_point (s : State P) (p : P) (ip : Inode) (offset : ℤ) {q : P} (hq : q ≠ p) :
    (enter s p ip offset).point q = s.point q := by
  unfold enter
  cases findPage s ip offset with
  | none => simp [State.goto, hq]
  | some i =>
    dsimp only
    split_ifs <;> simp [State.goto, State.setPage, hq]

theorem advance_point {F : Frames} {s s' : State P} {p : P} (h : advance F s p = some s') {q : P}
    (hq : q ≠ p) : s'.point q = s.point q := by
  unfold advance at h
  repeat' split at h
  all_goals first
    | contradiction
    | (obtain rfl := Option.some.inj h; simp [State.goto, State.setPage, hq])

section Step

variable {s s' : State P} {p : P}

theorem Missed.invariant {t : Tag} (h : Invariant s) (he : Missed s s' p t)
    (hq : ∀ q, q ≠ p → s'.point q = s.point q)
    (hfree : ∀ q, (s.point q).page ≠ some t ∧ (s.point q).unwrapped ≠ some (NPAGECACHE - 1)) :
    Invariant s' := by
  have hcount : s.totalCount < NPAGECACHE := by
    refine Nat.lt_of_le_of_ne h.counter fun heq => ?_
    obtain ⟨q, hlast⟩ := h.last heq
    exact (hfree q).2 hlast
  constructor
  · intro q i hi
    by_cases hqp : q = p
    · subst q
      rw [he.unwrapped] at hi
      obtain rfl := Option.some.inj hi
      exact hcount
    · exact h.taken q i (by rwa [hq q hqp] at hi)
  · rw [he.count]
    exact hcount
  · intro hfull
    refine ⟨p, ?_⟩
    rw [he.unwrapped, show s.totalCount = NPAGECACHE - 1 by rw [he.count] at hfull; omega]
  · intro q u hu i
    rw [he.tags i]
    by_cases hqp : q = p
    · subst q
      rw [he.page] at hu
      obtain rfl := Option.some.inj hu
      exact findPage_missed he.miss i
    · exact h.fresh q u (by rwa [hq q hqp] at hu) i
  · intro q r u hu hr
    by_cases hqp : q = p <;> by_cases hrp : r = p
    · rw [hqp, hrp]
    · rw [hqp, he.page] at hu
      rw [hq r hrp, ← hu] at hr
      exact absurd hr (hfree r).1
    · rw [hrp, he.page] at hr
      rw [hq q hqp, ← hr] at hu
      exact absurd hu (hfree q).1
    · rw [hq q hqp] at hu
      rw [hq r hrp] at hr
      exact h.single q r u hu hr
  · intro i j hi hij
    rw [he.tags i] at hi hij
    rw [he.tags j] at hij
    exact h.unique i j hi hij

theorem Effect.page_kept (he : Effect s s' p) (hq : ∀ q, q ≠ p → s'.point q = s.point q)
    {q : P} {t : Tag} (ht : (s'.point q).page = some t) : (s.point q).page = some t := by
  by_cases hqp : q = p
  · subst q
    cases he with
    | quiet tags count page =>
      rcases page with page | page
      · rwa [page] at ht
      · rw [page] at ht
        cases ht
    | wrapped tags count page => rwa [page] at ht
    | tagged u i own others count was page =>
      rw [page] at ht
      cases ht
  · rwa [hq q hqp] at ht

theorem Effect.unwrapped_kept (he : Effect s s' p) (hq : ∀ q, q ≠ p → s'.point q = s.point q)
    {q : P} {i : ℕ} (hi : (s'.point q).unwrapped = some i) : (s.point q).unwrapped = some i := by
  by_cases hqp : q = p
  · subst q
    cases he with
    | quiet tags count page unwrapped => rwa [unwrapped] at hi
    | wrapped tags count page unwrapped =>
      rw [unwrapped] at hi
      cases hi
    | tagged u j own others count was page unwrapped => rwa [unwrapped] at hi
  · rwa [hq q hqp] at hi

/-- The counter stands behind the array only while the process that put it there has not
looked at it again. -/
theorem Effect.count_kept (he : Effect s s' p) (hq : ∀ q, q ≠ p → s'.point q = s.point q)
    (hfull : s'.totalCount = NPAGECACHE) :
    s.totalCount = NPAGECACHE ∧ ∀ q, (s'.point q).unwrapped = (s.point q).unwrapped := by
  have hsame (hu : (s'.point p).unwrapped = (s.point p).unwrapped) (q : P) :
      (s'.point q).unwrapped = (s.point q).unwrapped := by
    by_cases hqp : q = p
    · rwa [hqp]
    · rw [hq q hqp]
  cases he with
  | quiet tags count page unwrapped => exact ⟨count ▸ hfull, hsame unwrapped⟩
  | wrapped tags count =>
    rw [count] at hfull
    split_ifs at hfull with h
    exact absurd hfull h
  | tagged t i own others count was page unwrapped => exact ⟨count ▸ hfull, hsame unwrapped⟩

theorem Effect.invariant (h : Invariant s) (he : Effect s s' p)
    (hq : ∀ q, q ≠ p → s'.point q = s.point q) : Invariant s' := by
  have hcounter : s'.totalCount ≤ NPAGECACHE := by
    have hle := h.counter
    cases he with
    | quiet tags count => rwa [count]
    | wrapped tags count =>
      rw [count]
      split_ifs <;> omega
    | tagged t i own others count => rwa [count]
  have hlast : s'.totalCount = NPAGECACHE →
      ∃ q, (s'.point q).unwrapped = some (NPAGECACHE - 1) := by
    intro hfull
    obtain ⟨hwas, hsame⟩ := he.count_kept hq hfull
    obtain ⟨q, hlast⟩ := h.last hwas
    exact ⟨q, (hsame q).trans hlast⟩
  have hsingle : ∀ q r t, (s'.point q).page = some t → (s'.point r).page = some t → q = r :=
    fun q r t hu hr => h.single q r t (he.page_kept hq hu) (he.page_kept hq hr)
  have htaken : ∀ q i, (s'.point q).unwrapped = some i → i < NPAGECACHE :=
    fun q i hi => h.taken q i (he.unwrapped_kept hq hi)
  have hkept : (∀ i, tag (s'.pages i) = tag (s.pages i)) → Invariant s' := by
    intro htags
    refine ⟨htaken, hcounter, hlast, ?_, hsingle, ?_⟩
    · intro q t ht i
      rw [htags i]
      exact h.fresh q t (he.page_kept hq ht) i
    · intro i j hi hij
      rw [htags i] at hi hij
      rw [htags j] at hij
      exact h.unique i j hi hij
  have hkeep : ∀ {q t}, (s'.point q).page = some t → (s.point q).page = some t :=
    fun ht => he.page_kept hq ht
  cases he with
  | quiet tags => exact hkept tags
  | wrapped tags => exact hkept tags
  | tagged t i own others count was page =>
    have hne : ∀ j, j ≠ i → tag (s'.pages j) ≠ t := by
      intro j hj
      rw [others j hj]
      exact h.fresh p t was j
    refine ⟨htaken, hcounter, hlast, ?_, hsingle, ?_⟩
    · intro q u hu j
      by_cases hj : j = i
      · rintro rfl
        rw [hj, own] at hu
        have hqp := h.single q p t (hkeep hu) was
        rw [hqp, page] at hu
        cases hu
      · rw [others j hj]
        exact h.fresh q u (hkeep hu) j
    · intro j k hnum hjk
      by_cases hj : j = i <;> by_cases hk : k = i
      · rw [hj, hk]
      · rw [hj, own] at hjk
        exact absurd hjk.symm (hne k hk)
      · rw [hk, own] at hjk
        exact absurd hjk (hne j hj)
      · rw [others j hj] at hnum hjk
        rw [others k hk] at hjk
        exact h.unique j k hnum hjk

end Step

section Runs

variable {F : Frames} {s s' : State P}

theorem step_invariant {a : Action P} (h : Invariant s) (ha : Apart s a)
    (hs : next F s a = some s') : Invariant s' := by
  cases a with
  | getPage p ip offset =>
    simp only [next] at hs
    split_ifs at hs with hidle
    obtain rfl := Option.some.inj hs
    have hothers := fun q hq => enter_point s p ip (pageOffset offset) (q := q) hq
    rcases enter_effect hidle.1 ip (pageOffset offset) with hmiss | heff
    · exact hmiss.invariant h hothers (ha hmiss.miss)
    · exact heff.invariant h hothers
  | advance p => exact (advance_effect hs).invariant h fun q hq => advance_point hs hq

theorem separate_misses_unique {mem : Mem} {data : Inode → List UInt8} {as : List (Action P)}
    (ha : Along (next F) Apart (initial mem data) as)
    (hs : run (next F) (initial mem data) as = some s') : InRange s' ∧ Unique s' := by
  have h := run_invariant (fun _ _ _ h ha => step_invariant h ha) (initial_invariant mem data) ha hs
  exact ⟨h.inRange, h.unique⟩

end Runs

instance (s : State P) [Fintype P] (a : Action P) : Decidable (Apart s a) :=
  match a with
  | .getPage _ ip offset => inferInstanceAs (Decidable (findPage s ip (pageOffset offset) = none →
      ∀ q, (s.point q).page ≠ some (ip, pageOffset offset) ∧
        (s.point q).unwrapped ≠ some (NPAGECACHE - 1)))
  | .advance _ => inferInstanceAs (Decidable True)

end Machine

def emptyCache {P : Type} : State P := initial (fun _ => 0) fun _ => []

/-- The two processes miss different pages and take turns from there on. -/
def byTurns : List (Action Bool) :=
  [.getPage false ⟨1, 5⟩ 0, .getPage true ⟨1, 6⟩ 0] ++
    (List.replicate 4 [.advance false, .advance true]).flatten

theorem by_turns_unique : ∃ s, run (next PageCoherence.adjacentFrames) emptyCache byTurns = some s ∧
    tag (s.pages 0) = (⟨1, 5⟩, 0) ∧ tag (s.pages 1) = (⟨1, 6⟩, 0) ∧ InRange s ∧ Unique s := by
  have hsome : ((run (next PageCoherence.adjacentFrames) emptyCache byTurns).any fun s =>
      tag (s.pages 0) = (⟨1, 5⟩, 0) ∧ tag (s.pages 1) = (⟨1, 6⟩, 0)) = true := by
    decide +kernel
  obtain ⟨s, hs, htags⟩ := (Option.any_eq_true _ _).mp hsome
  obtain ⟨hzero, hone⟩ := of_decide_eq_true htags
  have hapart : Along (next PageCoherence.adjacentFrames) Apart emptyCache byTurns := by
    decide +kernel
  exact ⟨s, hs, hzero, hone, separate_misses_unique hapart hs⟩

/-- Both processes miss the same page before either has tagged its slot. -/
def sameMiss : List (Action Bool) :=
  [.getPage false ⟨1, 5⟩ 0, .getPage true ⟨1, 5⟩ 0] ++ List.replicate 4 (.advance false) ++
    List.replicate 4 (.advance true)

/-- Thirty-one misses in a row, none of which gets as far as the wrap. -/
def manyMisses : List (Action (Fin 31)) :=
  (List.finRange 31).map fun p => .getPage p ⟨1, p.val + 1⟩ 0

theorem concurrent_misses_collide :
    (∃ s, run (next PageCoherence.adjacentFrames) emptyCache sameMiss = some s ∧ ¬ Unique s) ∧
    ∃ s, run (next PageCoherence.adjacentFrames) emptyCache manyMisses = some s ∧ ¬ InRange s := by
  constructor
  · have hsome : ((run (next PageCoherence.adjacentFrames) emptyCache sameMiss).any fun s =>
        tag (s.pages 0) = (⟨1, 5⟩, 0) ∧ tag (s.pages 1) = (⟨1, 5⟩, 0)) = true := by
      decide +kernel
    obtain ⟨s, hs, htags⟩ := (Option.any_eq_true _ _).mp hsome
    obtain ⟨hzero, hone⟩ := of_decide_eq_true htags
    refine ⟨s, hs, fun hunique => ?_⟩
    have heq := hunique 0 1 (by rw [hzero]; decide) (hzero.trans hone.symm)
    cases heq
  · have hsome : ((run (next PageCoherence.adjacentFrames) emptyCache manyMisses).any fun s =>
        s.point 30 = .chosen (⟨1, 31⟩, 0) 30) = true := by
      decide +kernel
    obtain ⟨s, hs, hlast⟩ := (Option.any_eq_true _ _).mp hsome
    refine ⟨s, hs, fun hrange => ?_⟩
    exact absurd (hrange 30 _ _ (of_decide_eq_true hlast)) (by decide)

end PageSteps
