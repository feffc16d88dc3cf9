import Mathlib.Algebra.BigOperators.Group.Finset.Basic
import Mathlib.Data.Fintype.Basic
import OsProjects.ByteMemory
import OsProjects.LockedCells
import OsProjects.Runs

/-! # The buffer cache

`bio.c` with the sleep locks of `sleeplock.c` and the disk driver's `iderw`, for processes that
come between each other wherever `bcache.lock` is not held. A process at `waiting` is in
`acquiresleep`, at `ide` in `iderw`, and at `releasing` behind `releasesleep` in `brelse`. -/
namespace BufferCache

open ByteMemory LockedCells

def NBUF : ℕ := 30

abbrev Slot := Fin NBUF

/-- A device and a block number. -/
abbrev Key := ℕ × ℕ

/-- `locked` is the process that has the sleep lock. -/
structure Buf (P : Type) where
  dev : ℕ
  blockno : ℕ
  valid : Bool
  dirty : Bool
  refcnt : ℕ
  locked : Option P
  data : Mem

def Buf.key {P : Type} (b : Buf P) : Key := (b.dev, b.blockno)

inductive Point where
  | idle
  | waiting (i : Slot)
  | ide (i : Slot)
  | releasing (i : Slot)
  deriving DecidableEq

/-- `order` starts at `bcache.head.next`, the buffer that was used last. -/
structure State (P : Type) where
  buf : Slot → Buf P
  order : List Slot
  disk : Key → Mem
  point : P → Point

inductive Event (P : Type) where
  | bget (p : P) (dev blockno : ℕ)
  | acquiresleep (p : P)
  /-- The disk is done with the buffer that the process waits for. -/
  | ideintr (p : P)
  /-- The process changes `b->data`. -/
  | modify (p : P) (i : Slot) (data : Mem)
  /-- `log_write` marks the buffer. -/
  | log_write (p : P) (i : Slot)
  | bwrite (p : P) (i : Slot)
  | brelse (p : P) (i : Slot)
  /-- The rest of `brelse`, under `bcache.lock`. -/
  | unref (p : P)

section Machine

variable {P : Type} [DecidableEq P]

def binit (disk : Key → Mem) : State P :=
  { buf := fun _ => ⟨0, 0, false, false, 0, none, fun _ => 0⟩
    order := (List.finRange NBUF).reverse
    disk := disk
    point := fun _ => .idle }

def State.set (s : State P) (i : Slot) (b : Buf P) (p : P) (point : Point) : State P :=
  { s with
    buf := Function.update s.buf i b
    point := Function.update s.point p point }

def cached (s : State P) (key : Key) : Option Slot := s.order.find? fun i => (s.buf i).key = key

def unused (s : State P) : Option Slot :=
  s.order.reverse.find? fun i => (s.buf i).refcnt = 0 && !(s.buf i).dirty

def bget (s : State P) (p : P) (dev blockno : ℕ) : Option (State P) :=
  match cached s (dev, blockno) with
  | some i => some (s.set i { s.buf i with refcnt := (s.buf i).refcnt + 1 } p (.waiting i))
  | none =>
    match unused s with
    | some i =>
      let b := { s.buf i with
        dev := dev, blockno := blockno, valid := false, dirty := false, refcnt := 1 }
      some (s.set i b p (.waiting i))
    | none =>
      -- panics
      none

def acquiresleep (s : State P) (p : P) : Option (State P) :=
  match s.point p with
  | .waiting i =>
    if (s.buf i).locked = none then
      -- bread() goes on to iderw() when the buffer is not valid
      some (s.set i { s.buf i with locked := some p } p (if (s.buf i).valid then .idle else .ide i))
    else none
  | _ => none

/-- A dirty buffer is written, any other is read. -/
def transfer (disk : Key → Mem) (b : Buf P) : Buf P :=
  { b with data := if b.dirty then b.data else disk b.key, valid := true, dirty := false }

def ideintr (s : State P) (p : P) : Option (State P) :=
  match s.point p with
  | .ide i =>
    let b := s.buf i
    let s := s.set i (transfer s.disk b) p .idle
    some { s with disk := if b.dirty then Function.update s.disk b.key b.data else s.disk }
  | _ => none

/-- The process has the buffer from `bread`, and is in no call. -/
def holds (s : State P) (p : P) (i : Slot) : Bool :=
  (s.buf i).locked = some p && s.point p = .idle

def unref (s : State P) (p : P) : Option (State P) :=
  match s.point p with
  | .releasing i =>
    let refcnt := (s.buf i).refcnt - 1
    let s := s.set i { s.buf i with refcnt := refcnt } p .idle
    some (if refcnt = 0 then { s with order := i :: s.order.erase i } else s)
  | _ => none

def next (s : State P) : Event P → Option (State P)
  | .bget p dev blockno => if s.point p = .idle then bget s p dev blockno else none
  | .acquiresleep p => acquiresleep s p
  | .ideintr p => ideintr s p
  | .modify p i data =>
    if holds s p i then some (s.set i { s.buf i with data := data } p .idle) else none
  | .log_write p i =>
    if holds s p i then some (s.set i { s.buf i with dirty := true } p .idle) else none
  | .bwrite p i =>
    if holds s p i then some (s.set i { s.buf i with dirty := true } p (.ide i)) else none
  | .brelse p i =>
    if holds s p i then some (s.set i { s.buf i with locked := none } p (.releasing i)) else none
  | .unref p => unref s p

/-- What a process has from its calls: a buffer when `bread` returns, none when it has gone on to
wait, and what it writes and gives back. -/
def labels (s : State P) : Event P → List (Label P Key Mem)
  | .acquiresleep p =>
    match s.point p with
    | .waiting i =>
      if (s.buf i).valid then [.acquire p (s.buf i).key (s.buf i).data] else []
    | _ => []
  | .ideintr p =>
    match s.point p with
    | .ide i =>
      if (s.buf i).valid then [] else
        [.acquire p (s.buf i).key (transfer s.disk (s.buf i)).data]
    | _ => []
  | .modify p i data => [.write p (s.buf i).key data]
  | .brelse p i => [.release p (s.buf i).key]
  | _ => []

def trace (s : State P) : List (Event P) → List (Label P Key Mem)
  | [] => []
  | e :: es => labels s e ++ (next s e).elim [] fun s => trace s es

/-- The file systems are not on device 0, and a buffer that was changed is written to the disk or
marked by `log_write` before it is released. -/
def Permitted (s : State P) : Event P → Prop
  | .bget _ dev _ => dev ≠ 0
  | .brelse _ i => (s.buf i).dirty = true ∨ (s.buf i).data = s.disk (s.buf i).key
  | _ => True

end Machine

section Counts

variable {P : Type} [DecidableEq P]

/-- The buffer that the call in progress is about. -/
def Point.slot : Point → Option Slot
  | .idle => none
  | .waiting i | .ide i | .releasing i => some i

/-- The call counts for the buffer's `refcnt`, beside the lock. -/
def Point.counts : Point → Slot → ℕ
  | .waiting i, j | .releasing i, j => if i = j then 1 else 0
  | .idle, _ | .ide _, _ => 0

def refs (s : State P) (i : Slot) (p : P) : ℕ :=
  (if (s.buf i).locked = some p then 1 else 0) + (s.point p).counts i

@[simp] theorem counts_idle {i : Slot} : Point.idle.counts i = 0 := rfl
@[simp] theorem counts_ide {i j : Slot} : (Point.ide i).counts j = 0 := rfl
@[simp] theorem counts_waiting {i : Slot} : (Point.waiting i).counts i = 1 := if_pos rfl
@[simp] theorem counts_releasing {i : Slot} : (Point.releasing i).counts i = 1 := if_pos rfl

theorem counts_of_ne {pt : Point} {i : Slot} (h : pt.slot ≠ some i) : pt.counts i = 0 := by
  cases pt with
  | idle => rfl
  | ide j => rfl
  | waiting j => exact if_neg fun he => h (congrArg some he)
  | releasing j => exact if_neg fun he => h (congrArg some he)

omit [DecidableEq P] in
theorem cached_some {s : State P} {key : Key} {i : Slot} (h : cached s key = some i) :
    (s.buf i).key = key := by simpa using List.find?_some h

theorem holds_iff {s : State P} {p : P} {i : Slot} :
    holds s p i = true ↔ (s.buf i).locked = some p ∧ s.point p = .idle := by simp [holds]

omit [DecidableEq P] in
theorem unused_some {s : State P} {i : Slot} (h : unused s = some i) :
    (s.buf i).refcnt = 0 ∧ (s.buf i).dirty = false := by simpa using List.find?_some h

/-- When the term of one process changes, the sum changes by as much. -/
theorem sum_of_one [Fintype P] {f g : P → ℕ} {p : P} (h : ∀ q, q ≠ p → g q = f q) :
    (∑ q, g q) + f p = (∑ q, f q) + g p := by
  have hrest : ∑ q ∈ Finset.univ.erase p, g q = ∑ q ∈ Finset.univ.erase p, f q :=
    Finset.sum_congr rfl fun q hq => h q (Finset.ne_of_mem_erase hq)
  rw [← Finset.add_sum_erase _ g (Finset.mem_univ p),
    ← Finset.add_sum_erase _ f (Finset.mem_univ p), hrest]
  omega

end Counts

section Soundness

variable {P : Type} [DecidableEq P] [Fintype P] {s s' : State P} {p q : P} {i j : Slot}
  {b : Buf P} {pt : Point}

structure Sound (s : State P) : Prop where
  unique : ∀ i j, (s.buf i).key = (s.buf j).key → (s.buf i).dev ≠ 0 → i = j
  listed : ∀ i, i ∈ s.order
  count : ∀ i, (s.buf i).refcnt = ∑ p, refs s i p
  busy : ∀ p i, s.point p = .ide i →
    (s.buf i).locked = some p ∧ ((s.buf i).valid = true → (s.buf i).dirty = true)
  held : ∀ i p, (s.buf i).locked = some p → (s.buf i).valid = true ∨ s.point p = .ide i
  read : ∀ i, (s.buf i).dirty = true → (s.buf i).valid = true
  dev : ∀ i, 0 < (s.buf i).refcnt ∨ (s.buf i).valid = true → (s.buf i).dev ≠ 0

theorem Sound.refs_eq_zero (h : Sound s) (hi : (s.buf i).refcnt = 0) (p : P) : refs s i p = 0 := by
  have := h.count i
  rw [hi] at this
  exact Finset.sum_eq_zero_iff.mp this.symm p (Finset.mem_univ p)

theorem Sound.locked_eq_none (h : Sound s) (hi : (s.buf i).refcnt = 0) :
    (s.buf i).locked = none := by
  cases hl : (s.buf i).locked with
  | none => rfl
  | some p =>
    have := h.refs_eq_zero hi p
    simp [refs, hl] at this

theorem Sound.refcnt_pos (h : Sound s) (hi : 0 < refs s i p) : 0 < (s.buf i).refcnt := by
  refine Nat.pos_of_ne_zero fun h0 => ?_
  rw [h.refs_eq_zero h0 p] at hi
  exact hi.false

/-- What a step of a process on one buffer has to see to. -/
structure Change (s : State P) (i : Slot) (b : Buf P) (p : P) (pt : Point) : Prop where
  old : ∀ j, (s.point p).slot = some j → j = i
  new : ∀ j, pt.slot = some j → j = i
  key : b.key = (s.buf i).key ∨ ∀ j, (s.buf j).key ≠ b.key
  locked : ∀ q, q ≠ p → (b.locked = some q ↔ (s.buf i).locked = some q)
  flags : ∀ q, q ≠ p → (s.buf i).locked = some q →
    b.valid = (s.buf i).valid ∧ b.dirty = (s.buf i).dirty
  count : b.refcnt + refs s i p =
    (s.buf i).refcnt + ((if b.locked = some p then 1 else 0) + pt.counts i)
  busy : pt = .ide i → b.locked = some p ∧ (b.valid = true → b.dirty = true)
  held : b.locked = some p → b.valid = true ∨ pt = .ide i
  read : b.dirty = true → b.valid = true
  dev : 0 < b.refcnt ∨ b.valid = true → b.dev ≠ 0

theorem Sound.set (h : Sound s) (disk : Key → Mem) (hc : Change s i b p pt) {order : List Slot}
    (horder : ∀ i, i ∈ order) :
    Sound { s.set i b p pt with order := order, disk := disk } := by
  have hbuf : ∀ j, j ≠ i → Function.update s.buf i b j = s.buf j :=
    fun j hj => Function.update_of_ne hj _ _
  have hpoint : ∀ q, q ≠ p → Function.update s.point p pt q = s.point q :=
    fun q hq => Function.update_of_ne hq _ _
  refine ⟨?_, horder, fun j => ?_, fun q j hq => ?_, fun j q hq => ?_, fun j hj => ?_,
    fun j hj => ?_⟩
  · intro j k hjk hdev
    simp only [State.set] at hjk hdev
    obtain hkey | hkey := hc.key
    · -- the keys are those from before
      have hsame : ∀ j, (Function.update s.buf i b j).key = (s.buf j).key := by
        intro j
        rw [Function.update_apply]
        split_ifs with hj
        · rw [hj, hkey]
        · rfl
      rw [hsame, hsame] at hjk
      refine h.unique j k hjk ?_
      rw [show (Function.update s.buf i b j).dev = (s.buf j).dev from congrArg Prod.fst (hsame j)]
        at hdev
      exact hdev
    · by_cases hj : j = i
      · by_cases hk : k = i
        · rw [hj, hk]
        · rw [hj, Function.update_self, hbuf k hk] at hjk
          exact absurd hjk.symm (hkey k)
      · rw [hbuf j hj] at hjk hdev
        by_cases hk : k = i
        · rw [hk, Function.update_self] at hjk
          exact absurd hjk (hkey j)
        · rw [hbuf k hk] at hjk
          exact h.unique j k hjk hdev
  · change (Function.update s.buf i b j).refcnt = ∑ q, refs (s.set i b p pt) j q
    by_cases hj : j = i
    · subst hj
      rw [Function.update_self]
      have hsum := sum_of_one (f := refs s j) (g := refs (s.set j b p pt) j) (p := p) fun q hq => by
        simp only [refs, State.set, Function.update_self, hpoint q hq, hc.locked q hq]
      have hp : refs (s.set j b p pt) j p =
          (if b.locked = some p then 1 else 0) + pt.counts j := by
        simp only [refs, State.set, Function.update_self]
      have := hc.count
      have := h.count j
      omega
    · rw [hbuf j hj, h.count j]
      refine Finset.sum_congr rfl fun q _ => ?_
      simp only [refs, State.set, hbuf j hj]
      by_cases hq : q = p
      · subst hq
        rw [Function.update_self, counts_of_ne fun he => hj (hc.old j he),
          counts_of_ne fun he => hj (hc.new j he)]
      · rw [hpoint q hq]
  · simp only [State.set] at hq ⊢
    by_cases hqp : q = p
    · rw [hqp, Function.update_self] at hq
      obtain rfl := hc.new j (by rw [hq]; rfl)
      rw [Function.update_self, hqp]
      exact hc.busy hq
    · rw [hpoint q hqp] at hq
      obtain ⟨hl, hd⟩ := h.busy q j hq
      by_cases hj : j = i
      · subst hj
        obtain ⟨hv', hd'⟩ := hc.flags q hqp hl
        rw [Function.update_self, hv', hd']
        exact ⟨(hc.locked q hqp).mpr hl, hd⟩
      · rw [hbuf j hj]
        exact ⟨hl, hd⟩
  · simp only [State.set] at hq ⊢
    by_cases hj : j = i
    · subst hj
      rw [Function.update_self] at hq ⊢
      by_cases hqp : q = p
      · rw [hqp] at hq ⊢
        rw [Function.update_self]
        exact hc.held hq
      · have hl := (hc.locked q hqp).mp hq
        rw [hpoint q hqp, (hc.flags q hqp hl).1]
        exact h.held j q hl
    · rw [hbuf j hj] at hq ⊢
      by_cases hqp : q = p
      · subst hqp
        refine (h.held j q hq).imp_right fun hi => absurd (hc.old j ?_) hj
        rw [hi]
        rfl
      · rw [hpoint q hqp]
        exact h.held j q hq
  · simp only [State.set, Function.update_apply] at hj ⊢
    split_ifs at hj ⊢
    · exact hc.read hj
    · exact h.read j hj
  · simp only [State.set, Function.update_apply] at hj ⊢
    split_ifs at hj ⊢
    · exact hc.dev hj
    · exact h.dev j hj

theorem Sound.cached_none (h : Sound s) {key : Key} (hn : cached s key = none) (j : Slot) :
    (s.buf j).key ≠ key := by
  have := List.find?_eq_none.mp hn j (h.listed j)
  simpa using this

theorem hit_change (h : Sound s) (hidle : s.point p = .idle) (hdev : (s.buf i).dev ≠ 0) :
    Change s i { s.buf i with refcnt := (s.buf i).refcnt + 1 } p (.waiting i) where
  old j hj := by rw [hidle] at hj; cases hj
  new j hj := (Option.some.inj hj).symm
  key := .inl rfl
  locked q _ := Iff.rfl
  flags q _ _ := ⟨rfl, rfl⟩
  count := by
    simp only [refs, hidle, counts_idle, counts_waiting]
    omega
  busy hp := by cases hp
  held hl := (h.held i p hl).imp_right fun hi => by rw [hidle] at hi; cases hi
  read := h.read i
  dev _ := hdev

theorem recycle_change (h : Sound s) (hidle : s.point p = .idle) {dev blockno : ℕ}
    (hdev : dev ≠ 0) (hn : cached s (dev, blockno) = none) (hu : unused s = some i) :
    Change s i { s.buf i with
      dev := dev, blockno := blockno, valid := false, dirty := false, refcnt := 1 } p
      (.waiting i) where
  old j hj := by rw [hidle] at hj; cases hj
  new j hj := (Option.some.inj hj).symm
  key := .inr (h.cached_none hn)
  locked q _ := Iff.rfl
  flags q _ hl := by
    rw [h.locked_eq_none (unused_some hu).1] at hl
    cases hl
  count := by
    have hrefs := h.refs_eq_zero (unused_some hu).1 p
    have hl := h.locked_eq_none (unused_some hu).1
    simp only [hrefs, (unused_some hu).1, hl, counts_waiting]
    rfl
  busy hp := by cases hp
  held hl := by
    rw [h.locked_eq_none (unused_some hu).1] at hl
    cases hl
  read hd := by cases hd
  dev _ := hdev

theorem acquiresleep_change (h : Sound s) (hp : s.point p = .waiting i)
    (hl : (s.buf i).locked = none) :
    Change s i { s.buf i with locked := some p } p
      (if (s.buf i).valid then .idle else .ide i) where
  old j hj := by rw [hp] at hj; exact (Option.some.inj hj).symm
  new j hj := by
    split_ifs at hj
    · cases hj
    · exact (Option.some.inj hj).symm
  key := .inl rfl
  locked q hq := by simp [hl, Ne.symm hq]
  flags q _ hlq := by
    rw [hl] at hlq
    cases hlq
  count := by
    have hnew : (if (s.buf i).valid then Point.idle else .ide i).counts i = 0 := by
      split_ifs <;> rfl
    simp [refs, hp, hl, hnew]
  busy hb := by
    split_ifs at hb with hv
    exact ⟨rfl, fun hv' => absurd hv' hv⟩
  held _ := by
    split_ifs with hv
    · exact .inl hv
    · exact .inr rfl
  read := h.read i
  dev hd := by
    refine h.dev i (hd.imp_left fun _ => h.refcnt_pos (p := p) ?_)
    simp [refs, hp]

theorem transfer_change (h : Sound s) (hp : s.point p = .ide i) :
    Change s i (transfer s.disk (s.buf i)) p .idle where
  old j hj := by rw [hp] at hj; exact (Option.some.inj hj).symm
  new j hj := by cases hj
  key := .inl rfl
  locked q _ := Iff.rfl
  flags q hq hl := by
    rw [(h.busy p i hp).1] at hl
    exact absurd (Option.some.inj hl).symm hq
  count := by rw [refs, hp, counts_ide, counts_idle]; rfl
  busy hb := by cases hb
  held _ := .inl rfl
  read _ := rfl
  dev _ := h.dev i (.inl (h.refcnt_pos (p := p) (by simp [refs, (h.busy p i hp).1])))

theorem Sound.valid (h : Sound s) (hp : holds s p i = true) : (s.buf i).valid = true := by
  obtain ⟨hl, hidle⟩ := holds_iff.mp hp
  refine (h.held i p hl).resolve_right fun hi => ?_
  rw [hidle] at hi
  cases hi

/-- The holder's own steps, which change the data, the dirty flag and the point. -/
theorem holder_change (h : Sound s) (hp : holds s p i = true) (data : Mem) {dirty : Bool}
    (hnew : pt = .idle ∨ (pt = .ide i ∧ dirty = true)) :
    Change s i { s.buf i with data := data, dirty := dirty } p pt where
  old j hj := by rw [(holds_iff.mp hp).2] at hj; cases hj
  new j hj := by
    obtain rfl | ⟨rfl, -⟩ := hnew
    · cases hj
    · exact (Option.some.inj hj).symm
  key := .inl rfl
  locked q _ := Iff.rfl
  flags q hq hl := by
    rw [(holds_iff.mp hp).1] at hl
    exact absurd (Option.some.inj hl).symm hq
  count := by
    have hcounts : pt.counts i = 0 := by obtain rfl | ⟨rfl, -⟩ := hnew <;> rfl
    rw [refs, hcounts, (holds_iff.mp hp).2, counts_idle]
  busy hb := by
    obtain rfl | ⟨-, hd⟩ := hnew
    · cases hb
    · exact ⟨(holds_iff.mp hp).1, fun _ => hd⟩
  held _ := .inl (h.valid hp)
  read _ := h.valid hp
  dev _ := h.dev i (.inr (h.valid hp))

theorem brelse_change (h : Sound s) (hp : holds s p i = true) :
    Change s i { s.buf i with locked := none } p (.releasing i) where
  old j hj := by rw [(holds_iff.mp hp).2] at hj; cases hj
  new j hj := (Option.some.inj hj).symm
  key := .inl rfl
  locked q hq := by simp [(holds_iff.mp hp).1, Ne.symm hq]
  flags q hq hl := ⟨rfl, rfl⟩
  count := by simp [refs, (holds_iff.mp hp).1, (holds_iff.mp hp).2]
  busy hb := by cases hb
  held hl := by cases hl
  read := h.read i
  dev := h.dev i

theorem unref_change (h : Sound s) (hp : s.point p = .releasing i) :
    Change s i { s.buf i with refcnt := (s.buf i).refcnt - 1 } p .idle where
  old j hj := by rw [hp] at hj; exact (Option.some.inj hj).symm
  new j hj := by cases hj
  key := .inl rfl
  locked q _ := Iff.rfl
  flags q _ _ := ⟨rfl, rfl⟩
  count := by
    have hpos : 0 < (s.buf i).refcnt :=
      h.refcnt_pos (p := p) (by simp [refs, hp])
    simp only [refs, hp, counts_releasing, counts_idle]
    omega
  busy hb := by cases hb
  held hl := (h.held i p hl).imp_right fun hi => by rw [hp] at hi; cases hi
  read := h.read i
  dev hd := h.dev i (hd.imp_left fun hlt => Nat.lt_of_lt_of_le hlt (Nat.sub_le _ _))

end Soundness

section Refinement

variable {P : Type} [DecidableEq P] [Fintype P] {s s' : State P} {p : P} {i : Slot} {b : Buf P}
  {pt : Point} {a a' : Store P Key Mem} {order : List Slot}

/-- The process that has the buffer from `bread`. -/
def Buf.owner (b : Buf P) : Option P := if b.valid then b.locked else none

/-- The cells are the blocks. A block has its value in its buffer, when the buffer is valid, and
has a holder when the buffer is valid and locked. -/
structure Mirrors (s : State P) (a : Store P Key Mem) : Prop where
  value : ∀ i, (s.buf i).valid = true → a.value (s.buf i).key = (s.buf i).data
  stored : ∀ key : Key, key.1 ≠ 0 → (∀ i, (s.buf i).key = key → (s.buf i).valid = false) →
    a.value key = s.disk key
  saved : ∀ i, (s.buf i).valid = true → (s.buf i).dirty = false → (s.buf i).locked = none →
    (s.buf i).data = s.disk (s.buf i).key
  holder : ∀ i, (s.buf i).dev ≠ 0 → a.holder (s.buf i).key = (s.buf i).owner
  free : ∀ key : Key, key.1 ≠ 0 → (∀ i, (s.buf i).key ≠ key) → a.holder key = none

/-- A step on the buffer of one block leaves the other blocks alone. -/
theorem Mirrors.set (hm : Mirrors s a) (disk : Key → Mem) (h : Sound s) (hdev : (s.buf i).dev ≠ 0)
    (hkey : b.key = (s.buf i).key)
    (hrest : ∀ key, key ≠ (s.buf i).key →
      a'.value key = a.value key ∧ a'.holder key = a.holder key ∧ disk key = s.disk key)
    (hvalue : b.valid = true → a'.value (s.buf i).key = b.data)
    (hstored : b.valid = false → a'.value (s.buf i).key = disk (s.buf i).key)
    (hsaved : b.valid = true → b.dirty = false → b.locked = none →
      b.data = disk (s.buf i).key)
    (hholder : a'.holder (s.buf i).key = b.owner) :
    Mirrors { s.set i b p pt with order := order, disk := disk } a' := by
  have hother : ∀ j, j ≠ i → (s.buf j).key ≠ (s.buf i).key := fun j hj he =>
    hj (h.unique i j he.symm hdev).symm
  have hbuf : ∀ j, j ≠ i → Function.update s.buf i b j = s.buf j :=
    fun j hj => Function.update_of_ne hj _ _
  refine ⟨fun j hj => ?_, fun key h0 hnone => ?_, fun j hv hd hl => ?_, fun j hj => ?_,
    fun key h0 hnone => ?_⟩
  · simp only [State.set] at hj ⊢
    obtain rfl | hji := eq_or_ne j i
    · rw [Function.update_self] at hj ⊢
      rw [hkey, hvalue hj]
    · rw [hbuf j hji] at hj ⊢
      rw [(hrest _ (hother j hji)).1, hm.value j hj]
  · simp only [State.set] at hnone ⊢
    obtain rfl | hne := eq_or_ne key (s.buf i).key
    · have := hnone i (by rw [Function.update_self, hkey])
      rw [Function.update_self] at this
      exact hstored this
    · rw [(hrest key hne).1, (hrest key hne).2.2]
      refine hm.stored key h0 fun j hj => ?_
      have hji : j ≠ i := by
        rintro rfl
        exact hne hj.symm
      have := hnone j (by rw [hbuf j hji, hj])
      rwa [hbuf j hji] at this
  · simp only [State.set] at hv hd hl ⊢
    obtain rfl | hji := eq_or_ne j i
    · rw [Function.update_self] at hv hd hl ⊢
      rw [hkey, hsaved hv hd hl]
    · rw [hbuf j hji] at hv hd hl ⊢
      rw [(hrest _ (hother j hji)).2.2, hm.saved j hv hd hl]
  · simp only [State.set] at hj ⊢
    obtain rfl | hji := eq_or_ne j i
    · rw [Function.update_self, hkey, hholder]
    · rw [hbuf j hji] at hj ⊢
      rw [(hrest _ (hother j hji)).2.1, hm.holder j hj]
  · simp only [State.set] at hnone
    have hne : key ≠ (s.buf i).key := by
      rintro rfl
      exact hnone i (by rw [Function.update_self, hkey])
    rw [(hrest key hne).2.1]
    refine hm.free key h0 fun j hj => ?_
    have hji : j ≠ i := by
      rintro rfl
      exact hne hj.symm
    exact hnone j (by rw [hbuf j hji, hj])

/-- A step that changes no data, no flag and no lock. -/
theorem Mirrors.keep (hm : Mirrors s a) (h : Sound s) (hdev : (s.buf i).dev ≠ 0) {refcnt : ℕ} :
    Mirrors { s.set i { s.buf i with refcnt := refcnt } p pt with order := order } a :=
  hm.set s.disk h hdev rfl (fun _ _ => ⟨rfl, rfl, rfl⟩) (hm.value i)
    (fun hv => hm.stored _ hdev fun j hj => by rwa [h.unique i j hj.symm hdev] at hv)
    (hm.saved i) (hm.holder i hdev)

/-- The buffer's old block has its value on the disk, and the new one has no buffer. -/
theorem Mirrors.recycle (hm : Mirrors s a) (h : Sound s) {dev blockno : ℕ}
    (hn : cached s (dev, blockno) = none) (hu : unused s = some i) :
    Mirrors (s.set i { s.buf i with
      dev := dev, blockno := blockno, valid := false, dirty := false, refcnt := 1 } p pt) a := by
  have hbuf : ∀ j b, j ≠ i → Function.update s.buf i b j = s.buf j :=
    fun j b hj => Function.update_of_ne hj _ _
  have hl := h.locked_eq_none (unused_some hu).1
  have hnew := h.cached_none hn
  refine ⟨fun j hj => ?_, fun key h0 hnone => ?_, fun j hv hd hl => ?_, fun j hj => ?_,
    fun key h0 hnone => ?_⟩
  · simp only [State.set] at hj ⊢
    obtain rfl | hji := eq_or_ne j i
    · rw [Function.update_self] at hj
      cases hj
    · rw [hbuf j _ hji] at hj ⊢
      exact hm.value j hj
  · simp only [State.set] at hnone ⊢
    have hrest : ∀ j, j ≠ i → (s.buf j).key = key → (s.buf j).valid = false := by
      intro j hji hj
      have := hnone j (by rw [hbuf j _ hji, hj])
      rwa [hbuf j _ hji] at this
    by_cases hold : (s.buf i).valid = true ∧ (s.buf i).key = key
    · rw [← hold.2, hm.value i hold.1, hm.saved i hold.1 (unused_some hu).2 hl]
    · refine hm.stored key h0 fun j hj => ?_
      obtain rfl | hji := eq_or_ne j i
      · exact Bool.eq_false_iff.mpr fun hv => hold ⟨hv, hj⟩
      · exact hrest j hji hj
  · simp only [State.set] at hv hd hl ⊢
    obtain rfl | hji := eq_or_ne j i
    · rw [Function.update_self] at hv
      cases hv
    · rw [hbuf j _ hji] at hv hd hl ⊢
      exact hm.saved j hv hd hl
  · simp only [State.set] at hj ⊢
    obtain rfl | hji := eq_or_ne j i
    · rw [Function.update_self]
      rw [Function.update_self] at hj
      exact hm.free _ hj hnew
    · rw [hbuf j _ hji] at hj ⊢
      exact hm.holder j hj
  · simp only [State.set] at hnone
    by_cases hold : (s.buf i).key = key
    · rw [← hold, hm.holder i (by rwa [← hold] at h0), Buf.owner, hl, ite_self]
    · refine hm.free key h0 fun j hj => ?_
      obtain rfl | hji := eq_or_ne j i
      · exact hold hj
      · exact hnone j (by rw [hbuf j _ hji, hj])

theorem bget_mirrors (hm : Mirrors s a) (h : Sound s) (hidle : s.point p = .idle)
    {dev blockno : ℕ} (hdev : dev ≠ 0) (hn : bget s p dev blockno = some s') :
    Sound s' ∧ Mirrors s' a := by
  rw [bget] at hn
  cases hc : cached s (dev, blockno) with
  | some i =>
    rw [hc] at hn
    obtain rfl := Option.some.inj hn
    have hdev' : (s.buf i).dev ≠ 0 := by
      rwa [show (s.buf i).dev = dev from congrArg Prod.fst (cached_some hc)]
    exact ⟨h.set _ (hit_change h hidle hdev') h.listed, hm.keep h hdev'⟩
  | none =>
    rw [hc] at hn
    cases hu : unused s with
    | some i =>
      rw [hu] at hn
      obtain rfl := Option.some.inj hn
      exact ⟨h.set _ (recycle_change h hidle hdev hc hu) h.listed, hm.recycle h hc hu⟩
    | none => simp [hu] at hn

theorem acquiresleep_mirrors (hm : Mirrors s a) (h : Sound s)
    (hn : acquiresleep s p = some s') :
    ∃ a', Steps a (labels s (.acquiresleep p)) a' ∧ Sound s' ∧ Mirrors s' a' := by
  rw [acquiresleep] at hn
  cases hp : s.point p with
  | waiting i =>
    simp only [hp, Option.ite_none_right_eq_some] at hn
    obtain ⟨hl, hn⟩ := hn
    obtain rfl := Option.some.inj hn
    have hc := acquiresleep_change h hp hl
    have hdev : (s.buf i).dev ≠ 0 :=
      h.dev i (.inl (h.refcnt_pos (p := p) (by simp [refs, hp])))
    have hsound := h.set s.disk hc h.listed
    by_cases hv : (s.buf i).valid = true
    · have hfree : a.holder (s.buf i).key = none := by
        rw [hm.holder i hdev, Buf.owner, hl, ite_self]
      have hlabels : labels s (.acquiresleep p) =
          [.acquire p (s.buf i).key (a.value (s.buf i).key)] := by
        simp [labels, hp, hv, hm.value i hv]
      rw [hlabels]
      refine ⟨_, .single (.acquire a p _ hfree), hsound, ?_⟩
      refine hm.set s.disk h hdev rfl (fun key hk => ?_) (hm.value i) (fun hv' => ?_)
        (fun _ _ hl' => by cases hl') ?_
      · exact ⟨rfl, Function.update_of_ne hk _ _, rfl⟩
      · exact absurd (hv.symm.trans hv') Bool.true_eq_false.mp
      · exact (Function.update_self _ _ _).trans (if_pos hv).symm
    · have hlabels : labels s (.acquiresleep p) = [] := by simp [labels, hp, hv]
      rw [hlabels]
      refine ⟨a, .nil a, hsound, ?_⟩
      refine hm.set s.disk h hdev rfl (fun _ _ => ⟨rfl, rfl, rfl⟩) (hm.value i)
        (fun _ => ?_) (fun _ _ hl' => by cases hl') ?_
      · exact hm.stored _ hdev fun j hj => by
          rwa [h.unique i j hj.symm hdev, Bool.not_eq_true] at hv
      · rw [hm.holder i hdev, Buf.owner, Buf.owner, if_neg hv, if_neg hv]
  | _ => simp [hp] at hn

theorem ideintr_mirrors (hm : Mirrors s a) (h : Sound s) (hn : ideintr s p = some s') :
    ∃ a', Steps a (labels s (.ideintr p)) a' ∧ Sound s' ∧ Mirrors s' a' := by
  rw [ideintr] at hn
  cases hp : s.point p with
  | ide i =>
    simp only [hp] at hn
    obtain rfl := Option.some.inj hn
    obtain ⟨hl, hbusy⟩ := h.busy p i hp
    have hdev : (s.buf i).dev ≠ 0 :=
      h.dev i (.inl (h.refcnt_pos (p := p) (by simp [refs, hl])))
    have hsound := h.set (if (s.buf i).dirty then
      Function.update s.disk (s.buf i).key (s.buf i).data else s.disk) (transfer_change h hp)
      h.listed
    cases hv : (s.buf i).valid with
    | true =>
      have hd := hbusy hv
      have hlabels : labels s (.ideintr p) = [] := by simp [labels, hp, hv]
      rw [hlabels]
      refine ⟨a, .nil a, hsound, ?_⟩
      refine hm.set _ h hdev rfl (fun key hk => ⟨rfl, rfl, ?_⟩) (fun _ => ?_) (fun hv' => by cases hv')
        (fun _ _ hl' => ?_) ?_
      · rw [if_pos hd, Function.update_of_ne hk]
        rfl
      · rw [hm.value i hv, transfer, if_pos hd]
      · exact absurd (hl.symm.trans hl') (Option.some_ne_none p)
      · rw [hm.holder i hdev, Buf.owner, hv]
        rfl
    | false =>
      have hd : (s.buf i).dirty = false :=
        Bool.eq_false_iff.mpr fun hd => by rw [h.read i hd] at hv; cases hv
      have hstored : a.value (s.buf i).key = s.disk (s.buf i).key :=
        hm.stored _ hdev fun j hj => by rwa [h.unique i j hj.symm hdev] at hv
      have hdata : (transfer s.disk (s.buf i)).data = a.value (s.buf i).key := by
        rw [hstored, transfer, hd]
        rfl
      have hfree : a.holder (s.buf i).key = none := by
        rw [hm.holder i hdev, Buf.owner, hv]
        rfl
      have hlabels : labels s (.ideintr p) =
          [.acquire p (s.buf i).key (a.value (s.buf i).key)] := by
        simp [labels, hp, hv, hdata]
      rw [hlabels]
      refine ⟨_, .single (.acquire a p _ hfree), hsound, ?_⟩
      refine hm.set _ h hdev rfl (fun key hk => ?_) (fun _ => hdata.symm) (fun hv' => by cases hv')
        (fun _ _ hl' => ?_) ?_
      · exact ⟨rfl, Function.update_of_ne hk _ _, by rw [hd]; rfl⟩
      · exact absurd (hl.symm.trans hl') (Option.some_ne_none p)
      · exact (Function.update_self _ _ _).trans hl.symm
  | _ => simp [hp] at hn

theorem modify_mirrors (hm : Mirrors s a) (h : Sound s) (hp : holds s p i = true) (data : Mem) :
    a.holder (s.buf i).key = some p ∧
      Sound (s.set i { s.buf i with data := data } p .idle) ∧
      Mirrors (s.set i { s.buf i with data := data } p .idle)
        { a with value := Function.update a.value (s.buf i).key data } := by
  have hv := h.valid hp
  have hl := (holds_iff.mp hp).1
  have hdev := h.dev i (.inr hv)
  have hholder : a.holder (s.buf i).key = (s.buf i).owner := hm.holder i hdev
  refine ⟨by rw [hholder, Buf.owner, if_pos hv, hl],
    h.set _ (holder_change h hp data (.inl rfl)) h.listed, ?_⟩
  refine hm.set s.disk h hdev rfl (fun key hk => ?_) (fun _ => ?_) (fun hv' => ?_)
    (fun _ _ hl' => ?_) hholder
  · exact ⟨Function.update_of_ne hk _ _, rfl, rfl⟩
  · exact Function.update_self _ _ _
  · exact absurd (hv.symm.trans hv') Bool.true_eq_false.mp
  · exact absurd (hl.symm.trans hl') (Option.some_ne_none p)

theorem dirty_mirrors (hm : Mirrors s a) (h : Sound s) (hp : holds s p i = true)
    (hnew : pt = .idle ∨ pt = .ide i) :
    Sound (s.set i { s.buf i with dirty := true } p pt) ∧
      Mirrors (s.set i { s.buf i with dirty := true } p pt) a := by
  have hv := h.valid hp
  have hdev := h.dev i (.inr hv)
  refine ⟨h.set _ (holder_change h hp _ (hnew.imp_right fun he => ⟨he, rfl⟩)) h.listed, ?_⟩
  refine hm.set s.disk h hdev rfl (fun _ _ => ⟨rfl, rfl, rfl⟩) (hm.value i)
    (fun hv' => ?_) (fun _ hd _ => by cases hd) (hm.holder i hdev)
  exact absurd (hv.symm.trans hv') Bool.true_eq_false.mp

theorem brelse_mirrors (hm : Mirrors s a) (h : Sound s) (hp : holds s p i = true)
    (hsaved : (s.buf i).dirty = true ∨ (s.buf i).data = s.disk (s.buf i).key) :
    a.holder (s.buf i).key = some p ∧
      Sound (s.set i { s.buf i with locked := none } p (.releasing i)) ∧
      Mirrors (s.set i { s.buf i with locked := none } p (.releasing i))
        { a with holder := Function.update a.holder (s.buf i).key none } := by
  have hv := h.valid hp
  have hdev := h.dev i (.inr hv)
  refine ⟨?_, h.set _ (brelse_change h hp) h.listed, ?_⟩
  · rw [hm.holder i hdev, Buf.owner, if_pos hv, (holds_iff.mp hp).1]
  · refine hm.set s.disk h hdev rfl (fun key hk => ?_) (hm.value i) (fun hv' => ?_)
      (fun _ hd _ => ?_) ?_
    · exact ⟨rfl, Function.update_of_ne hk _ _, rfl⟩
    · exact absurd (hv.symm.trans hv') Bool.true_eq_false.mp
    · exact hsaved.resolve_left (Bool.eq_false_iff.mp hd)
    · exact (Function.update_self _ _ _).trans (if_pos hv).symm

theorem unref_mirrors (hm : Mirrors s a) (h : Sound s) (hn : unref s p = some s') :
    Sound s' ∧ Mirrors s' a := by
  rw [unref] at hn
  cases hp : s.point p with
  | releasing i =>
    simp only [hp] at hn
    obtain rfl := Option.some.inj hn
    have hdev : (s.buf i).dev ≠ 0 :=
      h.dev i (.inl (h.refcnt_pos (p := p) (by simp [refs, hp])))
    have hlisted : ∀ j, j ∈ i :: s.order.erase i := fun j =>
      (eq_or_ne j i).elim (fun he => he ▸ List.mem_cons_self) fun hne =>
        List.mem_cons_of_mem _ ((List.mem_erase_of_ne hne).mpr (h.listed j))
    split_ifs
    · exact ⟨h.set _ (unref_change h hp) hlisted, hm.keep h hdev⟩
    · exact ⟨h.set _ (unref_change h hp) h.listed, hm.keep h hdev⟩
  | _ => simp [hp] at hn

/-- A step of the code is what its labels say of the cells. -/
theorem next_mirrors {e : Event P} (hm : Mirrors s a) (h : Sound s) (he : Permitted s e)
    (hn : next s e = some s') :
    ∃ a', Steps a (labels s e) a' ∧ Sound s' ∧ Mirrors s' a' := by
  cases e with
  | bget p dev blockno =>
    rw [next, Option.ite_none_right_eq_some] at hn
    exact ⟨a, .nil a, bget_mirrors hm h hn.1 he hn.2⟩
  | acquiresleep p => exact acquiresleep_mirrors hm h hn
  | ideintr p => exact ideintr_mirrors hm h hn
  | modify p i data =>
    rw [next, Option.ite_none_right_eq_some] at hn
    obtain rfl := Option.some.inj hn.2
    obtain ⟨hholder, hs⟩ := modify_mirrors hm h hn.1 data
    exact ⟨_, .single (.write a p _ data hholder), hs⟩
  | log_write p i =>
    rw [next, Option.ite_none_right_eq_some] at hn
    obtain rfl := Option.some.inj hn.2
    exact ⟨a, .nil a, dirty_mirrors hm h hn.1 (.inl rfl)⟩
  | bwrite p i =>
    rw [next, Option.ite_none_right_eq_some] at hn
    obtain rfl := Option.some.inj hn.2
    exact ⟨a, .nil a, dirty_mirrors hm h hn.1 (.inr rfl)⟩
  | brelse p i =>
    rw [next, Option.ite_none_right_eq_some] at hn
    obtain rfl := Option.some.inj hn.2
    obtain ⟨hholder, hs⟩ := brelse_mirrors hm h hn.1 he
    exact ⟨_, .single (.release a p _ hholder), hs⟩
  | unref p => exact ⟨a, .nil a, unref_mirrors hm h hn⟩

theorem run_mirrors {es : List (Event P)} (hm : Mirrors s a) (h : Sound s)
    (hes : Runs.Along next Permitted s es) (hr : Runs.run next s es = some s') :
    ∃ a', Steps a (trace s es) a' ∧ Sound s' ∧ Mirrors s' a' := by
  induction es generalizing s a with
  | nil =>
    obtain rfl := Option.some.inj hr
    exact ⟨a, .nil a, h, hm⟩
  | cons e es ih =>
    obtain ⟨u, hu, hr⟩ := Option.bind_eq_some_iff.mp hr
    obtain ⟨a₁, hsteps, h₁, hm₁⟩ := next_mirrors hm h hes.1 hu
    obtain ⟨a₂, hsteps', h₂⟩ := ih hm₁ h₁ (hes.2 u hu) hr
    refine ⟨a₂, ?_, h₂⟩
    rw [trace, hu]
    exact hsteps.append hsteps'

theorem binit_sound (disk : Key → Mem) : Sound (binit disk : State P) where
  unique i j _ h0 := absurd rfl h0
  listed i := List.mem_reverse.mpr (List.mem_finRange i)
  count i := (Finset.sum_eq_zero fun _ _ => rfl).symm
  busy p i hp := by cases hp
  held i p hl := by cases hl
  read i hd := by cases hd
  dev i hd := by
    obtain hd | hd := hd
    · exact absurd hd (Nat.lt_irrefl 0)
    · cases hd

omit [DecidableEq P] [Fintype P] in
theorem binit_mirrors (disk : Key → Mem) :
    Mirrors (binit disk : State P) ⟨disk, fun _ => none⟩ where
  value i hv := by cases hv
  stored key _ _ := rfl
  saved i hv := by cases hv
  holder i h0 := absurd rfl h0
  free _ _ _ := rfl

end Refinement

section Results

variable {P : Type} [DecidableEq P] [Fintype P] {disk : Key → Mem} {es : List (Event P)}
  {s : State P}

/-- Every buffer that is released is marked by `log_write`. -/
def marked (s : State P) : Event P → Bool
  | .bget _ dev _ => dev ≠ 0
  | .brelse _ i => (s.buf i).dirty
  | _ => true

omit [DecidableEq P] [Fintype P] in
theorem permitted_of_marked {s : State P} {e : Event P} (h : marked s e = true) :
    Permitted s e := by
  cases e with
  | bget p dev blockno => simpa [marked, Permitted] using h
  | brelse p i => exact .inl h
  | _ => trivial

def firstSlot : Slot := ⟨0, Nat.succ_pos 29⟩

/-- One process changes a block while the other waits for it. -/
def twoProcesses : List (Event Bool) :=
  [.bget true 1 5, .acquiresleep true, .bget false 1 5, .ideintr true,
    .modify true firstSlot fun _ => 7, .log_write true firstSlot, .brelse true firstSlot,
    .acquiresleep false, .unref true]

theorem twoProcesses_permitted :
    Runs.Along next Permitted (binit fun _ _ => 0) twoProcesses := by
  have h : Runs.Along next (fun s e => marked s e = true) (binit fun _ _ => 0) twoProcesses := by
    decide
  exact h.mono fun _ _ => permitted_of_marked

/-- In every run, `refcnt` counts the processes that have or want the buffer, no block has two
buffers, and a buffer that `bget` recycles is nobody's. -/
theorem references_counted (hes : Runs.Along next Permitted (binit disk) es)
    (hr : Runs.run next (binit disk) es = some s) :
    (∀ i, (s.buf i).refcnt = ∑ p, refs s i p) ∧
      (∀ i j, (s.buf i).key = (s.buf j).key → (s.buf i).dev ≠ 0 → i = j) ∧
      (∀ i, unused s = some i → ∀ p, (s.buf i).locked ≠ some p ∧ (s.point p).slot ≠ some i) := by
  obtain ⟨a, -, h, -⟩ := run_mirrors (binit_mirrors disk) (binit_sound disk) hes hr
  refine ⟨h.count, h.unique, fun i hi p => ?_⟩
  have h0 := h.refs_eq_zero (unused_some hi).1 p
  have hl := h.locked_eq_none (unused_some hi).1
  refine ⟨by rw [hl]; exact (Option.some_ne_none p).symm, fun hslot => ?_⟩
  cases hp : s.point p with
  | idle => simp [hp, Point.slot] at hslot
  | waiting j =>
    obtain rfl := Option.some.inj (show some j = some i by rwa [hp] at hslot)
    simp [refs, hp] at h0
  | releasing j =>
    obtain rfl := Option.some.inj (show some j = some i by rwa [hp] at hslot)
    simp [refs, hp] at h0
  | ide j =>
    obtain rfl := Option.some.inj (show some j = some i by rwa [hp] at hslot)
    rw [(h.busy p j hp).1] at hl
    cases hl

theorem references_counted_twoProcesses :
    ∃ s, Runs.run next (binit fun _ _ => 0) twoProcesses = some s ∧
      (∀ i, (s.buf i).refcnt = ∑ p, refs s i p) ∧
      (∀ i j, (s.buf i).key = (s.buf j).key → (s.buf i).dev ≠ 0 → i = j) ∧
      (∀ i, unused s = some i →
        ∀ p, (s.buf i).locked ≠ some p ∧ (s.point p).slot ≠ some i) := by
  obtain ⟨s, hs⟩ := Option.isSome_iff_exists.mp
    (show (Runs.run next (binit fun _ _ => 0) twoProcesses).isSome = true by decide)
  exact ⟨s, hs, references_counted twoProcesses_permitted hs⟩

/-- A process that gets a block from `bread` is the only one to have it, finds there what was last
written to the block, by whomever, and alone writes to it until it gives the block back. -/
theorem blocks_exclusive_and_latest (hes : Runs.Along next Permitted (binit disk) es)
    (hr : Runs.run next (binit disk) es = some s) :
    (∀ ls p key data ls', trace (binit disk) es = ls ++ .acquire p key data :: ls' →
      keeper key ls = none ∧ data = latest key (disk key) ls) ∧
    (∀ ls p key data ls', trace (binit disk) es = ls ++ .write p key data :: ls' →
      keeper key ls = some p) := by
  obtain ⟨a, hsteps, -⟩ := run_mirrors (binit_mirrors disk) (binit_sound disk) hes hr
  constructor
  · intro ls p key data ls' htrace
    rw [htrace] at hsteps
    exact hsteps.acquire_spec rfl
  · intro ls p key data ls' htrace
    rw [htrace] at hsteps
    exact hsteps.write_spec rfl

theorem blocks_exclusive_and_latest_twoProcesses :
    (∀ ls p key data ls',
      trace (binit fun _ _ => 0) twoProcesses = ls ++ .acquire p key data :: ls' →
      keeper key ls = none ∧ data = latest key (fun _ => 0) ls) ∧
    (∀ ls p key data ls',
      trace (binit fun _ _ => 0) twoProcesses = ls ++ .write p key data :: ls' →
      keeper key ls = some p) := by
  obtain ⟨s, hs⟩ := Option.isSome_iff_exists.mp
    (show (Runs.run next (binit fun _ _ => 0) twoProcesses).isSome = true by decide)
  exact blocks_exclusive_and_latest twoProcesses_permitted hs

end Results

end BufferCache
