import OsProjects.LinkedChain
import Mathlib.Data.Finset.Basic
import Mathlib.Data.List.Perm.Basic
import Mathlib.Order.Basic

/-! # The proxy server's priority queue

`safequeue.c` and the GetJob branch of `serve_forever`. Items are heap cells linked
through `next`. Each mutex-protected section is one atomic step. The waiting set of the
condition variable is explicit, and a waiting worker may wake up at any time.
-/
namespace ProxyQueue

open LinkedChain
open scoped List

abbrev Ptr := ℕ

structure QueueItem where
  priority : ℤ
  client_fd : ℤ
  path : List UInt8
  delay : ℤ
  next : Option Ptr
  deriving DecidableEq, Repr

structure PriorityQueue where
  head : Option Ptr
  size : ℤ
  capacity : ℤ
  deriving DecidableEq, Repr

abbrev Heap := Ptr → QueueItem

def nextOf (heap : Heap) : Ptr → Option Ptr := fun p => (heap p).next

def setNext (heap : Heap) (p : Ptr) (n : Option Ptr) : Heap :=
  Function.update heap p { heap p with next := n }

def initPriorityQueue (capacity : ℤ) : PriorityQueue := ⟨none, 0, capacity⟩

/-- The interior walk of `insertItem`. Running out of fuel stands for a loop that does
not end; `insertItem_returns` shows that this never happens on a reachable queue. -/
def walk (heap : Heap) (priority : ℤ) : ℕ → Ptr → Option Ptr
  | 0, _ => none
  | fuel + 1, current =>
    match (heap current).next with
    | none => some current
    | some n => if (heap n).priority ≥ priority then walk heap priority fuel n else some current

/-- The section of `insertItem` between lock and unlock: return value, heap and queue. -/
def insertItem (heap : Heap) (pq : PriorityQueue) (item : Ptr) :
    Option (ℤ × Heap × PriorityQueue) :=
  if pq.size ≥ pq.capacity then some (-1, heap, pq)
  else
    match pq.head with
    | none => some (0, setNext heap item none, { pq with head := some item, size := pq.size + 1 })
    | some first =>
      if (heap first).priority < (heap item).priority then
        some (0, setNext heap item (some first),
          { pq with head := some item, size := pq.size + 1 })
      else
        (walk heap (heap item).priority pq.size.toNat first).map fun current =>
          (0, setNext (setNext heap item (heap current).next) current (some item),
            { pq with size := pq.size + 1 })

inductive Popped where
  | empty
  | fault
  | item (p : Ptr) (pq : PriorityQueue)
  deriving DecidableEq, Repr

/-- The pop shared by both removers; `fault` is the dereference of a NULL head. -/
def popHead (heap : Heap) (pq : PriorityQueue) : Popped :=
  if pq.size = 0 then .empty
  else
    match pq.head with
    | none => .fault
    | some item => .item item { pq with head := (heap item).next, size := pq.size - 1 }

/-- One round of `removeItem`; `empty` sends the worker into `pthread_cond_wait`. -/
def removeItem (heap : Heap) (pq : PriorityQueue) : Popped := popHead heap pq

/-- The hand-copied pop of the GetJob branch; `empty` answers QUEUE_EMPTY. -/
def getJob (heap : Heap) (pq : PriorityQueue) : Popped := popHead heap pq

inductive WorkerMode where
  | busy
  | waiting
  | signalled
  deriving DecidableEq, Repr

/-- `inserted` and `handed` record the history of successful inserts and of pops. -/
structure State where
  heap : Heap
  pq : PriorityQueue
  workers : ℕ → WorkerMode
  allocated : Finset Ptr
  inserted : List Ptr
  handed : List Ptr

inductive Thread where
  | worker (w : ℕ)
  | listener (l : ℕ)
  deriving DecidableEq, Repr

inductive Event where
  | insert (l : ℕ) (p : Ptr) (r : ℤ)
  | pop (t : Thread) (p : Ptr)
  | block (w : ℕ)
  | queueEmpty (l : ℕ)
  deriving DecidableEq, Repr

def initial (heap : Heap) (capacity : ℤ) : State :=
  ⟨heap, initPriorityQueue capacity, fun _ => .busy, ∅, [], []⟩

/-- `pthread_cond_signal` releases one waiting worker, if there is one. -/
inductive Signal (workers : ℕ → WorkerMode) : (ℕ → WorkerMode) → Prop where
  | none (h : ∀ w, workers w ≠ .waiting) : Signal workers workers
  | one (w : ℕ) (h : workers w = .waiting) :
      Signal workers (Function.update workers w .signalled)

/-- The listener fills a cell fresh from malloc before it calls `insertItem`. -/
inductive Step : State → Event → State → Prop where
  | accept (s : State) (l : ℕ) (p : Ptr) (it : QueueItem) (heap pq workers)
      (fresh : p ∉ s.allocated)
      (run : insertItem (Function.update s.heap p it) s.pq p = some (0, heap, pq))
      (signal : Signal s.workers workers) :
      Step s (.insert l p 0)
        { s with heap := heap, pq := pq, workers := workers,
                 allocated := insert p s.allocated, inserted := s.inserted ++ [p] }
  | reject (s : State) (l : ℕ) (p : Ptr) (it : QueueItem) (r : ℤ) (heap pq)
      (fresh : p ∉ s.allocated)
      (run : insertItem (Function.update s.heap p it) s.pq p = some (r, heap, pq))
      (failed : r < 0) :
      Step s (.insert l p r)
        { s with heap := heap, pq := pq, allocated := insert p s.allocated }
  | remove (s : State) (w : ℕ) (p : Ptr) (pq)
      (run : removeItem s.heap s.pq = .item p pq) :
      Step s (.pop (.worker w) p)
        { s with pq := pq, workers := Function.update s.workers w .busy,
                 handed := s.handed ++ [p] }
  | block (s : State) (w : ℕ) (run : removeItem s.heap s.pq = .empty) :
      Step s (.block w) { s with workers := Function.update s.workers w .waiting }
  | getJob (s : State) (l : ℕ) (p : Ptr) (pq)
      (run : getJob s.heap s.pq = .item p pq) :
      Step s (.pop (.listener l) p) { s with pq := pq, handed := s.handed ++ [p] }
  | queueEmpty (s : State) (l : ℕ) (run : ProxyQueue.getJob s.heap s.pq = .empty) :
      Step s (.queueEmpty l) s

inductive Execution : State → State → Prop where
  | refl (s) : Execution s s
  | tail {s u v e} : Execution s u → Step u e v → Execution s v

def Reachable (capacity : ℤ) (s : State) : Prop :=
  ∃ heap, Execution (initial heap capacity) s

def prio (s : State) (p : Ptr) : ℤ := (s.heap p).priority

/-- Queue order: larger priority first, and insertion order inside one priority. -/
def Before (s : State) (p q : Ptr) : Prop :=
  prio s q < prio s p ∨ (prio s p = prio s q ∧ s.inserted.idxOf p < s.inserted.idxOf q)

/-- Where `insertItem` puts the item `p`: in front of the first smaller priority. -/
def placed (heap : Heap) (p : Ptr) (items : List Ptr) : List Ptr :=
  items.orderedInsert (fun a b => (heap b).priority < (heap a).priority) p

theorem placed_before {heap : Heap} {p n : Ptr} (r : List Ptr)
    (h : (heap n).priority < (heap p).priority) : placed heap p (n :: r) = p :: n :: r := by
  simp [placed, h]

theorem placed_after {heap : Heap} {p n : Ptr} (r : List Ptr)
    (h : (heap p).priority ≤ (heap n).priority) :
    placed heap p (n :: r) = n :: placed heap p r := by
  simp [placed, not_lt.mpr h]

theorem placed_perm (heap : Heap) (p : Ptr) (items : List Ptr) :
    (placed heap p items).Perm (p :: items) := List.perm_orderedInsert _ _ _

structure Invariant (s : State) (items : List Ptr) : Prop where
  chain : Chain (nextOf s.heap) s.pq.head items
  ordered : items.Pairwise (Before s)
  size : s.pq.size = items.length
  bounded : s.pq.size ≤ max s.pq.capacity 0
  history : (s.handed ++ items).Perm s.inserted
  distinct : s.inserted.Nodup
  owned : ∀ p ∈ s.inserted, p ∈ s.allocated

theorem Invariant.mem_inserted {s : State} {items : List Ptr} (h : Invariant s items)
    {p : Ptr} (hp : p ∈ items) : p ∈ s.inserted :=
  h.history.subset (List.mem_append_right _ hp)

theorem Invariant.split_nodup {s : State} {items : List Ptr} (h : Invariant s items) :
    s.handed.Nodup ∧ items.Nodup ∧ ∀ p ∈ s.handed, p ∉ items := by
  have hn := h.history.nodup_iff.mpr h.distinct
  obtain ⟨hh, hi, hd⟩ := List.nodup_append.mp hn
  exact ⟨hh, hi, fun p hp hq => hd p hp p hq rfl⟩

theorem nextOf_setNext (heap : Heap) (p : Ptr) (n : Option Ptr) :
    nextOf (setNext heap p n) = Function.update (nextOf heap) p n := by
  funext q
  by_cases hq : q = p
  · subst q; simp [nextOf, setNext]
  · simp [nextOf, setNext, hq]

@[simp] theorem setNext_priority (heap : Heap) (p q : Ptr) (n : Option Ptr) :
    (setNext heap p n q).priority = (heap q).priority := by
  by_cases hq : q = p
  · subst q; simp [setNext]
  · simp [setNext, hq]

/-- The walk ends, and linking behind the cell it returns gives the ordered chain. -/
theorem walk_links {heap : Heap} {p : Ptr} {rest : List Ptr} {current : Ptr} {fuel : ℕ}
    (hc : Chain (nextOf heap) (nextOf heap current) rest) (hn : (current :: rest).Nodup)
    (hp : p ∉ current :: rest) (hf : rest.length < fuel) :
    ∃ c ∈ current :: rest, walk heap (heap p).priority fuel current = some c ∧
      Chain (linkAfter (nextOf heap) c p) (linkAfter (nextOf heap) c p current)
        (placed heap p rest) := by
  induction rest generalizing current fuel with
  | nil =>
    obtain ⟨fuel, rfl⟩ : ∃ k, fuel = k + 1 := ⟨fuel - 1, by omega⟩
    refine ⟨current, List.mem_cons_self, ?_, hc.link_here List.not_mem_nil hp⟩
    have hnone : (heap current).next = none := hc
    simp [walk, hnone]
  | cons n r ih =>
    obtain ⟨fuel, rfl⟩ : ∃ k, fuel = k + 1 := ⟨fuel - 1, by omega⟩
    obtain ⟨hnext, hr⟩ := hc
    have hsome : (heap current).next = some n := hnext
    simp only [List.length_cons] at hf
    by_cases hle : (heap n).priority ≥ (heap p).priority
    · obtain ⟨c, hcm, hw, hch⟩ := ih hr (List.nodup_cons.mp hn).2
        (fun h => hp (List.mem_cons_of_mem _ h)) (by omega : r.length < fuel)
      have hne : current ≠ c := fun e => (List.nodup_cons.mp hn).1 (e ▸ hcm)
      have hnp : current ≠ p := fun e => hp (e ▸ List.mem_cons_self)
      refine ⟨c, List.mem_cons_of_mem _ hcm, by simp [walk, hsome, hle, hw], ?_⟩
      rw [linkAfter_of_ne hne hnp, hnext, placed_after r hle]
      exact ⟨rfl, hch⟩
    · refine ⟨current, List.mem_cons_self, by simp [walk, hsome, hle], ?_⟩
      rw [placed_before r (lt_of_not_ge hle)]
      exact Chain.link_here ⟨hnext, hr⟩ (List.nodup_cons.mp hn).1 hp

/-- What a successful `insertItem` leaves behind, for any queue holding `items`. -/
theorem insertItem_accepts {heap : Heap} {pq : PriorityQueue} {items : List Ptr} {p : Ptr}
    (hc : Chain (nextOf heap) pq.head items) (hn : items.Nodup) (hp : p ∉ items)
    (hs : pq.size = items.length) (hroom : pq.size < pq.capacity) :
    ∃ heap' pq', insertItem heap pq p = some (0, heap', pq') ∧
      Chain (nextOf heap') pq'.head (placed heap p items) ∧
      pq'.size = pq.size + 1 ∧ pq'.capacity = pq.capacity ∧
      ∀ q, (heap' q).priority = (heap q).priority := by
  obtain ⟨head, size, capacity⟩ := pq
  have hfull : ¬ size ≥ capacity := not_le.mpr hroom
  cases items with
  | nil =>
    obtain rfl : head = none := hc
    refine ⟨setNext heap p none, ⟨some p, size + 1, capacity⟩, if_neg hfull, ?_, rfl, rfl, by simp⟩
    simp [placed, nextOf, setNext]
  | cons first rest =>
    obtain ⟨rfl, hrest⟩ : head = some first ∧ _ := hc
    by_cases hlt : (heap first).priority < (heap p).priority
    · have run : insertItem heap ⟨some first, size, capacity⟩ p =
          some (0, setNext heap p (some first), ⟨some p, size + 1, capacity⟩) := by
        simp [insertItem, hfull, hlt]
      refine ⟨_, _, run, ?_, rfl, rfl, by simp⟩
      rw [placed_before rest hlt, nextOf_setNext]
      refine ⟨rfl, by simp, ?_⟩
      simp only [List.mem_cons, not_or] at hp
      rw [Function.update_of_ne (Ne.symm hp.1)]
      apply hrest.congr
      intro a ha
      exact Function.update_of_ne (fun e : a = p => hp.2 (e ▸ ha)) _ _
    · have hfuel : rest.length < size.toNat := by
        simp only [List.length_cons] at hs
        omega
      obtain ⟨c, hcm, hw, hch⟩ := walk_links hrest hn hp hfuel
      have run : insertItem heap ⟨some first, size, capacity⟩ p =
          some (0, setNext (setNext heap p (heap c).next) c (some p),
            ⟨some first, size + 1, capacity⟩) := by
        simp [insertItem, hfull, hlt, hw]
      refine ⟨_, _, run, ?_, rfl, rfl, by simp⟩
      rw [placed_after rest (not_lt.mp hlt), nextOf_setNext, nextOf_setNext]
      exact ⟨rfl, hch⟩

theorem insertItem_rejects {heap : Heap} {pq : PriorityQueue} (p : Ptr)
    (hfull : pq.capacity ≤ pq.size) : insertItem heap pq p = some (-1, heap, pq) :=
  if_pos hfull

/-- Placing `p` keeps any order that agrees with the priorities. -/
theorem placed_pairwise {R : Ptr → Ptr → Prop} {heap : Heap} {p : Ptr} {items : List Ptr}
    (hs : items.Pairwise fun a b => (heap b).priority ≤ (heap a).priority)
    (hr : items.Pairwise R)
    (front : ∀ q ∈ items, (heap p).priority ≤ (heap q).priority → R q p)
    (back : ∀ q ∈ items, (heap q).priority < (heap p).priority → R p q) :
    (placed heap p items).Pairwise R := by
  induction items with
  | nil => simp [placed]
  | cons n r ih =>
    obtain ⟨hn, hs⟩ := List.pairwise_cons.mp hs
    obtain ⟨hnr, hr'⟩ := List.pairwise_cons.mp hr
    by_cases hlt : (heap n).priority < (heap p).priority
    · rw [placed_before r hlt]
      refine List.pairwise_cons.mpr ⟨?_, hr⟩
      intro q hq
      rcases List.mem_cons.mp hq with rfl | hq'
      · exact back q hq hlt
      · exact back q hq (lt_of_le_of_lt (hn q hq') hlt)
    · have hle := not_lt.mp hlt
      rw [placed_after r hle]
      refine List.pairwise_cons.mpr ⟨?_, ih hs hr'
        (fun q hq => front q (List.mem_cons_of_mem _ hq))
        (fun q hq => back q (List.mem_cons_of_mem _ hq))⟩
      intro q hq
      rcases List.mem_cons.mp ((placed_perm heap p r).subset hq) with rfl | hq
      · exact front n List.mem_cons_self hle
      · exact hnr q hq

theorem initial_invariant (heap : Heap) (capacity : ℤ) :
    Invariant (initial heap capacity) [] := by
  constructor <;> simp [initial, initPriorityQueue]

theorem Invariant.fresh {s : State} {items : List Ptr} (h : Invariant s items) {p : Ptr}
    (hp : p ∉ s.allocated) : p ∉ items ∧ p ∉ s.inserted :=
  ⟨fun hm => hp (h.owned p (h.mem_inserted hm)), fun hm => hp (h.owned p hm)⟩

/-- Filling a fresh cell leaves the queue's own cells alone. -/
theorem Invariant.filled_chain {s : State} {items : List Ptr} (h : Invariant s items) {p : Ptr}
    (hp : p ∉ s.allocated) (it : QueueItem) :
    Chain (nextOf (Function.update s.heap p it)) s.pq.head items := by
  apply h.chain.congr
  intro a ha
  have hne : a ≠ p := fun e => (h.fresh hp).1 (e ▸ ha)
  simp [nextOf, hne]

/-- The outcome of a listener's insert, decided by the capacity test alone. -/
theorem Invariant.insert_outcome {s : State} {items : List Ptr} (h : Invariant s items)
    {p : Ptr} (hp : p ∉ s.allocated) (it : QueueItem) :
    (s.pq.capacity ≤ s.pq.size →
      insertItem (Function.update s.heap p it) s.pq p =
        some (-1, Function.update s.heap p it, s.pq)) ∧
    (s.pq.size < s.pq.capacity → ∃ heap' pq',
      insertItem (Function.update s.heap p it) s.pq p = some (0, heap', pq') ∧
      Chain (nextOf heap') pq'.head (placed (Function.update s.heap p it) p items) ∧
      pq'.size = s.pq.size + 1 ∧ pq'.capacity = s.pq.capacity ∧
      ∀ q, (heap' q).priority = (Function.update s.heap p it q).priority) :=
  ⟨fun hfull => insertItem_rejects p hfull, fun hroom =>
    insertItem_accepts (h.filled_chain hp it) h.split_nodup.2.1 (h.fresh hp).1 h.size hroom⟩

theorem accept_invariant {s : State} {items : List Ptr} (h : Invariant s items) {p : Ptr}
    {it : QueueItem} {heap pq} (workers : ℕ → WorkerMode) (hp : p ∉ s.allocated)
    (run : insertItem (Function.update s.heap p it) s.pq p = some (0, heap, pq)) :
    Invariant { s with heap := heap, pq := pq, workers := workers,
                       allocated := insert p s.allocated, inserted := s.inserted ++ [p] }
      (placed (Function.update s.heap p it) p items) := by
  obtain ⟨hfull, hacc⟩ := h.insert_outcome hp it
  have hroom : s.pq.size < s.pq.capacity := by
    by_contra hn
    simp [hfull (not_lt.mp hn)] at run
  obtain ⟨heap', pq', run', hchain, hsize, hcap, hprio⟩ := hacc hroom
  obtain ⟨rfl, rfl⟩ : heap' = heap ∧ pq' = pq := by simpa [run'] using run
  obtain ⟨hpi, hpn⟩ := h.fresh hp
  have hold : ∀ q ∈ items, (Function.update s.heap p it q).priority = prio s q := by
    intro q hq
    have hne : q ≠ p := fun e => hpi (e ▸ hq)
    simp [hne, prio]
  have hidx : ∀ q ∈ items, (s.inserted ++ [p]).idxOf q = s.inserted.idxOf q := fun q hq =>
    List.idxOf_append_of_mem (h.mem_inserted hq)
  have hlast : (s.inserted ++ [p]).idxOf p = s.inserted.length := by
    simp [List.idxOf_append_of_notMem hpn]
  constructor
  · exact hchain
  · apply placed_pairwise
    · exact h.ordered.imp_of_mem fun ha hb hab => by
        rw [hold _ ha, hold _ hb]
        rcases hab with hlt | ⟨he, _⟩ <;> omega
    · refine h.ordered.imp_of_mem fun ha hb hab => ?_
      simpa only [Before, prio, hprio, hold _ ha, hold _ hb, hidx _ ha, hidx _ hb] using hab
    · intro q hq hle
      have hlt := List.idxOf_lt_length_of_mem (h.mem_inserted hq)
      simp only [Before, prio, hprio, hidx q hq, hlast]
      omega
    · intro q hq hlt
      exact Or.inl (by simpa only [prio, hprio] using hlt)
  · simp [hsize, h.size, (placed_perm _ p items).length_eq]
  · have := h.bounded
    simp only [hcap, hsize]
    omega
  · calc s.handed ++ placed (Function.update s.heap p it) p items
        ~ s.handed ++ p :: items := (placed_perm _ p items).append_left _
      _ ~ p :: (s.handed ++ items) := List.perm_middle
      _ ~ p :: s.inserted := h.history.cons p
      _ ~ s.inserted ++ [p] := (List.perm_append_singleton p s.inserted).symm
  · exact List.nodup_append.mpr ⟨h.distinct, List.nodup_singleton p, fun a ha b hb => by
      rw [List.mem_singleton.mp hb]; exact fun e => hpn (e ▸ ha)⟩
  · intro q hq
    rcases List.mem_append.mp hq with hq | hq
    · exact Finset.mem_insert_of_mem (h.owned q hq)
    · rw [List.mem_singleton.mp hq]; exact Finset.mem_insert_self p _

theorem reject_invariant {s : State} {items : List Ptr} (h : Invariant s items) {p : Ptr}
    {it : QueueItem} {r heap pq} (hp : p ∉ s.allocated) (hr : r < 0)
    (run : insertItem (Function.update s.heap p it) s.pq p = some (r, heap, pq)) :
    Invariant { s with heap := heap, pq := pq, allocated := insert p s.allocated } items := by
  obtain ⟨hfull, hacc⟩ := h.insert_outcome hp it
  have hle : s.pq.capacity ≤ s.pq.size := by
    by_contra hn
    obtain ⟨heap', pq', run', _⟩ := hacc (not_le.mp hn)
    have hz : (0 : ℤ) = r := by simpa using congrArg (Option.map Prod.fst) (run'.symm.trans run)
    omega
  obtain ⟨rfl, rfl, rfl⟩ : -1 = r ∧ Function.update s.heap p it = heap ∧ s.pq = pq := by
    simpa [hfull hle] using run
  refine ⟨h.filled_chain hp it, ?_, h.size, h.bounded, h.history, h.distinct, ?_⟩
  · refine h.ordered.imp_of_mem fun {a b} ha hb hab => ?_
    have hna : a ≠ p := fun e => (h.fresh hp).1 (e ▸ ha)
    have hnb : b ≠ p := fun e => (h.fresh hp).1 (e ▸ hb)
    simpa [Before, prio, hna, hnb] using hab
  · intro q hq
    exact Finset.mem_insert_of_mem (h.owned q hq)

/-- On a nonempty queue the pop is defined and takes the first item. -/
theorem Invariant.popHead_cons {s : State} {first : Ptr} {rest : List Ptr}
    (h : Invariant s (first :: rest)) :
    popHead s.heap s.pq =
      .item first { s.pq with head := (s.heap first).next, size := s.pq.size - 1 } := by
  have hz : s.pq.size ≠ 0 := by
    rw [h.size, List.length_cons]
    omega
  simp [popHead, hz, h.chain.1]

theorem Invariant.popHead_nil {s : State} (h : Invariant s []) :
    popHead s.heap s.pq = .empty := by
  have hz : s.pq.size = 0 := h.size
  simp [popHead, hz]

/-- A pop that yields an item takes the head of the chain. -/
theorem Invariant.popHead_item {s : State} {items : List Ptr} (h : Invariant s items)
    {p : Ptr} {pq : PriorityQueue} (run : popHead s.heap s.pq = .item p pq) :
    ∃ rest, items = p :: rest ∧
      pq = { s.pq with head := (s.heap p).next, size := s.pq.size - 1 } := by
  cases items with
  | nil => simp [h.popHead_nil] at run
  | cons first rest =>
    rw [h.popHead_cons] at run
    obtain ⟨rfl, rfl⟩ := Popped.item.inj run
    exact ⟨rest, rfl, rfl⟩

/-- Both removers find nothing on an empty queue, and only there. -/
theorem Invariant.popHead_empty {s : State} {items : List Ptr} (h : Invariant s items) :
    popHead s.heap s.pq = .empty ↔ items = [] := by
  refine ⟨fun run => ?_, fun hnil => ?_⟩
  · cases items with
    | nil => rfl
    | cons first rest =>
      rw [h.popHead_cons] at run
      cases run
  · subst hnil
    exact h.popHead_nil

theorem pop_invariant {s : State} {items : List Ptr} (h : Invariant s items) {p : Ptr}
    {pq : PriorityQueue} (workers : ℕ → WorkerMode)
    (run : popHead s.heap s.pq = .item p pq) :
    Invariant { s with pq := pq, workers := workers, handed := s.handed ++ [p] } items.tail := by
  obtain ⟨rest, rfl, rfl⟩ := h.popHead_item run
  constructor
  · exact h.chain.2
  · exact (List.pairwise_cons.mp h.ordered).2
  · simp [h.size]
  · have := h.bounded
    dsimp only
    omega
  · simpa using h.history
  · exact h.distinct
  · exact h.owned

theorem step_preserves_invariant {s u : State} {e : Event} {items : List Ptr}
    (h : Invariant s items) (st : Step s e u) : ∃ items', Invariant u items' := by
  cases st with
  | accept l p it heap pq workers fresh run signal =>
    exact ⟨_, accept_invariant h workers fresh run⟩
  | reject l p it r heap pq fresh run failed =>
    exact ⟨items, reject_invariant h fresh failed run⟩
  | remove w p pq run => exact ⟨_, pop_invariant h _ run⟩
  | block w run => exact ⟨items, ⟨h.chain, h.ordered, h.size, h.bounded, h.history,
      h.distinct, h.owned⟩⟩
  | getJob l p pq run => exact ⟨_, pop_invariant h s.workers run⟩
  | queueEmpty l run => exact ⟨items, h⟩

theorem step_capacity {s u : State} {e : Event} {items : List Ptr}
    (h : Invariant s items) (st : Step s e u) : u.pq.capacity = s.pq.capacity := by
  cases st with
  | accept l p it heap pq workers fresh run signal =>
    obtain ⟨hfull, hacc⟩ := h.insert_outcome fresh it
    by_cases hc : s.pq.capacity ≤ s.pq.size
    · simp [hfull hc] at run
    · obtain ⟨heap', pq', run', _, _, hcap, _⟩ := hacc (not_le.mp hc)
      obtain ⟨rfl, rfl⟩ : heap' = heap ∧ pq' = pq := by simpa [run'] using run
      exact hcap
  | reject l p it r heap pq fresh run failed =>
    obtain ⟨hfull, hacc⟩ := h.insert_outcome fresh it
    by_cases hc : s.pq.capacity ≤ s.pq.size
    · obtain ⟨_, _, rfl⟩ : -1 = r ∧ Function.update s.heap p it = heap ∧ s.pq = pq := by
        simpa [hfull hc] using run
      rfl
    · obtain ⟨heap', pq', run', _, _, hcap, _⟩ := hacc (not_le.mp hc)
      obtain ⟨_, _, rfl⟩ : 0 = r ∧ heap' = heap ∧ pq' = pq := by simpa [run'] using run
      exact hcap
  | remove w p pq run =>
    obtain ⟨rest, _, rfl⟩ := h.popHead_item run
    rfl
  | block w run => rfl
  | getJob l p pq run =>
    obtain ⟨rest, _, rfl⟩ := h.popHead_item run
    rfl
  | queueEmpty l run => rfl

theorem reachable_invariant {capacity : ℤ} {s : State} (h : Reachable capacity s) :
    s.pq.capacity = capacity ∧ ∃ items, Invariant s items := by
  obtain ⟨heap, h⟩ := h
  induction h with
  | refl => exact ⟨rfl, [], initial_invariant heap capacity⟩
  | tail _ st ih =>
    obtain ⟨hcap, items, hi⟩ := ih
    exact ⟨(step_capacity hi st).trans hcap, step_preserves_invariant hi st⟩

/-- The first item of an ordered queue is maximal, and the oldest of its priority. -/
theorem Invariant.head_maximal {s : State} {p : Ptr} {rest : List Ptr}
    (h : Invariant s (p :: rest)) {q : Ptr} (hq : q ∈ p :: rest) :
    prio s q ≤ prio s p ∧
      (prio s q = prio s p → s.inserted.idxOf p ≤ s.inserted.idxOf q) := by
  rcases List.mem_cons.mp hq with rfl | hq
  · exact ⟨le_rfl, fun _ => le_rfl⟩
  · rcases (List.pairwise_cons.mp h.ordered).1 q hq with hlt | ⟨he, hi⟩ <;> omega

/-- What the queue guarantees in one state, `items` being its linked list.
The last four fields speak of every call that may come next. -/
structure BoundedStable (capacity : ℤ) (s : State) (items : List Ptr) : Prop where
  linked : Chain (nextOf s.heap) s.pq.head items
  sorted : items.Pairwise (Before s)
  size_eq : s.pq.size = items.length
  size_le : s.pq.size ≤ max capacity 0
  handed_once : s.handed.Nodup
  kept : ∀ p ∈ s.inserted, (p ∈ s.handed ∧ p ∉ items) ∨ (p ∉ s.handed ∧ p ∈ items)
  inserts : ∀ p it, p ∉ s.allocated → ∃ r heap pq,
    insertItem (Function.update s.heap p it) s.pq p = some (r, heap, pq) ∧
    (r = 0 ∨ r = -1) ∧ (r = -1 ↔ s.pq.size ≥ capacity) ∧
    (r = -1 → pq = s.pq ∧ ∀ q ∈ items, heap q = s.heap q)
  takes : ∀ p rest, items = p :: rest → ∃ pq,
    removeItem s.heap s.pq = .item p pq ∧ getJob s.heap s.pq = .item p pq ∧
    Chain (nextOf s.heap) pq.head rest ∧ pq.size = rest.length
  blocks : (removeItem s.heap s.pq = .empty ↔ items = []) ∧
    (getJob s.heap s.pq = .empty ↔ items = [])
  pops : ∀ t p u, Step s (.pop t p) u → p ∈ items ∧ p ∉ s.handed ∧ ∀ q ∈ items,
    prio s q ≤ prio s p ∧ (prio s q = prio s p → s.inserted.idxOf p ≤ s.inserted.idxOf q)

theorem insertItem_returns {capacity : ℤ} {s : State} {items : List Ptr}
    (h : Invariant s items) (hcap : s.pq.capacity = capacity) (p : Ptr) (it : QueueItem)
    (hp : p ∉ s.allocated) : ∃ r heap pq,
      insertItem (Function.update s.heap p it) s.pq p = some (r, heap, pq) ∧
      (r = 0 ∨ r = -1) ∧ (r = -1 ↔ s.pq.size ≥ capacity) ∧
      (r = -1 → pq = s.pq ∧ ∀ q ∈ items, heap q = s.heap q) := by
  obtain ⟨hfull, hacc⟩ := h.insert_outcome hp it
  by_cases hc : s.pq.capacity ≤ s.pq.size
  · refine ⟨-1, _, _, hfull hc, Or.inr rfl, by simp [← hcap, hc], fun _ => ⟨rfl, ?_⟩⟩
    intro q hq
    exact Function.update_of_ne (fun e : q = p => (h.fresh hp).1 (e ▸ hq)) _ _
  · obtain ⟨heap, pq, run, _⟩ := hacc (not_le.mp hc)
    refine ⟨0, heap, pq, run, Or.inl rfl, ?_, by simp⟩
    rw [← hcap]
    simp [not_le.mp hc]

theorem Step.popped {s u : State} {t : Thread} {p : Ptr} (h : Step s (.pop t p) u) :
    ∃ pq, popHead s.heap s.pq = .item p pq := by
  cases h with
  | remove w p pq run => exact ⟨pq, run⟩
  | getJob l p pq run => exact ⟨pq, run⟩

theorem reachable_bounded_stable_queue {capacity : ℤ} {s : State}
    (h : Reachable capacity s) : ∃ items, BoundedStable capacity s items := by
  obtain ⟨hcap, items, hi⟩ := reachable_invariant h
  obtain ⟨hh, _, hd⟩ := hi.split_nodup
  refine ⟨items, hi.chain, hi.ordered, hi.size, hcap ▸ hi.bounded, hh, ?_,
    insertItem_returns hi hcap, ?_, ⟨hi.popHead_empty, hi.popHead_empty⟩, ?_⟩
  · intro p hp
    rcases List.mem_append.mp (hi.history.symm.subset hp) with hm | hm
    · exact Or.inl ⟨hm, hd p hm⟩
    · exact Or.inr ⟨fun hx => hd p hx hm, hm⟩
  · intro p rest hcons
    subst hcons
    refine ⟨_, hi.popHead_cons, hi.popHead_cons, hi.chain.2, ?_⟩
    simp [hi.size]
  · intro t p u st
    obtain ⟨pq, run⟩ := st.popped
    obtain ⟨rest, rfl, _⟩ := hi.popHead_item run
    exact ⟨List.mem_cons_self, fun hx => hd p hx List.mem_cons_self,
      fun q hq => hi.head_maximal hq⟩

/-- Two jobs of one priority fill a queue of capacity two, and a worker takes the older one. -/
theorem two_jobs_bounded_stable : ∃ s, Reachable 2 s ∧ s.inserted = [0, 1] ∧ s.handed = [0] ∧
    s.pq.size = 1 ∧ ∃ items, BoundedStable 2 s items := by
  let job : QueueItem := ⟨7, 4, [], 0, none⟩
  have h₁ := Step.accept (initial (fun _ => job) 2) 0 0 job _ _ _ (by simp [initial]) rfl
    (.none (by simp [initial]))
  have h₂ := Step.accept _ 0 1 job _ _ _ (by simp [initial]) rfl (.none (by simp [initial]))
    |> Execution.tail (.tail (.refl _) h₁)
  have h₃ := h₂.tail (Step.remove _ 3 0 _ rfl)
  exact ⟨_, ⟨_, h₃⟩, rfl, rfl, rfl, reachable_bounded_stable_queue ⟨_, h₃⟩⟩

end ProxyQueue
