import OsProjects.ProxyQueue
import OsProjects.Ownership
import Mathlib.Data.Finset.Card

/-! # Connections of the proxy server

The loops of `serve_forever` and `serve_request`, one step for each section between two
points where another thread can be seen. A connection is known by the descriptor that
`accept` returned; the descriptor can be handed out again once it is closed. What is sent
and received does not matter here, only which outcome sends the thread where.
-/
namespace ProxyServer

open ProxyQueue LinkedChain Ownership

/-- Where a listener is in its accept loop. `answering` sends a response and closes. -/
inductive ListenerAt where
  | accepting
  | parsing (client_fd : ℤ)
  | answering (client_fd : ℤ)
  deriving DecidableEq, Repr

/-- Where a worker is in `serve_request`. After a failed connect it sends the error
response and returns. -/
inductive WorkerAt where
  | fetching
  | delaying (client_fd : ℤ)
  | connecting (client_fd : ℤ)
  | forwarding (client_fd : ℤ)
  | relaying (client_fd : ℤ)
  | refusing (client_fd : ℤ)
  | closing (client_fd : ℤ)
  | leaving (client_fd : ℤ)
  | gone
  deriving DecidableEq, Repr

def ListenerAt.fd : ListenerAt → Option ℤ
  | .accepting => none
  | .parsing fd => some fd
  | .answering fd => some fd

def WorkerAt.fd : WorkerAt → Option ℤ
  | .fetching => none
  | .delaying fd => some fd
  | .connecting fd => some fd
  | .forwarding fd => some fd
  | .relaying fd => some fd
  | .refusing fd => some fd
  | .closing fd => some fd
  | .leaving fd => some fd
  | .gone => none

/-- `opened` are the client descriptors in use; `accepts` and `closes` record every
successful accept and every close of one. -/
structure Server where
  queue : ProxyQueue.State
  listeners : ℕ → ListenerAt
  workers : ℕ → WorkerAt
  opened : Finset ℤ
  accepts : List ℤ
  closes : List ℤ

def initial (heap : Heap) (capacity : ℤ) : Server :=
  ⟨ProxyQueue.initial heap capacity, fun _ => .accepting, fun _ => .fetching, ∅, [], []⟩

inductive Event where
  | accept (l : ℕ) (client_fd : ℤ)
  | acceptFails (l : ℕ)
  | getJobEmpty (l : ℕ)
  | getJobPop (l : ℕ) (p : Ptr)
  | enqueue (l : ℕ) (p : Ptr)
  | queueFull (l : ℕ) (p : Ptr)
  | answered (l : ℕ)
  | wait (w : ℕ)
  | take (w : ℕ) (p : Ptr)
  | connect (w : ℕ)
  | connected (w : ℕ)
  | connectFails (w : ℕ)
  | returns (w : ℕ)
  | sent (w : ℕ)
  | sendFails (w : ℕ)
  | relayed (w : ℕ)
  | relayEnds (w : ℕ)
  | refused (w : ℕ)
  | closed (w : ℕ)
  deriving DecidableEq, Repr

def Server.setListener (s : Server) (l : ℕ) (x : ListenerAt) : Server :=
  { s with listeners := Function.update s.listeners l x }

def Server.setWorker (s : Server) (w : ℕ) (x : WorkerAt) : Server :=
  { s with workers := Function.update s.workers w x }

/-- `close(fd)`: the descriptor is free again. -/
def Server.close (s : Server) (fd : ℤ) : Server :=
  { s with opened := s.opened.erase fd, closes := s.closes ++ [fd] }

/-- The steps of the listeners and of the `n` workers. -/
inductive Step (n : ℕ) : Server → Event → Server → Prop where
  | accept (s : Server) (l : ℕ) (fd : ℤ) (pc : s.listeners l = .accepting) (free : fd ∉ s.opened) :
      Step n s (.accept l fd)
        { s.setListener l (.parsing fd) with
          opened := insert fd s.opened, accepts := s.accepts ++ [fd] }
  | acceptFails (s : Server) (l : ℕ) (pc : s.listeners l = .accepting) : Step n s (.acceptFails l) s
  | getJobEmpty (s : Server) (l : ℕ) (fd : ℤ) (q : ProxyQueue.State)
      (pc : s.listeners l = .parsing fd) (run : ProxyQueue.Step s.queue (.queueEmpty l) q) :
      Step n s (.getJobEmpty l) { s.setListener l (.answering fd) with queue := q }
  | getJobPop (s : Server) (l : ℕ) (fd : ℤ) (p : Ptr) (q : ProxyQueue.State)
      (pc : s.listeners l = .parsing fd) (run : ProxyQueue.Step s.queue (.pop (.listener l) p) q) :
      Step n s (.getJobPop l p) { s.setListener l (.answering fd) with queue := q }
  | enqueue (s : Server) (l : ℕ) (fd : ℤ) (p : Ptr) (q : ProxyQueue.State)
      (pc : s.listeners l = .parsing fd) (run : ProxyQueue.Step s.queue (.insert l p 0) q)
      (item : (q.heap p).client_fd = fd) :
      Step n s (.enqueue l p) { s.setListener l .accepting with queue := q }
  | queueFull (s : Server) (l : ℕ) (fd : ℤ) (p : Ptr) (r : ℤ) (q : ProxyQueue.State)
      (pc : s.listeners l = .parsing fd) (run : ProxyQueue.Step s.queue (.insert l p r) q)
      (failed : r < 0) :
      Step n s (.queueFull l p) { s.setListener l (.answering fd) with queue := q }
  | answered (s : Server) (l : ℕ) (fd : ℤ) (pc : s.listeners l = .answering fd) :
      Step n s (.answered l) ((s.setListener l .accepting).close fd)
  | wait (s : Server) (w : ℕ) (q : ProxyQueue.State) (mine : w < n) (pc : s.workers w = .fetching)
      (run : ProxyQueue.Step s.queue (.block w) q) : Step n s (.wait w) { s with queue := q }
  | take (s : Server) (w : ℕ) (p : Ptr) (q : ProxyQueue.State) (mine : w < n)
      (pc : s.workers w = .fetching) (run : ProxyQueue.Step s.queue (.pop (.worker w) p) q) :
      Step n s (.take w p) { s.setWorker w (.delaying (q.heap p).client_fd) with queue := q }
  | connect (s : Server) (w : ℕ) (fd : ℤ) (pc : s.workers w = .delaying fd) :
      Step n s (.connect w) (s.setWorker w (.connecting fd))
  | connected (s : Server) (w : ℕ) (fd : ℤ) (pc : s.workers w = .connecting fd) :
      Step n s (.connected w) (s.setWorker w (.forwarding fd))
  | connectFails (s : Server) (w : ℕ) (fd : ℤ) (pc : s.workers w = .connecting fd) :
      Step n s (.connectFails w) (s.setWorker w (.leaving fd))
  | returns (s : Server) (w : ℕ) (fd : ℤ) (pc : s.workers w = .leaving fd) :
      Step n s (.returns w) (s.setWorker w .gone)
  | sent (s : Server) (w : ℕ) (fd : ℤ) (pc : s.workers w = .forwarding fd) :
      Step n s (.sent w) (s.setWorker w (.relaying fd))
  | sendFails (s : Server) (w : ℕ) (fd : ℤ) (pc : s.workers w = .forwarding fd) :
      Step n s (.sendFails w) (s.setWorker w (.refusing fd))
  | relayed (s : Server) (w : ℕ) (fd : ℤ) (pc : s.workers w = .relaying fd) :
      Step n s (.relayed w) s
  | relayEnds (s : Server) (w : ℕ) (fd : ℤ) (pc : s.workers w = .relaying fd) :
      Step n s (.relayEnds w) (s.setWorker w (.closing fd))
  | refused (s : Server) (w : ℕ) (fd : ℤ) (pc : s.workers w = .refusing fd) :
      Step n s (.refused w) (s.setWorker w (.closing fd))
  | closed (s : Server) (w : ℕ) (fd : ℤ) (pc : s.workers w = .closing fd) :
      Step n s (.closed w) ((s.setWorker w .fetching).close fd)

/-- A run with the states it goes through, the last one first. -/
inductive Run (n : ℕ) (s₀ : Server) : List Event → List Server → Server → Prop where
  | start : Run n s₀ [] [] s₀
  | step {es : List Event} {past : List Server} {s u : Server} {e : Event} :
      Run n s₀ es past s → Step n s e u → Run n s₀ (e :: es) (s :: past) u

/-- The cells that are linked from the head, at most `k` of them. -/
def linked (heap : Heap) : ℕ → Option Ptr → List Ptr
  | 0, _ => []
  | _ + 1, none => []
  | k + 1, some p => p :: linked heap k (heap p).next

def queued (q : ProxyQueue.State) : List Ptr := linked q.heap q.pq.size.toNat q.pq.head

/-- The connection a queued cell stands for. -/
def queueHolder (q : ProxyQueue.State) (p : Ptr) : Option ℤ :=
  if p ∈ queued q then some (q.heap p).client_fd else none

inductive Place where
  | listener (l : ℕ)
  | queued (p : Ptr)
  | worker (w : ℕ)
  deriving DecidableEq, Repr

/-- The connection a place is responsible for. -/
def holder (s : Server) : Place → Option ℤ
  | .listener l => (s.listeners l).fd
  | .queued p => queueHolder s.queue p
  | .worker w => (s.workers w).fd

/-- Workers of the pool that have not left their loop. -/
def serving (n : ℕ) (s : Server) : Finset ℕ := (Finset.range n).filter fun w => s.workers w ≠ .gone

/-- Every open connection has exactly one place, no place holds a closed one, each accept is
matched by one close unless the connection is open, and the pool is complete. -/
structure Accounted (n : ℕ) (s : Server) : Prop where
  placed : ∀ fd ∈ s.opened, ∃! a, holder s a = some fd
  valid : ∀ a fd, holder s a = some fd → fd ∈ s.opened
  closedOnce : ∀ fd, s.closes.count fd + (if fd ∈ s.opened then 1 else 0) = s.accepts.count fd
  complete : n ≤ (serving n s).card

/-- The step is not a GetJob answered from the queue, nor the return of a worker whose
connect failed. -/
def Careful : Event → Prop
  | .getJobPop _ _ => False
  | .returns _ => False
  | _ => True

section Queue

variable {q q' : ProxyQueue.State} {items : List Ptr} {l w : ℕ} {p : Ptr} {r : ℤ}

theorem linked_of_chain {heap : Heap} {head : Option Ptr} (h : Chain (nextOf heap) head items) :
    linked heap items.length head = items := by
  induction items generalizing head with
  | nil =>
    obtain rfl : head = none := h
    rfl
  | cons a items ih =>
    obtain ⟨rfl, hrest⟩ : head = some a ∧ _ := h
    rw [List.length_cons, linked]
    exact congrArg (a :: ·) (ih hrest)

theorem queued_eq (h : ProxyQueue.Invariant q items) : queued q = items := by
  rw [queued, h.size, Int.toNat_natCast, linked_of_chain h.chain]

theorem queueHolder_eq (h : ProxyQueue.Invariant q items) :
    queueHolder q p = if p ∈ items then some (q.heap p).client_fd else none := by
  rw [queueHolder, queued_eq h]

theorem setNext_client_fd (heap : Heap) (p q : Ptr) (n : Option Ptr) :
    (setNext heap p n q).client_fd = (heap q).client_fd := by
  by_cases hq : q = p
  · subst q
    simp [setNext]
  · simp [setNext, hq]

theorem insertItem_client_fd {heap heap' : Heap} {pq pq' : PriorityQueue}
    (h : insertItem heap pq p = some (r, heap', pq')) (c : Ptr) :
    (heap' c).client_fd = (heap c).client_fd := by
  rw [insertItem] at h
  split_ifs at h with hfull
  · cases h
    rfl
  · split at h
    next =>
      cases h
      exact setNext_client_fd _ _ _ _
    next first _ =>
      split_ifs at h with hlt
      · cases h
        exact setNext_client_fd _ _ _ _
      · obtain ⟨current, _, hcurrent⟩ := Option.map_eq_some_iff.mp h
        cases hcurrent
        rw [setNext_client_fd, setNext_client_fd]

theorem queue_insert (h : ProxyQueue.Invariant q items)
    (st : ProxyQueue.Step q (.insert l p 0) q') :
    (∃ items', ProxyQueue.Invariant q' items') ∧ queueHolder q p = none ∧
      queueHolder q' = Function.update (queueHolder q) p (some (q'.heap p).client_fd) := by
  cases st with
  | accept _ _ it heap pq workers fresh run signal =>
    have hinv := accept_invariant h workers fresh run
    have hnew := (h.fresh fresh).1
    refine ⟨⟨_, hinv⟩, by rw [queueHolder_eq h, if_neg hnew], ?_⟩
    funext c
    rw [queueHolder_eq hinv, Function.update_apply, queueHolder_eq h]
    have hmem := (placed_perm (Function.update q.heap p it) p items).mem_iff (a := c)
    rw [List.mem_cons] at hmem
    by_cases hc : c = p
    · rw [if_pos hc, if_pos (hmem.mpr (Or.inl hc)), hc]
    · rw [if_neg hc]
      have hfd : (heap c).client_fd = (q.heap c).client_fd := by
        rw [insertItem_client_fd run, Function.update_of_ne hc]
      by_cases hci : c ∈ items
      · rw [if_pos hci, if_pos (hmem.mpr (Or.inr hci))]
        exact congrArg some hfd
      · rw [if_neg hci, if_neg fun hp => (hmem.mp hp).elim hc hci]
  | reject _ _ it _ heap pq fresh run failed => exact absurd failed (lt_irrefl 0)

theorem queue_reject (h : ProxyQueue.Invariant q items)
    (st : ProxyQueue.Step q (.insert l p r) q') (hr : r < 0) :
    (∃ items', ProxyQueue.Invariant q' items') ∧ queueHolder q' = queueHolder q := by
  cases st with
  | accept _ _ it heap pq workers fresh run signal => exact absurd hr (lt_irrefl 0)
  | reject _ _ it _ heap pq fresh run failed =>
    have hinv := reject_invariant h fresh failed run
    refine ⟨⟨items, hinv⟩, ?_⟩
    funext c
    rw [queueHolder_eq hinv, queueHolder_eq h]
    by_cases hci : c ∈ items
    · have hc : c ≠ p := fun heq => (h.fresh fresh).1 (heq ▸ hci)
      rw [if_pos hci, if_pos hci]
      dsimp only
      rw [insertItem_client_fd run, Function.update_of_ne hc]
    · rw [if_neg hci, if_neg hci]

theorem queue_pop {t : Thread} (h : ProxyQueue.Invariant q items)
    (st : ProxyQueue.Step q (.pop t p) q') :
    (∃ items', ProxyQueue.Invariant q' items') ∧
      queueHolder q p = some (q'.heap p).client_fd ∧
      queueHolder q' = Function.update (queueHolder q) p none := by
  obtain ⟨pq, run⟩ := st.popped
  obtain ⟨rest, rfl, _⟩ := h.popHead_item run
  have hnodup := h.split_nodup.2.1
  have hpop : ∃ workers, q' = { q with pq := pq, workers := workers, handed := q.handed ++ [p] } := by
    cases st with
    | remove w _ pq' run' =>
      have heq := run.symm.trans run'
      cases heq
      exact ⟨_, rfl⟩
    | getJob l _ pq' run' =>
      have heq := run.symm.trans run'
      cases heq
      exact ⟨_, rfl⟩
  obtain ⟨workers, rfl⟩ := hpop
  have hinv := pop_invariant h workers run
  refine ⟨⟨_, hinv⟩, by rw [queueHolder_eq h, if_pos List.mem_cons_self], ?_⟩
  funext c
  rw [queueHolder_eq hinv, Function.update_apply, queueHolder_eq h, List.tail_cons]
  by_cases hc : c = p
  · rw [if_pos hc, hc, if_neg (List.nodup_cons.mp hnodup).1]
  · simp only [List.mem_cons, hc, false_or, if_false]

theorem queue_idle {e : ProxyQueue.Event} (h : ProxyQueue.Invariant q items)
    (st : ProxyQueue.Step q e q') (he : e = .block w ∨ e = .queueEmpty l) :
    (∃ items', ProxyQueue.Invariant q' items') ∧ queueHolder q' = queueHolder q := by
  refine ⟨step_preserves_invariant h st, ?_⟩
  rcases he with rfl | rfl <;> cases st <;> rfl

end Queue

section Holders

variable {s : Server} {l w : ℕ} {p : Ptr} {q : ProxyQueue.State}

theorem holder_setListener (x : ListenerAt) :
    holder (s.setListener l x) = Function.update (holder s) (.listener l) x.fd := by
  funext a
  cases a with
  | listener m =>
    by_cases hm : m = l
    · subst hm
      simp [holder, Server.setListener]
    · rw [Function.update_of_ne (by simpa using hm)]
      simp [holder, Server.setListener, hm]
  | queued p =>
    rw [Function.update_of_ne (by simp)]
    rfl
  | worker v =>
    rw [Function.update_of_ne (by simp)]
    rfl

theorem holder_setWorker (x : WorkerAt) :
    holder (s.setWorker w x) = Function.update (holder s) (.worker w) x.fd := by
  funext a
  cases a with
  | listener l =>
    rw [Function.update_of_ne (by simp)]
    rfl
  | queued p =>
    rw [Function.update_of_ne (by simp)]
    rfl
  | worker v =>
    by_cases hv : v = w
    · subst hv
      simp [holder, Server.setWorker]
    · rw [Function.update_of_ne (by simpa using hv)]
      simp [holder, Server.setWorker, hv]

theorem holder_queue {o : Option ℤ} (h : queueHolder q = Function.update (queueHolder s.queue) p o) :
    holder { s with queue := q } = Function.update (holder s) (.queued p) o := by
  funext a
  cases a with
  | listener l =>
    rw [Function.update_of_ne (by simp)]
    rfl
  | queued c =>
    simp only [holder]
    rw [h]
    by_cases hc : c = p
    · subst hc
      rw [Function.update_self, Function.update_self]
    · rw [Function.update_of_ne hc, Function.update_of_ne (by simpa using hc)]
      rfl
  | worker v =>
    rw [Function.update_of_ne (by simp)]
    rfl

theorem holder_queue_same (h : queueHolder q = queueHolder s.queue) :
    holder { s with queue := q } = holder s := by
  funext a
  cases a with
  | queued c =>
    simp only [holder]
    rw [h]
  | _ => rfl

end Holders

/-- What careful steps keep. -/
structure Good (n : ℕ) (s : Server) : Prop where
  queue : ∃ items, ProxyQueue.Invariant s.queue items
  owned : Owned (holder s) s.opened
  counted : ∀ fd, s.closes.count fd + (if fd ∈ s.opened then 1 else 0) = s.accepts.count fd
  staying : ∀ w < n, s.workers w ≠ .gone

section Steps

variable {n : ℕ} {s u : Server} {e : Event} {l w : ℕ} {fd : ℤ} {a : Place}

theorem Good.accounted (h : Good n s) : Accounted n s := by
  refine ⟨fun fd hfd => ?_, fun a fd ha => h.owned.sound ha, h.counted, ?_⟩
  · obtain ⟨a, ha⟩ := h.owned.complete hfd
    exact ⟨a, ha, fun b hb => h.owned.unique hb ha⟩
  · have hall : serving n s = Finset.range n := by
      rw [serving, Finset.filter_eq_self]
      intro w hw
      exact h.staying w (Finset.mem_range.mp hw)
    rw [hall, Finset.card_range]

theorem Accounted.owned (h : Accounted n s) : Owned (holder s) s.opened := by
  refine ⟨fun ha => h.valid _ _ ha, fun ha ha' => ?_, fun hb => (h.placed _ hb).exists⟩
  exact (h.placed _ (h.valid _ _ ha)).unique ha ha'

theorem Accounted.staying (h : Accounted n s) (hw : w < n) : s.workers w ≠ .gone := by
  intro hgone
  have hsub : serving n s ⊆ (Finset.range n).erase w := by
    intro v hv
    rw [serving, Finset.mem_filter] at hv
    refine Finset.mem_erase.mpr ⟨?_, hv.1⟩
    rintro rfl
    exact hv.2 hgone
  have hcard := Finset.card_le_card hsub
  rw [Finset.card_erase_of_mem (Finset.mem_range.mpr hw), Finset.card_range] at hcard
  have hall := h.complete
  omega

/-- A worker goes on with the connection it has. -/
theorem Good.setWorker (h : Good n s) {x : WorkerAt} (hfd : x.fd = (s.workers w).fd)
    (hx : x ≠ .gone) : Good n (s.setWorker w x) := by
  refine ⟨h.queue, ?_, h.counted, fun v hv => ?_⟩
  · have hsame : x.fd = holder s (.worker w) := hfd
    rw [holder_setWorker, hsame, Function.update_eq_self]
    exact h.owned
  · simp only [Server.setWorker, Function.update_apply]
    split_ifs
    · exact hx
    · exact h.staying v hv

theorem Good.setListener (h : Good n s) {x : ListenerAt} (hfd : x.fd = (s.listeners l).fd) :
    Good n (s.setListener l x) := by
  refine ⟨h.queue, ?_, h.counted, h.staying⟩
  have hsame : x.fd = holder s (.listener l) := hfd
  rw [holder_setListener, hsame, Function.update_eq_self]
  exact h.owned

theorem Good.idleQueue (h : Good n s) {q : ProxyQueue.State}
    (hq : (∃ items, ProxyQueue.Invariant q items) ∧ queueHolder q = queueHolder s.queue) :
    Good n { s with queue := q } := by
  refine ⟨hq.1, ?_, h.counted, h.staying⟩
  rw [holder_queue_same hq.2]
  exact h.owned

theorem counted_close {opened : Finset ℤ} {accepts closes : List ℤ} (hfd : fd ∈ opened)
    (h : ∀ x, closes.count x + (if x ∈ opened then 1 else 0) = accepts.count x) (x : ℤ) :
    (closes ++ [fd]).count x + (if x ∈ opened.erase fd then 1 else 0) = accepts.count x := by
  rw [← h x, List.count_append, List.count_singleton]
  by_cases hx : x = fd
  · simp [hx, hfd]
  · simp [hx, Ne.symm hx]

/-- The thread at `a` closes the connection it holds. -/
theorem Good.close (h : Good n s) (ha : holder s a = some fd) {s' : Server}
    (hqueue : s'.queue = s.queue) (hholder : holder s' = Function.update (holder s) a none)
    (hopened : s'.opened = s.opened) (haccepts : s'.accepts = s.accepts)
    (hcloses : s'.closes = s.closes) (hstay : ∀ w < n, s'.workers w ≠ .gone) :
    Good n (s'.close fd) := by
  refine ⟨hqueue ▸ h.queue, ?_, fun x => ?_, hstay⟩
  · have hdrop := h.owned.drop ha
    rw [← hholder] at hdrop
    simp only [Server.close, hopened]
    exact hdrop
  · simp only [Server.close, hopened, haccepts, hcloses]
    exact counted_close (h.owned.sound ha) h.counted x

theorem careful_step (h : Good n s) (st : Step n s e u) (hc : Careful e) : Good n u := by
  obtain ⟨items, hq⟩ := h.queue
  cases st with
  | accept l fd pc free =>
    have hnone : holder s (.listener l) = none := by
      simp only [holder, pc, ListenerAt.fd]
    refine ⟨h.queue, ?_, fun x => ?_, h.staying⟩
    · have hgain := h.owned.gain hnone free
      rw [show some fd = (ListenerAt.parsing fd).fd from rfl, ← holder_setListener] at hgain
      exact hgain
    · have hold := h.counted x
      simp only [Server.setListener, List.count_append, List.count_singleton, Finset.mem_insert]
      by_cases hx : x = fd
      · subst hx
        simp only [free, if_false, Nat.add_zero] at hold
        simp [hold]
      · simp [hx, Ne.symm hx, hold]
  | acceptFails l pc => exact h
  | getJobEmpty l fd q pc run =>
    exact (h.setListener (x := .answering fd) (by rw [pc]; rfl)).idleQueue
      (queue_idle hq run (w := 0) (Or.inr rfl))
  | getJobPop l fd p q pc run => exact absurd hc id
  | enqueue l fd p q pc run item =>
    obtain ⟨hinv, hnone, hnew⟩ := queue_insert hq run
    rw [item] at hnew
    have hheld : holder s (.listener l) = some fd := by
      simp only [holder, pc, ListenerAt.fd]
    refine ⟨hinv, ?_, h.counted, h.staying⟩
    have hfree : holder s (.queued p) = none := hnone
    have hmove := h.owned.move hheld hfree
    rw [show (none : Option ℤ) = ListenerAt.accepting.fd from rfl, ← holder_setListener] at hmove
    rw [holder_queue (s := s.setListener l .accepting) (p := p) hnew]
    exact hmove
  | queueFull l fd p r q pc run failed =>
    exact (h.setListener (x := .answering fd) (by rw [pc]; rfl)).idleQueue
      (queue_reject hq run failed)
  | answered l fd pc =>
    exact h.close (a := .listener l) (by simp only [holder, pc, ListenerAt.fd]) rfl
      (holder_setListener _) rfl rfl rfl h.staying
  | wait w q mine pc run => exact h.idleQueue (queue_idle hq run (l := 0) (Or.inl rfl))
  | take w p q mine pc run =>
    obtain ⟨hinv, hheld, hrest⟩ := queue_pop hq run
    have hnone : holder s (.worker w) = none := by
      simp only [holder, pc, WorkerAt.fd]
    have hstay : ∀ v < n, (s.setWorker w (.delaying (q.heap p).client_fd)).workers v ≠ .gone := by
      intro v hv
      simp only [Server.setWorker, Function.update_apply]
      split_ifs
      · simp
      · exact h.staying v hv
    refine ⟨hinv, ?_, h.counted, hstay⟩
    have hcell : holder s (.queued p) = some (q.heap p).client_fd := hheld
    have hmove := h.owned.move hcell hnone
    rw [holder_queue (s := s.setWorker w _) (p := p) hrest, holder_setWorker,
      Function.update_comm (by simp)]
    exact hmove
  | connect w fd pc => exact h.setWorker (by rw [pc]; rfl) (by simp)
  | connected w fd pc => exact h.setWorker (by rw [pc]; rfl) (by simp)
  | connectFails w fd pc => exact h.setWorker (by rw [pc]; rfl) (by simp)
  | returns w fd pc => exact absurd hc id
  | sent w fd pc => exact h.setWorker (by rw [pc]; rfl) (by simp)
  | sendFails w fd pc => exact h.setWorker (by rw [pc]; rfl) (by simp)
  | relayed w fd pc => exact h
  | relayEnds w fd pc => exact h.setWorker (by rw [pc]; rfl) (by simp)
  | refused w fd pc => exact h.setWorker (by rw [pc]; rfl) (by simp)
  | closed w fd pc =>
    refine h.close (a := .worker w) (by simp only [holder, pc, WorkerAt.fd]) rfl
      (holder_setWorker _) rfl rfl rfl fun v hv => ?_
    simp only [Server.setWorker, Function.update_apply]
    split_ifs
    · simp
    · exact h.staying v hv

/-- The job a GetJob takes from the queue and the connection of a worker that returns are
still open, and nobody has them. -/
theorem careless_step (h : Good n s) (st : Step n s e u) (hc : ¬ Careful e) : ¬ Accounted n u := by
  obtain ⟨items, hq⟩ := h.queue
  intro hacc
  have howned := hacc.owned
  cases st with
  | getJobPop l fd p q pc run =>
    obtain ⟨_, hheld, hrest⟩ := queue_pop hq run
    have hsame : holder (s.setListener l (.answering fd)) = holder s := by
      rw [holder_setListener]
      refine Function.update_eq_self_iff.mpr ?_
      simp only [holder, pc, ListenerAt.fd]
    have hcell : holder s (.queued p) = some (q.heap p).client_fd := hheld
    rw [holder_queue (s := s.setListener l (.answering fd)) (p := p) hrest, hsame] at howned
    exact h.owned.orphan hcell howned
  | returns w fd pc =>
    have hheld : holder s (.worker w) = some fd := by
      simp only [holder, pc, WorkerAt.fd]
    rw [holder_setWorker] at howned
    exact h.owned.orphan hheld howned
  | _ => exact hc trivial

theorem initial_good (n : ℕ) (heap : Heap) (capacity : ℤ) : Good n (initial heap capacity) := by
  have hholder : holder (initial heap capacity) = fun _ => none := by
    funext a
    cases a <;> rfl
  refine ⟨⟨[], initial_invariant heap capacity⟩, ?_, fun _ => rfl, fun _ _ => by simp [initial]⟩
  rw [hholder]
  exact Owned.empty

end Steps

section Runs

variable {n : ℕ} {heap : Heap} {capacity : ℤ} {es : List Event} {past : List Server} {s : Server}

theorem run_good (hr : Run n (initial heap capacity) es past s) (hc : ∀ e ∈ es, Careful e) :
    Good n s := by
  induction hr with
  | start => exact initial_good n heap capacity
  | step _ st ih =>
    rw [List.forall_mem_cons] at hc
    exact careful_step (ih hc.2) st hc.1

theorem run_accounted (hr : Run n (initial heap capacity) es past s) (hc : ∀ e ∈ es, Careful e) :
    ∀ x ∈ s :: past, Accounted n x := by
  induction hr with
  | start =>
    rw [List.forall_mem_singleton]
    exact (initial_good n heap capacity).accounted
  | step hr st ih =>
    have hes := (List.forall_mem_cons.mp hc).2
    rw [List.forall_mem_cons]
    exact ⟨(run_good (hr.step st) hc).accounted, ih hes⟩

theorem run_careful (hr : Run n (initial heap capacity) es past s)
    (h : ∀ x ∈ s :: past, Accounted n x) : ∀ e ∈ es, Careful e := by
  induction hr with
  | start => simp
  | step hr st ih =>
    obtain ⟨hu, hpast⟩ := List.forall_mem_cons.mp h
    have hes := ih hpast
    refine List.forall_mem_cons.mpr ⟨?_, hes⟩
    -- the first careless step comes from a good state
    by_contra hcareless
    exact careless_step (run_good hr hes) st hcareless hu

/-- In every state of a run all connections are accounted for and the pool is complete,
exactly when no GetJob took a job from the queue and no worker returned. -/
theorem run_accounted_iff_careful (hr : Run n (initial heap capacity) es past s) :
    (∀ x ∈ s :: past, Accounted n x) ↔ ∀ e ∈ es, Careful e :=
  ⟨run_careful hr, run_accounted hr⟩

end Runs

/-- A job for the connection with descriptor 4. -/
def job : QueueItem := ⟨1, 4, [], 0, none⟩

def idle : Server := initial (fun _ => job) 10

/-- Connection 4 waits in the queue of a server with one worker. -/
theorem accept_enqueue : ∃ past s, Run 1 idle [.enqueue 0 0, .accept 0 4] past s ∧
    s.listeners 0 = .accepting ∧ s.workers 0 = .fetching ∧ s.opened = {4} ∧
    s.accepts = [4] ∧ s.closes = [] ∧
    ∃ pq, popHead s.queue.heap s.queue.pq = .item 0 pq ∧ (s.queue.heap 0).client_fd = 4 := by
  have h₁ := Run.start.step (Step.accept (n := 1) idle 0 4 rfl (by simp [idle, initial]))
  have hq := ProxyQueue.Step.accept (ProxyQueue.initial (fun _ => job) 10) 0 0 job _ _ _
    (by simp [ProxyQueue.initial]) rfl (.none (by simp [ProxyQueue.initial]))
  have hitem : (setNext (Function.update (fun _ => job) 0 job) 0 none 0).client_fd = 4 := by
    simp [setNext, job]
  have h₂ := h₁.step (Step.enqueue _ 0 4 0 _ (by simp [Server.setListener]) hq hitem)
  exact ⟨_, _, h₂, by simp [Server.setListener], rfl, rfl, rfl, rfl, _, rfl, hitem⟩

/-- The worker serves connection 4 to its end. -/
theorem one_connection_accounted : ∃ es past s, Run 1 idle es past s ∧ s.accepts = [4] ∧
    s.closes = [4] ∧ ∀ x ∈ s :: past, Accounted 1 x := by
  obtain ⟨past, s, hr, -, hw, -, hacc, hclo, pq, hpop, hfd⟩ := accept_enqueue
  have h₁ := hr.step (Step.take s 0 0 _ (by decide) hw (ProxyQueue.Step.remove s.queue 0 0 pq hpop))
  have h₂ := h₁.step (Step.connect _ 0 _ (by simp [Server.setWorker]; rfl))
  have h₃ := h₂.step (Step.connected _ 0 _ (by simp [Server.setWorker]; rfl))
  have h₄ := h₃.step (Step.sent _ 0 _ (by simp [Server.setWorker]; rfl))
  have h₅ := h₄.step (Step.relayEnds _ 0 _ (by simp [Server.setWorker]; rfl))
  have h₆ := h₅.step (Step.closed _ 0 _ (by simp [Server.setWorker]; rfl))
  refine ⟨_, _, _, h₆, hacc, ?_, (run_accounted_iff_careful h₆).mpr ?_⟩
  · simp [Server.setWorker, Server.close, hclo, hfd]
  · simp [Careful]

/-- Connection 4 is lost to a GetJob, or to a worker that cannot connect. -/
theorem connection_lost :
    (∃ past s, Run 1 idle [.getJobPop 0 0, .accept 0 5, .enqueue 0 0, .accept 0 4] past s ∧
      ¬ ∀ x ∈ s :: past, Accounted 1 x) ∧
    ∃ past s, Run 1 idle [.returns 0, .connectFails 0, .connect 0, .take 0 0, .enqueue 0 0,
      .accept 0 4] past s ∧ ¬ ∀ x ∈ s :: past, Accounted 1 x := by
  obtain ⟨past, s, hr, hl, hw, hopen, hacc, hclo, pq, hpop, hfd⟩ := accept_enqueue
  constructor
  · have h₁ := hr.step (Step.accept s 0 5 hl (by simp [hopen]))
    have h₂ := h₁.step (Step.getJobPop _ 0 5 0 _ (by simp [Server.setListener])
      (ProxyQueue.Step.getJob s.queue 0 0 pq hpop))
    exact ⟨_, _, h₂, fun hall => run_careful h₂ hall _ List.mem_cons_self⟩
  · have h₁ := hr.step (Step.take s 0 0 _ (by decide) hw (ProxyQueue.Step.remove s.queue 0 0 pq hpop))
    have h₂ := h₁.step (Step.connect _ 0 _ (by simp [Server.setWorker]; rfl))
    have h₃ := h₂.step (Step.connectFails _ 0 _ (by simp [Server.setWorker]; rfl))
    have h₄ := h₃.step (Step.returns _ 0 _ (by simp [Server.setWorker]; rfl))
    exact ⟨_, _, h₄, fun hall => run_careful h₄ hall _ List.mem_cons_self⟩

end ProxyServer
