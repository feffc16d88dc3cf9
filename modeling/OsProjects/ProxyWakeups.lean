import OsProjects.ProxyQueue
import Mathlib.Data.Finset.Card

/-! # Wakeups of the workers

The condition variable of `safequeue.c`. A signal sent while nobody waits is lost, and the
GetJob branch takes items without being signalled; still, while some worker waits, one
signal is on its way for every queued item.
-/
namespace ProxyWakeups

open ProxyQueue

/-- The worker an event of the queue belongs to. -/
def worker : Event → Option ℕ
  | .pop (.worker w) _ => some w
  | .block w => some w
  | _ => none

/-- One step of a pool of `n` workers: a queue operation, or a worker that wakes up on its
own and goes on to take the lock. -/
inductive PoolStep (n : ℕ) : State → State → Prop where
  | operation {s u : State} {e : Event} (st : Step s e u) (mine : ∀ w, worker e = some w → w < n) :
      PoolStep n s u
  | spurious (s : State) (w : ℕ) (waits : s.workers w = .waiting) :
      PoolStep n s { s with workers := Function.update s.workers w .signalled }

inductive PoolRun (n : ℕ) : State → State → Prop where
  | refl (s) : PoolRun n s s
  | tail {s u v} : PoolRun n s u → PoolStep n u v → PoolRun n s v

def signalled (n : ℕ) (workers : ℕ → WorkerMode) : Finset ℕ :=
  (Finset.range n).filter fun w => workers w = .signalled

/-- Whenever a worker waits, the signalled workers cover the queued items. -/
def Covered (n : ℕ) (s : State) : Prop :=
  (∃ w, s.workers w = .waiting) → s.pq.size ≤ (signalled n s.workers).card

/-- Threads outside the pool never touch the condition variable. -/
def Confined (n : ℕ) (workers : ℕ → WorkerMode) : Prop := ∀ w, n ≤ w → workers w = .busy

structure Invariant (n : ℕ) (s : State) : Prop where
  queue : ∃ items, ProxyQueue.Invariant s items
  confined : Confined n s.workers
  covered : Covered n s

section Counting

variable {n w : ℕ} {workers workers' : ℕ → WorkerMode}

theorem Confined.lt_of_waiting (h : Confined n workers) (hw : workers w = .waiting) : w < n := by
  by_contra hge
  rw [h w (not_lt.mp hge)] at hw
  cases hw

theorem Confined.update (h : Confined n workers) (hw : w < n) (mode : WorkerMode) :
    Confined n (Function.update workers w mode) := by
  intro v hv
  rw [Function.update_of_ne (by omega)]
  exact h v hv

/-- A waiting worker that is signalled adds one. -/
theorem signalled_wake (hw : w < n) (h : workers w = .waiting) :
    (signalled n (Function.update workers w .signalled)).card = (signalled n workers).card + 1 := by
  have hset : signalled n (Function.update workers w .signalled) = insert w (signalled n workers) := by
    ext v
    simp only [signalled, Finset.mem_filter, Finset.mem_range, Finset.mem_insert]
    by_cases hv : v = w
    · simp [hv, hw]
    · simp [hv]
  rw [hset, Finset.card_insert_of_notMem]
  simp [signalled, h]

/-- A worker that leaves its wait takes at most one signal with it. -/
theorem signalled_resume (mode : WorkerMode) :
    (signalled n workers).card ≤ (signalled n (Function.update workers w mode)).card + 1 := by
  have hsub : (signalled n workers).erase w ⊆ signalled n (Function.update workers w mode) := by
    intro v hv
    obtain ⟨hne, hv⟩ := Finset.mem_erase.mp hv
    simp only [signalled, Finset.mem_filter] at hv ⊢
    rw [Function.update_of_ne hne]
    exact hv
  have hcard := Finset.card_le_card hsub
  have herase := Finset.pred_card_le_card_erase (s := signalled n workers) (a := w)
  omega

end Counting

section Steps

variable {n : ℕ} {s u : State} {e : Event}

theorem initial_invariant (n : ℕ) (heap : Heap) (capacity : ℤ) : Invariant n (initial heap capacity) := by
  refine ⟨⟨[], ProxyQueue.initial_invariant heap capacity⟩, fun _ _ => rfl, ?_⟩
  rintro ⟨w, hw⟩
  cases hw

theorem step_covered (h : Invariant n s) (st : Step s e u) (mine : ∀ w, worker e = some w → w < n) :
    Confined n u.workers ∧ Covered n u := by
  obtain ⟨⟨items, hq⟩, hconf, hcov⟩ := h
  cases st with
  | accept l p it heap pq workers fresh run signal =>
    obtain ⟨hfull, hacc⟩ := hq.insert_outcome fresh it
    have hsize : pq.size = s.pq.size + 1 := by
      by_cases hc : s.pq.capacity ≤ s.pq.size
      · simp [hfull hc] at run
      · obtain ⟨heap', pq', run', _, hsize, _⟩ := hacc (not_le.mp hc)
        obtain ⟨rfl, rfl⟩ : heap' = heap ∧ pq' = pq := by simpa [run'] using run
        exact hsize
    cases signal with
    | none hnone =>
      refine ⟨hconf, ?_⟩
      rintro ⟨w, hw⟩
      exact absurd hw (hnone w)
    | one w hw =>
      have hlt := hconf.lt_of_waiting hw
      refine ⟨hconf.update hlt _, fun _ => ?_⟩
      have hle := hcov ⟨w, hw⟩
      have hcard := signalled_wake hlt hw
      dsimp only at hcard ⊢
      rw [hcard]
      push_cast
      omega
  | reject l p it r heap pq fresh run failed =>
    obtain ⟨hfull, hacc⟩ := hq.insert_outcome fresh it
    refine ⟨hconf, fun hwait => ?_⟩
    have hsame : pq = s.pq := by
      by_cases hc : s.pq.capacity ≤ s.pq.size
      · obtain ⟨_, _, rfl⟩ : -1 = r ∧ Function.update s.heap p it = heap ∧ s.pq = pq := by
          simpa [hfull hc] using run
        rfl
      · obtain ⟨heap', pq', run', _⟩ := hacc (not_le.mp hc)
        obtain ⟨rfl, _⟩ : 0 = r ∧ heap' = heap ∧ pq' = pq := by simpa [run'] using run
        omega
    dsimp only at hwait ⊢
    rw [hsame]
    exact hcov hwait
  | remove w p pq run =>
    obtain ⟨rest, _, rfl⟩ := hq.popHead_item run
    refine ⟨hconf.update (mine w rfl) _, ?_⟩
    rintro ⟨v, hv⟩
    have hvw : v ≠ w := by
      rintro rfl
      simp at hv
    dsimp only at hv ⊢
    rw [Function.update_of_ne hvw] at hv
    have hle := hcov ⟨v, hv⟩
    have hcard := @signalled_resume n w s.workers .busy
    omega
  | block w run =>
    refine ⟨hconf.update (mine w rfl) _, fun _ => ?_⟩
    have hempty : s.pq.size = 0 := by
      rw [removeItem, popHead] at run
      split_ifs at run with hz
      · exact hz
      · split at run <;> cases run
    dsimp only
    omega
  | getJob l p pq run =>
    obtain ⟨rest, _, rfl⟩ := hq.popHead_item run
    refine ⟨hconf, fun hwait => ?_⟩
    have hle := hcov hwait
    dsimp only
    omega
  | queueEmpty l run => exact ⟨hconf, hcov⟩

theorem step_invariant (h : Invariant n s) (st : PoolStep n s u) : Invariant n u := by
  cases st with
  | operation st mine =>
    obtain ⟨items, hq⟩ := h.queue
    obtain ⟨hconf, hcov⟩ := step_covered h st mine
    exact ⟨step_preserves_invariant hq st, hconf, hcov⟩
  | spurious w waits =>
    obtain ⟨⟨items, hq⟩, hconf, hcov⟩ := h
    have hlt := hconf.lt_of_waiting waits
    refine ⟨⟨items, hq.chain, hq.ordered, hq.size, hq.bounded, hq.history, hq.distinct, hq.owned⟩,
      hconf.update hlt _, fun _ => ?_⟩
    have hle := hcov ⟨w, waits⟩
    have hcard := signalled_wake hlt waits
    dsimp only at hcard ⊢
    rw [hcard]
    push_cast
    omega

theorem run_invariant (h : Invariant n s) (hr : PoolRun n s u) : Invariant n u := by
  induction hr with
  | refl => exact h
  | tail _ st ih => exact step_invariant ih st

end Steps

/-- No wakeup is lost: in every reachable state a waiting worker means a signal for every
queued item. -/
theorem no_lost_wakeup {n : ℕ} {heap : Heap} {capacity : ℤ} {s : State}
    (hr : PoolRun n (initial heap capacity) s) {w : ℕ} (hw : s.workers w = .waiting) :
    s.pq.size ≤ (signalled n s.workers).card ∧
      (0 < s.pq.size → ∃ v < n, s.workers v = .signalled) := by
  have hle := (run_invariant (initial_invariant n heap capacity) hr).covered ⟨w, hw⟩
  refine ⟨hle, fun hpos => ?_⟩
  have hcard : 0 < (signalled n s.workers).card := by omega
  obtain ⟨v, hv⟩ := Finset.card_pos.mp hcard
  simp only [signalled, Finset.mem_filter, Finset.mem_range] at hv
  exact ⟨v, hv⟩

/-- Two workers wait, one insert signals the first of them. -/
theorem one_job_wakes_one : ∃ s, PoolRun 2 (initial (fun _ => ⟨0, 4, [], 0, none⟩) 10) s ∧
    s.workers 1 = .waiting ∧ s.pq.size = 1 ∧ ∃ v < 2, s.workers v = .signalled := by
  let job : QueueItem := ⟨7, 4, [], 0, none⟩
  have h₀ := PoolRun.refl (n := 2) (initial (fun _ => ⟨0, 4, [], 0, none⟩) 10)
  have h₁ := h₀.tail (.operation (.block _ 0 rfl) (by rintro w ⟨⟩; decide))
  have h₂ := h₁.tail (.operation (.block _ 1 rfl) (by rintro w ⟨⟩; decide))
  have h₃ := h₂.tail (.operation (.accept _ 0 0 job _ _ _ (by simp [initial]) rfl (.one 0 rfl))
    (by rintro w ⟨⟩))
  exact ⟨_, h₃, rfl, rfl, (no_lost_wakeup h₃ (w := 1) rfl).2 (by decide)⟩

end ProxyWakeups
