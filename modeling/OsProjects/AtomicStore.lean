import Mathlib.Logic.Function.Basic
import Mathlib.Data.List.Basic

/-! # Stores with atomic groups of operations

What a transaction log is for. Operations write to the current contents. A commit, which comes
only between operations, makes the contents durable, and a crash leaves what is durable.
-/
namespace AtomicStore

variable {K V : Type*} [DecidableEq K]

inductive Label (K V : Type*) where
  | begin
  | write (k : K) (v : V)
  | finish
  | commit
  | read (k : K) (v : V)
  | crash

/-- `active` counts the operations in progress. -/
structure Store (K V : Type*) where
  durable : K → V
  current : K → V
  active : ℕ

inductive Step : Store K V → Label K V → Store K V → Prop where
  | begin (a : Store K V) : Step a .begin { a with active := a.active + 1 }
  | write (a : Store K V) (k : K) (v : V) (h : 0 < a.active) :
    Step a (.write k v) { a with current := Function.update a.current k v }
  | finish (a : Store K V) (h : 0 < a.active) : Step a .finish { a with active := a.active - 1 }
  | commit (a : Store K V) (h : a.active = 0) : Step a .commit { a with durable := a.current }
  | read (a : Store K V) (k : K) : Step a (.read k (a.current k)) a
  | crash (a : Store K V) : Step a .crash ⟨a.durable, a.durable, 0⟩

inductive Steps : Store K V → List (Label K V) → Store K V → Prop where
  | nil (a : Store K V) : Steps a [] a
  | cons {a b c : Store K V} {l : Label K V} {ls : List (Label K V)} :
    Step a l b → Steps b ls c → Steps a (l :: ls) c

/-- The writes in the order in which they were made. -/
def overlay (new : List (K × V)) (old : K → V) : K → V :=
  new.foldl (fun m w => Function.update m w.1 w.2) old

/-- The writes that are durable, and those that are not yet. -/
def settle : List (K × V) × List (K × V) → Label K V → List (K × V) × List (K × V)
  | (kept, pending), .write k v => (kept, pending ++ [(k, v)])
  | (kept, pending), .commit => (kept ++ pending, [])
  | (kept, _), .crash => (kept, [])
  | p, _ => p

def settled (ls : List (Label K V)) : List (K × V) × List (K × V) := ls.foldl settle ([], [])

section Runs

variable {a b c : Store K V} {l : Label K V} {ls ls' : List (Label K V)} {old : K → V}

theorem Steps.single (h : Step a l b) : Steps a [l] b := .cons h (.nil b)

theorem Steps.append (h : Steps a ls b) (k : Steps b ls' c) : Steps a (ls ++ ls') c := by
  induction h with
  | nil => exact k
  | cons h _ ih => exact .cons h (ih k)

theorem overlay_append (new new' : List (K × V)) :
    overlay (new ++ new') old = overlay new' (overlay new old) := List.foldl_append

theorem Step.settle {p : List (K × V) × List (K × V)} (h : Step a l b)
    (hdurable : a.durable = overlay p.1 old) (hcurrent : a.current = overlay p.2 a.durable) :
    b.durable = overlay (settle p l).1 old ∧ b.current = overlay (settle p l).2 b.durable := by
  obtain ⟨kept, pending⟩ := p
  cases h with
  | begin => exact ⟨hdurable, hcurrent⟩
  | write k v => exact ⟨hdurable, by rw [AtomicStore.settle, overlay_append, ← hcurrent]; rfl⟩
  | finish => exact ⟨hdurable, hcurrent⟩
  | commit =>
    refine ⟨?_, rfl⟩
    rw [AtomicStore.settle, overlay_append, ← hdurable]
    exact hcurrent
  | read k => exact ⟨hdurable, hcurrent⟩
  | crash => exact ⟨hdurable, rfl⟩

/-- The contents are the writes up to the last commit, and those behind it but for a crash. -/
theorem Steps.settled (h : Steps a ls b) (hstart : a.current = a.durable) :
    b.durable = overlay (settled ls).1 a.durable ∧
      b.current = overlay (AtomicStore.settled ls).2 b.durable := by
  have hrun : ∀ p : List (K × V) × List (K × V), ∀ old, a.durable = overlay p.1 old →
      a.current = overlay p.2 a.durable →
      b.durable = overlay (ls.foldl settle p).1 old ∧
        b.current = overlay (ls.foldl settle p).2 b.durable := by
    clear hstart
    induction h with
    | nil => exact fun p old hd hc => ⟨hd, hc⟩
    | cons hstep _ ih =>
      intro p old hd hc
      obtain ⟨hd', hc'⟩ := hstep.settle hd hc
      exact ih _ old hd' hc'
  exact hrun ([], []) a.durable rfl hstart

end Runs

end AtomicStore
