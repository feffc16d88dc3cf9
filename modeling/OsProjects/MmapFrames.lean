import OsProjects.MmapTable
import OsProjects.Runs
import Mathlib.Data.List.Basic

/-! # Frames behind the mappings of several processes

Page faults, `fork` and `exit` as far as they move physical frames. Page contents, heap
pages and page-table pages are left out: none of these functions frees them. A panic of
the kernel is `none`.
-/
namespace MmapFrames

open Word32 MmapTable

/-- What the environment answers to one allocation and the `mappages` call after it. Frame
0 stands for a failed `kalloc`. -/
structure Answer where
  frame : ℕ
  mapped : Bool
  deriving DecidableEq, Repr

/-- The allocator hands out free frames only. -/
def kalloc (k : Frames) (frame : ℕ) : Option Frames :=
  if frame ≠ 0 ∧ k.free frame = true then some { k with free := Function.update k.free frame false }
  else none

structure Memory where
  frames : Frames
  answers : List Answer

def Memory.pop (m : Memory) : Answer × Memory :=
  match m.answers with
  | [] => (⟨0, false⟩, m)
  | a :: as => (a, { m with answers := as })

/-- Entry of a page that must not be present yet; `panic("remap")` otherwise. -/
def mapPage (p : Proc) (page frame : ℕ) : Option Proc :=
  match p.pgdir page with
  | some _ => none
  | none => some { p with pgdir := Function.update p.pgdir page (some frame) }

/-- A fresh frame at `page`; `false` when memory runs out. -/
def mapFresh (m : Memory) (p : Proc) (page : ℕ) : Option (Memory × Proc × Bool) :=
  let (a, m) := m.pop
  match kalloc m.frames a.frame with
  | none => some (m, p, false)
  | some k =>
    if a.mapped then (mapPage p page a.frame).map fun p => ({ m with frames := k }, p, true)
    else some ({ m with frames := kfree k a.frame }, p, false)

/-- The loop shared by `map_anon_main` and `map_pagecache_page`. -/
def storePages : ℕ → ℕ → Memory → Proc → Option (Memory × Proc × Bool)
  | 0, _, m, p => some (m, p, true)
  | n + 1, page, m, p =>
    match mapFresh m p page with
    | none => none
    | some (m, p, false) => some (m, p, false)
    | some (m, p, true) => storePages n (page + 1) m p

def mmap_store_data (m : Memory) (p : Proc) (addr : ℕ) (length : ℤ) :
    Option (Memory × Proc × Bool) :=
  storePages ((length + 4095) / 4096).toNat (addr / PGSIZE) m p

/-- What `handle_page_fault` does once it has found mapping `i`. -/
def faultIn (m : Memory) (p : Proc) (i : ℤ) (addr : ℕ) : Option (Memory × Proc) :=
  if get_physical_page p (pgRoundDown addr) ≠ 0 then some (m, { p with killed := true })
  else
    let remsize := wrap ((p.slot i).length - (p.slot i).stored_length)
    let size := if PGSIZE > remsize then remsize else PGSIZE
    (mmap_store_data m p (pgRoundDown addr) size).map fun (m, p, ok) =>
      let p := if ok then p else { p with killed := true }
      (m, p.setSlot i { p.slot i with stored_length := (p.slot i).stored_length + PGSIZE })

def covers (p : Proc) (addr : ℕ) (i : ℕ) : Bool :=
  let start := (p.slot i).addr
  addr ≥ start ∧ addr ≤ wrap (start + (p.slot i).length)

def growsTo (p : Proc) (addr next_page_end : ℕ) (i : ℕ) : Bool :=
  has (p.slot i).flags MAP_GROWSUP ∧ addr ≥ (p.slot i).addr ∧ addr ≤ next_page_end ∧
    ((i : ℤ) = p.total_mmaps - 1 ∨ next_page_end < (p.slot (i + 1)).addr)

def handle_page_fault (m : Memory) (p : Proc) (addr : ℕ) : Option (Memory × Proc) :=
  match (List.range p.total_mmaps.toNat).find? (covers p addr) with
  | some i => faultIn m p i addr
  | none =>
    let next_page_end := pgRoundDown (wrap (addr + PGSIZE))
    if next_page_end ≥ KERNBASE then some (m, p)
    else
      match (List.range p.total_mmaps.toNat).find? (growsTo p addr next_page_end) with
      | some i =>
        let r := p.slot i
        faultIn m (p.setSlot i { r with length := wrap (r.length + PGSIZE) }) i addr
      | none => some (m, { p with killed := true })

/-- The frame that `copy_single_mmap` works with: the parent of a shared mapping gets the
page first if it has none. -/
def parentPage (m : Memory) (parent : Proc) (i : ℤ) (start : ℕ) :
    Option (Memory × Proc × Bool) :=
  let r := parent.slot i
  if has r.flags MAP_SHARED ∧ get_physical_page parent start = 0 then
    let remaining_length := signed (wrap (r.length - r.stored_length))
    let chunk_length := if PGSIZE > remaining_length then remaining_length else PGSIZE
    (mmap_store_data m parent start chunk_length).map fun (m, p, ok) =>
      (m, if ok then
        p.setSlot i { p.slot i with stored_length := (p.slot i).stored_length + chunk_length }
      else p, ok)
  else some (m, parent, true)

/-- The child's entry: the parent's own frame if shared, else a fresh copy. -/
def childPage (m : Memory) (parent child : Proc) (shared : Bool) (start : ℕ) :
    Option (Memory × Proc × Bool) :=
  let pa := get_physical_page parent start
  if shared then
    let (a, m) := m.pop
    if a.mapped then (mapPage child (start / PGSIZE) pa).map fun c => (m, c, true)
    else some (m, child, false)
  else if pa = 0 then some (m, child, true)
  else mapFresh m child (start / PGSIZE)

/-- The pages of one mapping; the fuel is the number of pages. -/
def copyPages (i : ℤ) (shared : Bool) :
    ℕ → ℕ → Memory → Proc → Proc → Option (Memory × Proc × Proc × Bool)
  | 0, _, m, parent, child => some (m, parent, child, true)
  | n + 1, start, m, parent, child =>
    match parentPage m parent i start with
    | none => none
    | some (m, parent, false) => some (m, parent, child, false)
    | some (m, parent, true) =>
      match childPage m parent child shared start with
      | none => none
      | some (m, child, false) => some (m, parent, child, false)
      | some (m, child, true) => copyPages i shared n (wrap (start + PGSIZE)) m parent child

def copy_single_mmap (m : Memory) (parent child : Proc) (i : ℤ) :
    Option (Memory × Proc × Proc × Bool) :=
  let r := parent.slot i
  let shared := has r.flags MAP_SHARED
  let pages := (wrap (r.addr + r.length) - r.addr + 4095) / 4096
  (copyPages i shared pages r.addr m parent child).map fun (m, parent, child, ok) =>
    if ok then
      let c := { child.slot i with toMapping := (parent.slot i).toMapping }
      (m, parent, child.setSlot i (if shared then { c with ref := 1 } else c), true)
    else (m, parent, child, false)

def copyAll : ℕ → ℕ → Memory → Proc → Proc → Option (Memory × Proc × Proc × Bool)
  | 0, _, m, parent, child => some (m, parent, child, true)
  | n + 1, i, m, parent, child =>
    match copy_single_mmap m parent child i with
    | none => none
    | some (m, parent, child, false) => some (m, parent, child, false)
    | some (m, parent, child, true) => copyAll n (i + 1) m parent child

def copy_maps (m : Memory) (parent child : Proc) : Option (Memory × Proc × Proc × Bool) :=
  (copyAll parent.total_mmaps.toNat 0 m parent child).map fun (m, parent, child, ok) =>
    (m, parent, if ok then { child with total_mmaps := parent.total_mmaps } else child, ok)

/-- `exiting n` is inside the loop of `delete_mmaps` with `total_maps = n`. The entries of
a zombie's page table stay until it is reaped. -/
inductive Phase where
  | unused
  | live
  | exiting (n : ℕ)
  | zombie
  deriving DecidableEq, Repr

/-- A slot of the process table keeps its `mmaps` array when it is reused. -/
structure Machine where
  procs : ℕ → Proc
  phase : ℕ → Phase
  frames : Frames

def Machine.set (s : Machine) (i : ℕ) (p : Proc) (k : Frames) : Machine :=
  { s with procs := Function.update s.procs i p, frames := k }

def Machine.setPhase (s : Machine) (i : ℕ) (f : Phase) : Machine :=
  { s with phase := Function.update s.phase i f }

inductive Event where
  | mmap (i : ℕ) (addr : BitVec 32) (f : File) (length offset flags protection : BitVec 32)
  | fault (i : ℕ) (addr : BitVec 32) (answers : List Answer)
  | fork (i j : ℕ) (answers : List Answer)
  | munmap (i : ℕ) (addr length : BitVec 32) (written : ℤ)
  | exitBegin (i : ℕ)
  | exitStep (i : ℕ) (written : ℤ)
  | exitEnd (i : ℕ)
  | reap (i : ℕ)
  deriving DecidableEq, Repr

def doMunmap (s : Machine) (i : ℕ) (addr length : BitVec 32) (written : ℤ) : Machine :=
  let (k, p, _) := my_munmap s.frames (s.procs i) addr length written
  s.set i p k

/-- The address and length `delete_mmaps` passes on in a round, if it unmaps at all. -/
def exitArgs (p : Proc) (n : ℕ) : Option (BitVec 32 × BitVec 32) :=
  if (p.slot (p.total_mmaps - 1)).ref = 0 then
    some (BitVec.ofNat 32 (p.slot n).addr, BitVec.ofNat 32 (p.slot n).length)
  else none

/-- The child starts with an empty mmap area and no table entries. -/
def fork (s : Machine) (i j : ℕ) (answers : List Answer) : Option Machine :=
  let child := { s.procs j with pgdir := fun _ => none, total_mmaps := 0, killed := false }
  (copy_maps ⟨s.frames, answers⟩ (s.procs i) child).map fun (m, parent, child, ok) =>
    let s := (s.set i parent m.frames).set j child m.frames
    if ok then s.setPhase j .live else s

def next (s : Machine) : Event → Option Machine
  | .mmap i addr f length offset flags protection =>
    if s.phase i = .live then
      some (s.set i (my_mmap (s.procs i) addr f length offset flags protection).1 s.frames)
    else none
  | .fault i addr answers =>
    if s.phase i = .live then
      (handle_page_fault ⟨s.frames, answers⟩ (s.procs i) addr.toNat).map fun (m, p) =>
        s.set i p m.frames
    else none
  | .fork i j answers =>
    if s.phase i = .live ∧ s.phase j = .unused then fork s i j answers else none
  | .munmap i addr length written =>
    if s.phase i = .live then some (doMunmap s i addr length written) else none
  | .exitBegin i =>
    if s.phase i = .live then some (s.setPhase i (.exiting (s.procs i).total_mmaps.toNat))
    else none
  | .exitStep i written =>
    match s.phase i with
    | .exiting (n + 1) =>
      let s' := match exitArgs (s.procs i) n with
        | some (addr, length) => doMunmap s i addr length written
        | none => s
      some (s'.setPhase i (.exiting n))
    | _ => none
  | .exitEnd i =>
    if s.phase i = .exiting 0 then
      some ((s.set i { s.procs i with total_mmaps := 0 } s.frames).setPhase i .zombie)
    else none
  | .reap i => if s.phase i = .zombie then some (s.setPhase i .unused) else none

/-- What each event needs and what it does to the machine. -/
inductive Moved (s : Machine) : Event → Machine → Prop where
  | mmap {i addr f length offset flags protection} (live : s.phase i = .live) :
      Moved s (.mmap i addr f length offset flags protection)
        (s.set i (my_mmap (s.procs i) addr f length offset flags protection).1 s.frames)
  | fault {i addr answers m p} (live : s.phase i = .live)
      (served : handle_page_fault ⟨s.frames, answers⟩ (s.procs i) addr.toNat = some (m, p)) :
      Moved s (.fault i addr answers) (s.set i p m.frames)
  | fork {i j answers s'} (live : s.phase i = .live) (unused : s.phase j = .unused)
      (forked : MmapFrames.fork s i j answers = some s') : Moved s (.fork i j answers) s'
  | munmap {i addr length written} (live : s.phase i = .live) :
      Moved s (.munmap i addr length written) (doMunmap s i addr length written)
  | exitBegin {i} (live : s.phase i = .live) :
      Moved s (.exitBegin i) (s.setPhase i (.exiting (s.procs i).total_mmaps.toNat))
  | skipped {i n written} (inside : s.phase i = .exiting (n + 1))
      (ref : exitArgs (s.procs i) n = none) :
      Moved s (.exitStep i written) (s.setPhase i (.exiting n))
  | round {i n written addr length} (inside : s.phase i = .exiting (n + 1))
      (args : exitArgs (s.procs i) n = some (addr, length)) :
      Moved s (.exitStep i written) ((doMunmap s i addr length written).setPhase i (.exiting n))
  | exitEnd {i} (done : s.phase i = .exiting 0) :
      Moved s (.exitEnd i)
        ((s.set i { s.procs i with total_mmaps := 0 } s.frames).setPhase i .zombie)
  | reap {i} (zombie : s.phase i = .zombie) : Moved s (.reap i) (s.setPhase i .unused)

theorem next_moved {s s' : Machine} {e : Event} (h : next s e = some s') : Moved s e s' := by
  cases e with
  | mmap i addr f length offset flags protection =>
    obtain ⟨hlive, hs⟩ := Option.ite_none_right_eq_some.mp h
    cases hs
    exact .mmap hlive
  | fault i addr answers =>
    obtain ⟨hlive, hs⟩ := Option.ite_none_right_eq_some.mp h
    obtain ⟨⟨m, p⟩, hf, rfl⟩ := Option.map_eq_some_iff.mp hs
    exact .fault hlive hf
  | fork i j answers =>
    obtain ⟨⟨hlive, hunused⟩, hs⟩ := Option.ite_none_right_eq_some.mp h
    exact .fork hlive hunused hs
  | munmap i addr length written =>
    obtain ⟨hlive, hs⟩ := Option.ite_none_right_eq_some.mp h
    cases hs
    exact .munmap hlive
  | exitBegin i =>
    obtain ⟨hlive, hs⟩ := Option.ite_none_right_eq_some.mp h
    cases hs
    exact .exitBegin hlive
  | exitStep i written =>
    rw [next] at h
    split at h
    next n hi =>
      cases hargs : exitArgs (s.procs i) n with
      | none =>
        rw [hargs] at h
        cases h
        exact .skipped hi hargs
      | some args =>
        rw [hargs] at h
        cases h
        exact .round hi hargs
    next => cases h
  | exitEnd i =>
    obtain ⟨hdone, hs⟩ := Option.ite_none_right_eq_some.mp h
    cases hs
    exact .exitEnd hdone
  | reap i =>
    obtain ⟨hzombie, hs⟩ := Option.ite_none_right_eq_some.mp h
    cases hs
    exact .reap hzombie

abbrev run (s : Machine) (es : List Event) : Option Machine := Runs.run next s es

/-- One process with no pages in the mmap area; everything else is unused. -/
def Fresh (s : Machine) : Prop :=
  s.frames.doubleFree = false ∧ (∀ a, (s.procs 0).pgdir a = none) ∧
    s.phase 0 = .live ∧ ∀ i, i ≠ 0 → s.phase i = .unused

namespace Exec

/-- Besides the events of the machine, the end of `exec`: it goes through the rounds of
`delete_mmaps` like `exit`, and the process goes on with an empty table and a page directory of
its own. -/
inductive Step where
  | event (e : Event)
  | exec (i : ℕ)
  deriving DecidableEq, Repr

def next (s : Machine) : Step → Option Machine
  | .event e => MmapFrames.next s e
  | .exec i =>
    if s.phase i = .exiting 0 then
      some ((s.set i { s.procs i with total_mmaps := 0, pgdir := fun _ => none } s.frames).setPhase
        i .live)
    else none

end Exec

end MmapFrames
