import OsProjects.MmapFrames
import OsProjects.PageCache

/-! # Page contents behind the mappings

Page faults and the copying part of `fork` with what they put into the pages and with the
bits that `mappages` puts into an entry. The frames of the page cache are kept apart, since
`kalloc` never hands them out. A panic of the kernel, or a wait for a lock that nobody will
release, is `none`.
-/
namespace MmapMemory

open Word32 MmapTable ByteMemory
open MmapFrames (Answer Memory kalloc covers growsTo)

/-- `perm` is the `perm` argument of the `mappages` call that made the entry. -/
structure Space where
  proc : Proc
  perm : ℕ → BitVec 32

structure Ram where
  memory : Memory
  mem : Mem
  cache : PageCache.State

/-- The same memory with other answers of the allocator to come. -/
def withAnswers (r : Ram) (answers : List Answer) : Ram :=
  { r with memory := { r.memory with answers := answers } }

/-- The frames of the page cache and the inode behind each file pointer. -/
structure Files where
  frames : PageCache.Frames
  inode : ℕ → PageCache.Inode

def Space.kill (p : Space) : Space := { p with proc := { p.proc with killed := true } }

def Space.setSlot (p : Space) (i : ℤ) (m : Mmp) : Space := { p with proc := p.proc.setSlot i m }

/-- The frame in `pa | perm | PTE_P`: the upper 20 bits of `perm` go into it. -/
def aliased (frame : ℕ) (perm : BitVec 32) : ℕ := frame ||| perm.toNat / PGSIZE

theorem aliased_of_permission {perm : BitVec 32} (frame : ℕ) (hp : perm.toNat < PGSIZE) :
    aliased frame perm = frame := by
  rw [aliased, Nat.div_eq_of_lt hp, Nat.or_zero]

/-- `mappages` for one page. -/
def mapPage (p : Space) (page frame : ℕ) (perm : BitVec 32) : Option Space :=
  match p.proc.pgdir page with
  | some _ => none
  | none => some
    { proc := { p.proc with pgdir := Function.update p.proc.pgdir page (some (aliased frame perm)) }
      perm := Function.update p.perm page perm }

/-- `kalloc`, then `fill`, then `mappages`; `false` when memory runs out. -/
def mapFresh (fill : Ram → ℕ → Option Ram) (r : Ram) (p : Space) (page : ℕ) (perm : BitVec 32) :
    Option (Ram × Space × Bool) :=
  let (a, m) := r.memory.pop
  match kalloc m.frames a.frame with
  | none => some ({ r with memory := m }, p, false)
  | some k =>
    (fill { r with memory := { m with frames := k } } a.frame).bind fun r =>
      if a.mapped then (mapPage p page a.frame perm).map fun p => (r, p, true)
      else
        some ({ r with memory := { r.memory with frames := kfree r.memory.frames a.frame } }, p,
          false)

def clearPage (r : Ram) (frame : ℕ) : Ram :=
  { r with mem := storeBytes r.mem (frame * PGSIZE) (List.replicate PGSIZE 0) }

/-- The inner loop of `map_pagecache_page`. A second round writes behind the page, as the
source does. -/
def readPage (fs : Files) (f : ℕ) : ℕ → ℕ → ℕ → BitVec 32 → Ram → Option Ram
  | 0, _, _, _, r => some r
  | fuel + 1, dest, toRead, currOffset, r =>
    if toRead = 0 then some r
    else
      let pageOffset := currOffset.toInt.tmod PGSIZE
      let readLength := if PGSIZE - pageOffset < toRead then (PGSIZE - pageOffset).toNat else toRead
      if pageOffset < 0 ∨ pageOffset > (r.cache.data (fs.inode f)).length then some r
      else
        match PageCache.copyPage fs.frames r.cache (fs.inode f) currOffset readLength
          pageOffset.toNat with
        | none => none
        | some (cache, bytes) =>
          readPage fs f fuel (dest + PGSIZE) (toRead - readLength)
            (currOffset + BitVec.ofNat 32 readLength)
            { r with cache := cache, mem := storeBytes r.mem dest bytes }

/-- What `map_pagecache_page` puts into the page after `done` bytes. -/
def fileFill (fs : Files) (f : ℕ) (offset : BitVec 32) (length done : ℕ) (r : Ram) (frame : ℕ) :
    Option Ram :=
  let toRead := if length - done < PGSIZE then length - done else PGSIZE
  readPage fs f toRead (frame * PGSIZE) toRead (offset + BitVec.ofNat 32 done) (clearPage r frame)

def anonFill (_done : ℕ) (r : Ram) (frame : ℕ) : Option Ram := some (clearPage r frame)

/-- The page loop of `map_anon_main` and `map_pagecache_page`. -/
def storePages (fill : ℕ → Ram → ℕ → Option Ram) (perm : BitVec 32) :
    ℕ → ℕ → ℕ → Ram → Space → Option (Ram × Space × Bool)
  | 0, _, _, r, p => some (r, p, true)
  | n + 1, page, done, r, p =>
    match mapFresh (fill done) r p page perm with
    | none => none
    | some (r, p, false) => some (r, p, false)
    | some (r, p, true) => storePages fill perm n (page + 1) (done + PGSIZE) r p

/-- The arguments of a call of `mmap_store_data`. -/
structure StoreCall where
  addr : ℕ
  length : ℤ
  flags : BitVec 32
  prot : BitVec 32
  f : Option ℕ
  offset : BitVec 32
  deriving DecidableEq, Repr

def StoreCall.pages (c : StoreCall) : ℕ := ((c.length + 4095) / 4096).toNat

/-- A file mapping has a file; the fault on a null pointer is not followed. -/
def mmap_store_data (fs : Files) (r : Ram) (p : Space) (c : StoreCall) :
    Option (Ram × Space × Bool) :=
  if has c.flags MAP_ANONYMOUS then
    storePages anonFill c.prot c.pages (c.addr / PGSIZE) 0 r p
  else
    match c.f with
    | none => none
    | some f =>
      storePages (fileFill fs f c.offset c.length.toNat) c.prot c.pages (c.addr / PGSIZE) 0 r p

/-- The call `handle_page_fault` makes for mapping `i`. -/
def faultCall (p : Proc) (i : ℤ) (addr : ℕ) : StoreCall :=
  let m := p.slot i
  let remsize := wrap (m.length - m.stored_length)
  { addr := pgRoundDown addr
    length := if PGSIZE > remsize then (remsize : ℤ) else PGSIZE
    flags := m.flags
    prot := m.prot
    f := m.f
    offset := m.offset + BitVec.ofNat 32 (pgRoundDown addr) - BitVec.ofNat 32 m.addr }

def faultIn (fs : Files) (r : Ram) (p : Space) (i : ℤ) (addr : ℕ) : Option (Ram × Space) :=
  if get_physical_page p.proc (pgRoundDown addr) ≠ 0 then some (r, p.kill)
  else
    (mmap_store_data fs r p (faultCall p.proc i addr)).map fun (r, p, ok) =>
      let p := if ok then p else p.kill
      (r, p.setSlot i { p.proc.slot i with
        stored_length := (p.proc.slot i).stored_length + PGSIZE })

inductive Plan where
  | segfault
  | ignore
  | store (i : ℕ)
  | grow (i : ℕ)
  deriving DecidableEq, Repr

/-- Which mapping the two loops of `handle_page_fault` find. -/
def planFault (p : Proc) (addr : ℕ) : Plan :=
  match (List.range p.total_mmaps.toNat).find? (covers p addr) with
  | some i => .store i
  | none =>
    let next_page_end := pgRoundDown (wrap (addr + PGSIZE))
    if next_page_end ≥ KERNBASE then .ignore
    else
      match (List.range p.total_mmaps.toNat).find? (growsTo p addr next_page_end) with
      | some i => .grow i
      | none => .segfault

def grown (p : Proc) (i : ℤ) : Proc :=
  p.setSlot i { p.slot i with length := wrap ((p.slot i).length + PGSIZE) }

def handle_page_fault (fs : Files) (r : Ram) (p : Space) (addr : ℕ) : Option (Ram × Space) :=
  match planFault p.proc addr with
  | .segfault => some (r, p.kill)
  | .ignore => some (r, p)
  | .store i => faultIn fs r p i addr
  | .grow i => faultIn fs r { p with proc := grown p.proc i } i addr

/-- The call `copy_single_mmap` makes for a shared page the parent does not have yet. -/
def copyCall (p : Proc) (i : ℤ) (start : ℕ) : StoreCall :=
  let m := p.slot i
  let remaining_length := signed (wrap (m.length - m.stored_length))
  { addr := start
    length := if PGSIZE > remaining_length then remaining_length else PGSIZE
    flags := m.flags
    prot := m.prot
    f := m.f
    offset := m.offset }

def parentPage (fs : Files) (r : Ram) (parent : Space) (i : ℤ) (start : ℕ) :
    Option (Ram × Space × Bool) :=
  if has (parent.proc.slot i).flags MAP_SHARED ∧ get_physical_page parent.proc start = 0 then
    let c := copyCall parent.proc i start
    (mmap_store_data fs r parent c).map fun (r, p, ok) =>
      (r, if ok then
        p.setSlot i { p.proc.slot i with
          stored_length := (p.proc.slot i).stored_length + c.length }
      else p, ok)
  else some (r, parent, true)

/-- `memmove` of a whole page. -/
def copyFill (source : ℕ) (r : Ram) (frame : ℕ) : Option Ram :=
  some { r with mem := storeBytes r.mem (frame * PGSIZE) (loadBytes r.mem (source * PGSIZE) PGSIZE) }

def childPage (r : Ram) (parent child : Space) (shared : Bool) (prot : BitVec 32) (start : ℕ) :
    Option (Ram × Space × Bool) :=
  let pa := get_physical_page parent.proc start
  if shared then
    let (a, m) := r.memory.pop
    if a.mapped then
      (mapPage child (start / PGSIZE) pa prot).map fun c => ({ r with memory := m }, c, true)
    else some ({ r with memory := m }, child, false)
  else if pa = 0 then some (r, child, true)
  else mapFresh (copyFill pa) r child (start / PGSIZE) prot

def copyPages (fs : Files) (i : ℤ) (shared : Bool) (prot : BitVec 32) :
    ℕ → ℕ → Ram → Space → Space → Option (Ram × Space × Space × Bool)
  | 0, _, r, parent, child => some (r, parent, child, true)
  | n + 1, start, r, parent, child =>
    match parentPage fs r parent i start with
    | none => none
    | some (r, parent, false) => some (r, parent, child, false)
    | some (r, parent, true) =>
      match childPage r parent child shared prot start with
      | none => none
      | some (r, child, false) => some (r, parent, child, false)
      | some (r, child, true) =>
        copyPages fs i shared prot n (wrap (start + PGSIZE)) r parent child

def copy_single_mmap (fs : Files) (r : Ram) (parent child : Space) (i : ℤ) :
    Option (Ram × Space × Space × Bool) :=
  let m := parent.proc.slot i
  let shared := has m.flags MAP_SHARED
  let pages := (wrap (m.addr + m.length) - m.addr + 4095) / 4096
  (copyPages fs i shared m.prot pages m.addr r parent child).map fun (r, parent, child, ok) =>
    if ok then
      let c := { child.proc.slot i with toMapping := (parent.proc.slot i).toMapping }
      (r, parent, child.setSlot i (if shared then { c with ref := 1 } else c), true)
    else (r, parent, child, false)

def copyAll (fs : Files) : ℕ → ℕ → Ram → Space → Space → Option (Ram × Space × Space × Bool)
  | 0, _, r, parent, child => some (r, parent, child, true)
  | n + 1, i, r, parent, child =>
    match copy_single_mmap fs r parent child i with
    | none => none
    | some (r, parent, child, false) => some (r, parent, child, false)
    | some (r, parent, child, true) => copyAll fs n (i + 1) r parent child

def copy_maps (fs : Files) (r : Ram) (parent child : Space) :
    Option (Ram × Space × Space × Bool) :=
  (copyAll fs parent.proc.total_mmaps.toNat 0 r parent child).map fun (r, parent, child, ok) =>
    (r, parent, if ok then
      { child with proc := { child.proc with total_mmaps := parent.proc.total_mmaps } }
    else child, ok)

/-- The byte a present page holds. -/
def byteAt (r : Ram) (p : Space) (addr : ℕ) : Option UInt8 :=
  (p.proc.pgdir (addr / PGSIZE)).map fun frame => r.mem (frame * PGSIZE + addr % PGSIZE)

end MmapMemory
