import OsProjects.ByteMemory
import OsProjects.Runs
import OsProjects.Word32
import Mathlib.Data.Fin.Basic
import Mathlib.Data.List.FinRange
import Mathlib.Logic.Function.Basic

/-! # The page cache and the file writes that update it

`pagecache.c`, `filewrite` and the byte-array reading of `readi` and `writei`. Calls run
one after another; a call that needs a sleep lock nobody will release does not return.
-/
namespace PageCache

open ByteMemory Word32

abbrev PGSIZE : ℕ := 4096
abbrev NPAGECACHE : ℕ := 30

/-- `MAXFILE * BSIZE`. -/
abbrev MAXSIZE : ℕ := 71680

/-- The most `filewrite` hands to one `writei`. -/
abbrev MAXCHUNK : ℕ := 1536

abbrev Slot := Fin NPAGECACHE

structure Inode where
  dev : ℕ
  inum : ℕ
  deriving DecidableEq, Repr

structure CachedPage where
  dev : ℕ
  inode_number : ℕ
  offset : ℤ
  locked : Bool
  deriving DecidableEq, Repr

/-- The frames `pagecacheinit` obtained from `kalloc`, all different. -/
structure Frames where
  base : Slot → ℕ
  apart : ∀ i j, i ≠ j → base i + PGSIZE ≤ base j ∨ base j + PGSIZE ≤ base i

/-- `escaped` records that `updatePage` has written behind the end of a page. -/
structure State where
  mem : Mem
  pages : Slot → CachedPage
  totalCount : Slot
  data : Inode → List UInt8
  escaped : Bool

def State.setPage (s : State) (i : Slot) (p : CachedPage) : State :=
  { s with pages := Function.update s.pages i p }

def State.setData (s : State) (ip : Inode) (d : List UInt8) : State :=
  { s with data := Function.update s.data ip d }

def readi (d : List UInt8) (off n : ℕ) : Option (List UInt8) :=
  if off > d.length ∨ (off + n) % 4294967296 < off then none
  else some ((d.drop off).take n)

def writei (d : List UInt8) (off : ℕ) (src : List UInt8) : Option (List UInt8) :=
  if off > d.length ∨ (off + src.length) % 4294967296 < off then none
  else if (off + src.length) % 4294967296 > MAXSIZE then none
  else some (splice d off src)

def Matches (p : CachedPage) (ip : Inode) (offset : ℤ) : Bool :=
  p.inode_number = ip.inum ∧ p.offset = offset ∧ p.dev = ip.dev

def findPage (s : State) (ip : Inode) (offset : ℤ) : Option Slot :=
  (List.finRange NPAGECACHE).find? fun i => Matches (s.pages i) ip offset

def updatePage (F : Frames) (s : State) (ip : Inode) (offset : ℕ) (src : List UInt8) :
    Option State :=
  match findPage s ip ((offset - offset % PGSIZE : ℕ) : ℤ) with
  | none => some s
  | some i =>
    if (s.pages i).locked then none
    else some { s with
      mem := storeBytes s.mem (F.base i + offset % PGSIZE) src
      escaped := s.escaped || decide (PGSIZE < offset % PGSIZE + src.length) }

/-- The loop of `filewrite`; the file offset moves with every chunk. -/
def writeLoop (F : Frames) (ip : Inode) : ℕ → ℕ → List UInt8 → State → Option (State × ℕ × Bool)
  | 0, off, src, s => some (s, off, src.isEmpty)
  | fuel + 1, off, src, s =>
    if src.isEmpty then some (s, off, true)
    else
      let chunk := src.take MAXCHUNK
      match writei (s.data ip) off chunk with
      | none => some (s, off, false)
      | some d =>
        match updatePage F (s.setData ip d) ip off chunk with
        | none => none
        | some s => writeLoop F ip fuel (off + chunk.length) (src.drop MAXCHUNK) s

/-- The new file offset and the return value come with the state. -/
def filewrite (F : Frames) (s : State) (ip : Inode) (writable : Bool) (off : ℕ)
    (src : List UInt8) : Option (State × ℕ × ℤ) :=
  if writable then
    (writeLoop F ip src.length off src s).map fun (s, off, all) =>
      (s, off, if all then (src.length : ℤ) else -1)
  else some (s, off, -1)

/-- `offset - offset % PGSIZE` on a C int. -/
def pageOffset (offset : BitVec 32) : ℤ := offset.toInt - offset.toInt.tmod PGSIZE

/-- The victim's page is cleared before it is known whether the read succeeds, and on a
failed read it keeps both its old tag and its lock. -/
def getPage (F : Frames) (s : State) (ip : Inode) (offset : BitVec 32) :
    Option (State × Option Slot) :=
  match findPage s ip (pageOffset offset) with
  | some i =>
    if (s.pages i).locked then none
    else some (s.setPage i { s.pages i with locked := true }, some i)
  | none =>
    let v := s.totalCount
    if (s.pages v).locked then none
    else
      let s := { s with
        totalCount := v + 1
        mem := storeBytes s.mem (F.base v) (List.replicate PGSIZE 0) }
      match readi (s.data ip) (wrap (pageOffset offset)) PGSIZE with
      | none => some (s.setPage v { s.pages v with locked := true }, none)
      | some bs =>
        some ({ s with mem := storeBytes s.mem (F.base v) bs }.setPage v
          ⟨ip.dev, ip.inum, pageOffset offset, true⟩, some v)

def releasesleep (s : State) (i : Slot) : State :=
  s.setPage i { s.pages i with locked := false }

/-- The bytes that reach the caller's buffer come with the state. -/
def copyPage (F : Frames) (s : State) (ip : Inode) (offset : BitVec 32)
    (size dest_offset : ℕ) : Option (State × List UInt8) :=
  match getPage F s ip offset with
  | none => none
  | some (s, none) => some (s, [])
  | some (s, some i) =>
    some (releasesleep s i, loadBytes s.mem (F.base i + dest_offset) size)

/-- `reuse` is the removal of a file, `itrunc`, and a new file with the same number. -/
inductive Call where
  | filewrite (ip : Inode) (writable : Bool) (off : ℕ) (src : List UInt8)
  | getPage (ip : Inode) (offset : BitVec 32)
  | releasesleep (i : Slot)
  | copyPage (ip : Inode) (offset : BitVec 32) (size dest_offset : ℕ)
  | reuse (ip : Inode)
  deriving DecidableEq, Repr

def next (F : Frames) (s : State) : Call → Option State
  | .filewrite ip writable off src => (filewrite F s ip writable off src).map (·.1)
  | .getPage ip offset => (getPage F s ip offset).map (·.1)
  | .releasesleep i => some (releasesleep s i)
  | .copyPage ip offset size dest_offset => (copyPage F s ip offset size dest_offset).map (·.1)
  | .reuse ip => some (s.setData ip [])

abbrev run (F : Frames) (s : State) (cs : List Call) : Option State := Runs.run (next F) s cs

/-- After `pagecacheinit`, with any files on disk. -/
def initial (mem : Mem) (data : Inode → List UInt8) : State :=
  ⟨mem, fun _ => ⟨0, 0, 0, false⟩, 0, data, false⟩

end PageCache
