import OsProjects.Word32
import Mathlib.Logic.Function.Basic

/-! # The mmap region table

`struct mmp`, the table part of `struct proc` and the functions of `sys_mmap.c` that
search, fill and empty it. Indices are C ints: the word behind `mmaps[31]` is
`total_mmaps` itself, so slot 32 reads and writes that counter.
-/
namespace MmapTable

open Word32

abbrev PGSIZE : ℕ := 4096
abbrev KERNBASE : ℕ := 0x80000000
abbrev MMAPBASE : ℕ := 0x60000000

def MAP_PRIVATE : BitVec 32 := 0x0001
def MAP_SHARED : BitVec 32 := 0x0002
def MAP_ANONYMOUS : BitVec 32 := 0x0004
def MAP_FIXED : BitVec 32 := 0x0008
def MAP_GROWSUP : BitVec 32 := 0x0010
def PROT_WRITE : BitVec 32 := 0x2
def PROT_NONE : BitVec 32 := 0x8
def PTE_U : BitVec 32 := 0x4

def has (flags bit : BitVec 32) : Bool := flags &&& bit ≠ 0

/-- The six fields that `mmp_cpy` copies. -/
structure Mapping where
  addr : ℕ
  length : ℕ
  flags : BitVec 32
  prot : BitVec 32
  f : Option ℕ
  offset : BitVec 32
  deriving DecidableEq, Repr

structure Mmp extends Mapping where
  ref : ℤ
  stored_length : ℤ
  deriving DecidableEq, Repr

def Mmp.zero : Mmp := ⟨⟨0, 0, 0, 0, none, 0⟩, 0, 0⟩

structure File where
  ptr : ℕ
  readable : Bool
  writable : Bool
  deriving DecidableEq, Repr

/-- `mmaps` also covers the words around the array; `pgdir` maps a user page number to
the frame of its present entry. -/
structure Proc where
  mmaps : ℤ → Mmp
  total_mmaps : ℤ
  pgdir : ℕ → Option ℕ
  killed : Bool

def Proc.slot (p : Proc) (k : ℤ) : Mmp :=
  if k = 32 then { p.mmaps 32 with addr := wrap p.total_mmaps } else p.mmaps k

def Proc.setSlot (p : Proc) (k : ℤ) (m : Mmp) : Proc :=
  if k = 32 then { p with mmaps := Function.update p.mmaps 32 m, total_mmaps := signed m.addr }
  else { p with mmaps := Function.update p.mmaps k m }

@[simp] theorem slot_setSlot_self {p : Proc} {k : ℤ} (m : Mmp) (h : k ≠ 32) :
    (p.setSlot k m).slot k = m := by
  simp [Proc.setSlot, Proc.slot, h]

theorem slot_setSlot_of_ne {p : Proc} {k j : ℤ} (m : Mmp) (hk : k ≠ 32) (h : j ≠ k) :
    (p.setSlot k m).slot j = p.slot j := by
  simp [Proc.setSlot, Proc.slot, hk, h, Ne.symm hk]

@[simp] theorem setSlot_total {p : Proc} {k : ℤ} (m : Mmp) (h : k ≠ 32) :
    (p.setSlot k m).total_mmaps = p.total_mmaps := by
  simp [Proc.setSlot, h]

def mmp_cpy (p : Proc) (dst src : ℤ) : Proc :=
  p.setSlot dst { p.slot dst with toMapping := (p.slot src).toMapping }

/-- `while (j > i + 1)` of `mmp_insert`, the fuel being the exact number of rounds. -/
def shiftRight (stop : ℤ) : ℕ → ℤ → Proc → Proc
  | 0, _, p => p
  | n + 1, j, p => if j > stop then shiftRight stop n (j - 1) (mmp_cpy p j (j - 1)) else p

/-- The right shift is done before the bound is tested, as in the source. -/
def mmp_insert (p : Proc) (length : BitVec 32) (i : ℤ) (mmapaddr : ℕ) : Proc × ℤ :=
  let p := shiftRight (i + 1) (p.total_mmaps - (i + 1)).toNat p.total_mmaps p
  if pgRoundUp (wrap (mmapaddr + length.toNat)) ≥ KERNBASE then (p, -1)
  else
    (p.setSlot (i + 1) { p.slot (i + 1) with addr := mmapaddr, length := length.toNat }, i + 1)

/-- The gap search of `mmp_check` between consecutive entries. -/
def checkGap (p : Proc) (addr : ℕ) (length : BitVec 32) (last : ℤ) : ℕ → ℤ → Option ℤ
  | 0, _ => none
  | n + 1, i =>
    if i < last then
      let next_mmap_start := pgRoundUp (p.slot (i + 1)).addr
      let current_mmap_end := pgRoundUp (wrap ((p.slot i).addr + (p.slot i).length))
      if addr ≥ current_mmap_end ∧ next_mmap_start ≥ wrap (addr + length.toNat) then some i
      else checkGap p addr length last n (i + 1)
    else none

def mmp_check (p : Proc) (addr : ℕ) (length : BitVec 32) : Proc × ℤ :=
  let last := p.total_mmaps - 1
  if addr > pgRoundUp (wrap ((p.slot last).addr + (p.slot last).length)) then
    mmp_insert p length last addr
  else
    match checkGap p addr length last last.toNat 0 with
    | some i => mmp_insert p length i addr
    | none => (p, -1)

/-- The first-fit search of `mmp_any`; it stops on the count or on a zero address. -/
def anyGap (p : Proc) (length : BitVec 32) : ℕ → ℤ → ℤ
  | 0, i => i
  | n + 1, i =>
    if i < p.total_mmaps ∧ (p.slot (i + 1)).addr ≠ 0 then
      let start_addr := pgRoundUp (wrap ((p.slot i).addr + (p.slot i).length))
      let end_addr := pgRoundUp (p.slot (i + 1)).addr
      let margin := if has (p.slot i).flags MAP_GROWSUP then PGSIZE else 0
      if wrap (end_addr - start_addr) > wrap (length.toNat + margin) then i
      else anyGap p length n (i + 1)
    else i

def mmp_any (p : Proc) (length : BitVec 32) : Proc × ℤ :=
  if p.total_mmaps = 0 then
    if pgRoundUp (wrap (MMAPBASE + length.toNat)) ≥ KERNBASE then (p, -1)
    else
      (p.setSlot 0 { p.slot 0 with addr := pgRoundUp MMAPBASE, length := length.toNat }, 0)
  else if wrap ((p.slot 0).addr - MMAPBASE) > length.toNat then mmp_insert p length (-1) MMAPBASE
  else
    let i := anyGap p length p.total_mmaps.toNat 0
    let mmapaddr := pgRoundUp (wrap ((p.slot i).addr + (p.slot i).length))
    if wrap (mmapaddr + length.toNat) > KERNBASE then (p, -1)
    else mmp_insert p length i mmapaddr

/-- The argument test at the top of `my_mmap`. -/
def badArgs (f : File) (length offset flags protection : BitVec 32) : Bool :=
  (!has flags MAP_PRIVATE && !has flags MAP_SHARED) || length.toInt ≤ 0 || offset.toInt < 0 ||
    (!has flags MAP_ANONYMOUS && !f.readable) ||
    (has flags MAP_SHARED && has protection PROT_WRITE && !f.writable)

/-- `none` is the return value `(void *)-1`. -/
def my_mmap (p : Proc) (addr : BitVec 32) (f : File)
    (length offset flags protection : BitVec 32) : Proc × Option ℕ :=
  if badArgs f length offset flags protection then (p, none)
  else if p.total_mmaps = 32 then (p, none)
  else if addr ≠ 0 ∧ (addr.toInt < MMAPBASE ∨
      pgRoundUp (wrap (pgRoundUp addr.toNat + length.toNat)) > KERNBASE ∨
      addr.toNat % PGSIZE ≠ 0) then (p, none)
  else
    let (p, i) :=
      if has flags MAP_FIXED then
        if addr ≠ 0 then mmp_check p addr.toNat length else (p, -1)
      else if addr ≠ 0 then mmp_check p addr.toNat length
      else mmp_any p length
    if i = -1 then (p, none)
    else
      let m := p.slot i
      let a := if has flags MAP_FIXED then addr.toNat else m.addr
      let p := p.setSlot i { m with
        flags := flags
        prot := if protection = PROT_NONE then 0 else PTE_U ||| protection
        offset := offset
        f := some f.ptr
        addr := a }
      ({ p with total_mmaps := p.total_mmaps + 1 }, some a)

/-- The free list; a frame freed while it is on the list is recorded in `doubleFree`. -/
structure Frames where
  free : ℕ → Bool
  doubleFree : Bool

def kfree (k : Frames) (frame : ℕ) : Frames :=
  ⟨Function.update k.free frame true, k.doubleFree || k.free frame⟩

/-- The frame number behind a user address, 0 when there is no entry. -/
def get_physical_page (p : Proc) (addr : ℕ) : ℕ := (p.pgdir (addr / PGSIZE)).getD 0

/-- The release loop of `my_munmap` over `n` pages. -/
def releasePages (addr : BitVec 32) : ℕ → ℕ → Frames → Proc → Frames × Proc
  | 0, _, k, p => (k, p)
  | n + 1, currlength, k, p =>
    let a := wrap (addr.toNat + currlength)
    let pa := get_physical_page p a
    if pa = 0 then releasePages addr n (currlength + PGSIZE) k p
    else
      releasePages addr n (currlength + PGSIZE) (kfree k pa)
        { p with pgdir := Function.update p.pgdir (a / PGSIZE) none }

/-- The lookup loop of `my_munmap`; 32 when no slot has the address. -/
def findSlot (p : Proc) (mainaddr : ℕ) : ℕ → ℤ → ℤ
  | 0, i => i
  | n + 1, i => if (p.slot i).addr = mainaddr then i else findSlot p mainaddr n (i + 1)

/-- The left shift after a removal; the fuel bounds the number of slots behind `i`. -/
def shiftLeft : ℕ → ℤ → Proc → Proc
  | 0, _, p => p
  | n + 1, i, p =>
    if i < 32 ∧ (p.slot (i + 1)).addr ≠ 0 then shiftLeft n (i + 1) (mmp_cpy p i (i + 1)) else p

def clearSlot (p : Proc) (i : ℤ) : Proc :=
  p.setSlot i { Mmp.zero with ref := (p.slot i).ref }

def writesBack (m : Mapping) : Bool :=
  has m.flags MAP_SHARED && !has m.flags MAP_ANONYMOUS && has m.prot PROT_WRITE

/-- `written` is the answer of `filewrite`, consulted only for a writable shared file mapping. -/
def my_munmap (k : Frames) (p : Proc) (addr length : BitVec 32) (written : ℤ) :
    Frames × Proc × ℤ :=
  let mainaddr := pgRoundUp addr.toNat
  let unmapping_length := pgRoundUp length.toNat
  let i := findSlot p mainaddr 32 0
  let total_length := signed (p.slot i).length
  if i = 32 ∨ total_length = 0 then (k, p, -1)
  else if writesBack (p.slot i).toMapping ∧ written < 0 then (k, p, -1)
  else
    let main_map_length := min (signed unmapping_length) total_length
    let pages := ((main_map_length + 4095) / 4096).toNat
    let (k, p) := releasePages addr pages 0 k p
    if (p.slot i).length ≤ unmapping_length then
      let p := shiftLeft 32 i (clearSlot p i)
      (k, { p with total_mmaps := p.total_mmaps - 1 }, 0)
    else
      let m := p.slot i
      (k, p.setSlot i { m with addr := wrap (m.addr + unmapping_length),
                               length := wrap (m.length - unmapping_length) }, 0)

end MmapTable
