import OsProjects.MmapResidue
import Mathlib.Data.Finset.Card
import Mathlib.Data.Fintype.Basic

/-! # File references and pages held by `sys_mmap`

The descriptors and reference counts around the region table of one process. `sys_mmap`
takes a page for a `struct file` it does not need and a reference to the file before it
looks at an argument, and neither `my_mmap` on a failure nor `my_munmap` gives them back.
-/
namespace FileRefs

open Word32 MmapTable MmapPlacement Runs
open MmapGuards hiding Session Call next Harmless Invariant

abbrev NFILE : ℕ := 100
abbrev NOFILE : ℕ := 16

/-- Inode, offset and type play no part here. -/
structure OpenFile where
  ref : ℕ
  readable : Bool
  writable : Bool
  deriving DecidableEq, Repr

/-- A descriptor is the index of its entry in `ftable`. -/
structure State where
  proc : Proc
  frames : Frames
  files : ℕ → OpenFile
  ofile : Fin NOFILE → Option ℕ

/-- Pointers to a `struct file`: 0 is the null pointer, then the entries of `ftable`, then
the pages. -/
def fileAddr (n : ℕ) : ℕ := n + 1

def pageAddr (frame : ℕ) : ℕ := NFILE + 1 + frame

/-- `fetched` tells whether the arguments can be read from the user stack; `low` is what the
process has at addresses 8 and 9, where a null `f` has its `readable` and `writable`. -/
structure MmapArgs where
  fetched : Bool
  addr : BitVec 32
  size : BitVec 32
  protection : BitVec 32
  flags : BitVec 32
  offset : BitVec 32
  fd : BitVec 32
  low : Bool × Bool
  deriving DecidableEq, Repr

def argfd (s : State) (fd : BitVec 32) : Option (Fin NOFILE × ℕ) :=
  if h : fd.toNat < NOFILE then (s.ofile ⟨fd.toNat, h⟩).map fun n => (⟨fd.toNat, h⟩, n) else none

def State.setRef (s : State) (n ref : ℕ) : State :=
  { s with files := Function.update s.files n ⟨ref, (s.files n).readable, (s.files n).writable⟩ }

/-- `none` is `panic("filedup")`. -/
def filedup (s : State) (n : ℕ) : Option State :=
  if (s.files n).ref < 1 then none else some (s.setRef n ((s.files n).ref + 1))

/-- `none` is `panic("fileclose")`. -/
def fileclose (s : State) (n : ℕ) : Option State :=
  if (s.files n).ref < 1 then none else some (s.setRef n ((s.files n).ref - 1))

def fdalloc (s : State) : Option (Fin NOFILE) := (List.finRange NOFILE).find? fun i => s.ofile i = none

def State.setFd (s : State) (i : Fin NOFILE) (n : Option ℕ) : State :=
  { s with ofile := Function.update s.ofile i n }

def sys_dup (s : State) (fd : BitVec 32) : Option State :=
  match argfd s fd with
  | none => some s
  | some (_, n) =>
    match fdalloc s with
    | none => some s
    | some i => filedup (s.setFd i (some n)) n

def sys_close (s : State) (fd : BitVec 32) : Option State :=
  match argfd s fd with
  | none => some s
  | some (i, n) => fileclose (s.setFd i none) n

def mapFile (s : State) (f : File) (a : MmapArgs) : State × Option ℕ :=
  let (p, r) := my_mmap s.proc a.addr f a.size a.offset a.flags a.protection
  ({ s with proc := p }, r)

/-- The answer of `filewrite` comes with the call, as in `my_munmap`. -/
def sys_munmap (s : State) (addr size : BitVec 32) (written : ℤ) : State :=
  let (k, p, _) := my_munmap s.frames s.proc addr size written
  { s with proc := p, frames := k }

section Pages

variable (N : ℕ)

/-- The machine has page frames 0 to `N - 1`. -/
def freePages (k : Frames) : ℕ := ((Finset.range N).filter fun f => k.free f = true).card

/-- Which free page it is does not matter. -/
def kalloc (k : Frames) : Option (ℕ × Frames) :=
  ((List.range N).find? k.free).map fun f =>
    (f, { k with free := Function.update k.free f false })

/-- A page from the free list is filled with ones, so it reads as a readable and writable
file. -/
def sys_mmap (s : State) (a : MmapArgs) : Option (State × Option ℕ) :=
  let (f, s) : File × State := match kalloc N s.frames with
    | some (page, k) => (⟨pageAddr page, true, true⟩, { s with frames := k })
    | none => (⟨0, a.low.1, a.low.2⟩, s)
  if a.fetched = false then some (s, none)
  else
    match argfd s a.fd with
    | none => if has a.flags MAP_ANONYMOUS then some (mapFile s f a) else some (s, none)
    | some (_, n) => (filedup s n).map fun s =>
        mapFile s ⟨fileAddr n, (s.files n).readable, (s.files n).writable⟩ a

inductive Call where
  | mmap (a : MmapArgs)
  | munmap (k : ℕ) (written : ℤ)
  | dup (fd : BitVec 32)
  | close (fd : BitVec 32)
  deriving DecidableEq, Repr

/-- `munmap k` unmaps the whole of mapping `k`. -/
def next (s : State) : Call → Option State
  | .mmap a => (sys_mmap N s a).map (·.1)
  | .munmap k written =>
    match (live s.proc)[k]? with
    | none => some s
    | some m => some (sys_munmap s (BitVec.ofNat 32 m.addr) (BitVec.ofNat 32 m.length) written)
  | .dup fd => sys_dup s fd
  | .close fd => sys_close s fd

def descriptors (s : State) (n : ℕ) : ℕ := (Finset.univ.filter fun i => s.ofile i = some n).card

def mappings (s : State) (n : ℕ) : ℕ := (live s.proc).countP fun m => m.f = some (fileAddr n)

def Balanced (s : State) : Prop :=
  ∀ n, n < NFILE → 0 < (s.files n).ref → (s.files n).ref = descriptors s n + mappings s n

/-- The same references and as many free pages. -/
def Same (s s' : State) : Prop :=
  (∀ n, n < NFILE → (s'.files n).ref = (s.files n).ref) ∧
    freePages N s'.frames = freePages N s.frames

/-- The counts are right after the call; a failed `sys_mmap` leaves references and pages as
they were, and so does a successful one with the `sys_munmap` of its range. -/
def Right (s : State) : Call → Prop
  | .mmap a => ∀ s' r, sys_mmap N s a = some (s', r) → Balanced s' ∧
      match r with
      | none => Same N s s'
      | some addr => ∀ written, Same N s (sys_munmap s' (BitVec.ofNat 32 addr) a.size written)
  | c => ∀ s', next N s c = some s' → Balanced s'

/-- `sys_mmap` is called when there is no page to take and no file to refer to, and the
table has room for its entry. -/
def Harmless (s : State) : Call → Prop
  | .mmap a => freePages N s.frames = 0 ∧ (a.fetched = true → argfd s a.fd = none) ∧
      ¬ Overrun s.proc a.addr
  | _ => True

end Pages

/-- No slot with the address of a mapping refers to an entry of `ftable`. -/
def Foreign (p : Proc) : Prop :=
  ∀ k : ℕ, k < 32 → 4096 ≤ (p.slot k).addr → ∀ n, (p.slot k).f ≠ some (fileAddr n)

def Bare (p : Proc) : Prop := ∀ page, MMAPBASE ≤ page * PGSIZE → p.pgdir page = none

structure Invariant (s : State) (l : List Mapping) : Prop where
  table : MmapResidue.Invariant s.proc l
  bare : Bare s.proc
  foreign : Foreign s.proc
  refs : ∀ n, n < NFILE → (s.files n).ref = descriptors s n

section Table

variable {p : Proc} {l : List Mapping} {k : Frames} {addr : BitVec 32}

theorem releasePages_none {n c : ℕ}
    (h : ∀ t, t < n → p.pgdir (wrap (addr.toNat + (c + PGSIZE * t : ℕ)) / PGSIZE) = none) :
    releasePages addr n c k p = (k, p) := by
  induction n generalizing c with
  | zero => rfl
  | succ n ih =>
    have hfirst : get_physical_page p (wrap (addr.toNat + c)) = 0 := by
      have hzero := h 0 (by omega)
      rw [Nat.mul_zero, Nat.add_zero] at hzero
      rw [get_physical_page, hzero]
      rfl
    rw [releasePages, if_pos hfirst]
    refine ih fun t ht => ?_
    have hrest := h (t + 1) (by omega)
    rwa [show c + PGSIZE * (t + 1) = c + PGSIZE + PGSIZE * t by ring] at hrest

/-- A slot with the address of a mapping holds one. -/
theorem slot_region (h : MmapResidue.Invariant p l) {j : ℕ} (hj : j < 32)
    (ha : 4096 ≤ (p.slot j).addr) : Region (p.slot j).toMapping := by
  rcases Nat.lt_or_ge j l.length with hlt | hge
  · rw [h.kept.entries j hlt]
    exact h.arranged.region _ (List.getElem_mem hlt)
  · exact (h.kept.rest j hge hj).resolve_left (Nat.not_lt.mpr ha)

/-- The pages that `my_munmap` visits lie in the mmap area. -/
theorem releaseCount_le (h : MmapResidue.Invariant p l) (hlo : MMAPBASE ≤ addr.toNat)
    (hal : addr.toNat % 4096 = 0) (length : BitVec 32) (written : ℤ) :
    addr.toNat + 4096 * MmapSafety.releaseCount p addr length written ≤ 4294967296 := by
  obtain ⟨j, hj, -, hj32, -, hat⟩ := MmapTracking.findSlot_spec (p := p) (a := addr.toNat)
    (n := 32) (i := 0) (by omega)
  have hj' : findSlot p addr.toNat 32 0 = (j : ℤ) := by exact_mod_cast hj
  have haddr := addr.isLt
  unfold MmapSafety.releaseCount
  dsimp only
  rw [pgRoundUp_of_aligned hal addr.isLt, hj']
  split_ifs with hmiss hback
  · omega
  · omega
  · have hlt : j < 32 := by omega
    have hslot := hat hlt
    have hregion := slot_region h hlt (by rw [hslot]; exact le_trans (by decide) hlo)
    obtain ⟨hbase, -, -, htop⟩ := hregion.bounds
    rw [signed_of_lt (by omega : (p.slot j).length < 2147483648)]
    rw [hslot] at htop
    clear hlo hbase
    omega

/-- With no page in the mmap area there is nothing for `my_munmap` to free. -/
theorem my_munmap_bare (h : MmapResidue.Invariant p l) (hb : Bare p)
    (hlo : MMAPBASE ≤ addr.toNat) (hal : addr.toNat % 4096 = 0) (length : BitVec 32)
    (written : ℤ) :
    (my_munmap k p addr length written).1 = k ∧
      (my_munmap k p addr length written).2.1.pgdir = p.pgdir := by
  obtain ⟨hk, hp⟩ := MmapSafety.my_munmap_effect k p addr length written
  have hbound := releaseCount_le h hlo hal length written
  generalize MmapSafety.releaseCount p addr length written = n at hk hp hbound
  have hnone := @releasePages_none p k addr n 0
    fun t ht => by
      refine hb _ ?_
      simp only [MMAPBASE, PGSIZE] at hlo ⊢
      have hw : wrap ((addr.toNat : ℤ) + ((0 + 4096 * t : ℕ) : ℤ)) =
          addr.toNat + (0 + 4096 * t) := wrap_add_of_lt (by omega)
      rw [hw]
      omega
  rw [hk, hp, hnone]
  exact ⟨rfl, rfl⟩

theorem mmap_foreign (h : MmapResidue.Invariant p l) (hf : Foreign p) (hover : ¬ Overrun p addr)
    {f : File} (hptr : f.ptr = 0) (length offset flags protection : BitVec 32) :
    Foreign (my_mmap p addr f length offset flags protection).1 := by
  have hnew {m : Mmp} (hm : m.toMapping =
      MmapTracking.newMapping f m.addr length offset flags protection) (n : ℕ) :
      m.f ≠ some (fileAddr n) := by
    have hfile : m.f = some f.ptr := congrArg Mapping.f hm
    rw [hfile, hptr]
    simp [fileAddr]
  have hout := my_mmap_outcome h.kept h.arranged h.room hover f length offset flags protection
  generalize my_mmap p addr f length offset flags protection = r at hout
  cases hout with
  | refused => exact hf
  | placed p' pos m opened room mapping fits place =>
    intro k hk
    rw [MmapTracking.filled_slot (by have := fits.inside; omega) m hk]
    split_ifs with hkp
    · exact fun _ => hnew mapping
    · rcases Nat.lt_or_gt_of_ne hkp with hlt | hgt
      · rw [opened.low k hlt]
        exact hf k hk
      · rcases Nat.lt_or_ge l.length k with hout | hin
        · rw [opened.rest k hout hk]
          exact hf k hk
        · rw [opened.high k hgt hin]
          exact hf (k - 1) (by omega)
  | promoted m old hint room mapping region =>
    intro k hk
    rw [MmapTracking.filled_slot room m hk]
    split_ifs
    · exact fun _ => hnew mapping
    · exact hf k hk

theorem removed_foreign {j : ℕ} (hk : Kept p l) (hy : Arranged l) (hroom : l.length ≤ 32)
    (hj : j < l.length) (hf : Foreign p) : Foreign (MmapResidue.removed p j) := by
  have htot := hk.total
  obtain ⟨e, -, -, -, hslots⟩ := MmapResidue.removed_slots hk hy hroom hj
  intro t ht
  rw [hslots t ht]
  split_ifs with hin htj
  · rcases Nat.lt_or_ge (t + 1) 32 with hlt | hge
    · exact hf (t + 1) hlt
    · -- the counter behind the array is too small for an address
      intro hbig
      obtain rfl : t = 31 := by omega
      simp only [Proc.slot, htot, wrap] at hbig
      norm_num at hbig
      omega
  · exact fun hbig => absurd hbig (by decide)
  · exact hf t ht

theorem munmap_foreign {j : ℕ} {length : BitVec 32} (h : MmapResidue.Invariant p l)
    (hf : Foreign p) (hj : j < l.length) (hja : l[j].addr = addr.toNat)
    (hle : l[j].length ≤ pgRoundUp length.toNat) (hlen : pgRoundUp length.toNat < 2147483648)
    (written : ℤ) : Foreign (my_munmap k p addr length written).2.1 := by
  rcases MmapResidue.my_munmap_hit h.kept h.arranged h.room hj hja hlen (k := k) written with
    hsame | ⟨-, hgone⟩ | ⟨hlt, -⟩
  · rw [hsame]
    exact hf
  · rw [hgone]
    refine removed_foreign (MmapResidue.released_kept h.kept addr _ 0 k) h.arranged h.room hj ?_
    intro t ht
    obtain ⟨hmaps, htot⟩ := MmapTracking.releasePages_table addr ((l[j].length + 4095) / 4096) 0 k p
    rw [MmapTracking.slot_congr hmaps htot]
    exact hf t ht
  · omega

end Table

section Descriptors

variable {s : State} {i : Fin NOFILE} {n : ℕ}

theorem descriptors_open (h : s.ofile i = none) (m : ℕ) :
    descriptors (s.setFd i (some n)) m = descriptors s m + if m = n then 1 else 0 := by
  unfold descriptors State.setFd
  dsimp only
  split_ifs with hm
  · subst hm
    rw [← Finset.card_insert_of_notMem (s := Finset.univ.filter fun j => s.ofile j = some m)
      (a := i) (by simp [h])]
    congr 1
    ext j
    by_cases hj : j = i
    · simp [hj]
    · simp [hj]
  · rw [Nat.add_zero]
    congr 1
    ext j
    by_cases hj : j = i
    · simp [hj, h, Ne.symm hm]
    · simp [hj]

theorem descriptors_closed (h : s.ofile i = some n) (m : ℕ) :
    descriptors s m = descriptors (s.setFd i none) m + if m = n then 1 else 0 := by
  rw [← descriptors_open (n := n) (show (s.setFd i none).ofile i = none by simp [State.setFd])]
  simp [State.setFd, ← h]

theorem argfd_some {fd : BitVec 32} (h : argfd s fd = some (i, n)) : s.ofile i = some n := by
  unfold argfd at h
  split_ifs at h with hlt
  obtain ⟨m, hm, heq⟩ := Option.map_eq_some_iff.mp h
  cases heq
  exact hm

theorem fdalloc_some (h : fdalloc s = some i) : s.ofile i = none := by
  simpa using List.find?_some h

theorem setRef_refs {m ref : ℕ} : ((s.setRef n ref).files m).ref =
    if m = n then ref else (s.files m).ref := by
  unfold State.setRef
  split_ifs with hm
  · subst hm
    simp
  · simp [hm]

end Descriptors

section Steps

variable {s s' : State} {l : List Mapping}

theorem no_mappings (h : Invariant s l) (n : ℕ) : mappings s n = 0 := by
  refine List.countP_eq_zero.mpr fun m hm => ?_
  rw [live_eq h.table.kept] at hm
  obtain ⟨k, hk, rfl⟩ := List.getElem_of_mem hm
  have hroom := h.table.room
  have hbase := (h.table.arranged.bounds hk).1
  have hother := h.foreign k (by omega) (by rw [(h.table.kept.slot_addr hk).1]; omega) n
  rw [h.table.kept.entries k hk] at hother
  simpa using hother

theorem balanced (h : Invariant s l) : Balanced s := fun n hn _ => by
  rw [no_mappings h n, Nat.add_zero]
  exact h.refs n hn

theorem dup_invariant (h : Invariant s l) {fd : BitVec 32} (hs : sys_dup s fd = some s') :
    Invariant s' l := by
  unfold sys_dup at hs
  split at hs
  next =>
    cases hs
    exact h
  next j n hfd =>
    split at hs
    next =>
      cases hs
      exact h
    next i hi =>
      unfold filedup at hs
      split_ifs at hs
      cases hs
      refine ⟨h.table, h.bare, h.foreign, fun m hm => ?_⟩
      rw [setRef_refs]
      show _ = descriptors (s.setFd i (some n)) m
      rw [descriptors_open (fdalloc_some hi), ← h.refs m hm]
      split_ifs with hmn
      · subst hmn
        rfl
      · rfl

theorem close_invariant (h : Invariant s l) {fd : BitVec 32} (hs : sys_close s fd = some s') :
    Invariant s' l := by
  unfold sys_close at hs
  split at hs
  next =>
    cases hs
    exact h
  next i n hfd =>
    unfold fileclose at hs
    split_ifs at hs
    cases hs
    refine ⟨h.table, h.bare, h.foreign, fun m hm => ?_⟩
    have hold := h.refs m hm
    rw [descriptors_closed (argfd_some hfd)] at hold
    rw [setRef_refs]
    show _ = descriptors (s.setFd i none) m
    split_ifs at hold ⊢ with hmn
    · subst hmn
      show (s.files m).ref - 1 = _
      omega
    · exact hold

theorem munmap_invariant (h : Invariant s l) {k : ℕ} {m : Mapping} (hm : (live s.proc)[k]? = some m)
    (written : ℤ) : ∃ l', Invariant
      (sys_munmap s (BitVec.ofNat 32 m.addr) (BitVec.ofNat 32 m.length) written) l' := by
  rw [live_eq h.table.kept] at hm
  obtain ⟨hk, rfl⟩ := List.getElem?_eq_some_iff.mp hm
  obtain ⟨hbase, haligned, hlong, htop⟩ := h.table.arranged.bounds hk
  have haddr : (BitVec.ofNat 32 l[k].addr).toNat = l[k].addr :=
    Nat.mod_eq_of_lt (by clear hbase; omega)
  have hlength : (BitVec.ofNat 32 l[k].length).toNat = l[k].length :=
    Nat.mod_eq_of_lt (by clear hbase; omega)
  have hshort : l[k].length ≤ 536870912 := by omega
  have hround : l[k].length ≤ pgRoundUp l[k].length ∧ pgRoundUp l[k].length < 2147483648 := by
    clear hbase htop
    unfold pgRoundUp
    omega
  obtain ⟨l', hl'⟩ := @MmapResidue.munmap_invariant _ _ h.table s.frames
    (BitVec.ofNat 32 l[k].addr) (BitVec.ofNat 32 l[k].length) written fun _ => by
      rw [haddr, hlength, live_eq h.table.kept]
      exact ⟨⟨l[k], List.getElem_mem hk, rfl⟩, hround.2⟩
  refine ⟨l', hl', fun page hlo => ?_, ?_, h.refs⟩
  · have hpages := (my_munmap_bare (k := s.frames) h.table h.bare (by rw [haddr]; exact hbase)
      (by rw [haddr]; exact haligned) (BitVec.ofNat 32 l[k].length) written).2
    show (my_munmap _ _ _ _ _).2.1.pgdir page = none
    rw [hpages]
    exact h.bare page hlo
  · exact munmap_foreign h.table h.foreign hk haddr.symm (by rw [hlength]; exact hround.1)
      (by rw [hlength]; exact hround.2) written

variable {N : ℕ} {a : MmapArgs}

theorem kalloc_none {k : Frames} (h : freePages N k = 0) : kalloc N k = none := by
  rw [kalloc, Option.map_eq_none_iff, List.find?_eq_none]
  intro f hf hfree
  have hempty := Finset.card_eq_zero.mp h
  have hmem : f ∈ (Finset.range N).filter fun f => k.free f = true :=
    Finset.mem_filter.mpr ⟨Finset.mem_range.mpr (List.mem_range.mp hf), hfree⟩
  rw [hempty] at hmem
  exact absurd hmem (Finset.notMem_empty f)

/-- Without a page and without a file the call is refused at once or maps with a null
file. -/
theorem sys_mmap_harmless (hh : Harmless N s (.mmap a)) : sys_mmap N s a = some (s, none) ∨
    ∃ f : File, f.ptr = 0 ∧ sys_mmap N s a = some (mapFile s f a) := by
  obtain ⟨hpool, hfd, -⟩ := hh
  unfold sys_mmap
  rw [kalloc_none hpool]
  dsimp only
  by_cases hfetched : a.fetched = false
  · rw [if_pos hfetched]
    exact .inl rfl
  · rw [if_neg hfetched, hfd (by simpa using hfetched)]
    dsimp only
    split_ifs
    · exact .inr ⟨_, rfl, rfl⟩
    · exact .inl rfl

/-- The address of a new mapping is a page address in the mmap area. -/
theorem my_mmap_address {p p' : Proc} {addr : BitVec 32} {f : File}
    {length offset flags protection : BitVec 32} {x : ℕ} (h : MmapResidue.Invariant p l)
    (hover : ¬ Overrun p addr)
    (hr : my_mmap p addr f length offset flags protection = (p', some x)) :
    MMAPBASE ≤ x ∧ x % 4096 = 0 ∧ x < 4294967296 := by
  have hout := my_mmap_outcome h.kept h.arranged h.room hover f length offset flags protection
  rw [hr] at hout
  have hbounds {m : Mapping} (hm : Region m) : MMAPBASE ≤ m.addr ∧ m.addr % 4096 = 0 ∧
      m.addr < 4294967296 := by
    obtain ⟨hbase, haligned, -, htop⟩ := hm.bounds
    exact ⟨hbase, haligned, by clear hbase; omega⟩
  cases hout with
  | placed p' pos m opened room mapping fits place => exact hbounds (fits_region fits)
  | promoted m old hint room mapping region => exact hbounds region

theorem mapFile_invariant (h : Invariant s l) (hover : ¬ Overrun s.proc a.addr) {f : File}
    (hf : f.ptr = 0) : ∃ l', Invariant (mapFile s f a).1 l' := by
  obtain ⟨l', hl'⟩ := MmapResidue.mmap_invariant h.table hover f a.size a.offset a.flags a.protection
  refine ⟨l', hl', fun page hlo => ?_, ?_, h.refs⟩
  · show (my_mmap _ _ _ _ _ _ _).1.pgdir page = none
    rw [MmapSafety.kept_pgdir MmapSafety.my_mmap_kept]
    exact h.bare page hlo
  · exact mmap_foreign h.table h.foreign hover hf a.size a.offset a.flags a.protection

theorem step_invariant {c : Call} (h : ∃ l, Invariant s l) (hc : Harmless N s c)
    (hs : next N s c = some s') : ∃ l, Invariant s' l := by
  obtain ⟨l, h⟩ := h
  cases c with
  | mmap a =>
    obtain ⟨⟨u, r⟩, hu, rfl⟩ := Option.map_eq_some_iff.mp hs
    rcases sys_mmap_harmless hc with hsame | ⟨f, hf, hmap⟩
    · rw [hsame] at hu
      cases hu
      exact ⟨l, h⟩
    · rw [hmap] at hu
      have hinv := mapFile_invariant (a := a) h hc.2.2 hf
      rwa [Option.some.inj hu] at hinv
  | munmap k written =>
    unfold next at hs
    dsimp only at hs
    split at hs
    next =>
      cases hs
      exact ⟨l, h⟩
    next m hm =>
      cases hs
      exact munmap_invariant h hm written
  | dup fd => exact ⟨l, dup_invariant h hs⟩
  | close fd => exact ⟨l, close_invariant h hs⟩

/-- A mapping made without a page and without a file leaves nothing to give back. -/
theorem mapFile_same (h : Invariant s l) (hover : ¬ Overrun s.proc a.addr) {f : File}
    (hf : f.ptr = 0) {r : Option ℕ} (hm : mapFile s f a = (s', r)) :
    Same N s s' ∧ ∀ addr, r = some addr → ∀ written,
      Same N s (sys_munmap s' (BitVec.ofNat 32 addr) a.size written) := by
  obtain ⟨l', hinv⟩ := mapFile_invariant (a := a) h hover hf
  have hr : my_mmap s.proc a.addr f a.size a.offset a.flags a.protection = (s'.proc, r) :=
    Prod.ext (congrArg (fun u => u.1.proc) hm) (congrArg (fun u => u.2) hm)
  have hfiles : s'.files = s.files := (congrArg (fun u => u.1.files) hm).symm
  have hframes : s'.frames = s.frames := (congrArg (fun u => u.1.frames) hm).symm
  rw [hm] at hinv
  refine ⟨⟨fun n _ => by rw [hfiles], by rw [hframes]⟩, ?_⟩
  rintro addr rfl written
  obtain ⟨hbase, haligned, htop⟩ := my_mmap_address h.table hover hr
  have haddr : (BitVec.ofNat 32 addr).toNat = addr := Nat.mod_eq_of_lt htop
  have hkeep := (my_munmap_bare (k := s'.frames) hinv.table hinv.bare (by rw [haddr]; exact hbase)
    (by rw [haddr]; exact haligned) a.size written).1
  refine ⟨fun n _ => ?_, ?_⟩
  · show (s'.files n).ref = _
    rw [hfiles]
  · show freePages N (my_munmap _ _ _ _ _).1 = _
    rw [hkeep, hframes]

theorem step_right {c : Call} (h : ∃ l, Invariant s l) (hc : Harmless N s c) : Right N s c := by
  have hafter (s') (hs : next N s c = some s') : Balanced s' := by
    obtain ⟨l', hl'⟩ := step_invariant h hc hs
    exact balanced hl'
  obtain ⟨l, h⟩ := h
  cases c with
  | mmap a =>
    intro s' r hs
    refine ⟨hafter s' (by rw [next, hs]; rfl), ?_⟩
    rcases sys_mmap_harmless hc with hsame | ⟨f, hf, hmap⟩
    · rw [hsame] at hs
      cases hs
      exact ⟨fun _ _ => rfl, rfl⟩
    · rw [hmap] at hs
      obtain ⟨hfail, hback⟩ := mapFile_same (N := N) h hc.2.2 hf (Option.some.inj hs)
      cases r with
      | none => exact hfail
      | some addr => exact hback addr rfl
  | munmap k written => exact hafter
  | dup fd => exact hafter
  | close fd => exact hafter

end Steps

/-- A process without mappings, and every reference to a file is a descriptor. -/
def Start (s : State) : Prop :=
  MmapResidue.Empty ⟨s.frames, s.proc⟩ ∧ (∀ k : ℕ, k < 32 → (s.proc.slot k).f = none) ∧
    ∀ n, n < NFILE → (s.files n).ref = descriptors s n

theorem start_invariant {s : State} (h : Start s) : ∃ l, Invariant s l := by
  obtain ⟨hempty, hfiles, hrefs⟩ := h
  obtain ⟨l, hl⟩ := MmapResidue.empty_invariant hempty
  refine ⟨l, hl, hempty.2.1, fun k hk _ n => ?_, hrefs⟩
  rw [hfiles k hk]
  exact Option.some_ne_none _ |>.symm

theorem along_right {N : ℕ} {s : State} {cs : List Call} (h : ∃ l, Invariant s l)
    (hc : Along (next N) (Harmless N) s cs) : Along (next N) (Right N) s cs := by
  induction cs generalizing s with
  | nil => trivial
  | cons c cs ih =>
    exact ⟨step_right h hc.1, fun s' hs => ih (step_invariant h hc.1 hs) (hc.2 s' hs)⟩

theorem references_balance {N : ℕ} {s : State} {cs : List Call} (h : Start s)
    (hc : Along (next N) (Harmless N) s cs) : Along (next N) (Right N) s cs :=
  along_right (start_invariant h) hc

instance (N : ℕ) (s : State) (c : Call) : Decidable (Harmless N s c) :=
  match c with
  | .mmap _ => inferInstanceAs (Decidable (_ = 0 ∧ (_ = true → _ = none) ∧ ¬ (_ ∧ _ ∧ _)))
  | .munmap _ _ => inferInstanceAs (Decidable True)
  | .dup _ => inferInstanceAs (Decidable True)
  | .close _ => inferInstanceAs (Decidable True)

/-- Descriptor 0 is open on a file; page 1 is free or no page is. -/
def oneFile (free : Bool) : State where
  proc := ⟨fun _ => Mmp.zero, 0, fun _ => none, false⟩
  frames := ⟨fun f => free && f == 1, false⟩
  files := fun n => if n = 0 then ⟨1, true, true⟩ else ⟨0, false, false⟩
  ofile := fun i => if i = 0 then some 0 else none

theorem oneFile_start (free : Bool) : Start (oneFile free) := by
  have hzero (k : ℕ) (hk : k < 32) : (oneFile free).proc.slot k = Mmp.zero := by
    have h32 : (k : ℤ) ≠ 32 := by omega
    simp [oneFile, Proc.slot, h32]
  refine ⟨⟨⟨rfl, fun k hk => ?_⟩, fun _ _ => rfl, fun _ => by simp [oneFile]⟩, fun k hk => ?_,
    fun n _ => ?_⟩
  · show ((oneFile free).proc.slot k).addr = 0
    rw [hzero k hk]
    rfl
  · rw [hzero k hk]
    rfl
  · by_cases hn : n = 0
    · subst hn
      rfl
    · simp [oneFile, hn, descriptors, Ne.symm hn]

/-- An anonymous mapping of one page, with descriptor `fd` as the file. -/
def anonymous (fd size : BitVec 32) : MmapArgs :=
  { fetched := true, addr := 0, size := size, protection := 3, flags := 5, offset := 0, fd := fd,
    low := (true, true) }

theorem empty_pool_balanced :
    Along (next 4) (Right 4) (oneFile false)
      [.mmap (anonymous (-1) 4096), .dup 0, .munmap 0 0, .mmap (anonymous (-1) 0), .close 1] :=
  references_balance (oneFile_start false) (by decide +kernel)

/-- The refused call has taken a page and a reference. -/
theorem refused_mmap_keeps_reference : Start (oneFile true) ∧
    ¬ Along (next 4) (Right 4) (oneFile true) [.mmap (anonymous 0 0)] := by
  refine ⟨oneFile_start true, fun h => ?_⟩
  obtain ⟨-, hrefs, -⟩ := h.1 _ none rfl
  exact absurd (hrefs 0 (by decide)) (by decide)

end FileRefs
