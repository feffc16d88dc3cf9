import OsProjects.MmapMemory
import OsProjects.PageCoherence

/-! # Which mapping serves a page fault

`handle_page_fault` looks for a mapping with both ends included, and then for the first
growing mapping below the address, however far below it is.
-/
namespace MmapFaults

open Word32 MmapTable MmapMemory ByteMemory
open MmapFrames (Answer Memory kalloc covers growsTo)

/-- Sorted, page-aligned, disjoint mappings in the user half of the address space. -/
structure WellFormed (p : Proc) : Prop where
  count : p.total_mmaps ≤ 32
  aligned : ∀ i : ℕ, i < p.total_mmaps → (p.slot i).addr % PGSIZE = 0
  positive : ∀ i : ℕ, i < p.total_mmaps → 0 < (p.slot i).length
  user : ∀ i : ℕ, i < p.total_mmaps → (p.slot i).addr + (p.slot i).length ≤ KERNBASE
  apart : ∀ i j : ℕ, i < j → j < p.total_mmaps →
    (p.slot i).addr + (p.slot i).length ≤ (p.slot j).addr

/-- `[addr, addr + length)` of mapping `i`. -/
def Inside (p : Proc) (a i : ℕ) : Prop :=
  i < p.total_mmaps ∧ (p.slot i).addr ≤ a ∧ a < (p.slot i).addr + (p.slot i).length

def endOf (p : Proc) (i : ℕ) : ℕ := (p.slot i).addr + (p.slot i).length

/-- The page above a growing mapping, with a page to spare below the next one. -/
def Guard (p : Proc) (a i : ℕ) : Prop :=
  i < p.total_mmaps ∧ has (p.slot i).flags MAP_GROWSUP = true ∧ (p.slot i).length % PGSIZE = 0 ∧
    endOf p i ≤ a ∧ a < endOf p i + PGSIZE ∧
    (i + 1 = p.total_mmaps ∨ endOf p i + 2 * PGSIZE ≤ (p.slot (i + 1)).addr)

/-- The allocator has a frame and `mappages` a page table. -/
structure Available (r : Ram) : Prop where
  mapped : r.memory.pop.1.mapped = true
  frame : r.memory.pop.1.frame ≠ 0
  free : r.memory.frames.free r.memory.pop.1.frame = true

/-- The store that `handle_page_fault` asks for, if any. -/
def storeOf (p : Proc) (a : ℕ) : Option StoreCall :=
  match planFault p a with
  | .store i => some (faultCall p i a)
  | .grow i => some (faultCall (grown p i) i a)
  | _ => none

/-- Flags, protection, file and file offset are those of mapping `m` for the page of `a`. An
anonymous mapping has no file. -/
def BackedBy (c : StoreCall) (m : Mapping) (a : ℕ) : Prop :=
  c.addr = pgRoundDown a ∧ c.flags = m.flags ∧ c.prot = m.prot ∧
    (has m.flags MAP_ANONYMOUS = false → c.f = m.f ∧
      c.offset = m.offset + BitVec.ofNat 32 (pgRoundDown a) - BitVec.ofNat 32 m.addr)

/-- The page of `a` is new in the page table, backed by `m`, and nothing else changed. -/
structure Installed (p p' : Space) (a : ℕ) (m : Mapping) : Prop where
  backed : ∃ c, storeOf p.proc a = some c ∧ BackedBy c m a
  present : (p'.proc.pgdir (a / PGSIZE)).isSome = true
  perm : p'.perm (a / PGSIZE) = m.prot
  others : ∀ page, page ≠ a / PGSIZE → p'.proc.pgdir page = p.proc.pgdir page
  alive : p'.proc.killed = p.proc.killed

def SameMappings (q p : Proc) : Prop :=
  q.total_mmaps = p.total_mmaps ∧
    ∀ i : ℕ, i < p.total_mmaps → (q.slot i).toMapping = (p.slot i).toMapping

/-- A fault at `a` that ends in `p'` installs the page of the mapping that has `a`, lets a mapping
grow whose guard page has `a`, and otherwise kills the process. -/
structure Served (p p' : Space) (a : ℕ) : Prop where
  inside : ∀ i, Inside p.proc a i →
    Installed p p' a (p.proc.slot i).toMapping ∧ SameMappings p'.proc p.proc
  guarded : ∀ i, (∀ j, ¬ Inside p.proc a j) → Guard p.proc a i →
    Installed p p' a (p.proc.slot i).toMapping ∧ SameMappings p'.proc (grown p.proc i)
  outside : (∀ j, ¬ Inside p.proc a j) → (∀ j, ¬ Guard p.proc a j) →
    p'.proc.killed = true ∧ p'.proc.pgdir = p.proc.pgdir ∧ p'.proc.mmaps = p.proc.mmaps ∧
      p'.proc.total_mmaps = p.proc.total_mmaps

def Meets (fs : Files) (r : Ram) (p : Space) (a : ℕ) : Prop :=
  ∃ r' p', handle_page_fault fs r p a = some (r', p') ∧ Served p p' a

/-- The mapping that is found for an address inside mapping `i`: the one before it, if that
one ends right at the address. -/
def server (p : Proc) (a i : ℕ) : ℕ := if 0 < i ∧ endOf p (i - 1) = a then i - 1 else i

/-- The memory after a successful `kalloc`. -/
def allocated (r : Ram) : Ram :=
  let (a, m) := r.memory.pop
  { r with memory := { m with frames :=
      { m.frames with free := Function.update m.frames.free a.frame false } } }

/-- An anonymous page needs no file; another one is read from its file without waiting for a
lock that stays taken. -/
def Reads (fs : Files) (r : Ram) (c : StoreCall) : Prop :=
  has c.flags MAP_ANONYMOUS = true ∨ ∃ f, c.f = some f ∧
    (fileFill fs f c.offset c.length.toNat 0 (allocated r) r.memory.pop.1.frame).isSome = true

/-- By the count of `stored_length` something is left to load, there is memory for it, and
the read returns. -/
structure Loads (fs : Files) (r : Ram) (p : Proc) (i : ℕ) (a : ℕ) : Prop where
  left : wrap ((p.slot i).length - (p.slot i).stored_length) ≠ 0
  available : Available r
  reads : Reads fs r (faultCall p i a)

/-- The mapping that the fault finds is the one that has `a`, and its page can be loaded. -/
structure Fit (fs : Files) (r : Ram) (p : Space) (a : ℕ) : Prop where
  inside : ∀ i, Inside p.proc a i →
    BackedBy (faultCall p.proc (server p.proc a i) a) (p.proc.slot i).toMapping a ∧
      Loads fs r p.proc (server p.proc a i) a
  guarded : ∀ i, (∀ j, ¬ Inside p.proc a j) → Guard p.proc a i →
    a ≠ endOf p.proc i ∧ Loads fs r (grown p.proc i) i a
  outside : (∀ j, ¬ Inside p.proc a j) → (∀ j, ¬ Guard p.proc a j) →
    ∀ j : ℕ, j < p.proc.total_mmaps → a ≠ endOf p.proc j ∧
      growsTo p.proc a (pgRoundDown (wrap (a + PGSIZE))) j = false

section Search

variable {p : Proc} {a i j : ℕ}

theorem covers_iff (h : WellFormed p) (hi : i < p.total_mmaps) :
    covers p a i = true ↔ (p.slot i).addr ≤ a ∧ a ≤ endOf p i := by
  have hu := h.user i hi
  have hend : wrap ((p.slot i).addr + (p.slot i).length) = endOf p i :=
    wrap_add_of_lt (by simp only [KERNBASE] at hu; omega)
  simp [covers, hend]

theorem mem_range_total (h : i ∈ List.range p.total_mmaps.toNat) : (i : ℤ) < p.total_mmaps := by
  rw [List.mem_range] at h
  omega

theorem end_le_start (h : WellFormed p) (hij : i < j) (hj : j < p.total_mmaps) :
    endOf p i ≤ (p.slot j).addr := h.apart i j hij hj

theorem start_lt_end (h : WellFormed p) (hi : i < p.total_mmaps) : (p.slot i).addr < endOf p i := by
  have := h.positive i hi
  rw [endOf]
  omega

theorem end_lt_end (h : WellFormed p) (hij : i < j) (hj : j < p.total_mmaps) :
    endOf p i < endOf p j :=
  lt_of_le_of_lt (end_le_start h hij hj) (start_lt_end h hj)

theorem find_range_eq {q : ℕ → Bool} (hi : i < p.total_mmaps) (hq : q i = true)
    (hlow : ∀ j < i, q j = false) : (List.range p.total_mmaps.toNat).find? q = some i := by
  rw [List.find?_range_eq_some]
  refine ⟨hq, List.mem_range.mpr (by omega), fun j hj => ?_⟩
  rw [hlow j hj]
  rfl

/-- Mappings below `i` that reach up to `a` end there, and there is only one. -/
theorem find_covers_inside (h : WellFormed p) (hi : Inside p a i) :
    (List.range p.total_mmaps.toNat).find? (covers p a) = some (server p a i) := by
  obtain ⟨hlt, hstart, hstop⟩ := hi
  unfold server
  split_ifs with hprev
  · obtain ⟨hpos, hend⟩ := hprev
    have hlast := start_lt_end h (i := i - 1) (by omega)
    refine find_range_eq (by omega) ((covers_iff h (by omega)).mpr (by omega)) fun j hj => ?_
    rw [Bool.eq_false_iff]
    intro hcov
    have hlow := end_lt_end h hj (by omega)
    have hreach := ((covers_iff h (by omega)).mp hcov).2
    omega
  · refine find_range_eq hlt ((covers_iff h hlt).mpr ⟨hstart, hstop.le⟩) fun j hj => ?_
    rw [Bool.eq_false_iff]
    intro hcov
    have hreach := ((covers_iff h (by omega)).mp hcov).2
    have hle := end_le_start h hj hlt
    -- `j` ends at `a`, so it must be the mapping right below
    have hnext : j = i - 1 := by
      by_contra hne
      have := end_lt_end h (i := j) (j := i - 1) (by omega) (by omega)
      have := end_le_start h (i := i - 1) (j := i) (by omega) hlt
      omega
    exact hprev ⟨by omega, by rw [← hnext]; omega⟩

/-- A mapping that ends at `a` comes before one that starts there. -/
theorem find_covers_end (h : WellFormed p) (hj : j < p.total_mmaps) (he : a = endOf p j) :
    (List.range p.total_mmaps.toNat).find? (covers p a) = some j := by
  have hstart := start_lt_end h hj
  refine find_range_eq hj ((covers_iff h hj).mpr (by omega)) fun i hi => ?_
  rw [Bool.eq_false_iff]
  intro hcov
  have hlow := end_lt_end h hi hj
  have hreach := ((covers_iff h (by omega)).mp hcov).2
  omega

theorem find_covers_none (h : WellFormed p) (hn : ∀ j, ¬ Inside p a j)
    (he : ∀ j : ℕ, j < p.total_mmaps → a ≠ endOf p j) :
    (List.range p.total_mmaps.toNat).find? (covers p a) = none := by
  rw [List.find?_eq_none]
  intro j hj hcov
  have hj := mem_range_total hj
  have hends := he j hj
  obtain ⟨hlow, hhigh⟩ := (covers_iff h hj).mp hcov
  exact hn j ⟨hj, hlow, lt_of_le_of_ne hhigh hends⟩

theorem inside_unique (h : WellFormed p) (hi : Inside p a i) (hj : Inside p a j) : i = j := by
  obtain ⟨hi, hilow, hihigh⟩ := hi
  obtain ⟨hj, hjlow, hjhigh⟩ := hj
  rcases lt_trichotomy i j with hlt | heq | hgt
  · have := h.apart i j hlt hj
    omega
  · exact heq
  · have := h.apart j i hgt hi
    omega

/-- In the guard page of mapping `i`, above its end, no mapping ends. -/
theorem guard_not_end (h : WellFormed p) (hg : Guard p a i) (hne : a ≠ endOf p i)
    (hj : j < p.total_mmaps) : a ≠ endOf p j := by
  obtain ⟨hi, -, -, hlow, hhigh, hroom⟩ := hg
  rintro rfl
  rcases lt_trichotomy i j with hlt | rfl | hgt
  · have hstart := start_lt_end h hj
    have hnext : (p.slot ((i : ℤ) + 1)).addr ≤ (p.slot j).addr := by
      rcases Nat.lt_or_ge (i + 1) j with hlt' | hge
      · have hend := end_le_start h hlt' hj
        have hfirst := start_lt_end h (i := i + 1) (by omega)
        push_cast at hend hfirst
        omega
      · rw [show j = i + 1 by omega]
        push_cast
        exact le_refl _
    rcases hroom with hlast | hfar
    · omega
    · omega
  · exact hne rfl
  · have := end_lt_end h hgt hi
    omega

theorem nextPage_eq (ha : a < KERNBASE - PGSIZE) :
    pgRoundDown (wrap (a + PGSIZE)) = pgRoundDown a + PGSIZE := by
  have hw : wrap ((a : ℤ) + PGSIZE) = a + PGSIZE := by
    simp only [KERNBASE, PGSIZE] at ha ⊢
    unfold wrap
    omega
  rw [hw]
  simp only [pgRoundDown, PGSIZE]
  omega

theorem lt_nextPage (a : ℕ) : a < pgRoundDown a + PGSIZE := by
  simp only [pgRoundDown, PGSIZE]
  omega

theorem growsTo_iff (ha : a < KERNBASE - PGSIZE) :
    growsTo p a (pgRoundDown (wrap (a + PGSIZE))) i = true ↔
      has (p.slot i).flags MAP_GROWSUP = true ∧ (p.slot i).addr ≤ a ∧
        ((i : ℤ) = p.total_mmaps - 1 ∨ pgRoundDown a + PGSIZE < (p.slot (i + 1)).addr) := by
  have hlt := lt_nextPage a
  rw [growsTo, nextPage_eq ha, decide_eq_true_eq]
  constructor
  · rintro ⟨hflag, hstart, -, hroom⟩
    exact ⟨hflag, hstart, hroom⟩
  · rintro ⟨hflag, hstart, hroom⟩
    exact ⟨hflag, hstart, hlt.le, hroom⟩

/-- A mapping with another one below `a` above it does not grow. -/
theorem find_growsTo_guard (h : WellFormed p) (ha : a < KERNBASE - PGSIZE) (hg : Guard p a i) :
    (List.range p.total_mmaps.toNat).find? (growsTo p a (pgRoundDown (wrap (a + PGSIZE)))) =
      some i := by
  obtain ⟨hi, hflag, hlen, hlow, hhigh, hroom⟩ := hg
  have hstart := start_lt_end h hi
  have hal : endOf p i % PGSIZE = 0 := by
    have := h.aligned i hi
    simp only [endOf, PGSIZE] at this hlen ⊢
    omega
  have hpage : pgRoundDown a = endOf p i := by
    simp only [pgRoundDown, PGSIZE] at hal hhigh ⊢
    omega
  refine find_range_eq hi ((growsTo_iff ha).mpr ⟨hflag, by omega, ?_⟩) fun j hj => ?_
  · rcases hroom with hlast | hfar
    · left
      omega
    · right
      simp only [PGSIZE] at hfar ⊢
      omega
  · rw [Bool.eq_false_iff]
    intro hgrow
    obtain ⟨-, -, hlast | hfar⟩ := (growsTo_iff ha).mp hgrow
    · omega
    · have hle : (p.slot ((j : ℤ) + 1)).addr ≤ (p.slot i).addr := by
        rcases Nat.lt_or_ge (j + 1) i with hlt | hge
        · have hend := end_le_start h hlt hi
          have hfirst := start_lt_end h (i := j + 1) (by omega)
          push_cast at hend hfirst
          omega
        · rw [show i = j + 1 by omega]
          push_cast
          exact le_refl _
      omega

end Search

section Store

variable {fs : Files} {r r' : Ram} {p p' : Space} {page : ℕ} {perm : BitVec 32}
  {fill : Ram → ℕ → Option Ram} {ok : Bool}

def mapped (p : Space) (page frame : ℕ) (perm : BitVec 32) : Space :=
  { proc := { p.proc with pgdir := Function.update p.proc.pgdir page (some (aliased frame perm)) }
    perm := Function.update p.perm page perm }

theorem pop_frames (m : Memory) : m.pop.2.frames = m.frames := by
  unfold Memory.pop
  split <;> rfl

theorem mapFresh_available (h : Available r) (hpage : p.proc.pgdir page = none) :
    mapFresh fill r p page perm = (fill (allocated r) r.memory.pop.1.frame).map fun r' =>
      (r', mapped p page r.memory.pop.1.frame perm, true) := by
  obtain ⟨hmapped, hframe, hfree⟩ := h
  have halloc : kalloc r.memory.pop.2.frames r.memory.pop.1.frame =
      some { r.memory.pop.2.frames with
        free := Function.update r.memory.pop.2.frames.free r.memory.pop.1.frame false } := by
    rw [kalloc, if_pos ⟨hframe, by rw [pop_frames]; exact hfree⟩]
  simp only [mapFresh, halloc, hmapped, if_true, mapPage, hpage, Option.map_some]
  rw [Option.map_eq_bind]
  rfl

theorem mapFresh_unavailable (h : ¬ Available r)
    (hr : mapFresh fill r p page perm = some (r', p', ok)) : p' = p ∧ ok = false := by
  simp only [mapFresh] at hr
  split at hr
  next hnone =>
    cases hr
    exact ⟨rfl, rfl⟩
  next k halloc =>
    unfold kalloc at halloc
    split_ifs at halloc with hfree
    rw [pop_frames] at hfree
    have hunmapped : r.memory.pop.1.mapped = false := by
      rw [Bool.eq_false_iff]
      exact fun hmapped => h ⟨hmapped, hfree.1, hfree.2⟩
    obtain ⟨r₁, -, hr⟩ := Option.bind_eq_some_iff.mp hr
    rw [hunmapped] at hr
    cases hr
    exact ⟨rfl, rfl⟩

theorem storePages_one {fill : ℕ → Ram → ℕ → Option Ram} :
    storePages fill perm 1 page 0 r p = mapFresh (fill 0) r p page perm := by
  simp only [storePages]
  rcases mapFresh (fill 0) r p page perm with _ | ⟨r', p', _ | _⟩ <;> rfl

/-- The fill that a one-page call runs. -/
def fillOf (fs : Files) (c : StoreCall) : Ram → ℕ → Option Ram :=
  if has c.flags MAP_ANONYMOUS then anonFill 0
  else match c.f with
    | none => fun _ _ => none
    | some f => fileFill fs f c.offset c.length.toNat 0

theorem store_none {c : StoreCall} (h : c.pages = 0)
    (hr : mmap_store_data fs r p c = some (r', p', ok)) : p' = p ∧ ok = true := by
  unfold mmap_store_data at hr
  split_ifs at hr
  · rw [h] at hr
    cases hr
    exact ⟨rfl, rfl⟩
  · split at hr
    next => cases hr
    next f hf =>
      rw [h] at hr
      cases hr
      exact ⟨rfl, rfl⟩

/-- An anonymous call takes its frame even when the file pointer is null. -/
theorem store_one {c : StoreCall} (h : c.pages = 1) (hf : has c.flags MAP_ANONYMOUS = true ∨
    c.f.isSome = true) : mmap_store_data fs r p c =
      mapFresh (fillOf fs c) r p (c.addr / PGSIZE) c.prot := by
  unfold mmap_store_data fillOf
  split_ifs with hanon
  · rw [h, storePages_one]
  · rcases hfile : c.f with _ | f
    · rw [hfile] at hf
      simp [hanon] at hf
    · simp only [h]
      exact storePages_one

theorem store_has_file {c : StoreCall} (hr : mmap_store_data fs r p c = some (r', p', ok)) :
    has c.flags MAP_ANONYMOUS = true ∨ c.f.isSome = true := by
  by_contra hno
  rw [not_or] at hno
  have hnone : c.f = none := Option.not_isSome_iff_eq_none.mp hno.2
  simp [mmap_store_data, hno.1, hnone] at hr

theorem reads_iff {c : StoreCall} : Reads fs r c ↔
    (has c.flags MAP_ANONYMOUS = true ∨ c.f.isSome = true) ∧
      (fillOf fs c (allocated r) r.memory.pop.1.frame).isSome = true := by
  unfold Reads fillOf
  split_ifs with hanon
  · simp [hanon, anonFill]
  · rcases hf : c.f with _ | f
    · simp [hanon]
    · simp [hanon]

theorem fault_pages (p : Proc) (i : ℤ) (a : ℕ) : (faultCall p i a).pages =
    if wrap ((p.slot i).length - (p.slot i).stored_length) = 0 then 0 else 1 := by
  simp only [faultCall, StoreCall.pages, PGSIZE]
  split_ifs with h₁ h₂ h₂ <;> omega

end Store

section Fault

variable {fs : Files} {r r' : Ram} {p p' : Space} {i a : ℕ} {ok : Bool}

theorem pgRoundDown_div (a : ℕ) : pgRoundDown a / PGSIZE = a / PGSIZE := by
  simp only [pgRoundDown, PGSIZE]
  omega

/-- The page of `a` with the frame that comes next. -/
def installed (r : Ram) (p : Space) (i a : ℕ) : Space :=
  mapped p (a / PGSIZE) r.memory.pop.1.frame (p.proc.slot i).prot

theorem store_loads (hpage : p.proc.pgdir (a / PGSIZE) = none) (h : Loads fs r p.proc i a) :
    ∃ r', mmap_store_data fs r p (faultCall p.proc i a) = some (r', installed r p i a, true) := by
  obtain ⟨hfile, hfill⟩ := reads_iff.mp h.reads
  obtain ⟨r', hfill⟩ := Option.isSome_iff_exists.mp hfill
  have hpages : (faultCall p.proc i a).pages = 1 := by rw [fault_pages, if_neg h.left]
  have hat : (faultCall p.proc i a).addr / PGSIZE = a / PGSIZE := pgRoundDown_div a
  refine ⟨r', ?_⟩
  rw [store_one hpages hfile, hat, mapFresh_available h.available hpage, hfill]
  rfl

theorem store_leaves (hpage : p.proc.pgdir (a / PGSIZE) = none) (h : ¬ Loads fs r p.proc i a)
    (hr : mmap_store_data fs r p (faultCall p.proc i a) = some (r', p', ok)) : p' = p := by
  by_cases hleft : wrap ((p.proc.slot i).length - (p.proc.slot i).stored_length) = 0
  · exact (store_none (by rw [fault_pages, if_pos hleft]) hr).1
  have hpages : (faultCall p.proc i a).pages = 1 := by rw [fault_pages, if_neg hleft]
  have hfile := store_has_file hr
  rw [store_one hpages hfile] at hr
  by_cases havail : Available r
  · rw [mapFresh_available havail (by rw [← hpage]; exact congrArg _ (pgRoundDown_div a))] at hr
    obtain ⟨r₁, hfill, -⟩ := Option.map_eq_some_iff.mp hr
    exact absurd ⟨hleft, havail, reads_iff.mpr ⟨hfile, by rw [hfill]; rfl⟩⟩ h
  · exact (mapFresh_unavailable havail hr).1

def counted (p : Space) (i : ℕ) : Space :=
  p.setSlot i { p.proc.slot i with stored_length := (p.proc.slot i).stored_length + PGSIZE }

theorem faultIn_eq (hpage : p.proc.pgdir (a / PGSIZE) = none) : faultIn fs r p i a =
    (mmap_store_data fs r p (faultCall p.proc i a)).map fun (r, p, ok) =>
      (r, counted (if ok then p else p.kill) i) := by
  have habsent : get_physical_page p.proc (pgRoundDown a) = 0 := by
    rw [get_physical_page, pgRoundDown_div, hpage]
    rfl
  unfold faultIn
  rw [if_neg (by simp [habsent])]
  rfl

theorem faultIn_loads (hpage : p.proc.pgdir (a / PGSIZE) = none) (h : Loads fs r p.proc i a) :
    ∃ r', faultIn fs r p i a = some (r', counted (installed r p i a) i) := by
  obtain ⟨r', hs⟩ := store_loads hpage h
  exact ⟨r', by rw [faultIn_eq hpage, hs]; rfl⟩

theorem faultIn_leaves (hpage : p.proc.pgdir (a / PGSIZE) = none) (h : ¬ Loads fs r p.proc i a)
    (hr : faultIn fs r p i a = some (r', p')) : p' = counted p i ∨ p' = counted p.kill i := by
  rw [faultIn_eq hpage] at hr
  obtain ⟨⟨r₁, p₁, ok⟩, hs, heq⟩ := Option.map_eq_some_iff.mp hr
  have hsame := store_leaves hpage h hs
  subst p₁
  cases ok with
  | true => exact .inl (congrArg Prod.snd heq).symm
  | false => exact .inr (congrArg Prod.snd heq).symm

theorem counted_pgdir (hi : i < 32) : (counted p i).proc.pgdir = p.proc.pgdir := by
  have : (i : ℤ) ≠ 32 := by omega
  simp [counted, Space.setSlot, Proc.setSlot, this]

theorem counted_killed (hi : i < 32) : (counted p i).proc.killed = p.proc.killed := by
  have : (i : ℤ) ≠ 32 := by omega
  simp [counted, Space.setSlot, Proc.setSlot, this]

theorem counted_sameMappings (hi : i < 32) : SameMappings (counted p i).proc p.proc := by
  have hne : (i : ℤ) ≠ 32 := by omega
  refine ⟨setSlot_total _ hne, fun j _ => ?_⟩
  rcases eq_or_ne (j : ℤ) i with hj | hj
  · rw [hj, counted, Space.setSlot, slot_setSlot_self _ hne]
  · exact congrArg Mmp.toMapping (slot_setSlot_of_ne _ hne hj)

theorem counted_mmaps_ne (hi : i < 32) : (counted p i).proc.mmaps ≠ p.proc.mmaps := by
  have hne : (i : ℤ) ≠ 32 := by omega
  intro heq
  have hslot := congrArg Mmp.stored_length (congrFun heq i)
  simp [counted, Space.setSlot, Proc.setSlot, Proc.slot, hne, PGSIZE] at hslot

/-- However the store ends, the mappings stay and the count changes. -/
theorem faultIn_keeps (hi : i < 32) (hpage : p.proc.pgdir (a / PGSIZE) = none)
    (hr : faultIn fs r p i a = some (r', p')) :
    SameMappings p'.proc p.proc ∧ p'.proc.mmaps ≠ p.proc.mmaps := by
  by_cases h : Loads fs r p.proc i a
  · obtain ⟨r₁, heq⟩ := faultIn_loads hpage h
    rw [heq] at hr
    cases hr
    exact ⟨counted_sameMappings hi, counted_mmaps_ne hi⟩
  · rcases faultIn_leaves hpage h hr with rfl | rfl
    · exact ⟨counted_sameMappings hi, counted_mmaps_ne hi⟩
    · exact ⟨counted_sameMappings hi, counted_mmaps_ne hi⟩

theorem loads_of_present (hi : i < 32) (hpage : p.proc.pgdir (a / PGSIZE) = none)
    (hr : faultIn fs r p i a = some (r', p'))
    (hsome : (p'.proc.pgdir (a / PGSIZE)).isSome = true) : Loads fs r p.proc i a := by
  by_contra h
  rcases faultIn_leaves hpage h hr with rfl | rfl
  · rw [counted_pgdir hi, hpage] at hsome
    exact absurd hsome (by decide)
  · rw [counted_pgdir hi] at hsome
    change (p.proc.pgdir (a / PGSIZE)).isSome = true at hsome
    rw [hpage] at hsome
    exact absurd hsome (by decide)

end Fault

section Serving

variable {fs : Files} {r r' : Ram} {p p' : Space} {i a : ℕ}

/-- The mapping that is found is one of the table. -/
theorem plan_lt {q : Proc} (h : planFault q a = .store i ∨ planFault q a = .grow i) :
    i < q.total_mmaps.toNat := by
  have hfound {f : ℕ → Bool} {j : ℕ} (hj : (List.range q.total_mmaps.toNat).find? f = some j) :
      j < q.total_mmaps.toNat := List.mem_range.mp (List.mem_of_find?_eq_some hj)
  unfold planFault at h
  dsimp only at h
  split at h
  next j hj =>
    obtain rfl : j = i := by simpa using h
    exact hfound hj
  next =>
    split_ifs at h
    · simp at h
    · split at h
      next j hj =>
        obtain rfl : j = i := by simpa using h
        exact hfound hj
      next => simp at h

theorem plan_inside (h : WellFormed p.proc) (hi : Inside p.proc a i) :
    planFault p.proc a = .store (server p.proc a i) := by
  rw [planFault, find_covers_inside h hi]

theorem plan_end (h : WellFormed p.proc) (hi : i < p.proc.total_mmaps)
    (he : a = endOf p.proc i) : planFault p.proc a = .store i := by
  rw [planFault, find_covers_end h hi he]

theorem nextPage_user (ha : a < KERNBASE - PGSIZE) :
    ¬ pgRoundDown (wrap (a + PGSIZE)) ≥ KERNBASE := by
  rw [nextPage_eq ha]
  simp only [pgRoundDown, PGSIZE, KERNBASE] at ha ⊢
  omega

theorem plan_grow (h : WellFormed p.proc) (ha : a < KERNBASE - PGSIZE)
    (hn : ∀ j, ¬ Inside p.proc a j) (he : ∀ j : ℕ, j < p.proc.total_mmaps → a ≠ endOf p.proc j)
    (hf : (List.range p.proc.total_mmaps.toNat).find?
      (growsTo p.proc a (pgRoundDown (wrap (a + PGSIZE)))) = some i) :
    planFault p.proc a = .grow i := by
  rw [planFault, find_covers_none h hn he]
  simp only [nextPage_user ha, if_false, hf]

theorem plan_segfault (h : WellFormed p.proc) (ha : a < KERNBASE - PGSIZE)
    (hn : ∀ j, ¬ Inside p.proc a j) (he : ∀ j : ℕ, j < p.proc.total_mmaps → a ≠ endOf p.proc j)
    (hf : (List.range p.proc.total_mmaps.toNat).find?
      (growsTo p.proc a (pgRoundDown (wrap (a + PGSIZE)))) = none) :
    planFault p.proc a = .segfault := by
  rw [planFault, find_covers_none h hn he]
  simp only [nextPage_user ha, if_false, hf]

theorem plan_guard (h : WellFormed p.proc) (ha : a < KERNBASE - PGSIZE)
    (hn : ∀ j, ¬ Inside p.proc a j) (hg : Guard p.proc a i) (hne : a ≠ endOf p.proc i) :
    planFault p.proc a = .grow i :=
  plan_grow h ha hn (fun _ hj => guard_not_end h hg hne hj) (find_growsTo_guard h ha hg)

/-- A page that is installed for mapping `i`, after the mapping has grown or not. -/
theorem installed_spec {q : Space} (hi : i < 32) (hpg : q.proc.pgdir = p.proc.pgdir)
    (hkilled : q.proc.killed = p.proc.killed) {m : Mapping}
    (hc : storeOf p.proc a = some (faultCall q.proc i a)) (hb : BackedBy (faultCall q.proc i a) m a) :
    Installed p (counted (installed r q i a) i) a m := by
  refine ⟨⟨_, hc, hb⟩, ?_, ?_, fun page hpage => ?_, ?_⟩
  · simp [counted_pgdir hi, installed, mapped]
  · have hprot : (q.proc.slot i).prot = m.prot := hb.2.2.1
    simp [counted, Space.setSlot, installed, mapped, hprot]
  · simp [counted_pgdir hi, installed, mapped, hpage, hpg]
  · rw [counted_killed hi]
    exact hkilled

theorem grown_slot (hi : i < 32) : (grown p.proc i).slot i =
    { p.proc.slot i with length := wrap ((p.proc.slot i).length + PGSIZE) } :=
  slot_setSlot_self _ (by omega)

theorem grown_pgdir (hi : i < 32) : (grown p.proc i).pgdir = p.proc.pgdir := by
  have : (i : ℤ) ≠ 32 := by omega
  simp [grown, Proc.setSlot, this]

theorem grown_backed (hi : i < 32) :
    BackedBy (faultCall (grown p.proc i) i a) (p.proc.slot i).toMapping a := by
  have hslot := grown_slot (p := p) hi
  exact ⟨rfl, by simp only [faultCall, hslot], by simp only [faultCall, hslot],
    fun _ => ⟨by simp only [faultCall, hslot], by simp only [faultCall, hslot]⟩⟩

theorem grown_length_ne (hw : WellFormed p.proc) (hi : i < p.proc.total_mmaps) :
    ((grown p.proc i).slot i).length ≠ (p.proc.slot i).length := by
  have huser := hw.user i hi
  have hcount := hw.count
  rw [grown_slot (by omega)]
  simp only [KERNBASE, PGSIZE] at huser ⊢
  unfold wrap
  omega

theorem inside_fit (hw : WellFormed p.proc) (hpage : p.proc.pgdir (a / PGSIZE) = none)
    (hi : Inside p.proc a i) (hm : Meets fs r p a) :
    BackedBy (faultCall p.proc (server p.proc a i) a) (p.proc.slot i).toMapping a ∧
      Loads fs r p.proc (server p.proc a i) a := by
  obtain ⟨r', p', hr, hs⟩ := hm
  obtain ⟨⟨⟨c, hc, hb⟩, hpresent, -, -, -⟩, -⟩ := hs.inside i hi
  have hplan := plan_inside hw hi
  rw [storeOf, hplan] at hc
  cases hc
  rw [handle_page_fault, hplan] at hr
  have hslot : server p.proc a i < 32 := by
    have := hw.count
    have := hi.1
    unfold server
    split_ifs <;> omega
  exact ⟨hb, loads_of_present hslot hpage hr hpresent⟩

theorem guarded_fit (hw : WellFormed p.proc) (ha : a < KERNBASE - PGSIZE)
    (hpage : p.proc.pgdir (a / PGSIZE) = none) (hn : ∀ j, ¬ Inside p.proc a j)
    (hg : Guard p.proc a i) (hm : Meets fs r p a) :
    a ≠ endOf p.proc i ∧ Loads fs r (grown p.proc i) i a := by
  obtain ⟨r', p', hr, hs⟩ := hm
  obtain ⟨⟨-, hpresent, -, -, -⟩, hsame⟩ := hs.guarded i hn hg
  have hi := hg.1
  have hslot : i < 32 := by
    have := hw.count
    omega
  have hne : a ≠ endOf p.proc i := by
    intro he
    rw [handle_page_fault, plan_end hw hi he] at hr
    have hkeeps := (faultIn_keeps hslot hpage hr).1.2 i hi
    have hgrown := hsame.2 i (by rw [grown, setSlot_total _ (by omega)]; exact hi)
    exact grown_length_ne hw hi (congrArg Mapping.length (hgrown.symm.trans hkeeps))
  refine ⟨hne, ?_⟩
  rw [handle_page_fault, plan_guard hw ha hn hg hne] at hr
  exact loads_of_present (p := { p with proc := grown p.proc i }) hslot
    (by rw [grown_pgdir hslot]; exact hpage) hr hpresent

theorem outside_fit (hw : WellFormed p.proc) (ha : a < KERNBASE - PGSIZE)
    (hpage : p.proc.pgdir (a / PGSIZE) = none) (hn : ∀ j, ¬ Inside p.proc a j)
    (hg : ∀ j, ¬ Guard p.proc a j) (hm : Meets fs r p a) {j : ℕ} (hj : j < p.proc.total_mmaps) :
    a ≠ endOf p.proc j ∧ growsTo p.proc a (pgRoundDown (wrap (a + PGSIZE))) j = false := by
  obtain ⟨r', p', hr, hs⟩ := hm
  obtain ⟨-, -, hmmaps, -⟩ := hs.outside hn hg
  have hslot : ∀ k : ℕ, k < p.proc.total_mmaps → k < 32 := fun k hk => by
    have := hw.count
    omega
  have hends : ∀ k : ℕ, k < p.proc.total_mmaps → a ≠ endOf p.proc k := by
    intro k hk he
    rw [handle_page_fault, plan_end hw hk he] at hr
    exact (faultIn_keeps (hslot k hk) hpage hr).2 hmmaps
  refine ⟨hends j hj, ?_⟩
  rcases hf : (List.range p.proc.total_mmaps.toNat).find?
      (growsTo p.proc a (pgRoundDown (wrap (a + PGSIZE)))) with _ | k
  · rw [List.find?_eq_none] at hf
    exact Bool.eq_false_iff.mpr (hf j (List.mem_range.mpr (by omega)))
  · have hk := mem_range_total (List.mem_of_find?_eq_some hf)
    have hpage' : (grown p.proc k).pgdir (a / PGSIZE) = none := by
      rw [grown_pgdir (hslot k hk)]
      exact hpage
    rw [handle_page_fault, plan_grow hw ha hn hends hf] at hr
    have hkeeps := (faultIn_keeps (p := { p with proc := grown p.proc k }) (hslot k hk) hpage' hr).1
    have hlen := congrArg Mapping.length
      (hkeeps.2 k (by rw [grown, setSlot_total _ (by have := hslot k hk; omega)]; exact hk))
    rw [Proc.slot, hmmaps] at hlen
    have hk32 : (k : ℤ) ≠ 32 := by have := hslot k hk; omega
    refine absurd hlen.symm ?_
    rw [if_neg hk32]
    have := grown_length_ne hw hk
    rwa [Proc.slot.eq_def p.proc, if_neg hk32] at this

theorem inside_meets (hw : WellFormed p.proc) (hpage : p.proc.pgdir (a / PGSIZE) = none)
    (hi : Inside p.proc a i) (hf : Fit fs r p a) : Meets fs r p a := by
  obtain ⟨hb, hl⟩ := hf.inside i hi
  obtain ⟨r', hr⟩ := faultIn_loads hpage hl
  have hplan := plan_inside hw hi
  have hslot : server p.proc a i < 32 := by
    have := hw.count
    have := hi.1
    unfold server
    split_ifs <;> omega
  refine ⟨r', _, by rw [handle_page_fault, hplan]; exact hr, ?_⟩
  refine ⟨fun j hj => ?_, fun _ hn _ => absurd hi (hn i), fun hn _ => absurd hi (hn i)⟩
  rw [inside_unique hw hj hi]
  refine ⟨installed_spec hslot rfl rfl ?_ hb, ?_⟩
  · rw [storeOf, hplan]
  · exact counted_sameMappings (p := installed r p (server p.proc a i) a) hslot

theorem guarded_meets (hw : WellFormed p.proc) (ha : a < KERNBASE - PGSIZE)
    (hpage : p.proc.pgdir (a / PGSIZE) = none) (hn : ∀ j, ¬ Inside p.proc a j)
    (hg : Guard p.proc a i) (hf : Fit fs r p a) : Meets fs r p a := by
  obtain ⟨hne, hl⟩ := hf.guarded i hn hg
  have hslot : i < 32 := by
    have := hw.count
    have := hg.1
    omega
  obtain ⟨r', hr⟩ := faultIn_loads (p := { p with proc := grown p.proc i })
    (by rw [grown_pgdir hslot]; exact hpage) hl
  have hplan := plan_guard hw ha hn hg hne
  refine ⟨r', _, by rw [handle_page_fault, hplan]; exact hr, ?_⟩
  refine ⟨fun j hj => absurd hj (hn j), fun j _ hj => ?_, fun _ hno => absurd hg (hno i)⟩
  have hij : i = j := by
    have hfind := find_growsTo_guard hw ha hg
    rw [find_growsTo_guard hw ha hj] at hfind
    exact (Option.some.inj hfind).symm
  subst j
  refine ⟨installed_spec hslot (grown_pgdir hslot) ?_ ?_ (grown_backed hslot), ?_⟩
  · have : (i : ℤ) ≠ 32 := by omega
    simp [grown, Proc.setSlot, this]
  · rw [storeOf, hplan]
  · exact counted_sameMappings hslot

theorem outside_meets (hw : WellFormed p.proc) (ha : a < KERNBASE - PGSIZE)
    (hn : ∀ j, ¬ Inside p.proc a j) (hg : ∀ j, ¬ Guard p.proc a j) (hf : Fit fs r p a) :
    Meets fs r p a := by
  have hfit := hf.outside hn hg
  have hnone : (List.range p.proc.total_mmaps.toNat).find?
      (growsTo p.proc a (pgRoundDown (wrap (a + PGSIZE)))) = none := by
    rw [List.find?_eq_none]
    intro j hj
    rw [(hfit j (mem_range_total hj)).2]
    decide
  have hplan := plan_segfault hw ha hn (fun j hj => (hfit j hj).1) hnone
  refine ⟨r, p.kill, by rw [handle_page_fault, hplan], ?_⟩
  exact ⟨fun j hj => absurd hj (hn j), fun j _ hj => absurd hj (hg j),
    fun _ _ => ⟨rfl, rfl, rfl, rfl⟩⟩

/-- A fault below the last user page is served as documented exactly when the mapping that
the first loop finds agrees with the one around the address, no mapping ends at an address
that lies in none, no growing mapping further below takes it, and the page can be loaded. -/
theorem fault_served_iff (hw : WellFormed p.proc) (ha : a < KERNBASE - PGSIZE)
    (hpage : p.proc.pgdir (a / PGSIZE) = none) : Meets fs r p a ↔ Fit fs r p a := by
  constructor
  · intro hm
    exact ⟨fun i hi => inside_fit hw hpage hi hm, fun i hn hg => guarded_fit hw ha hpage hn hg hm,
      fun hn hg j hj => outside_fit hw ha hpage hn hg hm hj⟩
  · intro hf
    by_cases hin : ∃ i, Inside p.proc a i
    · obtain ⟨i, hi⟩ := hin
      exact inside_meets hw hpage hi hf
    rw [not_exists] at hin
    by_cases hguard : ∃ i, Guard p.proc a i
    · obtain ⟨i, hg⟩ := hguard
      exact guarded_meets hw ha hpage hin hg hf
    · rw [not_exists] at hguard
      exact outside_meets hw ha hin hguard hf

end Serving

/-- Anonymous private pages side by side, the lower one read-only. -/
def neighbours (total : ℤ) : Space where
  proc :=
    { mmaps := fun k => ⟨⟨if k = 0 then MMAPBASE else MMAPBASE + 4096, 4096, 5,
        if k = 0 then 4 else 6, none, 0⟩, 0, 0⟩
      total_mmaps := total
      pgdir := fun _ => none
      killed := false }
  perm := fun _ => 0

def oneFrame : Ram where
  memory := ⟨⟨fun _ => true, false⟩, [⟨7, true⟩]⟩
  mem := fun _ => 0
  cache := PageCache.initial (fun _ => 0) fun _ => []

def noFiles : Files := ⟨PageCoherence.adjacentFrames, fun _ => ⟨0, 0⟩⟩

theorem neighbours_slot {total : ℤ} (h : total ≤ 2) {i : ℕ} (hi : i < total) :
    ((neighbours total).proc.slot i).addr = MMAPBASE + 4096 * i ∧
      ((neighbours total).proc.slot i).length = 4096 := by
  obtain rfl | rfl : i = 0 ∨ i = 1 := by omega
  · exact ⟨rfl, rfl⟩
  · exact ⟨rfl, rfl⟩

theorem neighbours_wellFormed (total : ℤ) (h : total ≤ 2) :
    WellFormed (neighbours total).proc := by
  refine ⟨h.trans (by decide), fun i hi => ?_, fun i hi => ?_, fun i hi => ?_, fun i j hij hj => ?_⟩
  · rw [(neighbours_slot h hi).1]
    simp only [MMAPBASE, PGSIZE]
    omega
  · rw [(neighbours_slot h hi).2]
    decide
  · change (i : ℤ) < total at hi
    rw [(neighbours_slot h hi).1, (neighbours_slot h hi).2]
    simp only [MMAPBASE, KERNBASE]
    omega
  · change (j : ℤ) < total at hj
    have hi : (i : ℤ) < total := by omega
    rw [(neighbours_slot h hi).1, (neighbours_slot h hi).2, (neighbours_slot h hj).1]
    omega

/-- The upper one may grow. -/
def growing : Space :=
  (neighbours 2).setSlot 1 { (neighbours 2).proc.slot 1 with flags := 5 ||| MAP_GROWSUP }

theorem growing_slot {i : ℕ} (hi : i < 2) :
    (growing.proc.slot i).addr = MMAPBASE + 4096 * i ∧ (growing.proc.slot i).length = 4096 := by
  obtain rfl | rfl : i = 0 ∨ i = 1 := by omega
  · exact ⟨rfl, rfl⟩
  · exact ⟨rfl, rfl⟩

theorem growing_count {i : ℕ} (hi : i < growing.proc.total_mmaps) : i < 2 := by
  have htotal : growing.proc.total_mmaps = 2 := rfl
  omega

theorem growing_wellFormed : WellFormed growing.proc := by
  refine ⟨by decide, fun i hi => ?_, fun i hi => ?_, fun i hi => ?_, fun i j hij hj => ?_⟩
  · rw [(growing_slot (growing_count hi)).1]
    simp only [MMAPBASE, PGSIZE]
    omega
  · rw [(growing_slot (growing_count hi)).2]
    decide
  · have hlt := growing_count hi
    rw [(growing_slot hlt).1, (growing_slot hlt).2]
    simp only [MMAPBASE, KERNBASE]
    omega
  · have hlt := growing_count hj
    rw [(growing_slot (hij.trans hlt)).1, (growing_slot (hij.trans hlt)).2, (growing_slot hlt).1]
    omega

/-- A fault in the upper page is served by the mapping that has it, and one in the page above lets
that mapping grow. -/
theorem growing_served : WellFormed growing.proc ∧
    Meets noFiles oneFrame growing (MMAPBASE + 4096 + 8) ∧
    Meets noFiles oneFrame growing (MMAPBASE + 8192 + 8) := by
  have hw := growing_wellFormed
  have hinside : Inside growing.proc (MMAPBASE + 4096 + 8) 1 := by
    refine ⟨by decide, by decide, by decide⟩
  refine ⟨hw, (fault_served_iff hw (by decide) rfl).mpr ⟨fun i hi => ?_, ?_, ?_⟩,
    (fault_served_iff hw (by decide) rfl).mpr ⟨fun i hi => ?_, fun i _ hg => ?_, fun _ hn => ?_⟩⟩
  · have hserver : server growing.proc (MMAPBASE + 4096 + 8) 1 = 1 := by decide
    rw [inside_unique hw hi hinside, hserver]
    exact ⟨⟨by decide, by decide, by decide, fun h => absurd h (by decide)⟩,
      ⟨by decide, ⟨rfl, by decide, rfl⟩, .inl (by decide)⟩⟩
  · exact fun i hn _ => absurd hinside (hn 1)
  · exact fun hn _ => absurd hinside (hn 1)
  · obtain ⟨hlt, -, hhigh⟩ := hi
    rw [(growing_slot (growing_count hlt)).1, (growing_slot (growing_count hlt)).2] at hhigh
    have := growing_count hlt
    omega
  · have hlt := growing_count hg.1
    obtain rfl | rfl : i = 0 ∨ i = 1 := by omega
    · exact absurd hg.2.1 (by decide)
    · exact ⟨by decide, by decide, ⟨rfl, by decide, rfl⟩, .inl (by decide)⟩
  · exact absurd ⟨by decide, by decide, by decide, by decide, by decide, .inl (by decide)⟩ (hn 1)

/-- A fault at the first byte of the writable page installs it read-only, because the page
below ends there. -/
theorem neighbour_served_by_wrong_mapping : WellFormed (neighbours 2).proc ∧
    MMAPBASE + 4096 < KERNBASE - PGSIZE ∧
    (neighbours 2).proc.pgdir ((MMAPBASE + 4096) / PGSIZE) = none ∧
    Inside (neighbours 2).proc (MMAPBASE + 4096) 1 ∧
    ¬ Meets noFiles oneFrame (neighbours 2) (MMAPBASE + 4096) := by
  have hw := neighbours_wellFormed 2 (by decide)
  have hinside : Inside (neighbours 2).proc (MMAPBASE + 4096) 1 := by
    refine ⟨by decide, by decide, by decide⟩
  refine ⟨hw, by decide, rfl, hinside, fun hm => ?_⟩
  obtain ⟨-, -, hprot, -⟩ := (inside_fit hw rfl hinside hm).1
  exact absurd hprot (by decide)

end MmapFaults
