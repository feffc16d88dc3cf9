import OsProjects.MmapGuards

/-! # The ranges of a well-formed region table

A table whose mappings are sorted and apart up to whole pages, with zero addresses in the
free slots, stays so under `my_mmap` and page faults. A fixed address is refused although its
range is free when it lies below all mappings or right behind the last one.
-/
namespace MmapRanges

open Word32 MmapTable MmapFrames MmapPlacement
open MmapTracking (endOf newMapping Fits)
open MmapGuards (live live_eq Faulted)

/-- Up to a page boundary, without wrapping around. -/
def roundUp (n : ℕ) : ℕ := (n + 4095) / 4096 * 4096

structure WellFormed (p : Proc) : Prop where
  total : 0 ≤ p.total_mmaps ∧ p.total_mmaps ≤ 32
  base : ∀ k : ℕ, k < p.total_mmaps → MMAPBASE ≤ (p.slot k).addr
  aligned : ∀ k : ℕ, k < p.total_mmaps → (p.slot k).addr % 4096 = 0
  positive : ∀ k : ℕ, k < p.total_mmaps → 0 < (p.slot k).length
  next : ∀ k : ℕ, (k + 1 : ℕ) < p.total_mmaps →
    roundUp ((p.slot k).addr + (p.slot k).length) ≤ (p.slot (k + 1 : ℕ)).addr
  last : ∀ k : ℕ, (k + 1 : ℕ) = p.total_mmaps →
    roundUp ((p.slot k).addr + (p.slot k).length) ≤ KERNBASE
  free : ∀ k : ℕ, p.total_mmaps ≤ k → k < 32 → (p.slot k).addr = 0

/-- Address, length, flags, protection, file and offset of every entry are as before. -/
def SameTable (p p' : Proc) : Prop :=
  p'.total_mmaps = p.total_mmaps ∧
    ∀ k : ℕ, k < 32 → (p'.slot k).toMapping = (p.slot k).toMapping

/-- The pages of `[a, a + n)` belong to no mapping. -/
def Disjoint (p : Proc) (a n : ℕ) : Prop :=
  ∀ k : ℕ, k < p.total_mmaps →
    roundUp (a + n) ≤ (p.slot k).addr ∨ roundUp ((p.slot k).addr + (p.slot k).length) ≤ a

/-- The mapping `m` has been added to the table of `p` in a free range of the mmap area. -/
structure Added (p p' : Proc) (m : Mapping) : Prop where
  aligned : m.addr % 4096 = 0
  base : MMAPBASE ≤ m.addr
  top : roundUp (m.addr + m.length) ≤ KERNBASE
  disjoint : Disjoint p m.addr m.length
  table : ∃ pos ≤ (live p).length, live p' = (live p).insertIdx pos m
  wellFormed : WellFormed p'

/-- `my_mmap` leaves the table as it is, or answers with the address of a new mapping in it. -/
def Answered (p : Proc) (f : File) (length offset flags protection : BitVec 32) :
    Proc × Option ℕ → Prop
  | (p', none) => SameTable p p'
  | (p', some a) => Added p p' (newMapping f a length offset flags protection)

section Tables

variable {p p' : Proc} {l : List Mapping}

theorem roundUp_le {n a : ℕ} (ha : a % 4096 = 0) : roundUp n ≤ a ↔ n ≤ a := by
  unfold roundUp
  omega

theorem le_roundUp (n : ℕ) : n ≤ roundUp n := by
  unfold roundUp
  omega

theorem live_getElem {k : ℕ} (hk : k < (live p).length) : (live p)[k] = (p.slot k).toMapping := by
  simp [live]

theorem WellFormed.length (h : WellFormed p) : ((live p).length : ℤ) = p.total_mmaps := by
  have := h.total
  simp only [live, List.length_map, List.length_range]
  omega

/-- Mappings that follow each other keep apart from all earlier ones. -/
theorem WellFormed.apart (h : WellFormed p) {i j : ℕ} (hij : i < j) (hj : j < p.total_mmaps) :
    roundUp ((p.slot i).addr + (p.slot i).length) ≤ (p.slot j).addr := by
  induction j with
  | zero => omega
  | succ j ih =>
    rcases Nat.lt_succ_iff_lt_or_eq.mp hij with hlt | rfl
    · have hprev := ih hlt (by omega)
      have hnext := h.next j hj
      have hlong := le_roundUp ((p.slot j).addr + (p.slot j).length)
      omega
    · exact h.next i hj

theorem WellFormed.top (h : WellFormed p) {k : ℕ} (hk : k < p.total_mmaps) :
    roundUp ((p.slot k).addr + (p.slot k).length) ≤ KERNBASE := by
  by_cases hlast : (k + 1 : ℕ) = p.total_mmaps
  · exact h.last k hlast
  · obtain ⟨n, hn⟩ := Int.eq_ofNat_of_zero_le h.total.1
    have hapart := h.apart (i := k) (j := n - 1) (by omega) (by omega)
    have htop := h.last (n - 1) (by omega)
    have hlong := le_roundUp ((p.slot (n - 1 : ℕ)).addr + (p.slot (n - 1 : ℕ)).length)
    omega

theorem WellFormed.kept (h : WellFormed p) : Kept p (live p) :=
  ⟨h.length.symm, fun _ hk => (live_getElem hk).symm, fun k hk hk32 =>
    .inl (by rw [h.free k (by have := h.length; omega) hk32]; decide)⟩

theorem WellFormed.arranged (h : WellFormed p) : Arranged (live p) := by
  have hlength := h.length
  refine ⟨fun m hm => ?_, List.pairwise_iff_getElem.mpr fun i j hi hj hij => ?_⟩
  · obtain ⟨k, hk, rfl⟩ := List.getElem_of_mem hm
    rw [live_getElem hk]
    have htop := h.top (k := k) (by omega)
    have hlong := le_roundUp ((p.slot k).addr + (p.slot k).length)
    exact ⟨h.base k (by omega), h.aligned k (by omega), h.positive k (by omega), by omega⟩
  · rw [live_getElem hi, live_getElem hj]
    have hapart := h.apart hij (by omega)
    have hlong := le_roundUp ((p.slot i).addr + (p.slot i).length)
    omega

/-- Sorted mappings in the mmap area with nothing behind them make a well-formed table. -/
theorem wellFormed_of_kept (hk : Kept p l) (hy : Arranged l) (hroom : l.length ≤ 32)
    (hfree : ∀ k : ℕ, p.total_mmaps ≤ k → k < 32 → (p.slot k).addr = 0) : WellFormed p := by
  have htotal := hk.total
  have hslot {k : ℕ} (hlt : k < p.total_mmaps) : ∃ h : k < l.length, (p.slot k).toMapping = l[k] :=
    ⟨by omega, hk.entries k (by omega)⟩
  refine ⟨by omega, fun k hlt => ?_, fun k hlt => ?_, fun k hlt => ?_, fun k hlt => ?_,
    fun k hlast => ?_, hfree⟩
  · obtain ⟨hkl, heq⟩ := hslot hlt
    rw [heq]
    exact (hy.bounds hkl).1
  · obtain ⟨hkl, heq⟩ := hslot hlt
    rw [heq]
    exact (hy.bounds hkl).2.1
  · obtain ⟨hkl, heq⟩ := hslot hlt
    rw [heq]
    exact (hy.bounds hkl).2.2.1
  · obtain ⟨hkl, heq⟩ := hslot (k := k) (by omega)
    obtain ⟨hnl, hnext⟩ := hslot hlt
    rw [heq, hnext, roundUp_le (hy.bounds hnl).2.1]
    exact MmapTracking.getElem_apart hy.apart hnl (Nat.lt_succ_self k)
  · obtain ⟨hkl, heq⟩ := hslot (k := k) (by omega)
    rw [heq, roundUp_le (by decide)]
    exact (hy.bounds hkl).2.2.2

theorem WellFormed.room (h : WellFormed p) : (live p).length ≤ 32 := by
  have hlength := h.length
  have htotal := h.total.2
  omega

theorem WellFormed.not_overrun (h : WellFormed p) (addr : BitVec 32) : ¬ Overrun p addr := by
  rintro ⟨-, h31, hold⟩
  have hfree := h.free 31 (by rw [h31]; rfl) (by decide)
  push_cast at hfree
  omega

/-- A place found in the list of mappings is free in the table. -/
theorem fits_disjoint (h : WellFormed p) {pos a n : ℕ} (hf : Fits (live p) pos a n) :
    Disjoint p a n := by
  intro k hk
  have hkl : k < (live p).length := by have := h.length; omega
  rcases Nat.lt_or_ge k pos with hlt | hge
  · right
    have habove := hf.above k hkl hlt
    rw [live_getElem hkl] at habove
    exact (roundUp_le hf.aligned).mpr habove
  · left
    have hbelow := hf.below k hkl hge
    rw [live_getElem hkl] at hbelow
    exact (roundUp_le (h.aligned k hk)).mpr hbelow

theorem placed_added (h : WellFormed p) {pos : ℕ} {m : Mmp}
    (hf : Fits (live p) pos m.addr m.length) (ho : MmapTracking.Opened p p' (live p).length pos)
    (hroom : (live p).length < 32) : Added p (MmapTracking.filled p' pos m) m.toMapping := by
  have hkept := opened_kept ho h.kept hroom hf.inside m
  have hlength := h.length
  have htop := hf.top
  refine ⟨hf.aligned, hf.base, ?_, fits_disjoint h hf, ⟨pos, hf.inside, live_eq hkept⟩, ?_⟩
  · rw [roundUp_le (by decide)]
    exact htop.trans (by decide)
  · refine wellFormed_of_kept hkept (h.arranged.insert hf) ?_ fun k hk hk32 => ?_
    · rw [List.length_insertIdx_of_le_length hf.inside]
      exact hroom
    · rw [hkept.total, List.length_insertIdx_of_le_length hf.inside] at hk
      have hold := ho.rest k (by omega) hk32
      rw [MmapTracking.filled_slot (by have := hf.inside; omega) m hk32,
        if_neg (by have := hf.inside; omega)]
      exact (congrArg Mapping.addr hold).trans (h.free k (by omega) hk32)

theorem my_mmap_answered (h : WellFormed p) (addr : BitVec 32) (f : File)
    (length offset flags protection : BitVec 32) :
    Answered p f length offset flags protection
      (my_mmap p addr f length offset flags protection) := by
  have hout := my_mmap_outcome h.kept h.arranged h.room (h.not_overrun addr) f length offset flags
    protection
  generalize my_mmap p addr f length offset flags protection = r at hout
  cases hout with
  | refused => exact ⟨rfl, fun _ _ => rfl⟩
  | placed p' pos m opened room mapping fits place =>
    rw [Answered, ← mapping]
    exact placed_added h fits opened room
  | promoted m old hint room =>
    have hlength := h.length
    have hfree := h.free (live p).length (by omega) (by omega)
    have hbase := old.region.bounds.1
    omega

theorem fault_wellFormed (h : WellFormed p) {m m' : Memory} {addr : BitVec 32}
    (hs : handle_page_fault m p addr.toNat = some (m', p')) : WellFormed p' := by
  have hlength := h.length
  cases MmapGuards.handle_page_fault_faulted h.kept h.arranged h.room addr.isLt hs with
  | filled reached filled =>
    refine wellFormed_of_kept (filled.kept h.kept) h.arranged h.room fun k hk hk32 => ?_
    rw [filled.total] at hk
    exact (congrArg Mapping.addr (filled.mappings k)).trans (h.free k hk hk32)
  | grown i inside flag behind top next filled =>
    have hgrow := MmapGuards.grow_arranged h.arranged inside behind top next
    have hroom := h.room
    have hi32 : (i : ℤ) ≠ 32 := by omega
    refine wellFormed_of_kept (filled.kept (MmapGuards.grow_kept h.kept h.room inside)) hgrow
      (by rw [MmapGuards.grow_length]; exact h.room) fun k hk hk32 => ?_
    rw [filled.total, setSlot_total _ hi32] at hk
    rw [congrArg Mapping.addr (filled.mappings k), slot_setSlot_of_ne _ hi32 (by omega)]
    exact h.free k hk hk32

end Tables

/-- `my_mmap` refuses without a trace or adds a mapping in a free range, and neither it nor a
page fault leaves the table in disorder. -/
theorem table_stays_wellFormed {p : Proc} (h : WellFormed p) :
    (∀ addr f length offset flags protection, Answered p f length offset flags protection
      (my_mmap p addr f length offset flags protection)) ∧
    ∀ (m m' : Memory) (addr : BitVec 32) (p' : Proc),
      handle_page_fault m p addr.toNat = some (m', p') → WellFormed p' :=
  ⟨my_mmap_answered h, fun _ _ _ _ hs => fault_wellFormed h hs⟩

/-- One page right at the start of the mmap area. -/
def firstPage : Proc :=
  ⟨fun k => if k = 0 then { Mmp.zero with addr := MMAPBASE, length := 4096, flags := 5 }
    else Mmp.zero, 1, fun _ => none, false⟩

theorem firstPage_wellFormed : WellFormed firstPage := by
  have hzero {k : ℕ} (hk : (k : ℤ) < firstPage.total_mmaps) : k = 0 := by
    simp only [firstPage] at hk
    omega
  refine ⟨by decide, fun k hk => ?_, fun k hk => ?_, fun k hk => ?_, fun k hk => ?_,
    fun k hk => ?_, fun k hk hk32 => ?_⟩
  · obtain rfl := hzero hk
    exact le_rfl
  · obtain rfl := hzero hk
    decide
  · obtain rfl := hzero hk
    decide
  · have := hzero hk
    omega
  · obtain rfl := hzero (k := k) (by omega)
    decide
  · simp only [firstPage] at hk
    have h0 : k ≠ 0 := by omega
    have h32 : (k : ℤ) ≠ 32 := by omega
    simp [firstPage, Proc.slot, h0, h32, Mmp.zero]

theorem second_mapping_added : ∃ p', my_mmap firstPage 0 ⟨0, true, true⟩ 4096 0 5 3 =
    (p', some 0x60001000) ∧ WellFormed p' := by
  have hgood := (table_stays_wellFormed firstPage_wellFormed).1 0 ⟨0, true, true⟩ 4096 0 5 3
  have hanswer : (my_mmap firstPage 0 ⟨0, true, true⟩ 4096 0 5 3).2 = some 0x60001000 := by
    decide +kernel
  generalize my_mmap firstPage 0 ⟨0, true, true⟩ 4096 0 5 3 = r at hgood hanswer
  obtain ⟨p', a⟩ := r
  obtain rfl := hanswer
  exact ⟨p', rfl, Added.wellFormed hgood⟩

/-- `mmp_check` has a place for an address above the page end of the entry in slot
`total_mmaps - 1`, whatever that slot is, and between two mappings. -/
def Placeable (p : Proc) (a : ℕ) : Prop :=
  endOf (p.slot (p.total_mmaps - 1)).toMapping < a ∨
    0 < p.total_mmaps ∧ (p.slot 0).addr < a ∧ a < (p.slot (p.total_mmaps - 1)).addr

section Fixed

variable {p : Proc} {addr length : BitVec 32}

theorem endOf_slot (h : WellFormed p) {k : ℕ} (hk : k < p.total_mmaps) :
    endOf (p.slot k).toMapping = roundUp ((p.slot k).addr + (p.slot k).length) := by
  have hkl : k < (live p).length := by have := h.length; omega
  have hend := (h.arranged.region _ (List.getElem_mem hkl)).endOf_eq
  rwa [live_getElem hkl] at hend

/-- The gap search stops at the first gap that takes the range. -/
theorem checkGap_none {a n i : ℕ} {e : ℤ} (hn : e ≤ i + n)
    (h : checkGap p a length e n i = none) {k : ℕ} (hik : i ≤ k) (hk : k < e) :
    ¬ (a ≥ pgRoundUp (wrap ((p.slot k).addr + (p.slot k).length)) ∧
      pgRoundUp (p.slot (k + 1)).addr ≥ wrap (a + length.toNat)) := by
  induction n generalizing i with
  | zero => omega
  | succ n ih =>
    rw [checkGap] at h
    dsimp only at h
    split_ifs at h with hi hgap
    · rcases Nat.eq_or_lt_of_le hik with rfl | hlt
      · exact hgap
      · exact ih (i := i + 1) (by omega) (by exact_mod_cast h) hlt
    · omega

theorem mmp_insert_answer {i : ℤ} {a : ℕ} (hend : pgRoundUp (wrap (a + length.toNat)) < KERNBASE) :
    ∃ p', mmp_insert p length i a = (p', i + 1) := by
  unfold mmp_insert
  dsimp only
  rw [if_neg (by omega)]
  exact ⟨_, rfl⟩

theorem WellFormed.addr_le (h : WellFormed p) {i j : ℕ} (hij : i ≤ j) (hj : j < p.total_mmaps) :
    (p.slot i).addr ≤ (p.slot j).addr := by
  rcases Nat.eq_or_lt_of_le hij with rfl | hlt
  · exact le_rfl
  · have hapart := h.apart hlt hj
    have hlong := le_roundUp ((p.slot i).addr + (p.slot i).length)
    omega

/-- An address between the starts of two mappings lies between those of two neighbours. -/
theorem neighbours_around {a last : ℕ} (hfirst : (p.slot (0 : ℕ)).addr < a)
    (hlast : a ≤ (p.slot last).addr) :
    ∃ k, k < last ∧ (p.slot k).addr < a ∧ a ≤ (p.slot (k + 1 : ℕ)).addr := by
  induction last with
  | zero => omega
  | succ n ih =>
    rcases Nat.lt_or_ge (p.slot n).addr a with hlt | hge
    · exact ⟨n, Nat.lt_succ_self n, hlt, hlast⟩
    · obtain ⟨k, hk, hrest⟩ := ih hge
      exact ⟨k, by omega, hrest⟩

/-- A free range is taken exactly when `mmp_check` has a place for it. -/
theorem mmp_check_free (h : WellFormed p) {a : ℕ} (hpos : 0 < length.toNat)
    (hend : roundUp (a + length.toNat) < KERNBASE) (hfree : Disjoint p a length.toNat) :
    (mmp_check p a length).2 ≠ -1 ↔ Placeable p a := by
  have hlong := le_roundUp (a + length.toNat)
  obtain ⟨t, ht⟩ := Int.eq_ofNat_of_zero_le h.total.1
  simp only [KERNBASE] at hend
  have hw : wrap ((a : ℤ) + length.toNat) = a + length.toNat := wrap_add_of_lt (by omega)
  have hbound : pgRoundUp (wrap ((a : ℤ) + length.toNat)) < KERNBASE := by
    rw [hw, pgRoundUp, Nat.mod_eq_of_lt (by omega)]
    exact hend
  unfold mmp_check Placeable
  dsimp only
  rw [← endOf]
  by_cases hlast : a > endOf (p.slot (p.total_mmaps - 1)).toMapping
  · obtain ⟨p', hins⟩ := mmp_insert_answer (p := p) (i := p.total_mmaps - 1) hbound
    rw [if_pos hlast, hins]
    exact ⟨fun _ => .inl hlast, fun _ => by dsimp only; omega⟩
  rw [if_neg hlast]
  have hnext {k : ℕ} (hk : ((k + 1 : ℕ) : ℤ) < p.total_mmaps) :
      pgRoundUp (p.slot (k + 1 : ℕ)).addr = (p.slot (k + 1 : ℕ)).addr := by
    have htop := h.top hk
    have hlong := le_roundUp ((p.slot (k + 1 : ℕ)).addr + (p.slot (k + 1 : ℕ)).length)
    simp only [KERNBASE] at htop
    exact pgRoundUp_of_aligned (h.aligned _ hk) (by omega)
  split
  next i hgap =>
    obtain ⟨k, rfl, hlt, habove, hbelow⟩ := checkGap_some (i := 0) (by exact_mod_cast hgap)
    obtain ⟨p', hins⟩ := mmp_insert_answer (p := p) (i := k) hbound
    rw [hins]
    refine ⟨fun _ => .inr ⟨by omega, ?_, ?_⟩, fun _ => by dsimp only; omega⟩
    · have hend := endOf_slot h (k := k) (by omega)
      rw [endOf] at hend
      have hpositive := h.positive k (by omega)
      have hup := le_roundUp ((p.slot k).addr + (p.slot k).length)
      have hfirst := h.addr_le (Nat.zero_le k) (by omega)
      push_cast at hfirst
      omega
    · have hroom := hnext (k := k) (by omega)
      push_cast at hroom
      rw [hroom, hw] at hbelow
      have hle := h.addr_le (i := k + 1) (j := t - 1) (by omega) (by omega)
      rw [show p.total_mmaps - 1 = ((t - 1 : ℕ) : ℤ) by omega]
      push_cast at hle ⊢
      omega
  next hgap =>
    refine ⟨fun hne => absurd rfl hne, fun hplace => ?_⟩
    obtain ⟨hsome, hfirst, hbelow⟩ := hplace.resolve_left hlast
    rw [show p.total_mmaps - 1 = ((t - 1 : ℕ) : ℤ) by omega] at hbelow
    obtain ⟨k, hk, hlow, hhigh⟩ := neighbours_around hfirst hbelow.le
    exfalso
    refine checkGap_none (n := (p.total_mmaps - 1).toNat) (e := p.total_mmaps - 1) (i := 0)
      (by omega) (by exact_mod_cast hgap) (Nat.zero_le k) (by omega) ⟨?_, ?_⟩
    · have hend := endOf_slot h (k := k) (by omega)
      rw [endOf] at hend
      rw [hend]
      have hup := le_roundUp (a + length.toNat)
      exact (hfree k (by omega)).resolve_left (by omega)
    · have hroom := hnext (k := k) (by omega)
      push_cast at hroom hhigh
      rw [hroom, hw]
      have hpositive := h.positive (k + 1) (by omega)
      have hup := le_roundUp ((p.slot (k + 1 : ℕ)).addr + (p.slot (k + 1 : ℕ)).length)
      have hsep := (hfree (k + 1) (by omega)).resolve_right (by push_cast at hup hpositive ⊢; omega)
      push_cast at hsep
      omega

/-- The page range of a call in the mmap area is not refused before `mmp_check`. -/
theorem my_mmap_fixed (f : File) {offset : BitVec 32} (protection : BitVec 32)
    (htotal : p.total_mmaps < 32) (hbase : MMAPBASE ≤ addr.toNat)
    (hal : addr.toNat % 4096 = 0) (hpos : 0 < length.toInt)
    (hend : roundUp (addr.toNat + length.toNat) < KERNBASE) (hoff : 0 ≤ offset.toInt) :
    (my_mmap p addr f length offset (MAP_FIXED ||| MAP_ANONYMOUS ||| MAP_PRIVATE)
        protection).2 = some addr.toNat ↔ (mmp_check p addr.toNat length).2 ≠ -1 := by
  have hlong := le_roundUp (addr.toNat + length.toNat)
  simp only [KERNBASE] at hend
  have hbad : badArgs f length offset (MAP_FIXED ||| MAP_ANONYMOUS ||| MAP_PRIVATE) protection =
      false := by
    have hflags : has (MAP_FIXED ||| MAP_ANONYMOUS ||| MAP_PRIVATE) MAP_PRIVATE = true ∧
        has (MAP_FIXED ||| MAP_ANONYMOUS ||| MAP_PRIVATE) MAP_ANONYMOUS = true ∧
        has (MAP_FIXED ||| MAP_ANONYMOUS ||| MAP_PRIVATE) MAP_SHARED = false := by decide
    simp [badArgs, hflags, not_le.mpr hpos, not_lt.mpr hoff]
  have hne : addr ≠ 0 := by
    rintro rfl
    exact absurd hbase (by decide)
  have hint : ¬ (addr ≠ 0 ∧ (addr.toInt < MMAPBASE ∨
      pgRoundUp (wrap (pgRoundUp addr.toNat + length.toNat)) > KERNBASE ∨
      addr.toNat % PGSIZE ≠ 0)) := by
    have hpos' : 0 < length.toNat := by
      rw [BitVec.toInt_eq_toNat_cond] at hpos
      split_ifs at hpos <;> omega
    rintro ⟨-, hlow | hhigh | hodd⟩
    · rw [BitVec.toInt_eq_toNat_of_lt (by clear hbase hlow; omega)] at hlow
      exact absurd hbase (by exact_mod_cast not_le.mpr hlow)
    · rw [pgRoundUp_of_aligned hal addr.isLt, wrap_add_of_lt (by clear hbase; omega), pgRoundUp,
        Nat.mod_eq_of_lt (by clear hbase; omega)] at hhigh
      unfold roundUp at hend
      simp only [KERNBASE] at hhigh
      clear hbase
      omega
    · exact hodd hal
  have hsearch : search p addr length (MAP_FIXED ||| MAP_ANONYMOUS ||| MAP_PRIVATE) =
      mmp_check p addr.toNat length := by
    rw [search, if_pos (by decide), if_pos hne]
  rw [my_mmap_eq, hbad, if_neg Bool.false_ne_true, if_neg (by omega), if_neg hint, hsearch, fill]
  by_cases hfail : (mmp_check p addr.toNat length).2 = -1
  · rw [if_pos hfail]
    exact ⟨fun hsome => (Option.some_ne_none _ hsome.symm).elim, fun hne => absurd hfail hne⟩
  · rw [if_neg hfail]
    exact ⟨fun _ => hfail, fun _ => rfl⟩

theorem my_mmap_negative (f : File) {offset : BitVec 32} (flags protection : BitVec 32)
    (hoff : offset.toInt < 0) : (my_mmap p addr f length offset flags protection).2 = none := by
  have hbad : badArgs f length offset flags protection = true := by
    simp [badArgs, hoff]
  rw [my_mmap_eq, hbad, if_pos rfl]

/-- With `MAP_FIXED` a range is mapped exactly when it is free, unless it is free and the offset
is negative or `mmp_check` has no place for the range. -/
theorem fixed_exact_iff (addr : BitVec 32) (f : File) (length offset protection : BitVec 32)
    (h : WellFormed p) (htotal : p.total_mmaps < 32) (hbase : MMAPBASE ≤ addr.toNat)
    (hal : addr.toNat % 4096 = 0) (hpos : 0 < length.toInt)
    (hend : roundUp (addr.toNat + length.toNat) < KERNBASE) :
    ((my_mmap p addr f length offset (MAP_FIXED ||| MAP_ANONYMOUS ||| MAP_PRIVATE)
        protection).2 = some addr.toNat ↔ Disjoint p addr.toNat length.toNat) ↔
      (Disjoint p addr.toNat length.toNat → 0 ≤ offset.toInt ∧ Placeable p addr.toNat) := by
  have hpos' : 0 < length.toNat := by
    rw [BitVec.toInt_eq_toNat_cond] at hpos
    split_ifs at hpos <;> omega
  rcases Int.lt_or_le offset.toInt 0 with hneg | hoff
  · rw [my_mmap_negative f _ protection hneg]
    refine ⟨fun hexact hfree => absurd (hexact.mpr hfree) (Option.some_ne_none _).symm,
      fun hplace => ⟨fun hsome => absurd hsome (Option.some_ne_none _).symm,
        fun hfree => absurd (hplace hfree).1 (not_le.mpr hneg)⟩⟩
  have hfixed := my_mmap_fixed f protection htotal hbase hal hpos hend hoff
  constructor
  · intro hexact hfree
    exact ⟨hoff, (mmp_check_free h hpos' hend hfree).mp (hfixed.mp (hexact.mpr hfree))⟩
  · refine fun hplace => ⟨fun hsome => ?_, fun hfree =>
      hfixed.mpr ((mmp_check_free h hpos' hend hfree).mpr (hplace hfree).2)⟩
    have hgood := my_mmap_answered h addr f length offset
      (MAP_FIXED ||| MAP_ANONYMOUS ||| MAP_PRIVATE) protection
    clear hfixed hbase hend hal hplace
    generalize my_mmap p addr f length offset (MAP_FIXED ||| MAP_ANONYMOUS ||| MAP_PRIVATE)
      protection = r at hsome hgood
    obtain ⟨p', a⟩ := r
    simp only at hsome
    subst hsome
    have hadded : Added p p' (newMapping f addr.toNat length offset
      (MAP_FIXED ||| MAP_ANONYMOUS ||| MAP_PRIVATE) protection) := hgood
    exact hadded.disjoint

end Fixed

theorem gap_above_taken :
    (my_mmap firstPage 0x60002000 ⟨0, true, true⟩ 4096 0
      (MAP_FIXED ||| MAP_ANONYMOUS ||| MAP_PRIVATE) 3).2 = some 0x60002000 ↔
    Disjoint firstPage 0x60002000 4096 :=
  (fixed_exact_iff 0x60002000 ⟨0, true, true⟩ 4096 0 3 firstPage_wellFormed (by decide)
    (by decide) (by decide) (by decide) (by decide)).mpr fun _ => ⟨by decide, .inl (by decide)⟩

/-- The page right behind the only mapping is free, but `mmp_check` wants a gap below it. -/
theorem flush_page_refused : WellFormed firstPage ∧
    ¬ ((my_mmap firstPage 0x60001000 ⟨0, true, true⟩ 4096 0
      (MAP_FIXED ||| MAP_ANONYMOUS ||| MAP_PRIVATE) 3).2 = some 0x60001000 ↔
    Disjoint firstPage 0x60001000 4096) := by
  refine ⟨firstPage_wellFormed, fun hexact => ?_⟩
  have hfree : Disjoint firstPage 0x60001000 4096 := by
    intro k hk
    simp only [firstPage] at hk
    obtain rfl : k = 0 := by omega
    exact .inr (by decide)
  exact absurd (hexact.mpr hfree) (by decide +kernel)

end MmapRanges
