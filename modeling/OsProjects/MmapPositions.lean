import OsProjects.MmapFaults
import OsProjects.MmapTracking

/-! # File positions behind a mapping

A page fault and the write-back of `my_munmap` derive the file position of an address from the
start of its mapping and from the offset. Unmapping the first pages moves the start only.
-/
namespace MmapPositions

open Word32 MmapTable MmapMemory MmapFaults
open MmapTracking (findSlot_spec releasePages_table)

/-- The file position that a page fault loads for the byte at `b`. -/
def loadedFrom (p : Proc) (b : ℕ) : Option (BitVec 32) :=
  (storeOf p b).bind fun c =>
    if has c.flags MAP_ANONYMOUS then none else some (c.offset + BitVec.ofNat 32 (b % PGSIZE))

/-- The call of `filewrite` in `my_munmap`, which starts at the file cursor. -/
structure WriteCall where
  off : BitVec 32
  addr : ℕ
  length : ℕ
  deriving DecidableEq, Repr

def writeCall (p : Proc) (addr : BitVec 32) : Option WriteCall :=
  let i := findSlot p (pgRoundUp addr.toNat) 32 0
  if i = 32 ∨ signed (p.slot i).length = 0 then none
  else if writesBack (p.slot i).toMapping then
    some ⟨(p.slot i).offset, (p.slot i).addr, (p.slot i).length⟩
  else none

/-- The file position to which `my_munmap` of `addr` writes the byte at `b`. -/
def writtenTo (p : Proc) (addr : BitVec 32) (b : ℕ) : Option (BitVec 32) :=
  (writeCall p addr).bind fun c =>
    if c.addr ≤ b ∧ b < c.addr + c.length then some (c.off + BitVec.ofNat 32 (b - c.addr))
    else none

/-- The answer of `filewrite` counts only where it is called. -/
theorem my_munmap_writes {k : Frames} {p : Proc} {addr length : BitVec 32}
    (h : writeCall p addr = none) (written : ℤ) :
    my_munmap k p addr length written = my_munmap k p addr length 0 := by
  unfold writeCall at h
  unfold my_munmap
  dsimp only at h ⊢
  split_ifs at h with hnone hback
  · rw [if_pos hnone, if_pos hnone]
  · simp only [hnone, hback, Bool.false_eq_true, if_false, false_and]

/-- The byte `x` of a mapping `m`, now covered by a mapping from `start` on, still belongs to
the byte `x` behind the offset of `m`. -/
def Corresponds (p : Proc) (m : Mapping) (start : BitVec 32) (x : ℕ) : Prop :=
  loadedFrom p (m.addr + x) = some (m.offset + BitVec.ofNat 32 x) ∧
    (writesBack m = true → writtenTo p start (m.addr + x) = some (m.offset + BitVec.ofNat 32 x))

section Rest

variable {fr : Frames} {p : Proc} {j k x : ℕ}

theorem slot_addr_lt (h : WellFormed p) {i : ℕ} (hij : i < j) (hj : j < p.total_mmaps) :
    (p.slot i).addr < (p.slot j).addr := by
  have hapart := h.apart i j hij hj
  have hpos := h.positive i (by omega)
  omega

theorem findSlot_start (h : WellFormed p) (hj : j < p.total_mmaps) :
    findSlot p (p.slot j).addr 32 0 = (j : ℤ) := by
  have hcount := h.count
  obtain ⟨i, hi, -, hi32, hbefore, hat⟩ :=
    findSlot_spec (p := p) (a := (p.slot j).addr) (n := 32) (i := 0) (by omega)
  have hij : i ≤ j := by
    by_contra hlt
    exact hbefore j (Nat.zero_le j) (by omega) rfl
  rcases Nat.lt_or_ge i j with hlt | hge
  · exact absurd (hat (by omega)) (slot_addr_lt h hlt hj).ne
  · exact hi.trans (by rw [Nat.le_antisymm hij hge])

/-- The rest of mapping `j` once its first `k` pages are gone. -/
def shrunk (p : Proc) (j k : ℕ) : Mmp :=
  { p.slot j with
    addr := (p.slot j).addr + 4096 * k
    length := (p.slot j).length - 4096 * k }

theorem slot_releasePages (addr : BitVec 32) (n : ℕ) (i : ℤ) :
    (releasePages addr n 0 fr p).2.slot i = p.slot i := by
  obtain ⟨hmmaps, htotal⟩ := releasePages_table addr n 0 fr p
  rw [Proc.slot, Proc.slot, hmmaps, htotal]

/-- The first `k` pages of mapping `j` are gone and nothing else in the table has changed. -/
structure Shrunk (p p' : Proc) (j k : ℕ) : Prop where
  total : p'.total_mmaps = p.total_mmaps
  rest : p'.slot j = shrunk p j k
  others : ∀ i : ℕ, i ≠ j → i < 32 → p'.slot i = p.slot i

/-- A partial `my_munmap` that answers 0 moves the start and keeps the offset. -/
theorem partial_munmap (h : WellFormed p) (hj : j < p.total_mmaps)
    (hlt : 4096 * k < (p.slot j).length) {fr' : Frames} {p' : Proc} {written : ℤ}
    (hcall : my_munmap fr p (BitVec.ofNat 32 (p.slot j).addr) (BitVec.ofNat 32 (4096 * k)) written =
      (fr', p', 0)) : Shrunk p p' j k := by
  have hcount := h.count
  have huser := h.user j hj
  have haligned : (p.slot j).addr % 4096 = 0 := h.aligned j hj
  simp only [KERNBASE] at huser
  have haddr : pgRoundUp (BitVec.ofNat 32 (p.slot j).addr).toNat = (p.slot j).addr := by
    rw [BitVec.toNat_ofNat, Nat.mod_eq_of_lt (by omega), pgRoundUp_of_aligned haligned (by omega)]
  have hlength : pgRoundUp (BitVec.ofNat 32 (4096 * k)).toNat = 4096 * k := by
    rw [BitVec.toNat_ofNat, Nat.mod_eq_of_lt (by omega), pgRoundUp_of_aligned (by omega) (by omega)]
  have hj32 : (j : ℤ) ≠ 32 := by omega
  unfold my_munmap at hcall
  simp only [haddr, hlength, findSlot_start h hj] at hcall
  split_ifs at hcall with hnone hback hwhole
  · simp at hcall
  · simp at hcall
  · rw [slot_releasePages] at hwhole
    omega
  · obtain ⟨rfl, rfl⟩ : _ ∧ _ := ⟨congrArg Prod.fst hcall, congrArg (fun r => r.2.1) hcall⟩
    have htable := (releasePages_table (BitVec.ofNat 32 (p.slot j).addr) ((min (signed (4096 * k))
      (signed (p.slot j).length) + 4095) / 4096).toNat 0 fr p).2
    refine ⟨?_, ?_, fun i hi hi32 => ?_⟩
    · dsimp only
      rw [setSlot_total _ hj32, htable]
    · dsimp only
      rw [slot_setSlot_self _ hj32, slot_releasePages, shrunk]
      congr 2
      · exact_mod_cast wrap_of_lt (n := (p.slot j).addr + 4096 * k) (by omega)
      · exact wrap_sub_of_le hlt.le (by omega)
    · dsimp only
      rw [slot_setSlot_of_ne _ hj32 (by omega), slot_releasePages]

variable {p' : Proc}

theorem Shrunk.wellFormed (hs : Shrunk p p' j k) (h : WellFormed p) (hj : j < p.total_mmaps)
    (hlt : 4096 * k < (p.slot j).length) : WellFormed p' := by
  obtain ⟨htotal, hrest, hothers⟩ := hs
  have hcount := h.count
  have hslot (i : ℕ) (hi : i < p.total_mmaps) :
      (p'.slot i).addr + (p'.slot i).length = (p.slot i).addr + (p.slot i).length ∧
        (p.slot i).addr ≤ (p'.slot i).addr ∧ 0 < (p'.slot i).length ∧
        (p'.slot i).addr % 4096 = 0 := by
    have haligned : (p.slot i).addr % 4096 = 0 := h.aligned i hi
    by_cases hij : i = j
    · subst hij
      rw [hrest]
      dsimp only [shrunk]
      omega
    · rw [hothers i hij (by omega)]
      exact ⟨rfl, le_rfl, h.positive i hi, haligned⟩
  refine ⟨by rw [htotal]; exact hcount, fun i hi => ?_, fun i hi => ?_, fun i hi => ?_,
    fun i i' hii hi' => ?_⟩
  · exact (hslot i (by omega)).2.2.2
  · exact (hslot i (by omega)).2.2.1
  · rw [(hslot i (by omega)).1]
    exact h.user i (by omega)
  · have hapart := h.apart i i' hii (by omega)
    obtain ⟨hend, -⟩ := hslot i (by omega)
    obtain ⟨-, hstart, -⟩ := hslot i' (by omega)
    omega

/-- A fault in the rest of the mapping is served by it. -/
theorem Shrunk.storeOf_rest (hs : Shrunk p p' j k) (h : WellFormed p) (hj : j < p.total_mmaps)
    (hlt : 4096 * k < (p.slot j).length) (hk : 0 < k) (hx : 4096 * k ≤ x)
    (hin : x < (p.slot j).length) :
    storeOf p' ((p.slot j).addr + x) = some (faultCall p' j ((p.slot j).addr + x)) := by
  have hwf := hs.wellFormed h hj hlt
  have hinside : Inside p' ((p.slot j).addr + x) j := by
    refine ⟨by rw [hs.total]; exact hj, ?_, ?_⟩
    · rw [hs.rest]
      dsimp only [shrunk]
      omega
    · rw [hs.rest]
      dsimp only [shrunk]
      omega
  have hserver : server p' ((p.slot j).addr + x) j = j := by
    rw [server, if_neg]
    rintro ⟨hpos, hend⟩
    have hcount := h.count
    have hapart := h.apart (j - 1) j (by omega) hj
    rw [endOf, hs.others (j - 1) (by omega) (by omega)] at hend
    omega
  have hplan : planFault p' ((p.slot j).addr + x) = .store j := by
    rw [planFault, find_covers_inside hwf hinside, hserver]
  rw [storeOf, hplan]

/-- Both ways to find the file position miss the unmapped pages. -/
theorem Shrunk.positions (hs : Shrunk p p' j k) (h : WellFormed p) (hj : j < p.total_mmaps)
    (hlt : 4096 * k < (p.slot j).length) (hk : 0 < k) (hx : 4096 * k ≤ x)
    (hin : x < (p.slot j).length) (hfile : has (p.slot j).flags MAP_ANONYMOUS = false) :
    loadedFrom p' ((p.slot j).addr + x) =
        some ((p.slot j).offset + BitVec.ofNat 32 (x - 4096 * k)) ∧
      (writesBack (p.slot j).toMapping = true →
        writtenTo p' (BitVec.ofNat 32 ((p.slot j).addr + 4096 * k)) ((p.slot j).addr + x) =
          some ((p.slot j).offset + BitVec.ofNat 32 (x - 4096 * k))) := by
  have hcount := h.count
  have huser := h.user j hj
  have haligned : (p.slot j).addr % 4096 = 0 := h.aligned j hj
  simp only [KERNBASE] at huser
  constructor
  · rw [loadedFrom, hs.storeOf_rest h hj hlt hk hx hin, Option.bind_some, faultCall, hs.rest]
    have hnot : ¬ has (shrunk p j k).flags MAP_ANONYMOUS = true := fun hanon =>
      Bool.false_ne_true (hfile.symm.trans hanon)
    refine (if_neg hnot).trans ?_
    dsimp only [shrunk]
    have hsplit : BitVec.ofNat 32 (pgRoundDown ((p.slot j).addr + x)) +
        BitVec.ofNat 32 (((p.slot j).addr + x) % PGSIZE) =
        BitVec.ofNat 32 ((p.slot j).addr + 4096 * k) + BitVec.ofNat 32 (x - 4096 * k) := by
      rw [← BitVec.ofNat_add, ← BitVec.ofNat_add, pgRoundDown, PGSIZE]
      congr 1
      omega
    congr 1
    rw [BitVec.sub_eq_add_neg, BitVec.add_assoc, BitVec.add_assoc,
      BitVec.add_comm (-_) (BitVec.ofNat 32 _), ← BitVec.add_assoc (BitVec.ofNat 32 _), hsplit,
      BitVec.add_comm (BitVec.ofNat 32 ((p.slot j).addr + 4096 * k)), BitVec.add_assoc,
      ← BitVec.sub_eq_add_neg, BitVec.sub_self, BitVec.add_zero]
  · intro hback
    have hslot : (p'.slot j).addr = (p.slot j).addr + 4096 * k := by rw [hs.rest, shrunk]
    have haddr : pgRoundUp (BitVec.ofNat 32 ((p.slot j).addr + 4096 * k)).toNat =
        (p'.slot j).addr := by
      rw [BitVec.toNat_ofNat, Nat.mod_eq_of_lt (by omega),
        pgRoundUp_of_aligned (by omega) (by omega), hslot]
    have hsigned : signed (p'.slot j).length ≠ 0 := by
      rw [hs.rest, signed]
      dsimp only [shrunk]
      split_ifs <;> omega
    have hwf := hs.wellFormed h hj hlt
    have hfind := findSlot_start hwf (by rw [hs.total]; exact hj)
    rw [writtenTo, writeCall]
    simp only [haddr, hfind]
    have hfound : ¬ ((j : ℤ) = 32 ∨ signed (p'.slot j).length = 0) := by
      rintro (h32 | h0)
      · omega
      · exact hsigned h0
    have hback' : writesBack (shrunk p j k).toMapping = true := hback
    rw [if_neg hfound, hs.rest, if_pos hback', Option.bind_some]
    have hcovered : (shrunk p j k).addr ≤ (p.slot j).addr + x ∧
        (p.slot j).addr + x < (shrunk p j k).addr + (shrunk p j k).length := by
      dsimp only [shrunk]
      omega
    refine (if_pos hcovered).trans ?_
    dsimp only [shrunk]
    congr 3
    omega

/-- After the first `k` pages of a file mapping are unmapped, no address of the rest belongs to
its file position any more. -/
theorem rest_loses_position {fr fr' : Frames} {written : ℤ} (h : WellFormed p)
    (hj : j < p.total_mmaps) (hfile : has (p.slot j).flags MAP_ANONYMOUS = false) (hk : 0 < k)
    (hlt : 4096 * k < (p.slot j).length)
    (hcall : my_munmap fr p (BitVec.ofNat 32 (p.slot j).addr) (BitVec.ofNat 32 (4096 * k)) written =
      (fr', p', 0)) :
    ∀ x, 4096 * k ≤ x → x < (p.slot j).length → ¬ Corresponds p' (p.slot j).toMapping
      (BitVec.ofNat 32 ((p.slot j).addr + 4096 * k)) x := by
  intro x hx hin hcorr
  have hs := partial_munmap h hj hlt hcall
  have huser := h.user j hj
  simp only [KERNBASE] at huser
  have hloaded := (hs.positions h hj hlt hk hx hin hfile).1.symm.trans hcorr.1
  have hsame : BitVec.ofNat 32 (x - 4096 * k) = BitVec.ofNat 32 x :=
    BitVec.add_right_inj _ |>.mp (Option.some.inj hloaded)
  have hnat := congrArg BitVec.toNat hsame
  rw [BitVec.toNat_ofNat, BitVec.toNat_ofNat, Nat.mod_eq_of_lt (by omega),
    Nat.mod_eq_of_lt (by omega)] at hnat
  omega

end Rest

/-- A writable shared mapping of two pages of a file, from its start. -/
def twoPages : Proc :=
  ⟨fun k => if k = 0 then
      { Mmp.zero with addr := MMAPBASE, length := 8192, flags := 2, prot := 6, f := some 0 }
    else Mmp.zero, 1, fun _ => none, false⟩

theorem twoPages_wellFormed : WellFormed twoPages := by
  have hone : ∀ i : ℕ, i < twoPages.total_mmaps → i = 0 := fun i hi => by
    have : twoPages.total_mmaps = 1 := rfl
    omega
  refine ⟨by decide, fun i hi => ?_, fun i hi => ?_, fun i hi => ?_, fun i i' hii hi' => ?_⟩
  · rw [hone i hi]
    decide
  · rw [hone i hi]
    decide
  · rw [hone i hi]
    decide
  · exact absurd (hone i' hi') (by omega)

theorem first_page_unmapped :
    ¬ Corresponds (my_munmap ⟨fun _ => false, false⟩ twoPages 0x60000000 4096 8192).2.1
      (twoPages.slot 0).toMapping 0x60001000 4096 :=
  rest_loses_position twoPages_wellFormed (j := 0) (k := 1) (by decide) (by decide) (by decide)
    (by decide) (Prod.ext rfl (Prod.ext rfl (by decide +kernel))) 4096 (by decide) (by decide)

/-- The second page of the file is loaded from, and written to, its first page. -/
theorem second_page_displaced :
    (my_munmap ⟨fun _ => false, false⟩ twoPages 0x60000000 4096 8192).2.2 = 0 ∧
      ¬ ∀ x, 4096 ≤ x → x < 8192 →
        Corresponds (my_munmap ⟨fun _ => false, false⟩ twoPages 0x60000000 4096 8192).2.1
          (twoPages.slot 0).toMapping 0x60001000 x := by
  refine ⟨by decide +kernel, fun hall => ?_⟩
  exact absurd (hall 4096 le_rfl (by decide)).1 (by decide +kernel)

end MmapPositions
