import OsProjects.MmapFaults
import Mathlib.Data.List.GetD

/-! # What a load leaves in a page

A page of a file comes from a page cache that agrees with the files; an anonymous page is
cleared; no other frame changes.
-/
namespace MmapFills

open Word32 MmapTable MmapMemory MmapFaults ByteMemory

/-- The page cache agrees with the files, its locks are free, and `f` has the bytes `d`. -/
structure Cached (fs : Files) (f : ℕ) (d : List UInt8) (c : PageCache.State) : Prop where
  invariant : PageCoherence.Invariant fs.frames c
  unlocked : ∀ i, (c.pages i).locked = false
  data : c.data (fs.inode f) = d
  inum : (fs.inode f).inum ≠ 0

section Cache

variable {fs : Files} {f k n : ℕ} {d : List UInt8} {c c' : PageCache.State}

theorem Cached.length_le (h : Cached fs f d c) : d.length ≤ PageCache.MAXSIZE := by
  rw [← h.data]
  exact h.invariant.bounded _

theorem page_tmod (hk : 4096 * k ≤ PageCache.MAXSIZE) :
    (BitVec.ofNat 32 (4096 * k)).toInt = ((4096 * k : ℕ) : ℤ) ∧
      (BitVec.ofNat 32 (4096 * k)).toInt.tmod (4096 : ℕ) = 0 := by
  have hint : (BitVec.ofNat 32 (4096 * k)).toInt = ((4096 * k : ℕ) : ℤ) := by
    simp only [PageCache.MAXSIZE] at hk
    rw [BitVec.toInt_eq_toNat_of_lt (by rw [BitVec.toNat_ofNat]; omega), BitVec.toNat_ofNat,
      Nat.mod_eq_of_lt (by omega)]
  refine ⟨hint, ?_⟩
  rw [hint, Int.tmod_eq_emod_of_nonneg (by omega)]
  omega

theorem pageOffset_page (hk : 4096 * k ≤ PageCache.MAXSIZE) :
    PageCache.pageOffset (BitVec.ofNat 32 (4096 * k)) = ((4096 * k : ℕ) : ℤ) := by
  obtain ⟨hint, hmod⟩ := page_tmod hk
  rw [PageCache.pageOffset, hmod, hint, sub_zero]

/-- A page of the file is found or loaded, and only its slot is locked afterwards. -/
theorem getPage_of_file (h : Cached fs f d c) (hk : 4096 * k ≤ d.length) :
    ∃ c' i, PageCache.getPage fs.frames c (fs.inode f) (BitVec.ofNat 32 (4096 * k)) =
        some (c', some i) ∧
      PageCache.Matches (c'.pages i) (fs.inode f) ((4096 * k : ℕ) : ℤ) = true ∧
      (∀ j, j ≠ i → c'.pages j = c.pages j) ∧ c'.data = c.data := by
  have hmax := h.length_le
  have hoff := pageOffset_page (k := k) (hk.trans hmax)
  unfold PageCache.getPage
  rw [hoff]
  split
  next i hfound =>
    rw [if_neg (by rw [h.unlocked i]; decide)]
    refine ⟨_, i, rfl, ?_, fun j hj => Function.update_of_ne hj .., rfl⟩
    have hmatch := PageCoherence.matches_iff.mp (PageCoherence.findPage_some hfound)
    simpa [PageCache.State.setPage, PageCoherence.matches_iff] using hmatch
  next hnone =>
    have hread : PageCache.readi (c.data (fs.inode f)) (wrap ((4096 * k : ℕ) : ℤ))
        PageCache.PGSIZE = some ((d.drop (4096 * k)).take PageCache.PGSIZE) := by
      simp only [PageCache.MAXSIZE] at hmax
      rw [wrap_of_lt (by omega), h.data, PageCache.readi,
        if_neg (by simp only [PageCache.PGSIZE]; omega)]
    simp only [h.unlocked, hread]
    refine ⟨_, c.totalCount, rfl, ?_, fun j hj => Function.update_of_ne hj .., rfl⟩
    simp [PageCache.State.setPage, PageCoherence.matches_iff]

theorem copyPage_of_file (h : Cached fs f d c) (hk : 4096 * k ≤ d.length) (hn : n ≤ 4096) :
    ∃ c' bytes, PageCache.copyPage fs.frames c (fs.inode f) (BitVec.ofNat 32 (4096 * k)) n 0 =
        some (c', bytes) ∧ Cached fs f d c' ∧ bytes.length = n ∧
      ∀ j, j < n → bytes.getD j 0 = d.getD (4096 * k + j) 0 := by
  obtain ⟨c', i, hget, hmatch, hothers, hdata⟩ := getPage_of_file h hk
  have hsafe : PageCoherence.LoadSafe c (fs.inode f) (BitVec.ofNat 32 (4096 * k)) := by
    intro _ hlong
    have hmax := h.length_le
    rw [pageOffset_page (hk.trans hmax), h.data, wrap_of_lt (by
      simp only [PageCache.MAXSIZE] at hmax; omega)] at hlong
    omega
  have hinv := PageCoherence.getPage_invariant h.invariant hsafe hget
  obtain ⟨hnum, hoff, hdev⟩ := PageCoherence.matches_iff.mp hmatch
  obtain ⟨o, ho, hholds⟩ := hinv.coherent.1 i (by rw [hnum]; exact h.inum)
  have ho : o = 4096 * k := by exact_mod_cast ho.symm.trans hoff
  have hfile : c'.data (PageCoherence.CachedPage.inode (c'.pages i)) = d := by
    rw [PageCoherence.inode_eq_iff.mpr ⟨hdev, hnum⟩, hdata, h.data]
  refine ⟨PageCache.releasesleep c' i, loadBytes c'.mem (fs.frames.base i + 0) n,
    by rw [PageCache.copyPage, hget], ⟨hinv.setLocked i false, fun j => ?_, ?_, h.inum⟩,
    loadBytes_length, fun j hj => ?_⟩
  · rcases eq_or_ne j i with rfl | hj
    · simp [PageCache.releasesleep, PageCache.State.setPage]
    · have hkept : (PageCache.releasesleep c' i).pages j = c'.pages j := Function.update_of_ne hj ..
      rw [hkept, hothers j hj]
      exact h.unlocked j
  · exact (congrFun hdata _).trans h.data
  · rw [List.getD_eq_getElem _ _ (by simpa using hj), loadBytes_getElem, Nat.add_zero,
      hholds j (by simp only [PageCache.PGSIZE]; omega), hfile, ho]

end Cache

/-- The frame holds `byte`, and no other frame has changed. -/
def Filled (byte : ℕ → UInt8) (frame : ℕ) (m m' : Mem) : Prop :=
  ∀ x y, y < PGSIZE → m' (x * PGSIZE + y) = if x = frame then byte y else m (x * PGSIZE + y)

section Fill

variable {fs : Files} {f k n : ℕ} {d : List UInt8} {r : Ram}

theorem frame_range (frame : ℕ) {x y : ℕ} (hy : y < PGSIZE) :
    (frame * PGSIZE ≤ x * PGSIZE + y ∧ x * PGSIZE + y < frame * PGSIZE + PGSIZE) ↔ x = frame := by
  simp only [PGSIZE] at *
  omega

/-- A cleared page that then receives `bytes`. -/
theorem filled_bytes (frame : ℕ) (m : Mem) {bytes : List UInt8} (hlen : bytes.length ≤ PGSIZE) :
    Filled (fun y => bytes.getD y 0) frame m
      (storeBytes (storeBytes m (frame * PGSIZE) (List.replicate PGSIZE 0)) (frame * PGSIZE)
        bytes) := by
  intro x y hy
  split_ifs with hx
  · subst x
    by_cases hin : y < bytes.length
    · rw [storeBytes_inside hin]
      exact (List.getD_eq_getElem _ _ hin).symm
    · rw [storeBytes_outside (by omega), storeBytes_inside (by simpa using hy)]
      exact (List.getElem_replicate _).trans (List.getD_eq_default _ _ (by omega)).symm
  · have hout := mt (frame_range frame hy).mp hx
    rw [storeBytes_outside (by omega), storeBytes_outside (by simp only [List.length_replicate]; omega)]

theorem cleared_filled (r : Ram) (frame : ℕ) : Filled (fun _ => 0) frame r.mem (clearPage r frame).mem := by
  intro x y hy
  have hnone : ([] : List UInt8).length ≤ PGSIZE := by decide
  have := filled_bytes frame r.mem hnone x y hy
  rw [storeBytes_outside (by simp only [List.length_nil]; omega)] at this
  simpa [clearPage] using this

/-- The byte that a load of `n` bytes from page `k` of the file leaves at `y`. -/
def loadedByte (d : List UInt8) (k n y : ℕ) : UInt8 := if y < n then d.getD (4096 * k + y) 0 else 0

theorem readPage_nothing {fuel dest : ℕ} {offset : BitVec 32} :
    readPage fs f fuel dest 0 offset r = some r := by
  cases fuel <;> rfl

theorem fileFill_loads (frame : ℕ) (h : Cached fs f d r.cache) (hk : 4096 * k ≤ d.length) (hpos : 0 < n)
    (hn : n ≤ 4096) : ∃ r', fileFill fs f (BitVec.ofNat 32 (4096 * k)) n 0 r frame = some r' ∧
      r'.memory = r.memory ∧ Cached fs f d r'.cache ∧
      Filled (loadedByte d k n) frame r.mem r'.mem := by
  obtain ⟨c', bytes, hcopy, hcached, hlen, hbytes⟩ := copyPage_of_file h hk hn
  have hmod : (BitVec.ofNat 32 (4096 * k)).toInt.tmod (PGSIZE : ℕ) = 0 :=
    (page_tmod (hk.trans h.length_le)).2
  have hread : readPage fs f n (frame * PGSIZE) n (BitVec.ofNat 32 (4096 * k)) (clearPage r frame) =
      some { clearPage r frame with
        cache := c', mem := storeBytes (clearPage r frame).mem (frame * PGSIZE) bytes } := by
    obtain ⟨fuel, rfl⟩ : ∃ fuel, n = fuel + 1 := ⟨n - 1, by omega⟩
    have hlength : (if (PGSIZE : ℤ) - 0 < (fuel + 1 : ℕ) then ((PGSIZE : ℤ) - 0).toNat
        else fuel + 1) = fuel + 1 := by
      rw [if_neg (by simp only [PGSIZE]; omega)]
    rw [readPage, if_neg (by omega)]
    simp only [hmod, hlength]
    rw [if_neg (by omega)]
    have hcopy : PageCache.copyPage fs.frames (clearPage r frame).cache (fs.inode f)
        (BitVec.ofNat 32 (4096 * k)) (fuel + 1) (Int.toNat 0) = some (c', bytes) := hcopy
    rw [hcopy, Nat.sub_self]
    exact readPage_nothing
  refine ⟨{ clearPage r frame with
    cache := c', mem := storeBytes (clearPage r frame).mem (frame * PGSIZE) bytes },
    ?_, rfl, hcached, fun x y hy => ?_⟩
  · have htoRead : (if n - 0 < PGSIZE then n - 0 else PGSIZE) = n := by
      simp only [PGSIZE]
      split_ifs <;> omega
    rw [fileFill, htoRead]
    simpa using hread
  · have hfilled := filled_bytes frame r.mem (hlen.trans_le hn) x y hy
    refine hfilled.trans ?_
    congr 1
    rw [loadedByte]
    split_ifs with hin
    · exact hbytes y hin
    · exact List.getD_eq_default _ _ (by omega)

end Fill

end MmapFills
