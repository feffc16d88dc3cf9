import OsProjects.MmapFills

/-! # Loading one page from any offset of a file

`map_pagecache_page` fills one frame from two pages of the file when the offset is not page
aligned. The second round of its inner loop stores one page behind the first.
-/
namespace MmapOffsets

open Word32 MmapTable MmapMemory MmapFills ByteMemory
open MmapFrames (Answer Memory kalloc)

/-- The address is that of page number `page`. -/
def map_pagecache_page (fs : Files) (r : Ram) (p : Space) (f page : ℕ)
    (protection offset : BitVec 32) (length : ℤ) : Option (Ram × Space × Bool) :=
  storePages (fileFill fs f offset length.toNat) protection ((length + 4095) / 4096).toNat page 0
    r p

/-- No page behind the end of the file is cached. -/
def Within (c : PageCache.State) (ip : PageCache.Inode) (d : List UInt8) : Prop :=
  ∀ t, PageCoherence.Cached c ip t → wrap t ≤ d.length

/-- The byte that a mapping of `length` bytes from `offset` has at `y`. -/
def wanted (d : List UInt8) (offset length y : ℕ) : UInt8 :=
  if y < length then d.getD (offset + y) 0 else 0

/-- The frame that the call maps is filled from the file, and no other one changes. -/
def LoadsRight (fs : Files) (d : List UInt8) (r : Ram) (p : Space) (f page : ℕ)
    (protection offset : BitVec 32) (length : ℕ) : Prop :=
  ∃ r' p' frame, map_pagecache_page fs r p f page protection offset length = some (r', p', true) ∧
    p'.proc.pgdir page = some frame ∧
    Filled (wanted d offset.toNat length) frame r.mem r'.mem

def withMem (r : Ram) (m : Mem) : Ram := { r with mem := m }

/-- Where the next page of the file starts. -/
def nextPage (offset : ℕ) : ℕ := (offset / 4096 + 1) * 4096

section Cache

variable {fs : Files} {f n : ℕ} {d : List UInt8} {c c' : PageCache.State} {offset : BitVec 32}

theorem offset_tmod (ho : 0 ≤ offset.toInt) :
    offset.toInt.tmod (4096 : ℕ) = ((offset.toNat % 4096 : ℕ) : ℤ) ∧
      PageCache.pageOffset offset = ((offset.toNat / 4096 * 4096 : ℕ) : ℤ) ∧
      offset.toNat < 2147483648 := by
  have hsmall : offset.toNat < 2147483648 := by
    rw [BitVec.toInt_eq_toNat_cond] at ho
    split_ifs at ho <;> omega
  have hint : offset.toInt = offset.toNat := BitVec.toInt_eq_toNat_of_lt (by omega)
  have hmod : offset.toInt.tmod (4096 : ℕ) = ((offset.toNat % 4096 : ℕ) : ℤ) := by
    rw [hint, Int.tmod_eq_emod_of_nonneg (by omega)]
    omega
  refine ⟨hmod, ?_, hsmall⟩
  rw [PageCache.pageOffset, hmod, hint]
  omega

/-- The page that follows that of `offset`; its start may not fit an int any more. -/
theorem next_tmod (ho : 0 ≤ offset.toInt) :
    ∃ next : BitVec 32, next = offset + BitVec.ofNat 32 (4096 - offset.toNat % 4096) ∧
      next.toNat = nextPage offset.toNat ∧ next.toInt.tmod (4096 : ℕ) = 0 ∧
      wrap (PageCache.pageOffset next) = nextPage offset.toNat := by
  obtain ⟨-, -, hsmall⟩ := offset_tmod ho
  have hnat : (offset + BitVec.ofNat 32 (4096 - offset.toNat % 4096)).toNat =
      nextPage offset.toNat := by
    rw [BitVec.toNat_add, BitVec.toNat_ofNat, nextPage]
    omega
  refine ⟨_, rfl, hnat, ?_⟩
  generalize offset + BitVec.ofNat 32 (4096 - offset.toNat % 4096) = next at hnat
  have hmod : next.toInt.tmod (4096 : ℕ) = 0 := by
    refine Int.tmod_eq_zero_of_dvd ?_
    rw [BitVec.toInt_eq_toNat_cond, hnat, nextPage]
    split_ifs <;> omega
  refine ⟨hmod, ?_⟩
  rw [PageCache.pageOffset, hmod, sub_zero, BitVec.toInt_eq_toNat_cond, hnat, wrap]
  unfold nextPage
  split_ifs <;> omega

/-- The bytes of a page of the file that a round asks for. -/
theorem copyPage_inside (h : Cached fs f d c) (hwithin : Within c (fs.inode f) d)
    (ho : 0 ≤ offset.toInt) (hbase : offset.toNat / 4096 * 4096 ≤ d.length)
    (hn : offset.toNat % 4096 + n ≤ 4096) :
    ∃ c' bytes, PageCache.copyPage fs.frames c (fs.inode f) offset n (offset.toNat % 4096) =
        some (c', bytes) ∧ Cached fs f d c' ∧ Within c' (fs.inode f) d ∧ bytes.length = n ∧
      ∀ j, j < n → bytes.getD j 0 = d.getD (offset.toNat + j) 0 := by
  obtain ⟨-, htag, hsmall⟩ := offset_tmod ho
  have hmax := h.length_le
  have hk : 4096 * (offset.toNat / 4096) ≤ d.length := by omega
  have hsame : PageCache.pageOffset offset =
      PageCache.pageOffset (BitVec.ofNat 32 (4096 * (offset.toNat / 4096))) := by
    rw [htag, pageOffset_page (hk.trans hmax), Nat.mul_comm]
  obtain ⟨c', i, hget, hmatch, hothers, hdata⟩ := getPage_of_file h hk
  have hget : PageCache.getPage fs.frames c (fs.inode f) offset = some (c', some i) := by
    rw [← hget]
    unfold PageCache.getPage
    rw [hsame]
  have hsafe : PageCoherence.LoadSafe c (fs.inode f) offset := by
    intro _ hlong
    rw [h.data, htag, wrap_of_lt (by omega)] at hlong
    omega
  have hinv := PageCoherence.getPage_invariant h.invariant hsafe hget
  obtain ⟨hnum, hoff, hdev⟩ := PageCoherence.matches_iff.mp hmatch
  obtain ⟨o, ho', hholds⟩ := hinv.coherent.1 i (by rw [hnum]; exact h.inum)
  have ho' : o = 4096 * (offset.toNat / 4096) := by exact_mod_cast ho'.symm.trans hoff
  have hfile : c'.data (PageCoherence.CachedPage.inode (c'.pages i)) = d := by
    rw [PageCoherence.inode_eq_iff.mpr ⟨hdev, hnum⟩, hdata, h.data]
  have hreleased : ∀ j, (PageCache.releasesleep c' i).pages j = if j = i then
      { c'.pages i with locked := false } else c.pages j := by
    intro j
    split_ifs with hj
    · subst hj
      exact Function.update_self ..
    · exact (Function.update_of_ne hj ..).trans (hothers j hj)
  refine ⟨PageCache.releasesleep c' i, loadBytes c'.mem (fs.frames.base i + offset.toNat % 4096) n,
    by rw [PageCache.copyPage, hget], ⟨hinv.setLocked i false, fun j => ?_, ?_, h.inum⟩, ?_,
    loadBytes_length, fun j hj => ?_⟩
  · rw [hreleased]
    split_ifs
    · rfl
    · exact h.unlocked j
  · exact (congrFun hdata _).trans h.data
  · rintro t ⟨j, hj⟩
    rw [hreleased] at hj
    split_ifs at hj with hji
    · have ht : t = ((4096 * (offset.toNat / 4096) : ℕ) : ℤ) :=
        (PageCoherence.matches_iff.mp hj).2.1.symm.trans hoff
      rw [ht, wrap_of_lt (by omega)]
      exact hk
    · exact hwithin t ⟨j, hj⟩
  · rw [List.getD_eq_getElem _ _ (by simpa using hj), loadBytes_getElem, Nat.add_assoc,
      hholds _ (by simp only [PageCache.PGSIZE]; omega), hfile, ho']
    congr 1
    omega

/-- A page behind the end of the file cannot be read, and nothing is copied. -/
theorem copyPage_beyond (offset : BitVec 32) (size dest : ℕ) (hdata : c.data (fs.inode f) = d)
    (hwithin : Within c (fs.inode f) d) (hfar : d.length < wrap (PageCache.pageOffset offset))
    (hfree : (c.pages c.totalCount).locked = false) :
    ∃ c', PageCache.copyPage fs.frames c (fs.inode f) offset size dest = some (c', []) ∧
      c'.data = c.data ∧ c'.totalCount = c.totalCount + 1 ∧ Within c' (fs.inode f) d ∧
      ∀ j, j ≠ c.totalCount → c'.pages j = c.pages j := by
  have hmiss : PageCache.findPage c (fs.inode f) (PageCache.pageOffset offset) = none := by
    rcases hfound : PageCache.findPage c (fs.inode f) (PageCache.pageOffset offset) with _ | i
    · rfl
    · exact absurd (hwithin _ ⟨i, PageCoherence.findPage_some hfound⟩) (by omega)
  have hread : PageCache.readi (c.data (fs.inode f)) (wrap (PageCache.pageOffset offset))
      PageCache.PGSIZE = none := by
    rw [PageCache.readi, if_pos (.inl (by rw [hdata]; exact hfar))]
  unfold PageCache.copyPage PageCache.getPage
  simp only [hmiss, hfree, Bool.false_eq_true, if_false, hread]
  refine ⟨_, rfl, rfl, rfl, ?_, fun j hj => Function.update_of_ne hj ..⟩
  rintro t ⟨j, hj⟩
  rcases eq_or_ne j c.totalCount with rfl | hne
  · refine hwithin t ⟨c.totalCount, ?_⟩
    have hmatch := PageCoherence.matches_iff.mp hj
    simp only [PageCache.State.setPage, Function.update_self] at hmatch
    exact PageCoherence.matches_iff.mpr hmatch
  · refine hwithin t ⟨j, ?_⟩
    simpa [PageCache.State.setPage, Function.update_of_ne hne] using hj

end Cache

section Rounds

variable {fs : Files} {f n po frame : ℕ} {d : List UInt8} {c : PageCache.State} {r : Ram}
  {offset : BitVec 32}

/-- What a round leaves: the cache moves on and `bytes` are stored at `dest`. -/
def stored (r : Ram) (c : PageCache.State) (dest : ℕ) (bytes : List UInt8) : Ram :=
  { r with cache := c, mem := storeBytes r.mem dest bytes }

theorem readPage_past {fuel dest : ℕ} (hmod : offset.toInt.tmod (4096 : ℕ) = (po : ℤ))
    (hpast : (r.cache.data (fs.inode f)).length < po) :
    readPage fs f (fuel + 1) dest n offset r = some r := by
  rw [readPage]
  by_cases hn : n = 0
  · rw [if_pos hn]
  · rw [if_neg hn]
    simp only [PGSIZE, hmod]
    rw [if_pos (.inr (by omega))]

theorem readPage_round (fuel dest : ℕ) {c' : PageCache.State} {bytes : List UInt8}
    (hmod : offset.toInt.tmod (4096 : ℕ) = (po : ℤ)) (hpo : po < 4096) (hn : n ≠ 0)
    (hin : po ≤ (r.cache.data (fs.inode f)).length)
    (hcopy : PageCache.copyPage fs.frames r.cache (fs.inode f) offset (min (4096 - po) n) po =
      some (c', bytes)) :
    readPage fs f (fuel + 1) dest n offset r =
      readPage fs f fuel (dest + 4096) (n - min (4096 - po) n)
        (offset + BitVec.ofNat 32 (min (4096 - po) n)) (stored r c' dest bytes) := by
  have hlength : (if ((4096 : ℕ) : ℤ) - (po : ℤ) < (n : ℤ) then (((4096 : ℕ) : ℤ) - po).toNat
      else n) = min (4096 - po) n := by
    split_ifs <;> omega
  rw [readPage, if_neg hn]
  simp only [PGSIZE, hmod, hlength, Int.toNat_natCast]
  rw [if_neg (by omega), hcopy]
  rfl

/-- The second round loads the start of the next page, if the file has such a page. -/
theorem second_round (hdata : c.data (fs.inode f) = d) (hwithin : Within c (fs.inode f) d)
    (hfree : (c.pages c.totalCount).locked = false)
    (hcached : nextPage offset.toNat ≤ d.length → Cached fs f d c) (ho : 0 ≤ offset.toInt)
    (hpos : 0 < n) (hn : n ≤ 4096) :
    ∃ c' bytes, bytes.length = (if nextPage offset.toNat ≤ d.length then n else 0) ∧
      ∀ (r : Ram) (fuel dest : ℕ), r.cache = c → readPage fs f (fuel + 1) dest n
        (offset + BitVec.ofNat 32 (4096 - offset.toNat % 4096)) r =
          some (stored r c' dest bytes) := by
  obtain ⟨next, hnext, hnat, hmod, hwrap⟩ := next_tmod ho
  have hmod : next.toInt.tmod (4096 : ℕ) = ((0 : ℕ) : ℤ) := hmod
  rw [← hnext]
  have hmin : min (4096 - 0) n = n := by omega
  suffices h : ∃ c' bytes, bytes.length = (if nextPage offset.toNat ≤ d.length then n else 0) ∧
      PageCache.copyPage fs.frames c (fs.inode f) next n 0 = some (c', bytes) by
    obtain ⟨c', bytes, hlen, hcopy⟩ := h
    refine ⟨c', bytes, hlen, fun r fuel dest hr => ?_⟩
    subst hr
    rw [readPage_round fuel dest hmod (by omega) (by omega) (Nat.zero_le _) (by rw [hmin]; exact hcopy),
      hmin, Nat.sub_self]
    exact readPage_nothing
  split_ifs with hfile
  · have hmax := (hcached hfile).length_le
    simp only [PageCache.MAXSIZE] at hmax
    have hint : 0 ≤ next.toInt := by
      rw [BitVec.toInt_eq_toNat_of_lt (by omega)]
      omega
    have haligned : next.toNat % 4096 = 0 := by
      rw [hnat, nextPage]
      omega
    obtain ⟨c', bytes, hcopy, -, -, hlen, -⟩ := copyPage_inside (n := n) (hcached hfile) hwithin hint
      (by omega) (by omega)
    rw [haligned] at hcopy
    exact ⟨c', bytes, hlen, hcopy⟩
  · obtain ⟨c', hcopy, -⟩ := copyPage_beyond next n 0 hdata hwithin (by omega) hfree
    exact ⟨c', [], rfl, hcopy⟩

theorem mem_getD {l : List UInt8} {y : ℕ} (h : l.length ≤ y) : l.getD y 0 = 0 :=
  List.getD_eq_default _ _ h

/-- Both rounds together, whatever the memory holds before. -/
theorem fileFill_rounds (frame : ℕ) (h : Cached fs f d c) (hwithin : Within c (fs.inode f) d)
    (ho : 0 ≤ offset.toInt) (hpos : 0 < n) (hn : n ≤ 4096) :
    ∃ c' first second,
      (∀ r : Ram, r.cache = c → fileFill fs f offset n 0 r frame =
        some (stored (stored (clearPage r frame) c' (frame * 4096) first) c' (frame * 4096 + 4096)
          second)) ∧
      first.length ≤ 4096 ∧
      (∀ y, first.getD y 0 =
        if offset.toNat % 4096 + y < 4096 then wanted d offset.toNat n y else 0) ∧
      (0 < second.length ↔
        4096 < offset.toNat % 4096 + n ∧ nextPage offset.toNat ≤ d.length) := by
  obtain ⟨hmod, htag, hsmall⟩ := offset_tmod ho
  obtain ⟨fuel, rfl⟩ : ∃ fuel, n = fuel + 1 := ⟨n - 1, by omega⟩
  have hfill (r : Ram) : fileFill fs f offset (fuel + 1) 0 r frame =
      readPage fs f (fuel + 1) (frame * 4096) (fuel + 1) offset (clearPage r frame) := by
    have hlength : (if fuel + 1 - 0 < PGSIZE then fuel + 1 - 0 else PGSIZE) = fuel + 1 := by
      simp only [PGSIZE]
      split_ifs <;> omega
    rw [fileFill, hlength, BitVec.add_zero]
  have hnothing (y : ℕ) (hy : d.length ≤ offset.toNat + y) :
      wanted d offset.toNat (fuel + 1) y = 0 := by
    rw [wanted, mem_getD hy, ite_self]
  have hnext : nextPage offset.toNat = offset.toNat / 4096 * 4096 + 4096 := by
    unfold nextPage
    omega
  rcases Nat.lt_or_ge d.length (offset.toNat % 4096) with hpast | hin
  · refine ⟨c, [], [], fun r hr => ?_, Nat.zero_le _, fun y => ?_, ?_⟩
    · subst hr
      rw [hfill, readPage_past hmod (by rw [← h.data] at hpast; exact hpast)]
      simp only [stored, storeBytes_nil]
      rfl
    · rw [hnothing y (by omega), ite_self]
      rfl
    · simp only [List.length_nil, lt_irrefl, false_iff, not_and, not_le]
      omega
  have hdata : ∀ r : Ram, r.cache = c →
      offset.toNat % 4096 ≤ ((clearPage r frame).cache.data (fs.inode f)).length := by
    intro r hr
    subst hr
    rw [← h.data] at hin
    exact hin
  suffices hfirst : ∃ c₁ first, PageCache.copyPage fs.frames c (fs.inode f) offset
        (min (4096 - offset.toNat % 4096) (fuel + 1)) (offset.toNat % 4096) = some (c₁, first) ∧
      c₁.data (fs.inode f) = d ∧ Within c₁ (fs.inode f) d ∧
      (c₁.pages c₁.totalCount).locked = false ∧
      (nextPage offset.toNat ≤ d.length → Cached fs f d c₁) ∧ first.length ≤ 4096 ∧
      ∀ y, first.getD y 0 =
        if offset.toNat % 4096 + y < 4096 then wanted d offset.toNat (fuel + 1) y else 0 by
    obtain ⟨c₁, first, hcopy, hdata₁, hwithin₁, hfree₁, hcached₁, hlen, hbytes⟩ := hfirst
    have hround (r : Ram) (hr : r.cache = c) := readPage_round (r := clearPage r frame) fuel
      (frame * 4096) hmod (Nat.mod_lt _ (by decide)) (Nat.succ_ne_zero fuel) (hdata r hr)
      (by subst hr; exact hcopy)
    rcases Nat.lt_or_ge 4096 (offset.toNat % 4096 + (fuel + 1)) with hmore | hone
    · have hmin : min (4096 - offset.toNat % 4096) (fuel + 1) = 4096 - offset.toNat % 4096 := by
        omega
      obtain ⟨c', second, hsecond, hrest⟩ := second_round
        (n := fuel + 1 - (4096 - offset.toNat % 4096)) hdata₁ hwithin₁ hfree₁ hcached₁ ho (by omega)
        (by omega)
      refine ⟨c', first, second, fun r hr => ?_, hlen, hbytes, ?_⟩
      · obtain ⟨k, rfl⟩ : ∃ k, fuel = k + 1 := ⟨fuel - 1, by omega⟩
        rw [hfill, hround r hr, hmin, hrest _ _ _ rfl]
        rfl
      · rw [hsecond]
        split_ifs with hfile
        · simp only [hmore, hfile, and_self, iff_true]
          omega
        · simp [hfile]
    · have hmin : min (4096 - offset.toNat % 4096) (fuel + 1) = fuel + 1 := by omega
      refine ⟨c₁, first, [], fun r hr => ?_, hlen, hbytes, ?_⟩
      · rw [hfill, hround r hr, hmin, Nat.sub_self, readPage_nothing]
        simp only [stored, storeBytes_nil]
      · simp only [List.length_nil, lt_irrefl, false_iff, not_and, not_le]
        omega
  rcases Nat.lt_or_ge d.length (offset.toNat / 4096 * 4096) with hfar | hbase
  · obtain ⟨c₁, hcopy, hdata₁, hcount, hwithin₁, hothers⟩ := copyPage_beyond offset
      (min (4096 - offset.toNat % 4096) (fuel + 1)) (offset.toNat % 4096) h.data hwithin
      (by rw [htag, wrap_of_lt (by omega)]; exact hfar) (h.unlocked _)
    refine ⟨c₁, [], hcopy, (congrFun hdata₁ _).trans h.data, hwithin₁, ?_, fun hnext => by omega,
      Nat.zero_le _, fun y => ?_⟩
    · have hother : ∀ v : PageCache.Slot, v + 1 ≠ v := by decide
      rw [hcount, hothers _ (hother _)]
      exact h.unlocked _
    · rw [hnothing y (by omega), ite_self]
      rfl
  · obtain ⟨c₁, first, hcopy, hcached₁, hwithin₁, hlen, hbytes⟩ := copyPage_inside
      (n := min (4096 - offset.toNat % 4096) (fuel + 1)) h hwithin ho hbase (by omega)
    refine ⟨c₁, first, hcopy, hcached₁.data, hwithin₁, hcached₁.unlocked _, fun _ => hcached₁,
      by omega, fun y => ?_⟩
    rcases Nat.lt_or_ge y first.length with hy | hy
    · rw [hbytes y (by omega), if_pos (by omega), wanted, if_pos (by omega)]
    · rw [mem_getD hy, wanted]
      split_ifs <;> first | rfl | omega

end Rounds

section Loads

variable {fs : Files} {f n page frame : ℕ} {d : List UInt8} {r : Ram} {p : Space}
  {protection offset : BitVec 32} {answers : List Answer} {k : Frames}

/-- One page is loaded and entered when the allocator and `mappages` have what they need. -/
theorem map_pagecache_page_fresh (protection : BitVec 32) {r' : Ram} (hpos : 0 < n) (hn : n ≤ 4096)
    (hanswers : r.memory.answers = ⟨frame, true⟩ :: answers)
    (halloc : kalloc r.memory.frames frame = some k) (hpage : p.proc.pgdir page = none)
    (hfill : fileFill fs f offset n 0 { r with memory := ⟨k, answers⟩ } frame = some r') :
    ∃ p', map_pagecache_page fs r p f page protection offset n = some (r', p', true) ∧
      p'.proc.pgdir page = some (aliased frame protection) := by
  have hpages : (((n : ℤ) + 4095) / 4096).toNat = 1 := by omega
  have hpop : r.memory.pop = (⟨frame, true⟩, ⟨r.memory.frames, answers⟩) := by
    rw [Memory.pop, hanswers]
  obtain ⟨p', hmap, hentry⟩ : ∃ p', mapPage p page frame protection = some p' ∧
      p'.proc.pgdir page = some (aliased frame protection) :=
    ⟨_, by rw [mapPage, hpage], Function.update_self ..⟩
  refine ⟨p', ?_, hentry⟩
  rw [map_pagecache_page, hpages, Int.toNat_natCast, storePages, mapFresh, hpop]
  simp only [halloc, hfill, Option.bind_some, if_true, hmap, Option.map_some, storePages]

/-- The memory after the call, as a function of the memory before it. -/
theorem loads_iff_filled (protection : BitVec 32) (h : Cached fs f d r.cache)
    (hwithin : Within r.cache (fs.inode f) d) (ho : 0 ≤ offset.toInt) (hpos : 0 < n) (hn : n ≤ 4096)
    (hanswers : r.memory.answers = ⟨frame, true⟩ :: answers)
    (halloc : kalloc r.memory.frames frame = some k) (hpage : p.proc.pgdir page = none) :
    ∃ first second : List UInt8, first.length ≤ 4096 ∧
      (∀ y, first.getD y 0 =
        if offset.toNat % 4096 + y < 4096 then wanted d offset.toNat n y else 0) ∧
      (0 < second.length ↔
        4096 < offset.toNat % 4096 + n ∧ nextPage offset.toNat ≤ d.length) ∧
      ∀ m, LoadsRight fs d (withMem r m) p f page protection offset n ↔
        Filled (wanted d offset.toNat n) (aliased frame protection) m
          (storeBytes (storeBytes (storeBytes m (frame * PGSIZE) (List.replicate PGSIZE 0))
            (frame * PGSIZE) first) (frame * PGSIZE + 4096) second) := by
  obtain ⟨c', first, second, hfill, hlen, hbytes, hsecond⟩ :=
    fileFill_rounds frame h hwithin ho hpos hn
  refine ⟨first, second, hlen, hbytes, hsecond, fun m => ?_⟩
  obtain ⟨p', hcall, hentry⟩ := map_pagecache_page_fresh (r := withMem r m)
    protection hpos hn hanswers halloc hpage (hfill _ rfl)
  constructor
  · rintro ⟨r', q, x, hcall', hx, hfilled⟩
    rw [hcall] at hcall'
    cases hcall'
    obtain rfl := Option.some.inj (hentry.symm.trans hx)
    exact hfilled
  · exact fun hfilled => ⟨_, _, _, hcall, hentry, hfilled⟩

variable (h : Cached fs f d r.cache) (hwithin : Within r.cache (fs.inode f) d)
  (ho : 0 ≤ offset.toInt) (hpos : 0 < n) (hn : n ≤ 4096)
  (hanswers : r.memory.answers = ⟨frame, true⟩ :: answers)
  (halloc : kalloc r.memory.frames frame = some k) (hpage : p.proc.pgdir page = none)
include h hwithin ho hpos hn hanswers halloc hpage

theorem loads_in_one_round (halias : aliased frame protection = frame)
    (hfits : offset.toNat % 4096 + n ≤ 4096 ∨ d.length < nextPage offset.toNat) (m : Mem) :
    LoadsRight fs d (withMem r m) p f page protection offset n := by
  obtain ⟨first, second, hlen, hbytes, hsecond, hiff⟩ :=
    loads_iff_filled protection h hwithin ho hpos hn hanswers halloc hpage
  have hnone : second = [] := by
    rw [← List.length_eq_zero_iff]
    have := mt hsecond.mp (by omega)
    omega
  rw [hiff, halias, hnone, storeBytes_nil]
  intro x y hy
  rw [filled_bytes frame m hlen x y hy]
  congr 1
  refine (hbytes y).trans ?_
  split_ifs with hpage
  · rfl
  · have hbehind : nextPage offset.toNat ≤ offset.toNat + y := by
      unfold nextPage
      omega
    rw [wanted]
    split_ifs with hin
    · rw [mem_getD (by omega)]
    · rfl

/-- The second round changes the frame behind the mapped one. -/
theorem second_round_escapes (hmore : 4096 < offset.toNat % 4096 + n)
    (hfile : nextPage offset.toNat ≤ d.length) (halias : aliased frame protection = frame) :
    ∃ m, ¬ LoadsRight fs d (withMem r m) p f page protection offset n := by
  obtain ⟨first, second, hlen, hbytes, hsecond, hiff⟩ :=
    loads_iff_filled protection h hwithin ho hpos hn hanswers halloc hpage
  have hlong := hsecond.mpr ⟨hmore, hfile⟩
  refine ⟨fun _ => second.getD 0 0 + 1, fun hloads => ?_⟩
  have hbehind := (hiff _).mp hloads (frame + 1) 0 (by decide)
  rw [halias, if_neg (by omega), Nat.add_zero, Nat.succ_mul, ← Nat.add_zero (frame * PGSIZE + 4096),
    storeBytes_inside hlong, List.getD_eq_getElem _ _ hlong] at hbehind
  simp at hbehind

/-- An entry that leads to another frame than the filled one. -/
theorem alias_escapes (halias : aliased frame protection ≠ frame) :
    ∃ m, ¬ LoadsRight fs d (withMem r m) p f page protection offset n := by
  obtain ⟨first, second, hlen, hbytes, hsecond, hiff⟩ :=
    loads_iff_filled protection h hwithin ho hpos hn hanswers halloc hpage
  refine ⟨fun _ => first.getD 0 0 + 1, fun hloads => ?_⟩
  have hframe := (hiff _).mp hloads frame 0 (by decide)
  rw [if_neg halias.symm, storeBytes_outside (.inl (by omega)),
    filled_bytes frame _ hlen frame 0 (by decide), if_pos rfl] at hframe
  simp at hframe

/-- Whatever the memory holds, the call fills the mapped frame and nothing else exactly when
one round of the inner loop is enough or the file ends before the second one, and the
protection has no bits that turn the frame number into another one. -/
theorem loads_right_iff :
    (∀ m, LoadsRight fs d (withMem r m) p f page protection offset n) ↔
      aliased frame protection = frame ∧
        (offset.toNat % 4096 + n ≤ 4096 ∨ d.length < nextPage offset.toNat) := by
  refine ⟨fun hloads => ?_, fun hone =>
    loads_in_one_round h hwithin ho hpos hn hanswers halloc hpage hone.1 hone.2⟩
  have halias : aliased frame protection = frame := by
    by_contra hne
    obtain ⟨m, hm⟩ := alias_escapes h hwithin ho hpos hn hanswers halloc hpage hne
    exact hm (hloads m)
  refine ⟨halias, ?_⟩
  by_contra hmore
  rw [not_or, not_le, not_lt] at hmore
  obtain ⟨m, hm⟩ :=
    second_round_escapes h hwithin ho hpos hn hanswers halloc hpage hmore.1 hmore.2 halias
  exact hm (hloads m)

end Loads

/-- A file of two full pages. -/
def twoPages (ip : PageCache.Inode) : List UInt8 :=
  if ip = ⟨1, 5⟩ then List.replicate 8192 7 else []

def oneFile : Files := ⟨PageCoherence.adjacentFrames, fun _ => ⟨1, 5⟩⟩

def cold : Ram :=
  ⟨⟨⟨fun _ => true, false⟩, [⟨3, true⟩]⟩, fun _ => 0, PageCache.initial (fun _ => 0) twoPages⟩

def unmapped : Space := ⟨⟨fun _ => Mmp.zero, 0, fun _ => none, false⟩, fun _ => 0⟩

theorem twoPages_length : (twoPages ⟨1, 5⟩).length = 8192 := by
  rw [twoPages, if_pos rfl, List.length_replicate]

theorem cold_cached : Cached oneFile 0 (twoPages ⟨1, 5⟩) cold.cache where
  invariant := PageCoherence.initial_invariant fun ip => by
    unfold twoPages
    split_ifs
    · rw [List.length_replicate]
      decide
    · exact Nat.zero_le _
  unlocked _ := rfl
  data := rfl
  inum := by decide

theorem cold_within : Within cold.cache (oneFile.inode 0) (twoPages ⟨1, 5⟩) := by
  rintro t ⟨i, hi⟩
  have hnum : 0 = 5 := (PageCoherence.matches_iff.mp hi).1
  exact absurd hnum (by decide)

theorem cold_answers : cold.memory.answers = [⟨3, true⟩] := rfl

/-- Fifty bytes from inside the first page. -/
theorem inner_bytes_loaded : 100 + 50 ≤ 4096 ∧ ∀ m,
    LoadsRight oneFile (twoPages ⟨1, 5⟩) (withMem cold m) unmapped 0 0x60000 6 100 50 :=
  ⟨by decide, (loads_right_iff cold_cached cold_within (by decide) (by decide) (by decide)
    cold_answers rfl rfl).mpr ⟨by decide, .inl (by decide)⟩⟩

/-- A whole page from the last byte of the first page of the file. -/
theorem crossing_page_escapes : ¬ ∀ m,
    LoadsRight oneFile (twoPages ⟨1, 5⟩) (withMem cold m) unmapped 0 0x60000 6 4095 4096 := by
  intro hloads
  have hescape : ∃ m, ¬ LoadsRight oneFile (twoPages ⟨1, 5⟩) (withMem cold m) unmapped 0 0x60000 6
      4095 4096 :=
    second_round_escapes cold_cached cold_within (by decide) (by decide) (by decide) cold_answers rfl
      rfl (by decide) (by rw [twoPages_length]; decide) (by decide)
  obtain ⟨m, hm⟩ := hescape
  exact hm (hloads m)

end MmapOffsets
