import OsProjects.MmapFills
import OsProjects.Runs
import Mathlib.Data.List.Induction
import Mathlib.Data.List.Perm.Subperm

/-! # What `fork` puts into a shared file mapping

A fault loads the part of the file that belongs to the page. `copy_single_mmap` loads the
start of the file into every page that the parent has not touched yet, and cuts the page that
it loads last to what is left by the count of `stored_length`.
-/
namespace MmapFork

open Word32 MmapTable MmapMemory MmapFaults MmapFills ByteMemory
open MmapFrames (Answer Memory kalloc)

/-- A shared mapping of the first `length` bytes of a file. The protection consists of
permission bits. -/
structure Region extends Mapping where
  file : ℕ
  bytes : List UInt8
  aligned : addr % PGSIZE = 0
  positive : 0 < length
  low : MMAPBASE ≤ addr
  user : addr + length ≤ KERNBASE
  shared : has flags MAP_SHARED = true
  backed : has flags MAP_ANONYMOUS = false
  start : offset = 0
  opened : f = some file
  long : length ≤ bytes.length
  permission : prot.toNat < PGSIZE

/-- The page number of page `k` of the mapping. -/
def Region.page (g : Region) (k : ℕ) : ℕ := g.addr / PGSIZE + k

def Region.pages (g : Region) : ℕ := (g.length + 4095) / 4096

/-- Pages in `present` are in the page table, in different frames, and hold `contents`. -/
structure Pages (g : Region) (present : ℕ → Prop) (contents : ℕ → ℕ → UInt8) (r : Ram) (p : Space) :
    Prop where
  absent : ∀ k, k < g.pages → ¬ present k → p.proc.pgdir (g.page k) = none
  mapped : ∀ k, k < g.pages → present k → ∃ frame, p.proc.pgdir (g.page k) = some frame ∧
    frame ≠ 0 ∧ r.memory.frames.free frame = false ∧
    ∀ y, y < PGSIZE → r.mem (frame * PGSIZE + y) = contents k y
  apart : ∀ j k, j < g.pages → k < g.pages → p.proc.pgdir (g.page j) = p.proc.pgdir (g.page k) →
    present j → j = k

section Load

variable {fs : Files} {g : Region} {r r' : Ram} {p p' : Space} {k n o : ℕ} {present : ℕ → Prop}
  {contents : ℕ → ℕ → UInt8} {c : StoreCall} {ok : Bool}

/-- A call that loads `n` bytes from page `o` of the file into page `k` of the mapping. -/
structure LoadsPage (g : Region) (c : StoreCall) (k n o : ℕ) : Prop where
  addr : c.addr = g.addr + 4096 * k
  length : c.length = n
  flags : c.flags = g.flags
  prot : c.prot = g.prot
  f : c.f = some g.file
  offset : c.offset = BitVec.ofNat 32 (4096 * o)
  positive : 0 < n
  onePage : n ≤ 4096
  inFile : 4096 * o ≤ g.bytes.length

theorem LoadsPage.pages_eq (hc : LoadsPage g c k n o) : c.pages = 1 := by
  have hpos := hc.positive
  have hone := hc.onePage
  rw [StoreCall.pages, hc.length]
  omega

theorem LoadsPage.page_eq (hc : LoadsPage g c k n o) : c.addr / PGSIZE = g.page k := by
  rw [hc.addr, Region.page]
  simp only [PGSIZE]
  omega

theorem LoadsPage.fill_eq (hc : LoadsPage g c k n o) :
    fillOf fs c = fileFill fs g.file (BitVec.ofNat 32 (4096 * o)) n 0 := by
  unfold fillOf
  rw [if_neg (by rw [hc.flags, g.backed]; decide), hc.f, hc.offset, hc.length]
  rfl

theorem store_success (hc : LoadsPage g c k n o) (hcached : Cached fs g.file g.bytes r.cache)
    (hpage : p.proc.pgdir (g.page k) = none)
    (hr : mmap_store_data fs r p c = some (r', p', true)) :
    Available r ∧ p' = mapped p (g.page k) r.memory.pop.1.frame g.prot ∧
      r'.memory = (allocated r).memory ∧ Cached fs g.file g.bytes r'.cache ∧
      Filled (loadedByte g.bytes o n) r.memory.pop.1.frame r.mem r'.mem := by
  rw [store_one hc.pages_eq (.inr (by rw [hc.f]; rfl)), hc.page_eq] at hr
  have havail : Available r := by
    by_contra hno
    exact absurd (mapFresh_unavailable hno hr).2 (by decide)
  obtain ⟨r₁, hload, hmem, hcached', hfilled⟩ := fileFill_loads (r := allocated r)
    r.memory.pop.1.frame hcached hc.inFile hc.positive hc.onePage
  rw [mapFresh_available havail hpage, hc.fill_eq, hload, hc.prot] at hr
  simp only [Option.map_some, Option.some.injEq, Prod.mk.injEq, and_true] at hr
  obtain ⟨rfl, rfl⟩ := hr
  exact ⟨havail, rfl, hmem, hcached', hfilled⟩

theorem store_completes (hc : LoadsPage g c k n o) (hcached : Cached fs g.file g.bytes r.cache)
    (hpage : p.proc.pgdir (g.page k) = none) (havail : Available r) :
    ∃ r' p', mmap_store_data fs r p c = some (r', p', true) ∧
      r'.memory = (allocated r).memory := by
  obtain ⟨r₁, hload, hmem, -⟩ := fileFill_loads (r := allocated r) r.memory.pop.1.frame
    hcached hc.inFile hc.positive hc.onePage
  refine ⟨r₁, mapped p (g.page k) r.memory.pop.1.frame g.prot, ?_, hmem⟩
  rw [store_one hc.pages_eq (.inr (by rw [hc.f]; rfl)), hc.page_eq,
    mapFresh_available havail hpage, hc.fill_eq, hload, hc.prot]
  rfl

theorem page_injective {j k : ℕ} (h : g.page j = g.page k) : j = k := by
  unfold Region.page at h
  omega

/-- A page that is loaded into a fresh frame. -/
theorem Pages.load (h : Pages g present contents r p) (hk : k < g.pages) (habsent : ¬ present k)
    (havail : Available r) {byte : ℕ → UInt8}
    (hp : p'.proc.pgdir =
      (MmapFaults.mapped p (g.page k) r.memory.pop.1.frame g.prot).proc.pgdir)
    (hr : r'.memory = (allocated r).memory)
    (hfill : Filled byte r.memory.pop.1.frame r.mem r'.mem) :
    Pages g (fun j => present j ∨ j = k) (Function.update contents k byte) r' p' := by
  have hnew : p'.proc.pgdir (g.page k) = some r.memory.pop.1.frame := by
    rw [hp, MmapFaults.mapped, aliased_of_permission _ g.permission]
    exact Function.update_self ..
  have hold : ∀ j, j ≠ k → p'.proc.pgdir (g.page j) = p.proc.pgdir (g.page j) := by
    intro j hj
    rw [hp]
    exact Function.update_of_ne (fun heq => hj (page_injective heq)) ..
  have hfree : ∀ frame, r'.memory.frames.free frame =
      if frame = r.memory.pop.1.frame then false else r.memory.frames.free frame := by
    intro frame
    rw [hr, ← pop_frames r.memory]
    exact Function.update_apply ..
  have hfresh : ∀ frame, r.memory.frames.free frame = false → frame ≠ r.memory.pop.1.frame := by
    rintro frame hframe rfl
    rw [havail.free] at hframe
    cases hframe
  refine ⟨fun j hj hno => ?_, fun j hj hyes => ?_, fun i j hi hj heq hyes => ?_⟩
  · rw [not_or] at hno
    rw [hold j hno.2]
    exact h.absent j hj hno.1
  · rcases eq_or_ne j k with rfl | hne
    · refine ⟨_, hnew, havail.frame, by rw [hfree, if_pos rfl], fun y hy => ?_⟩
      rw [hfill _ y hy, if_pos rfl, Function.update_self]
    · obtain ⟨frame, hframe, hzero, hused, hbytes⟩ := h.mapped j hj (hyes.resolve_right hne)
      have hother := hfresh frame hused
      refine ⟨frame, by rw [hold j hne, hframe], hzero, ?_, fun y hy => ?_⟩
      · rw [hfree, if_neg hother]
        exact hused
      · rw [hfill _ y hy, if_neg hother, Function.update_of_ne hne]
        exact hbytes y hy
  · -- a page that was there before cannot be in the new frame
    have hclash : ∀ j, j < g.pages → j ≠ k → p'.proc.pgdir (g.page j) ≠ p'.proc.pgdir (g.page k) := by
      intro j hj hne heq
      rw [hold j hne, hnew] at heq
      by_cases hyes : present j
      · obtain ⟨frame, hframe, -, hused, -⟩ := h.mapped j hj hyes
        rw [hframe] at heq
        exact hfresh frame hused (Option.some.inj heq)
      · rw [h.absent j hj hyes] at heq
        cases heq
    rcases eq_or_ne i k with rfl | hik
    · by_contra hij
      exact hclash j hj (Ne.symm hij) heq.symm
    · rcases eq_or_ne j k with rfl | hjk
      · exact absurd heq (hclash i hi hik)
      · rw [hold i hik, hold j hjk] at heq
        exact h.apart i j hi hj heq (hyes.resolve_right hik)

theorem Pages.congr (h : Pages g present contents r p) {present' : ℕ → Prop}
    {contents' : ℕ → ℕ → UInt8} (hp : ∀ k, k < g.pages → (present' k ↔ present k))
    (hc : ∀ k, k < g.pages → present k → ∀ y, y < PGSIZE → contents' k y = contents k y) :
    Pages g present' contents' r p := by
  refine ⟨fun k hk hno => h.absent k hk (mt (hp k hk).mpr hno), fun k hk hyes => ?_,
    fun j k hj hk heq hyes => h.apart j k hj hk heq ((hp j hj).mp hyes)⟩
  obtain ⟨frame, hframe, hzero, hused, hbytes⟩ := h.mapped k hk ((hp k hk).mp hyes)
  exact ⟨frame, hframe, hzero, hused, fun y hy =>
    (hbytes y hy).trans (hc k hk ((hp k hk).mp hyes) y hy).symm⟩

/-- A byte of page `k` is overwritten. -/
theorem Pages.store (h : Pages g present contents r p) (hk : k < g.pages) (hyes : present k)
    {frame : ℕ} (hframe : p.proc.pgdir (g.page k) = some frame) {y : ℕ} (hy : y < PGSIZE)
    (v : UInt8) :
    Pages g present (Function.update contents k (Function.update (contents k) y v))
      { r with mem := storeBytes r.mem (frame * PGSIZE + y) [v] } p := by
  refine ⟨h.absent, fun j hj hjyes => ?_, h.apart⟩
  obtain ⟨frame', hframe', hzero, hused, hbytes⟩ := h.mapped j hj hjyes
  refine ⟨frame', hframe', hzero, hused, fun z hz => ?_⟩
  rcases eq_or_ne j k with rfl | hne
  · obtain rfl : frame = frame' := Option.some.inj (hframe.symm.trans hframe')
    rw [Function.update_self, Function.update_apply, ← hbytes z hz]
    split_ifs with hzy
    · subst z
      simp [storeBytes]
    · exact storeBytes_outside (by simp only [List.length_singleton]; omega)
  · have hother : frame' ≠ frame := by
      rintro rfl
      exact hne (h.apart j k hj hk (hframe'.trans hframe.symm) hjyes)
    rw [Function.update_of_ne hne, ← hbytes z hz]
    refine storeBytes_outside ?_
    simp only [List.length_singleton, PGSIZE] at *
    omega

end Load

/-- A byte at offset `x` of the mapping is read or written. -/
inductive Access where
  | load (x : ℕ)
  | store (x : ℕ) (v : UInt8)
  deriving DecidableEq, Repr

def Access.at : Access → ℕ
  | .load x => x
  | .store x _ => x

/-- The page fault that the access to an absent page raises. -/
def touch (fs : Files) (r : Ram) (p : Space) (a : ℕ) : Option (Ram × Space) :=
  match p.proc.pgdir (a / PGSIZE) with
  | some _ => some (r, p)
  | none => handle_page_fault fs r p a

/-- An access that completes; `none` when the page is still absent after the fault. -/
def access (fs : Files) (g : Region) (r : Ram) (p : Space) (e : Access) : Option (Ram × Space) :=
  let a := g.addr + e.at
  match touch fs r p a with
  | none => none
  | some (r, p) =>
    match p.proc.pgdir (a / PGSIZE), e with
    | none, _ => none
    | some _, .load _ => some (r, p)
    | some frame, .store _ v =>
      some ({ r with mem := storeBytes r.mem (frame * PGSIZE + a % PGSIZE) [v] }, p)

abbrev run (fs : Files) (g : Region) (r : Ram) (p : Space) (es : List Access) :
    Option (Ram × Space) :=
  Runs.run (fun s e => access fs g s.1 s.2 e) (r, p) es

def note (t : List ℕ) (k : ℕ) : List ℕ := if k ∈ t then t else t ++ [k]

/-- The pages in the order in which they are touched. -/
def touched (es : List Access) : List ℕ := es.foldl (fun t e => note t (e.at / 4096)) []

def overwrite (x : ℕ) (w : Option UInt8) : Access → Option UInt8
  | .load _ => w
  | .store z v => if z = x then some v else w

/-- The last value stored at an offset. -/
def lastStore (es : List Access) (x : ℕ) : Option UInt8 := es.foldl (overwrite x) none

/-- How many bytes are loaded when `j` pages were loaded before. -/
def Region.left (g : Region) (j : ℕ) : ℕ := min 4096 (g.length - 4096 * j)

/-- What page `k` holds after the accesses `es`. -/
def contentsAfter (g : Region) (es : List Access) (k y : ℕ) : UInt8 :=
  (lastStore es (4096 * k + y)).getD
    (loadedByte g.bytes k (g.left ((touched es).idxOf k)) y)

/-- The mapping as `my_mmap` leaves it in an unused table slot. -/
structure Start (fs : Files) (g : Region) (r : Ram) (p : Space) : Prop where
  total : p.proc.total_mmaps = 1
  mapping : (p.proc.slot 0).toMapping = g.toMapping
  stored : (p.proc.slot 0).stored_length = 0
  absent : ∀ k, k < g.pages → p.proc.pgdir (g.page k) = none
  cached : Cached fs g.file g.bytes r.cache

structure Invariant (fs : Files) (g : Region) (es : List Access) (r : Ram) (p : Space) : Prop where
  total : p.proc.total_mmaps = 1
  mapping : (p.proc.slot 0).toMapping = g.toMapping
  stored : (p.proc.slot 0).stored_length = 4096 * (touched es).length
  inside : ∀ k ∈ touched es, k < g.pages
  pages : Pages g (· ∈ touched es) (contentsAfter g es) r p
  cached : Cached fs g.file g.bytes r.cache

section Ghost

variable {es : List Access} {e : Access} {x k : ℕ}

theorem touched_append : touched (es ++ [e]) = note (touched es) (e.at / 4096) :=
  List.foldl_append ..

theorem lastStore_append : lastStore (es ++ [e]) x = overwrite x (lastStore es x) e :=
  List.foldl_append ..

theorem touched_nodup (es : List Access) : (touched es).Nodup := by
  induction es using List.reverseRecOn with
  | nil => exact List.nodup_nil
  | append_singleton es e ih =>
    rw [touched_append, note]
    split_ifs with h
    · exact ih
    · rw [List.nodup_append]
      refine ⟨ih, List.nodup_singleton _, fun a ha b hb => ?_⟩
      rw [List.mem_singleton.mp hb]
      rintro rfl
      exact h ha

theorem mem_note {t : List ℕ} {j : ℕ} : k ∈ note t j ↔ k ∈ t ∨ k = j := by
  unfold note
  split_ifs with h
  · exact ⟨.inl, fun hk => hk.elim id fun hj => hj ▸ h⟩
  · rw [List.mem_append, List.mem_singleton]

/-- Nothing was stored in a page that was not touched. -/
theorem lastStore_untouched (h : x / 4096 ∉ touched es) : lastStore es x = none := by
  induction es using List.reverseRecOn with
  | nil => rfl
  | append_singleton es e ih =>
    rw [touched_append, mem_note, not_or] at h
    rw [lastStore_append, ih h.1]
    cases e with
    | load z => rfl
    | store z v => exact if_neg fun hz => h.2 (by rw [← hz]; rfl)

end Ghost

/-- Pages below `k` that are not in `t`. -/
def untouchedBelow (t : List ℕ) (k : ℕ) : ℕ := ((List.range k).filter (· ∉ t)).length

/-- An untouched page is one more page than those touched and those untouched below it. -/
theorem untouched_count {t : List ℕ} {n k : ℕ} (hnodup : t.Nodup) (hin : ∀ j ∈ t, j < n)
    (hk : k < n) (hnot : k ∉ t) : t.length + untouchedBelow t k < n := by
  have hlist : (k :: (t ++ (List.range k).filter (· ∉ t))).Nodup := by
    rw [List.nodup_cons, List.nodup_append]
    refine ⟨fun hmem => ?_, hnodup, List.nodup_range.filter _, fun a ha b hb => ?_⟩
    · rcases List.mem_append.mp hmem with h | h
      · exact hnot h
      · simp at h
    · rintro rfl
      simp [ha] at hb
  have hsub : (k :: (t ++ (List.range k).filter (· ∉ t))) ⊆ List.range n := by
    intro j hj
    rw [List.mem_range]
    rcases List.mem_cons.mp hj with rfl | hj
    · exact hk
    rcases List.mem_append.mp hj with h | h
    · exact hin j h
    · have := List.mem_range.mp (List.mem_of_mem_filter h)
      omega
  have hlen := (hlist.subperm hsub).length_le
  simp only [List.length_cons, List.length_append, List.length_range] at hlen
  rw [untouchedBelow]
  omega

section Fault

variable {fs : Files} {g : Region} {es : List Access} {r r' : Ram} {p p' : Space} {x k : ℕ}

theorem page_of_offset (g : Region) (x : ℕ) : (g.addr + x) / PGSIZE = g.page (x / 4096) := by
  have := g.aligned
  simp only [Region.page, PGSIZE] at *
  omega

theorem page_lt_pages (hx : x < g.length) : x / 4096 < g.pages := by
  unfold Region.pages
  omega

theorem page_in_file (hk : k < g.pages) : 4096 * k ≤ g.bytes.length := by
  have := g.long
  unfold Region.pages at hk
  omega

theorem Invariant.wellFormed (h : Invariant fs g es r p) : WellFormed p.proc := by
  have hm := h.mapping
  have hslot : ∀ i : ℕ, i < p.proc.total_mmaps → (p.proc.slot i).toMapping = g.toMapping := by
    intro i hi
    rw [h.total] at hi
    obtain rfl : i = 0 := by omega
    exact hm
  refine ⟨by rw [h.total]; decide, fun i hi => ?_, fun i hi => ?_, fun i hi => ?_,
    fun i j hij hj => ?_⟩
  · rw [hslot i hi]
    exact g.aligned
  · rw [hslot i hi]
    exact g.positive
  · rw [hslot i hi]
    exact g.user
  · rw [h.total] at hj
    omega

theorem Invariant.inside_slot (h : Invariant fs g es r p) (hx : x < g.length) :
    Inside p.proc (g.addr + x) 0 := by
  refine ⟨by rw [h.total]; decide, ?_⟩
  have : (p.proc.slot (0 : ℕ)).toMapping = g.toMapping := h.mapping
  rw [this]
  omega

theorem Invariant.fault_call (h : Invariant fs g es r p) (hx : x < g.length)
    (hnot : x / 4096 ∉ touched es) : LoadsPage g (faultCall p.proc 0 (g.addr + x)) (x / 4096)
      (g.left (touched es).length) (x / 4096) := by
  have hk := page_lt_pages hx
  have hpos : 4096 * (touched es).length < g.length := by
    have := untouched_count (touched_nodup es) h.inside hk hnot
    unfold Region.pages at this
    omega
  have huser := g.user
  have hal := g.aligned
  have hround : pgRoundDown (g.addr + x) = g.addr + 4096 * (x / 4096) := by
    simp only [pgRoundDown, PGSIZE] at *
    omega
  have hm := h.mapping
  have hrem : wrap ((p.proc.slot 0).length - (p.proc.slot 0).stored_length) =
      g.length - 4096 * (touched es).length := by
    simp only [KERNBASE] at huser
    rw [h.stored, hm]
    unfold wrap
    omega
  refine ⟨hround, ?_, by rw [faultCall, hm], by rw [faultCall, hm], ?_, ?_, ?_, ?_, page_in_file hk⟩
  · simp only [faultCall, hrem, Region.left, PGSIZE]
    split_ifs <;> omega
  · simp only [faultCall, hm, g.opened]
  · simp only [faultCall, hm, g.start, hround, BitVec.ofNat_add]
    rw [BitVec.ofNat_eq_ofNat, BitVec.zero_add, BitVec.add_comm, BitVec.add_sub_cancel]
  · rw [Region.left]
    omega
  · exact min_le_left ..

/-- A fault that leaves the page in the page table has loaded its part of the file. -/
theorem Invariant.fault_loads (h : Invariant fs g es r p) (hx : x < g.length)
    (hnot : x / 4096 ∉ touched es) (hr : handle_page_fault fs r p (g.addr + x) = some (r', p'))
    (hpresent : (p'.proc.pgdir (g.page (x / 4096))).isSome = true) :
    Available r ∧ p' = counted (installed r p 0 (g.addr + x)) 0 ∧
      r'.memory = (allocated r).memory ∧ Cached fs g.file g.bytes r'.cache ∧
      Filled (loadedByte g.bytes (x / 4096) (g.left (touched es).length))
        r.memory.pop.1.frame r.mem r'.mem := by
  have hserver : server p.proc (g.addr + x) 0 = 0 := rfl
  have hplan := plan_inside h.wellFormed (h.inside_slot hx)
  have habsent := h.pages.absent _ (page_lt_pages hx) hnot
  rw [← page_of_offset] at habsent hpresent
  rw [handle_page_fault, hplan, hserver] at hr
  change faultIn fs r p (0 : ℕ) (g.addr + x) = some (r', p') at hr
  have hloads := loads_of_present (by decide) habsent hr hpresent
  obtain ⟨r₁, hs⟩ := store_loads habsent hloads
  rw [faultIn_eq habsent] at hr
  simp only [hs, Option.map_some, Option.some.injEq, Prod.mk.injEq] at hr
  obtain ⟨rfl, rfl⟩ := hr
  rw [page_of_offset] at habsent
  obtain ⟨havail, -, hmem, hcached, hfill⟩ := store_success (h.fault_call hx hnot) h.cached habsent hs
  exact ⟨havail, rfl, hmem, hcached, hfill⟩

theorem contents_load (hx : x / 4096 ∈ touched es) :
    contentsAfter g (es ++ [.load x]) = contentsAfter g es := by
  funext j y
  unfold contentsAfter
  rw [touched_append, Access.at, note, if_pos hx, lastStore_append]
  rfl

theorem contents_new (hnot : x / 4096 ∉ touched es) {y : ℕ} (hy : y < 4096) :
    contentsAfter g (es ++ [.load x]) (x / 4096) y =
      loadedByte g.bytes (x / 4096) (g.left (touched es).length) y := by
  have hlast : lastStore es (4096 * (x / 4096) + y) = none := by
    apply lastStore_untouched
    rwa [show (4096 * (x / 4096) + y) / 4096 = x / 4096 by omega]
  have hidx : (touched es ++ [x / 4096]).idxOf (x / 4096) = (touched es).length := by
    rw [List.idxOf_append_of_notMem hnot, List.idxOf_cons_self, Nat.add_zero]
  unfold contentsAfter
  rw [touched_append, Access.at, note, if_neg hnot, hidx, lastStore_append, overwrite, hlast]
  rfl

theorem contents_old (hnot : x / 4096 ∉ touched es) {j : ℕ} (hj : j ∈ touched es) (y : ℕ) :
    contentsAfter g (es ++ [.load x]) j y = contentsAfter g es j y := by
  unfold contentsAfter
  rw [touched_append, Access.at, note, if_neg hnot, List.idxOf_append_of_mem hj,
    lastStore_append, overwrite]

theorem counted_slot (p : Space) : (counted p 0).proc.slot 0 =
    { p.proc.slot 0 with stored_length := (p.proc.slot 0).stored_length + PGSIZE } :=
  slot_setSlot_self _ (by decide)

theorem touch_invariant (h : Invariant fs g es r p) (hx : x < g.length)
    (hr : touch fs r p (g.addr + x) = some (r', p'))
    (hpresent : (p'.proc.pgdir (g.page (x / 4096))).isSome = true) :
    Invariant fs g (es ++ [.load x]) r' p' := by
  have hk := page_lt_pages hx
  by_cases hmem : x / 4096 ∈ touched es
  · obtain ⟨frame, hframe, -⟩ := h.pages.mapped _ hk hmem
    rw [touch, page_of_offset, hframe] at hr
    cases hr
    have htouched : touched (es ++ [.load x]) = touched es := by
      rw [touched_append, Access.at, note, if_pos hmem]
    refine ⟨h.total, h.mapping, ?_, ?_, ?_, h.cached⟩
    · rw [htouched]
      exact h.stored
    · rw [htouched]
      exact h.inside
    · rw [htouched, contents_load hmem]
      exact h.pages
  · have habsent := h.pages.absent _ hk hmem
    rw [touch, page_of_offset, habsent] at hr
    obtain ⟨havail, rfl, hmem', hcached, hfill⟩ := h.fault_loads hx hmem hr hpresent
    have htouched : touched (es ++ [.load x]) = touched es ++ [x / 4096] := by
      rw [touched_append, Access.at, note, if_neg hmem]
    have hpgdir : (counted (installed r p 0 (g.addr + x)) 0).proc.pgdir =
        (mapped p (g.page (x / 4096)) r.memory.pop.1.frame g.prot).proc.pgdir := by
      have hprot : (p.proc.slot (0 : ℕ)).prot = g.prot := congrArg Mapping.prot h.mapping
      rw [counted_pgdir (by decide), installed, page_of_offset, hprot]
    refine ⟨h.total, ?_, ?_, ?_, ?_, hcached⟩
    · rw [counted_slot]
      exact h.mapping
    · rw [counted_slot, htouched, List.length_append, List.length_singleton]
      have hstored : ((installed r p 0 (g.addr + x)).proc.slot 0).stored_length =
          4096 * (touched es).length := h.stored
      simp only [hstored, PGSIZE]
      push_cast
      ring
    · rw [htouched]
      intro j hj
      rcases List.mem_append.mp hj with hold | hnew
      · exact h.inside j hold
      · rw [List.mem_singleton.mp hnew]
        exact hk
    · refine (h.pages.load hk hmem havail hpgdir hmem' hfill).congr (fun j _ => ?_)
        fun j _ hj y hy => ?_
      · rw [htouched, List.mem_append, List.mem_singleton]
      · rcases eq_or_ne j (x / 4096) with rfl | hne
        · rw [Function.update_self, contents_new hmem hy]
        · rw [Function.update_of_ne hne, contents_old hmem (hj.resolve_right hne)]

theorem store_invariant {v : UInt8} {frame : ℕ} (h : Invariant fs g (es ++ [.load x]) r p)
    (hx : x < g.length) (hframe : p.proc.pgdir (g.page (x / 4096)) = some frame) :
    Invariant fs g (es ++ [.store x v])
      { r with mem := storeBytes r.mem (frame * PGSIZE + x % 4096) [v] } p := by
  have htouched : touched (es ++ [.store x v]) = touched (es ++ [.load x]) := by
    rw [touched_append, touched_append]
    rfl
  have hmem : x / 4096 ∈ touched (es ++ [.load x]) := by
    rw [touched_append, mem_note]
    exact .inr rfl
  refine ⟨h.total, h.mapping, ?_, ?_, ?_, h.cached⟩
  · rw [htouched]
    exact h.stored
  · rw [htouched]
    exact h.inside
  · refine (h.pages.store (page_lt_pages hx) hmem hframe (Nat.mod_lt x (by decide)) v).congr
      (fun j _ => by rw [htouched]) fun j _ _ y hy => ?_
    have hrest : contentsAfter g (es ++ [.store x v]) j y =
        if x = 4096 * j + y then v else contentsAfter g (es ++ [.load x]) j y := by
      unfold contentsAfter
      rw [htouched, lastStore_append, lastStore_append, overwrite, overwrite]
      split_ifs <;> rfl
    simp only [PGSIZE] at hy
    rw [hrest, Function.update_apply]
    split_ifs with hxy hj hj
    · rw [Function.update_apply, if_pos (by simp only [PGSIZE]; omega)]
    · omega
    · rw [Function.update_apply, if_neg (by simp only [PGSIZE]; omega), ← hj]
    · rfl

theorem access_invariant {e : Access} (h : Invariant fs g es r p) (hx : e.at < g.length)
    (hr : access fs g r p e = some (r', p')) : Invariant fs g (es ++ [e]) r' p' := by
  unfold access at hr
  dsimp only at hr
  split at hr
  next => cases hr
  next r₁ p₁ htouch =>
    split at hr
    next => cases hr
    next frame x hframe =>
      cases hr
      rw [page_of_offset] at hframe
      exact touch_invariant h hx htouch (Option.isSome_iff_exists.mpr ⟨frame, hframe⟩)
    next frame x v hframe =>
      cases hr
      rw [page_of_offset] at hframe
      have hload := touch_invariant h hx htouch (Option.isSome_iff_exists.mpr ⟨frame, hframe⟩)
      have hoffset : (g.addr + x) % PGSIZE = x % 4096 := by
        have := g.aligned
        simp only [PGSIZE] at *
        omega
      simp only [Access.at, hoffset]
      exact store_invariant hload hx hframe

theorem run_invariant {es' : List Access} (h : Invariant fs g es r p)
    (hin : ∀ e ∈ es', e.at < g.length) (hr : run fs g r p es' = some (r', p')) :
    Invariant fs g (es ++ es') r' p' := by
  induction es' generalizing es r p with
  | nil =>
    cases hr
    rwa [List.append_nil]
  | cons e es' ih =>
    obtain ⟨⟨r₁, p₁⟩, haccess, hr⟩ := Option.bind_eq_some_iff.mp hr
    have hstep := access_invariant h (hin e (List.mem_cons_self ..)) haccess
    have := ih hstep (fun e' he' => hin e' (List.mem_cons_of_mem _ he')) hr
    rwa [List.append_assoc] at this

theorem start_invariant (h : Start fs g r p) : Invariant fs g [] r p := by
  refine ⟨h.total, h.mapping, h.stored, fun k hk => (nomatch hk), ?_, h.cached⟩
  exact ⟨fun k hk _ => h.absent k hk, fun k _ hno => (nomatch hno),
    fun j k _ _ _ hno => (nomatch hno)⟩

end Fault

/-- What page `j` holds after `fork`, in the parent and in the child. -/
def forkContents (g : Region) (es : List Access) (j y : ℕ) : UInt8 :=
  if j ∈ touched es then contentsAfter g es j y
  else loadedByte g.bytes 0 (g.left ((touched es).length + untouchedBelow (touched es) j)) y

/-- The loop of `copy_single_mmap` at page `k`, started in `r₀`. -/
structure Copying (fs : Files) (g : Region) (es : List Access) (r₀ : Ram) (k : ℕ) (r : Ram)
    (p c : Space) : Prop where
  total : p.proc.total_mmaps = 1
  mapping : (p.proc.slot 0).toMapping = g.toMapping
  stored : ∀ j, k ≤ j → j < g.pages → j ∉ touched es → (p.proc.slot 0).stored_length =
    4096 * ((touched es).length + untouchedBelow (touched es) k : ℕ)
  pages : Pages g (fun j => j ∈ touched es ∨ j < k) (forkContents g es) r p
  cached : Cached fs g.file g.bytes r.cache
  child : ∀ j, j < g.pages →
    c.proc.pgdir (g.page j) = if j < k then p.proc.pgdir (g.page j) else none
  shrinks : ∀ frame, r.memory.frames.free frame = true → r₀.memory.frames.free frame = true
  spare : ∀ j, j < k → j ∉ touched es →
    ∃ frame, frame ≠ 0 ∧ r₀.memory.frames.free frame = true

section Fork

variable {fs : Files} {g : Region} {es : List Access} {r₀ r r' : Ram} {p p' c c' : Space} {k : ℕ}

theorem untouchedBelow_succ (t : List ℕ) (k : ℕ) :
    untouchedBelow t (k + 1) = untouchedBelow t k + if k ∈ t then 0 else 1 := by
  unfold untouchedBelow
  rw [List.range_succ, List.filter_append, List.length_append]
  split_ifs with h <;> simp [h]

theorem untouchedBelow_mono (t : List ℕ) {j k : ℕ} (h : j ≤ k) :
    untouchedBelow t j ≤ untouchedBelow t k := by
  induction h with
  | refl => exact le_refl _
  | step _ ih =>
    rw [untouchedBelow_succ]
    omega

theorem page_start (hk : k < g.pages) : g.addr + 4096 * k < 2147483648 ∧
    (g.addr + 4096 * k) / PGSIZE = g.page k := by
  have huser := g.user
  have hal := g.aligned
  have hpos := g.positive
  simp only [Region.pages, Region.page, KERNBASE, PGSIZE] at *
  omega

theorem Pages.physical {present : ℕ → Prop} {contents : ℕ → ℕ → UInt8}
    (h : Pages g present contents r p) (hk : k < g.pages) :
    get_physical_page p.proc (g.addr + 4096 * k) = 0 ↔ ¬ present k := by
  rw [get_physical_page, (page_start hk).2]
  constructor
  · intro hzero hyes
    obtain ⟨frame, hframe, hne, -⟩ := h.mapped k hk hyes
    rw [hframe] at hzero
    exact hne hzero
  · intro hno
    rw [h.absent k hk hno]
    rfl

theorem untouched_left (hin : ∀ j ∈ touched es, j < g.pages)
    (hk : k < g.pages) (hnot : k ∉ touched es) :
    4096 * ((touched es).length + untouchedBelow (touched es) k) < g.length := by
  have := untouched_count (touched_nodup es) hin hk hnot
  unfold Region.pages at this
  omega

theorem Copying.copy_call (h : Copying fs g es r₀ k r p c) (hin : ∀ j ∈ touched es, j < g.pages)
    (hk : k < g.pages) (hnot : k ∉ touched es) :
    LoadsPage g (copyCall p.proc 0 (g.addr + 4096 * k)) k
      (g.left ((touched es).length + untouchedBelow (touched es) k)) 0 := by
  have hpos := untouched_left hin hk hnot
  have huser := g.user
  have hlow := g.low
  have hm := h.mapping
  have hstored := h.stored k (le_refl k) hk hnot
  have hrem : signed (wrap ((p.proc.slot 0).length - (p.proc.slot 0).stored_length)) =
      (g.length - 4096 * ((touched es).length + untouchedBelow (touched es) k) : ℕ) := by
    simp only [KERNBASE, MMAPBASE] at huser hlow
    rw [hstored, hm, show ((g.length : ℤ) -
      4096 * ((touched es).length + untouchedBelow (touched es) k : ℕ)) =
      ((g.length - 4096 * ((touched es).length + untouchedBelow (touched es) k) : ℕ) : ℤ) by omega,
      wrap_of_lt (by omega), signed_of_lt (by omega)]
  refine ⟨rfl, ?_, by rw [copyCall, hm], by rw [copyCall, hm], ?_, ?_, ?_, ?_, Nat.zero_le _⟩
  · simp only [copyCall, hrem, Region.left, PGSIZE]
    split_ifs <;> omega
  · simp only [copyCall, hm, g.opened]
  · simp only [copyCall, hm, g.start]
    rfl
  · rw [Region.left]
    omega
  · exact min_le_left ..

/-- The parent has the page afterwards; a page that it had already stays as it is. -/
theorem parentPage_spec (h : Copying fs g es r₀ k r p c) (hin : ∀ j ∈ touched es, j < g.pages)
    (hk : k < g.pages) (hr : parentPage fs r p 0 (g.addr + 4096 * k) = some (r', p', true)) :
    p'.proc.total_mmaps = 1 ∧ (p'.proc.slot 0).toMapping = g.toMapping ∧
      (∀ j, k + 1 ≤ j → j < g.pages → j ∉ touched es → (p'.proc.slot 0).stored_length =
        4096 * ((touched es).length + untouchedBelow (touched es) (k + 1) : ℕ)) ∧
      Pages g (fun j => j ∈ touched es ∨ j < k + 1) (forkContents g es) r' p' ∧
      Cached fs g.file g.bytes r'.cache ∧
      (∀ j, j < k → p'.proc.pgdir (g.page j) = p.proc.pgdir (g.page j)) ∧
      (∀ frame, r'.memory.frames.free frame = true → r.memory.frames.free frame = true) ∧
      (k ∉ touched es → ∃ frame, frame ≠ 0 ∧ r.memory.frames.free frame = true) := by
  have hflags : has (p.proc.slot 0).flags MAP_SHARED = true := by
    rw [h.mapping]
    exact g.shared
  have hphysical := h.pages.physical hk
  unfold parentPage at hr
  by_cases hmem : k ∈ touched es
  · have hpresent : ¬ get_physical_page p.proc (g.addr + 4096 * k) = 0 := by
      rw [hphysical]
      exact not_not.mpr (.inl hmem)
    rw [if_neg (fun hc => hpresent hc.2)] at hr
    cases hr
    refine ⟨h.total, h.mapping, fun j hj hjp hjt => ?_, h.pages.congr (fun j _ => ?_)
      (fun _ _ _ _ _ => rfl), h.cached, fun _ _ => rfl, fun _ hf => hf, fun hno => absurd hmem hno⟩
    · rw [untouchedBelow_succ, if_pos hmem, Nat.add_zero]
      exact h.stored j (by omega) hjp hjt
    · constructor
      · rintro (ht | hlt)
        · exact .inl ht
        · rcases Nat.lt_succ_iff_lt_or_eq.mp hlt with hlt | rfl
          · exact .inr hlt
          · exact .inl hmem
      · rintro (ht | hlt)
        · exact .inl ht
        · exact .inr (by omega)
  · have habsent : get_physical_page p.proc (g.addr + 4096 * k) = 0 := by
      rw [hphysical]
      exact fun hc => hc.elim hmem (lt_irrefl k)
    rw [if_pos ⟨hflags, habsent⟩] at hr
    have hnot : ¬ (k ∈ touched es ∨ k < k) := fun hc => hc.elim hmem (lt_irrefl k)
    have hcall := h.copy_call hin hk hmem
    obtain ⟨⟨r₁, p₁, ok⟩, hs, heq⟩ := Option.map_eq_some_iff.mp hr
    obtain ⟨rfl, rfl, rfl⟩ : r₁ = r' ∧ ok = true ∧ p₁.setSlot 0 { p₁.proc.slot 0 with
        stored_length := (p₁.proc.slot 0).stored_length +
          (copyCall p.proc 0 (g.addr + 4096 * k)).length } = p' := by
      simp only [Prod.mk.injEq] at heq
      obtain ⟨hram, hspace, rfl⟩ := heq
      exact ⟨hram, rfl, hspace⟩
    obtain ⟨havail, rfl, hmem', hcached, hfill⟩ :=
      store_success hcall h.cached (h.pages.absent k hk hnot) hs
    have hslot : ∀ (q : Space) (m : Mmp), (q.setSlot 0 m).proc.slot 0 = m ∧
        (q.setSlot 0 m).proc.pgdir = q.proc.pgdir := fun q m =>
      ⟨slot_setSlot_self _ (by decide), rfl⟩
    have hlen := hcall.length
    have hkept : (mapped p (g.page k) r.memory.pop.1.frame g.prot).proc.slot 0 = p.proc.slot 0 := rfl
    refine ⟨h.total, ?_, fun j hj hjp hjt => ?_, ?_, hcached, fun j hj => ?_, fun frame hf => ?_,
      fun _ => ⟨_, havail.frame, havail.free⟩⟩
    · rw [(hslot _ _).1]
      exact h.mapping
    · -- another page is left to load, so a whole page was loaded here
      have hleft := untouched_left hin hjp hjt
      have hmono := untouchedBelow_mono (touched es) hj
      rw [untouchedBelow_succ, if_neg hmem] at hmono ⊢
      rw [(hslot _ _).1, hkept, hlen, h.stored k (le_refl k) hk hmem, Region.left, min_eq_left (by omega)]
      push_cast
      ring
    · refine (h.pages.load hk hnot havail (hslot _ _).2 hmem' hfill).congr (fun j _ => ?_)
        fun j _ hj y hy => ?_
      · rw [or_assoc, Nat.lt_succ_iff_lt_or_eq]
      · rcases eq_or_ne j k with rfl | hne
        · rw [Function.update_self, forkContents, if_neg hmem]
        · rw [Function.update_of_ne hne]
    · rw [(hslot _ _).2]
      exact Function.update_of_ne (fun heq => by have := page_injective heq; omega) ..
    · rw [hmem', allocated] at hf
      simp only [Function.update_apply, pop_frames] at hf
      split_ifs at hf
      exact hf

theorem childPage_spec {parent child : Space} {frame : ℕ} (hk : k < g.pages)
    (hparent : parent.proc.pgdir (g.page k) = some frame)
    (hr : childPage r parent child true g.prot (g.addr + 4096 * k) = some (r', c', true)) :
    c'.proc.pgdir = Function.update child.proc.pgdir (g.page k) (some frame) ∧
      r'.mem = r.mem ∧ r'.cache = r.cache ∧ r'.memory.frames = r.memory.frames := by
  have hpa : get_physical_page parent.proc (g.addr + 4096 * k) = frame := by
    rw [get_physical_page, (page_start hk).2, hparent]
    rfl
  simp only [childPage, if_true, hpa, (page_start hk).2] at hr
  split_ifs at hr
  · obtain ⟨c₁, hmap, heq⟩ := Option.map_eq_some_iff.mp hr
    simp only [Prod.mk.injEq, and_true] at heq
    obtain ⟨rfl, rfl⟩ := heq
    unfold mapPage at hmap
    split at hmap
    next => cases hmap
    next =>
      cases hmap
      rw [aliased_of_permission _ g.permission]
      exact ⟨rfl, rfl, rfl, pop_frames _⟩
  · cases hr

theorem Pages.of_eq {present : ℕ → Prop} {contents : ℕ → ℕ → UInt8}
    (h : Pages g present contents r p) (hm : r'.mem = r.mem)
    (hf : r'.memory.frames = r.memory.frames) : Pages g present contents r' p := by
  refine ⟨h.absent, fun k hk hyes => ?_, h.apart⟩
  rw [hm, hf]
  exact h.mapped k hk hyes

/-- One round of the loop. -/
theorem Copying.step {r₁ : Ram} {p₁ : Space} (h : Copying fs g es r₀ k r p c)
    (hin : ∀ j ∈ touched es, j < g.pages) (hk : k < g.pages)
    (hparent : parentPage fs r p 0 (g.addr + 4096 * k) = some (r₁, p₁, true))
    (hchild : childPage r₁ p₁ c true g.prot (g.addr + 4096 * k) = some (r', c', true)) :
    Copying fs g es r₀ (k + 1) r' p₁ c' := by
  obtain ⟨htotal, hmapping, hstored, hpages, hcached, hkept, hshrinks, hspare⟩ :=
    parentPage_spec h hin hk hparent
  obtain ⟨frame, hframe, -⟩ := hpages.mapped k hk (.inr (Nat.lt_succ_self k))
  obtain ⟨hpgdir, hmem, hcache, hframes⟩ := childPage_spec hk hframe hchild
  refine ⟨htotal, hmapping, hstored, hpages.of_eq hmem hframes, hcache ▸ hcached,
    fun j hj => ?_, fun f hf => ?_, fun j hj hnot => ?_⟩
  · rw [hpgdir]
    rcases lt_trichotomy j k with hlt | rfl | hgt
    · rw [Function.update_of_ne (fun heq => by have := page_injective heq; omega),
        h.child j hj, if_pos hlt, if_pos (by omega), hkept j hlt]
    · rw [Function.update_self, if_pos (Nat.lt_succ_self j), hframe]
    · rw [Function.update_of_ne (fun heq => by have := page_injective heq; omega),
        h.child j hj, if_neg (by omega), if_neg (by omega)]
  · rw [hframes] at hf
    exact h.shrinks f (hshrinks f hf)
  · rcases Nat.lt_succ_iff_lt_or_eq.mp hj with hlt | rfl
    · exact h.spare j hlt hnot
    · obtain ⟨f, hf, hfree⟩ := hspare hnot
      exact ⟨f, hf, h.shrinks f hfree⟩

theorem next_start (hk : k < g.pages) :
    wrap ((g.addr + 4096 * k : ℕ) + PGSIZE) = g.addr + 4096 * (k + 1) := by
  have := (page_start hk).1
  rw [wrap_add_of_lt (by simp only [PGSIZE]; omega)]
  simp only [PGSIZE]
  ring

theorem copyPages_spec {n : ℕ} (hin : ∀ j ∈ touched es, j < g.pages)
    (h : Copying fs g es r₀ k r p c) (hn : k + n = g.pages)
    (hr : copyPages fs 0 true g.prot n (g.addr + 4096 * k) r p c = some (r', p', c', true)) :
    Copying fs g es r₀ g.pages r' p' c' := by
  induction n generalizing k r p c with
  | zero =>
    cases hr
    rwa [← hn, Nat.add_zero]
  | succ n ih =>
    have hk : k < g.pages := by omega
    rw [copyPages] at hr
    split at hr
    next => cases hr
    next => cases hr
    next r₁ p₁ hparent =>
      split at hr
      next => cases hr
      next => cases hr
      next r₂ c₂ hchild =>
        rw [next_start hk] at hr
        exact ih (h.step hin hk hparent hchild) (by omega) hr

theorem Invariant.copying (h : Invariant fs g es r p)
    (hchild : ∀ k, k < g.pages → c.proc.pgdir (g.page k) = none) :
    Copying fs g es r 0 r p c := by
  refine ⟨h.total, h.mapping, fun j _ _ _ => h.stored, h.pages.congr (fun j _ => by simp) ?_,
    h.cached, fun j hj => hchild j hj, fun _ hf => hf, fun j hj => absurd hj (Nat.not_lt_zero j)⟩
  intro j _ hj y _
  exact if_pos hj

theorem loop_pages (g : Region) : (wrap (g.addr + g.length) - g.addr + 4095) / 4096 = g.pages := by
  have huser := g.user
  simp only [KERNBASE] at huser
  rw [wrap_add_of_lt (by omega), Region.pages]
  congr 1
  omega

theorem copy_maps_spec (h : Invariant fs g es r p)
    (hchild : ∀ k, k < g.pages → c.proc.pgdir (g.page k) = none)
    (hr : copy_maps fs r p c = some (r', p', c', true)) :
    Pages g (fun j => j < g.pages) (forkContents g es) r' p' ∧
      (∀ j, j < g.pages → c'.proc.pgdir (g.page j) = p'.proc.pgdir (g.page j)) ∧
      ∀ j, j < g.pages → j ∉ touched es →
        ∃ frame, frame ≠ 0 ∧ r.memory.frames.free frame = true := by
  have hm := h.mapping
  obtain ⟨⟨r₁, p₁, c₁, ok⟩, hall, heq⟩ := Option.map_eq_some_iff.mp hr
  rw [h.total] at hall
  change copyAll fs 1 0 r p c = some (r₁, p₁, c₁, ok) at hall
  simp only [Prod.mk.injEq] at heq
  obtain ⟨rfl, rfl, rfl, rfl⟩ := heq
  simp only [copyAll] at hall
  split at hall
  next => cases hall
  next => cases hall
  next r₂ p₂ c₂ hsingle =>
    cases hall
    obtain ⟨⟨r₃, p₃, c₃, ok⟩, hloop, heq⟩ := Option.map_eq_some_iff.mp hsingle
    simp only [Nat.cast_zero, hm, g.shared] at hloop heq
    rw [loop_pages] at hloop
    cases ok with
    | false => cases heq
    | true =>
      cases heq
      have hdone := copyPages_spec h.inside (h.copying hchild) (Nat.zero_add _) hloop
      refine ⟨hdone.pages.congr (fun j hj => by simp [hj]) (fun _ _ _ _ _ => rfl), fun j hj => ?_,
        fun j hj hnot => hdone.spare j hj hnot⟩
      exact (hdone.child j hj).trans (if_pos hj)

end Fork

/-- Frames and page tables for the `n` pages from `k` on. The parent lacks those that are not in
`t`, and the child lacks all of them. -/
def Supplied (t : List ℕ) : ℕ → ℕ → Ram → Prop
  | 0, _, _ => True
  | n + 1, k, r =>
    if k ∈ t then
      r.memory.pop.1.mapped = true ∧ ∀ mem cache, Supplied t n (k + 1) ⟨r.memory.pop.2, mem, cache⟩
    else
      Available r ∧ (allocated r).memory.pop.1.mapped = true ∧
        ∀ mem cache, Supplied t n (k + 1) ⟨(allocated r).memory.pop.2, mem, cache⟩

section Completion

variable {fs : Files} {g : Region} {es : List Access} {r₀ r : Ram} {p c : Space} {k : ℕ}

theorem parentPage_completes (h : Copying fs g es r₀ k r p c)
    (hin : ∀ j ∈ touched es, j < g.pages) (hk : k < g.pages) (hnot : k ∉ touched es)
    (havail : Available r) : ∃ r' p', parentPage fs r p 0 (g.addr + 4096 * k) = some (r', p', true) ∧
      r'.memory = (allocated r).memory := by
  have hcall := h.copy_call hin hk hnot
  have habsent : ¬ (k ∈ touched es ∨ k < k) := fun hc => hc.elim hnot (lt_irrefl k)
  have hflags : has (p.proc.slot 0).flags MAP_SHARED = true := by
    rw [h.mapping]
    exact g.shared
  obtain ⟨r', p', hstore, hmem⟩ := store_completes hcall h.cached (h.pages.absent k hk habsent) havail
  refine ⟨r', p'.setSlot 0 { p'.proc.slot 0 with
    stored_length := (p'.proc.slot 0).stored_length +
      (copyCall p.proc 0 (g.addr + 4096 * k)).length }, ?_, hmem⟩
  rw [parentPage, if_pos ⟨hflags, (h.pages.physical hk).mpr habsent⟩]
  simp only [hstore, Option.map_some]
  rfl

theorem parentPage_touched (h : Copying fs g es r₀ k r p c) (hk : k < g.pages)
    (ht : k ∈ touched es) : parentPage fs r p 0 (g.addr + 4096 * k) = some (r, p, true) :=
  if_neg fun hc => (h.pages.physical hk).mp hc.2 (.inl ht)

theorem childPage_completes (hk : k < g.pages) (habsent : c.proc.pgdir (g.page k) = none)
    (hm : r.memory.pop.1.mapped = true) :
    ∃ c', childPage r p c true g.prot (g.addr + 4096 * k) =
      some ({ r with memory := r.memory.pop.2 }, c', true) := by
  refine ⟨mapped c (g.page k) (get_physical_page p.proc (g.addr + 4096 * k)) g.prot, ?_⟩
  simp only [childPage, if_true, hm, mapPage, (page_start hk).2, habsent]
  rfl

theorem copyPages_completes {n : ℕ} (hin : ∀ j ∈ touched es, j < g.pages)
    (h : Copying fs g es r₀ k r p c) (hn : k + n = g.pages) (hs : Supplied (touched es) n k r) :
    ∃ r' p' c', copyPages fs 0 true g.prot n (g.addr + 4096 * k) r p c = some (r', p', c', true) := by
  induction n generalizing k r p c with
  | zero => exact ⟨r, p, c, rfl⟩
  | succ n ih =>
    have hk : k < g.pages := by omega
    obtain ⟨r₁, p₁, hparent, hmapped, hrest⟩ : ∃ r₁ p₁,
        parentPage fs r p 0 (g.addr + 4096 * k) = some (r₁, p₁, true) ∧
          r₁.memory.pop.1.mapped = true ∧
          ∀ mem cache, Supplied (touched es) n (k + 1) ⟨r₁.memory.pop.2, mem, cache⟩ := by
      rw [Supplied] at hs
      split_ifs at hs with ht
      · exact ⟨r, p, parentPage_touched h hk ht, hs⟩
      · obtain ⟨havail, hs⟩ := hs
        obtain ⟨r₁, p₁, hparent, hmem⟩ := parentPage_completes h hin hk ht havail
        exact ⟨r₁, p₁, hparent, hmem ▸ hs⟩
    have habsent : c.proc.pgdir (g.page k) = none := (h.child k hk).trans (if_neg (lt_irrefl k))
    obtain ⟨c₁, hchild⟩ := childPage_completes (p := p₁) hk habsent hmapped
    have hstep := h.step hin hk hparent hchild
    obtain ⟨r', p', c', hloop⟩ := ih hstep (by omega) (hrest _ _)
    refine ⟨r', p', c', ?_⟩
    rw [copyPages, hparent]
    simp only [hchild]
    rw [next_start hk]
    exact hloop

/-- With enough memory `fork` succeeds. -/
theorem copy_maps_completes {n : ℕ} (h : Invariant fs g es r p)
    (hchild : ∀ k, k < g.pages → c.proc.pgdir (g.page k) = none) (hn : g.pages = n)
    (hs : Supplied (touched es) n 0 r) :
    ∃ r' p' c', copy_maps fs r p c = some (r', p', c', true) := by
  subst hn
  obtain ⟨r', p', c', hloop⟩ := copyPages_completes h.inside (h.copying hchild) (Nat.zero_add _) hs
  have hm := h.mapping
  obtain ⟨c₁, hsingle⟩ : ∃ c₁, copy_single_mmap fs r p c 0 = some (r', p', c₁, true) := by
    simp only [copy_single_mmap, hm, g.shared, loop_pages]
    rw [show copyPages fs 0 true g.prot g.pages g.addr r p c = some (r', p', c', true) from hloop]
    exact ⟨_, rfl⟩
  have hall : copyAll fs 1 0 r p c = some (r', p', c₁, true) := by
    simp only [copyAll, Nat.cast_zero, hsingle]
  rw [copy_maps, h.total]
  change ∃ r' p' c', (copyAll fs 1 0 r p c).map _ = some (r', p', c', true)
  rw [hall]
  exact ⟨r', p', _, rfl⟩

end Completion

/-- After the accesses `es` and a `fork`, parent and child read the same byte at every offset, the
parent would have read it without the `fork`, and it is the file's byte unless the parent stored
one. -/
def Keeps (fs : Files) (g : Region) (es : List Access) (r : Ram) (p : Space) (r' : Ram)
    (p' c' : Space) : Prop :=
  ∀ x, x < g.length → ∃ b, byteAt r' p' (g.addr + x) = some b ∧ byteAt r' c' (g.addr + x) = some b ∧
    (∀ answers r₁ p₁, access fs g (withAnswers r answers) p (.load x) = some (r₁, p₁) →
      byteAt r₁ p₁ (g.addr + x) = some b) ∧
    (lastStore es x = none → b = g.bytes.getD x 0)

/-- The file has zeros where a load was cut short, and in the pages that were not touched it
repeats what `fork` loads from its start. -/
structure Repeats (g : Region) (es : List Access) : Prop where
  loaded : ∀ x, x < g.length → x / 4096 ∈ touched es → lastStore es x = none →
    g.left ((touched es).idxOf (x / 4096)) ≤ x % 4096 → g.bytes.getD x 0 = 0
  faulted : ∀ x, x < g.length → x / 4096 ∉ touched es →
    g.left (touched es).length ≤ x % 4096 → g.bytes.getD x 0 = 0
  forked : ∀ x, x < g.length → x / 4096 ∉ touched es → g.bytes.getD x 0 =
    loadedByte g.bytes 0 (g.left ((touched es).length + untouchedBelow (touched es) (x / 4096)))
      (x % 4096)

section Contents

variable {fs : Files} {g : Region} {es : List Access} {r₀ r r' r₁ : Ram}
  {p₀ p p' p₁ c c' : Space} {x : ℕ}

theorem Pages.byteAt {present : ℕ → Prop} {contents : ℕ → ℕ → UInt8}
    (h : Pages g present contents r p) (hx : x < g.length) (hyes : present (x / 4096)) :
    byteAt r p (g.addr + x) = some (contents (x / 4096) (x % 4096)) := by
  obtain ⟨frame, hframe, -, -, hbytes⟩ := h.mapped _ (page_lt_pages hx) hyes
  have hoffset : (g.addr + x) % PGSIZE = x % 4096 := by
    have := g.aligned
    simp only [PGSIZE] at *
    omega
  rw [MmapMemory.byteAt, page_of_offset, hframe, hoffset]
  exact congrArg some (hbytes _ (Nat.mod_lt x (by decide)))

theorem Invariant.withAnswers (h : Invariant fs g es r p) (answers : List Answer) :
    Invariant fs g es (withAnswers r answers) p :=
  ⟨h.total, h.mapping, h.stored, h.inside, h.pages.of_eq rfl rfl, h.cached⟩

/-- The byte that the next load reads. -/
theorem load_byte (h : Invariant fs g es r p) (hx : x < g.length)
    (hr : access fs g r p (.load x) = some (r₁, p₁)) :
    byteAt r₁ p₁ (g.addr + x) = some (contentsAfter g (es ++ [.load x]) (x / 4096) (x % 4096)) := by
  refine (access_invariant (e := .load x) h hx hr).pages.byteAt hx ?_
  rw [touched_append, mem_note]
  exact .inr rfl

theorem access_completes {e : Access} (h : Invariant fs g es r p) (he : e.at = x)
    (hx : x < g.length) (hnot : x / 4096 ∉ touched es) (havail : Available r) :
    ∃ r₁ p₁, access fs g r p e = some (r₁, p₁) ∧ r₁.memory = (allocated r).memory := by
  have hcall : LoadsPage g (faultCall p.proc (0 : ℕ) (g.addr + x)) _ _ _ := h.fault_call hx hnot
  have habsent := h.pages.absent _ (page_lt_pages hx) hnot
  rw [← page_of_offset] at habsent
  have hleft : wrap ((p.proc.slot (0 : ℕ)).length - (p.proc.slot (0 : ℕ)).stored_length) ≠ 0 := by
    intro hzero
    have hlen := hcall.length
    have hpos := hcall.positive
    simp only [faultCall, hzero, PGSIZE] at hlen
    omega
  have hreads : Reads fs r (faultCall p.proc (0 : ℕ) (g.addr + x)) := by
    obtain ⟨r₁, hload, -⟩ := fileFill_loads (r := allocated r) r.memory.pop.1.frame
      h.cached hcall.inFile hcall.positive hcall.onePage
    refine .inr ⟨g.file, hcall.f, ?_⟩
    rw [hcall.offset, hcall.length, Int.toNat_natCast]
    exact Option.isSome_iff_exists.mpr ⟨r₁, hload⟩
  obtain ⟨r₁, hfault⟩ := faultIn_loads habsent ⟨hleft, havail, hreads⟩
  have hserver : server p.proc (g.addr + x) 0 = 0 := rfl
  have hplan := plan_inside h.wellFormed (h.inside_slot hx)
  have htouch : touch fs r p (g.addr + x) = some (r₁, counted (installed r p 0 (g.addr + x)) 0) := by
    rw [touch, habsent, handle_page_fault, hplan, hserver]
    exact hfault
  have hpresent : (counted (installed r p 0 (g.addr + x)) 0).proc.pgdir ((g.addr + x) / PGSIZE) =
      some (aliased r.memory.pop.1.frame (p.proc.slot (0 : ℕ)).prot) := by
    rw [counted_pgdir (by decide)]
    exact Function.update_self ..
  obtain ⟨r₂, p₂, hstore, hmem⟩ :=
    store_completes hcall h.cached (h.pages.absent _ (page_lt_pages hx) hnot) havail
  rw [faultIn_eq habsent, hstore] at hfault
  obtain rfl : r₂ = r₁ := congrArg Prod.fst (Option.some.inj hfault)
  cases e with
  | load y =>
    obtain rfl : y = x := he
    exact ⟨r₂, _, by simp only [access, Access.at, htouch, hpresent]; rfl, hmem⟩
  | store y v =>
    obtain rfl : y = x := he
    let here := aliased r.memory.pop.1.frame (p.proc.slot (0 : ℕ)).prot * PGSIZE +
      (g.addr + y) % PGSIZE
    refine ⟨⟨r₂.memory, storeBytes r₂.mem here [v], r₂.cache⟩,
      counted (installed r p 0 (g.addr + y)) 0, ?_, hmem⟩
    simp only [access, Access.at, htouch, hpresent]
    rfl

/-- A load that is cut after `n` bytes still gives the file's byte where the file has zeros. -/
theorem loadedByte_iff {d : List UInt8} {n : ℕ} :
    loadedByte d (x / 4096) n (x % 4096) = d.getD x 0 ↔ (n ≤ x % 4096 → d.getD x 0 = 0) := by
  rw [loadedByte, Nat.div_add_mod]
  split_ifs with hlt
  · exact ⟨fun _ hge => absurd hlt (by omega), fun _ => rfl⟩
  · exact ⟨fun heq _ => heq.symm, fun hz => (hz (by omega)).symm⟩

theorem contents_untouched_store (hlast : lastStore es x = none) :
    contentsAfter g es (x / 4096) (x % 4096) =
      loadedByte g.bytes (x / 4096) (g.left ((touched es).idxOf (x / 4096))) (x % 4096) := by
  rw [contentsAfter, Nat.div_add_mod, hlast]
  rfl

theorem fork_bytes (h : Invariant fs g es r p)
    (hchild : ∀ k, k < g.pages → c.proc.pgdir (g.page k) = none)
    (hfork : copy_maps fs r p c = some (r', p', c', true)) (hx : x < g.length) :
    byteAt r' p' (g.addr + x) = some (forkContents g es (x / 4096) (x % 4096)) ∧
      byteAt r' c' (g.addr + x) = some (forkContents g es (x / 4096) (x % 4096)) := by
  obtain ⟨hpages, hsame, -⟩ := copy_maps_spec h hchild hfork
  have hparent := hpages.byteAt hx (page_lt_pages hx)
  refine ⟨hparent, ?_⟩
  rw [← hparent, byteAt, byteAt, page_of_offset, hsame _ (page_lt_pages hx)]

theorem repeats_of_keeps (h : Invariant fs g es r p)
    (hchild : ∀ k, k < g.pages → c.proc.pgdir (g.page k) = none)
    (hfork : copy_maps fs r p c = some (r', p', c', true)) (hkeeps : Keeps fs g es r p r' p' c') :
    Repeats g es := by
  have hbyte : ∀ x, x < g.length → lastStore es x = none →
      forkContents g es (x / 4096) (x % 4096) = g.bytes.getD x 0 := by
    intro x hx hlast
    obtain ⟨b, hb, -, -, hfile⟩ := hkeeps x hx
    rw [(fork_bytes h hchild hfork hx).1] at hb
    rw [Option.some.inj hb]
    exact hfile hlast
  refine ⟨fun x hx ht hlast => ?_, fun x hx ht => ?_, fun x hx ht => ?_⟩
  · have := hbyte x hx hlast
    rw [forkContents, if_pos ht, contents_untouched_store hlast] at this
    exact loadedByte_iff.mp this
  · -- the frame that `fork` took would have served the load as well
    obtain ⟨frame, hne, hfree⟩ := (copy_maps_spec h hchild hfork).2.2 _ (page_lt_pages hx) ht
    have h' := h.withAnswers [⟨frame, true⟩]
    obtain ⟨r₁, p₁, hload, -⟩ := access_completes (e := .load x) h' rfl hx ht ⟨rfl, hne, hfree⟩
    obtain ⟨b, -, -, halone, hfile⟩ := hkeeps x hx
    have hb := halone _ _ _ hload
    rw [load_byte h' hx hload, contents_new ht (Nat.mod_lt x (by decide))] at hb
    rw [← loadedByte_iff, Option.some.inj hb]
    exact hfile (lastStore_untouched ht)
  · have := hbyte x hx (lastStore_untouched ht)
    rw [forkContents, if_neg ht] at this
    exact this.symm

theorem keeps_of_repeats (h : Invariant fs g es r p)
    (hchild : ∀ k, k < g.pages → c.proc.pgdir (g.page k) = none)
    (hfork : copy_maps fs r p c = some (r', p', c', true)) (hrep : Repeats g es) :
    Keeps fs g es r p r' p' c' := by
  intro x hx
  obtain ⟨hparent, hread⟩ := fork_bytes h hchild hfork hx
  refine ⟨_, hparent, hread, fun answers r₁ p₁ hload => ?_, fun hlast => ?_⟩
  · rw [load_byte (h.withAnswers answers) hx hload]
    by_cases ht : x / 4096 ∈ touched es
    · rw [contents_load ht, forkContents, if_pos ht]
    · rw [contents_new ht (Nat.mod_lt x (by decide)), forkContents, if_neg ht,
        ← hrep.forked x hx ht, loadedByte_iff.mpr (hrep.faulted x hx ht)]
  · by_cases ht : x / 4096 ∈ touched es
    · rw [forkContents, if_pos ht, contents_untouched_store hlast]
      exact loadedByte_iff.mpr (hrep.loaded x hx ht hlast)
    · rw [forkContents, if_neg ht, ← hrep.forked x hx ht]

/-- After a successful `fork` every byte of the mapping is as it was exactly when the file
repeats its first page in the pages that the parent had not touched. -/
theorem fork_keeps_iff (hstart : Start fs g r₀ p₀) (hin : ∀ e ∈ es, e.at < g.length)
    (hrun : run fs g r₀ p₀ es = some (r, p))
    (hchild : ∀ k, k < g.pages → c.proc.pgdir (g.page k) = none)
    (hfork : copy_maps fs r p c = some (r', p', c', true)) :
    Keeps fs g es r p r' p' c' ↔ Repeats g es := by
  have h : Invariant fs g es r p := run_invariant (start_invariant hstart) hin hrun
  exact ⟨repeats_of_keeps h hchild hfork, keeps_of_repeats h hchild hfork⟩

end Contents

/-- A writable mapping of a whole file of at most two pages. -/
def wholeFile (bytes : List UInt8) (hpos : 0 < bytes.length) (hlen : bytes.length ≤ 8192) :
    Region where
  addr := MMAPBASE
  length := bytes.length
  flags := MAP_SHARED
  prot := 6
  f := some 0
  offset := 0
  file := 0
  bytes := bytes
  aligned := rfl
  positive := hpos
  low := le_refl _
  user := by simp only [MMAPBASE, KERNBASE]; omega
  shared := by decide
  backed := by decide
  start := rfl
  opened := rfl
  long := le_refl _
  permission := by decide

theorem wholeFile_length {bytes : List UInt8} (hpos : 0 < bytes.length)
    (hlen : bytes.length ≤ 8192) : (wholeFile bytes hpos hlen).length = bytes.length := rfl

theorem wholeFile_bytes {bytes : List UInt8} (hpos : 0 < bytes.length)
    (hlen : bytes.length ≤ 8192) : (wholeFile bytes hpos hlen).bytes = bytes := rfl

def fileRam (bytes : List UInt8) : Ram where
  memory := ⟨⟨fun _ => true, false⟩, [⟨1, true⟩, ⟨0, true⟩, ⟨2, true⟩, ⟨0, true⟩]⟩
  mem := fun _ => 0
  cache := PageCache.initial (fun _ => 0) fun _ => bytes

def fileSpace (g : Region) : Space :=
  ⟨⟨fun _ => ⟨g.toMapping, 0, 0⟩, 1, fun _ => none, false⟩, fun _ => 0⟩

def emptySpace : Space := ⟨⟨fun _ => Mmp.zero, 0, fun _ => none, false⟩, fun _ => 0⟩

def oneFile : Files := ⟨PageCoherence.adjacentFrames, fun _ => ⟨1, 2⟩⟩

theorem fileStart {bytes : List UInt8} (hpos : 0 < bytes.length) (hlen : bytes.length ≤ 8192) :
    Start oneFile (wholeFile bytes hpos hlen) (fileRam bytes)
      (fileSpace (wholeFile bytes hpos hlen)) := by
  refine ⟨rfl, rfl, rfl, fun _ _ => rfl, ?_, fun _ => rfl, rfl, show 2 ≠ 0 by decide⟩
  exact PageCoherence.initial_invariant fun _ => hlen.trans (by decide)

theorem fileRam_supplied (bytes : List UInt8) {n : ℕ} (hn : n ≤ 2) :
    Supplied [] n 0 (fileRam bytes) := by
  have htwo : Supplied [] 2 0 (fileRam bytes) :=
    ⟨⟨rfl, show 1 ≠ 0 by decide, rfl⟩, rfl,
      fun _ _ => ⟨⟨rfl, show 2 ≠ 0 by decide, rfl⟩, rfl, fun _ _ => trivial⟩⟩
  have hone : Supplied [] 1 0 (fileRam bytes) := ⟨htwo.1, htwo.2.1, fun _ _ => trivial⟩
  obtain rfl | rfl | rfl : n = 0 ∨ n = 1 ∨ n = 2 := by omega
  · trivial
  · exact hone
  · exact htwo

theorem file_fork_completes (bytes : List UInt8) (hpos : 0 < bytes.length)
    (hlen : bytes.length ≤ 8192) : ∃ r' p' c', copy_maps oneFile (fileRam bytes)
      (fileSpace (wholeFile bytes hpos hlen)) emptySpace = some (r', p', c', true) := by
  refine copy_maps_completes (start_invariant (fileStart hpos hlen)) (fun _ _ => rfl) rfl
    (fileRam_supplied bytes ?_)
  rw [Region.pages, wholeFile_length]
  omega

def twoPages : List UInt8 := (List.range 8192).map fun i => UInt8.ofNat (i / 4096)

theorem twoPages_length : twoPages.length = 8192 := by simp [twoPages]

def twoPageRegion : Region :=
  wholeFile twoPages (by rw [twoPages_length]; decide) twoPages_length.le

theorem twoPageRegion_length : twoPageRegion.length = 8192 :=
  (wholeFile_length _ _).trans twoPages_length

theorem twoPageRegion_pages : twoPageRegion.pages = 2 := by
  rw [Region.pages, twoPageRegion_length]

theorem twoPageRegion_left {j : ℕ} (hj : j < 2) : twoPageRegion.left j = 4096 := by
  rw [Region.left, twoPageRegion_length]
  omega

/-- The fault takes frame 1, `fork` frame 2 for the page that was not touched. -/
def touchedRam : Ram :=
  withAnswers (fileRam twoPages) [⟨1, true⟩, ⟨2, true⟩, ⟨0, true⟩, ⟨0, true⟩]

theorem touchedStart : Start oneFile twoPageRegion touchedRam (fileSpace twoPageRegion) := by
  have h := @fileStart twoPages (by rw [twoPages_length]; decide) twoPages_length.le
  exact ⟨h.total, h.mapping, h.stored, h.absent, h.cached⟩

theorem touched_repeats : Repeats twoPageRegion [.store 4100 9] := by
  have htouched : touched [.store 4100 9] = [1] := rfl
  refine ⟨fun x _ ht _ hcut => ?_, fun x _ _ hcut => ?_, fun x hx ht => ?_⟩
  · rw [htouched] at ht hcut
    rw [List.mem_singleton.mp ht, List.idxOf_cons_self, twoPageRegion_left (by decide)] at hcut
    omega
  · rw [htouched, List.length_singleton, twoPageRegion_left (by decide)] at hcut
    omega
  · rw [htouched] at ht ⊢
    rw [twoPageRegion_length] at hx
    have hfirst : x / 4096 = 0 := by
      have := mt List.mem_singleton.mpr ht
      omega
    rw [hfirst, show untouchedBelow [1] 0 = 0 from rfl, List.length_singleton, Nat.add_zero,
      twoPageRegion_left (by decide), loadedByte, if_pos (by omega)]
    congr 1
    omega

/-- The second page is stored to and the first is not touched: parent and child read the store
and, in the first page, what the file has there. -/
theorem stored_page_kept : ∃ r p r' p' c',
    run oneFile twoPageRegion touchedRam (fileSpace twoPageRegion) [.store 4100 9] = some (r, p) ∧
      copy_maps oneFile r p emptySpace = some (r', p', c', true) ∧
      byteAt r' c' (MMAPBASE + 4100) = some 9 ∧
      Keeps oneFile twoPageRegion [.store 4100 9] r p r' p' c' := by
  have hin : ∀ e ∈ [Access.store 4100 9], e.at < twoPageRegion.length := by
    intro e he
    obtain rfl := List.mem_singleton.mp he
    rw [twoPageRegion_length]
    decide
  have hstart := start_invariant touchedStart
  obtain ⟨r, p, haccess, hmem⟩ := access_completes (e := .store 4100 9) hstart rfl
    (hin _ List.mem_cons_self) List.not_mem_nil ⟨rfl, show 1 ≠ 0 by decide, rfl⟩
  have hrun : run oneFile twoPageRegion touchedRam (fileSpace twoPageRegion) [.store 4100 9] =
      some (r, p) := by
    rw [run, Runs.run, haccess]
    rfl
  have hinv : Invariant oneFile twoPageRegion [.store 4100 9] r p := access_invariant hstart
    (hin _ List.mem_cons_self) haccess
  have hs : Supplied (touched [.store 4100 9]) 2 0 r := by
    obtain ⟨memory, mem, cache⟩ := r
    obtain rfl : memory = (allocated touchedRam).memory := hmem
    exact ⟨⟨rfl, show 2 ≠ 0 by decide, rfl⟩, rfl, fun _ _ => ⟨rfl, fun _ _ => trivial⟩⟩
  have hchild : ∀ k, k < twoPageRegion.pages →
      emptySpace.proc.pgdir (twoPageRegion.page k) = none := fun _ _ => rfl
  obtain ⟨r', p', c', hfork⟩ := copy_maps_completes hinv hchild twoPageRegion_pages hs
  have hbyte := (fork_bytes hinv (fun _ _ => rfl) hfork (hin _ List.mem_cons_self)).2
  exact ⟨r, p, r', p', c', hrun, hfork, hbyte,
    (fork_keeps_iff touchedStart hin hrun (fun _ _ => rfl) hfork).mpr touched_repeats⟩

/-- A `fork` before the first access puts the first page of the file into both pages. -/
theorem second_page_lost : ∃ r' p' c', copy_maps oneFile (fileRam twoPages)
      (fileSpace (wholeFile twoPages (by rw [twoPages_length]; decide) twoPages_length.le))
      emptySpace = some (r', p', c', true) ∧
    ¬ Keeps oneFile (wholeFile twoPages (by rw [twoPages_length]; decide) twoPages_length.le) []
      (fileRam twoPages)
      (fileSpace (wholeFile twoPages (by rw [twoPages_length]; decide) twoPages_length.le))
      r' p' c' := by
  have hpos : 0 < twoPages.length := by rw [twoPages_length]; decide
  obtain ⟨r', p', c', hfork⟩ := file_fork_completes twoPages hpos twoPages_length.le
  refine ⟨r', p', c', hfork, fun hkeeps => ?_⟩
  have hrep := repeats_of_keeps (start_invariant (fileStart hpos twoPages_length.le))
    (fun _ _ => rfl) hfork hkeeps
  have hin : 4096 < (wholeFile twoPages hpos twoPages_length.le).length := by
    rw [wholeFile_length, twoPages_length]
    decide
  have hfirst : twoPages.getD 0 0 = 0 := by simp [twoPages]
  have hsecond : twoPages.getD 4096 0 = 1 := by simp [twoPages]
  have hbyte := hrep.forked 4096 hin List.not_mem_nil
  have hload : ∀ n, loadedByte twoPages 0 n (4096 % 4096) = 0 := by
    intro n
    rw [loadedByte]
    split_ifs
    · exact hfirst
    · rfl
  rw [wholeFile_bytes, hload, hsecond] at hbyte
  exact absurd hbyte (by decide)

end MmapFork
