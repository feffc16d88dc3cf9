import OsProjects.MmapFork

/-! # Private file mappings and the order of their faults

The fault path never looks at `MAP_SHARED`, so a private mapping is filled as its shared twin
is. Every page but the one touched last is loaded in full; that one is cut to what is left of
the length.
-/
namespace MmapOrder

open Word32 MmapTable MmapMemory MmapFaults MmapFills MmapFork
open MmapFrames (covers growsTo)

/-- A private mapping of the first `length` bytes of a file. The protection consists of
permission bits. -/
structure PrivateRegion extends Mapping where
  file : ℕ
  bytes : List UInt8
  aligned : addr % PGSIZE = 0
  positive : 0 < length
  low : MMAPBASE ≤ addr
  user : addr + length ≤ KERNBASE
  isPrivate : has flags MAP_SHARED = false
  backed : has flags MAP_ANONYMOUS = false
  start : offset = 0
  opened : f = some file
  long : length ≤ bytes.length
  permission : prot.toNat < PGSIZE

theorem has_or_shared (flags : BitVec 32) {bit : BitVec 32} (h : MAP_SHARED &&& bit = 0#32) :
    has (flags ||| MAP_SHARED) bit = has flags bit := by
  rw [has, has]
  congr 2
  ext i
  have hbit := congrArg (fun b : BitVec 32 => b[i]) h
  simp only [BitVec.getElem_and, BitVec.getElem_zero] at hbit
  simp only [BitVec.getElem_and, BitVec.getElem_or, Bool.and_or_distrib_right, hbit, Bool.or_false]

theorem has_shared (flags : BitVec 32) : has (flags ||| MAP_SHARED) MAP_SHARED = true := by
  have habsorb : (flags ||| MAP_SHARED) &&& MAP_SHARED = MAP_SHARED := by
    ext i
    simp [BitVec.getElem_and, BitVec.getElem_or, Bool.and_or_distrib_right]
  rw [has, habsorb]
  decide

/-- The same mapping with `MAP_SHARED` set. -/
def PrivateRegion.twin (g : PrivateRegion) : Region where
  toMapping := { g.toMapping with flags := g.flags ||| MAP_SHARED }
  file := g.file
  bytes := g.bytes
  aligned := g.aligned
  positive := g.positive
  low := g.low
  user := g.user
  shared := has_shared g.flags
  backed := by
    rw [has_or_shared g.flags (by decide)]
    exact g.backed
  start := g.start
  opened := g.opened
  long := g.long
  permission := g.permission

def PrivateRegion.pages (g : PrivateRegion) : ℕ := (g.length + 4095) / 4096

/-- Setting `MAP_SHARED` in the only mapping of a process. -/
def twin (p : Space) : Space :=
  p.setSlot 0 { p.proc.slot 0 with flags := (p.proc.slot 0).flags ||| MAP_SHARED }

section Twin

variable {fs : Files} {r : Ram} {p : Space} {a : ℕ}

theorem twin_slot (p : Space) : (twin p).proc.slot 0 =
    { p.proc.slot 0 with flags := (p.proc.slot 0).flags ||| MAP_SHARED } :=
  slot_setSlot_self _ (by decide)

theorem twin_slot_of_ne (p : Space) {j : ℤ} (h : j ≠ 0) :
    (twin p).proc.slot j = p.proc.slot j :=
  slot_setSlot_of_ne _ (by decide) h

theorem twin_total (p : Space) : (twin p).proc.total_mmaps = p.proc.total_mmaps :=
  setSlot_total _ (by decide)

@[simp] theorem twin_pgdir (p : Space) : (twin p).proc.pgdir = p.proc.pgdir := by
  simp [twin, Space.setSlot, Proc.setSlot]

theorem twin_byteAt (r : Ram) (p : Space) (a : ℕ) : byteAt r (twin p) a = byteAt r p a := by
  rw [byteAt, byteAt, twin_pgdir]

theorem twin_mapPage (page frame : ℕ) (perm : BitVec 32) :
    mapPage (twin p) page frame perm = (mapPage p page frame perm).map twin := by
  unfold mapPage
  rw [twin_pgdir]
  cases p.proc.pgdir page with
  | some _ => rfl
  | none => simp [twin, Space.setSlot, Proc.setSlot, Proc.slot]

/-- Memory and answer as before, and the twin of the space. -/
def twinOf : Ram × Space × Bool → Ram × Space × Bool
  | (r, p, ok) => (r, twin p, ok)

theorem twin_mapFresh (fill : Ram → ℕ → Option Ram) (page : ℕ) (perm : BitVec 32) :
    mapFresh fill r (twin p) page perm = (mapFresh fill r p page perm).map twinOf := by
  unfold mapFresh
  dsimp only
  split
  next => rfl
  next k _ =>
    rw [Option.map_bind]
    congr 1
    funext r₁
    dsimp only [Function.comp_apply]
    split_ifs
    · rw [twin_mapPage, Option.map_map, Option.map_map]
      rfl
    · rfl

theorem twin_storePages (fill : ℕ → Ram → ℕ → Option Ram) (perm : BitVec 32) (n page done : ℕ) :
    storePages fill perm n page done r (twin p) =
      (storePages fill perm n page done r p).map twinOf := by
  induction n generalizing r p page done with
  | zero => rfl
  | succ n ih =>
    rw [storePages, storePages, twin_mapFresh]
    rcases mapFresh (fill done) r p page perm with _ | ⟨r₁, p₁, ok⟩
    · rfl
    · cases ok with
      | false => rfl
      | true => exact ih ..

theorem twin_store (c : StoreCall) : mmap_store_data fs r (twin p)
    { c with flags := c.flags ||| MAP_SHARED } = (mmap_store_data fs r p c).map twinOf := by
  unfold mmap_store_data
  dsimp only
  rw [has_or_shared c.flags (by decide)]
  split_ifs with hanon
  · exact twin_storePages ..
  · split
    next => rfl
    next f _ => exact twin_storePages ..

theorem twin_counted (p : Space) : twin (counted p 0) = counted (twin p) 0 := by
  simp [twin, counted, Space.setSlot, Proc.setSlot, Proc.slot]

theorem twin_faultCall (p : Space) (a : ℕ) : faultCall (twin p).proc 0 a =
    { faultCall p.proc 0 a with flags := (faultCall p.proc 0 a).flags ||| MAP_SHARED } := by
  rw [faultCall, twin_slot]
  rfl

def twinSpace : Ram × Space → Ram × Space
  | (r, p) => (r, twin p)

theorem twin_faultIn : faultIn fs r (twin p) 0 a = (faultIn fs r p 0 a).map twinSpace := by
  have hpage : get_physical_page (twin p).proc (pgRoundDown a) =
      get_physical_page p.proc (pgRoundDown a) := by
    rw [get_physical_page, get_physical_page, twin_pgdir]
  unfold faultIn
  rw [hpage]
  split_ifs
  · rfl
  · rw [twin_faultCall, twin_store, Option.map_map, Option.map_map]
    congr 1
    funext x
    obtain ⟨r₁, p₁, ok⟩ := x
    cases ok with
    | false => exact congrArg (Prod.mk r₁) (twin_counted p₁.kill).symm
    | true => exact congrArg (Prod.mk r₁) (twin_counted p₁).symm

theorem twin_covers (i : ℕ) : covers (twin p).proc a i = covers p.proc a i := by
  unfold covers
  rcases eq_or_ne i 0 with rfl | hi
  · rw [Nat.cast_zero, twin_slot]
  · rw [twin_slot_of_ne p (by exact_mod_cast hi)]

theorem twin_growsTo (e i : ℕ) : growsTo (twin p).proc a e i = growsTo p.proc a e i := by
  unfold growsTo
  have hnext : (twin p).proc.slot ((i : ℤ) + 1) = p.proc.slot (i + 1) :=
    twin_slot_of_ne p (by omega)
  rw [hnext, twin_total]
  rcases eq_or_ne i 0 with rfl | hi
  · rw [Nat.cast_zero, twin_slot]
    dsimp only
    rw [has_or_shared _ (by decide)]
  · rw [twin_slot_of_ne p (by exact_mod_cast hi)]

theorem twin_plan : planFault (twin p).proc a = planFault p.proc a := by
  unfold planFault
  simp only [twin_total, funext (twin_covers (p := p) (a := a)),
    funext (twin_growsTo (p := p) (a := a) _)]

/-- A process with one mapping faults as with the twin of that mapping. -/
theorem twin_fault (hone : p.proc.total_mmaps = 1) :
    handle_page_fault fs r (twin p) a = (handle_page_fault fs r p a).map twinSpace := by
  have hzero {i : ℕ} (h : i < p.proc.total_mmaps.toNat) : i = 0 := by
    rw [hone] at h
    omega
  unfold handle_page_fault
  rw [twin_plan]
  rcases hplan : planFault p.proc a with _ | _ | i | i
  · rfl
  · rfl
  · obtain rfl := hzero (plan_lt (.inl hplan))
    exact twin_faultIn
  · obtain rfl := hzero (plan_lt (.inr hplan))
    have hgrown : (⟨grown (twin p).proc 0, (twin p).perm⟩ : Space) =
        twin ⟨grown p.proc 0, p.perm⟩ := by
      simp [twin, grown, Space.setSlot, Proc.setSlot, Proc.slot]
    dsimp only [Nat.cast_zero]
    exact (congrArg (fun q => faultIn fs r q 0 a) hgrown).trans twin_faultIn

end Twin

/-- The bytes at the offsets `xs` are read one after another. -/
def readAll (fs : Files) (g : PrivateRegion) (r : Ram) (p : Space) (xs : List ℕ) :
    Option (Ram × Space) :=
  run fs g.twin r p (xs.map .load)

/-- The pages in the order in which the reads touch them. -/
def order (xs : List ℕ) : List ℕ := touched (xs.map .load)

/-- The mapping as `my_mmap` leaves it in an unused table slot. -/
structure Start (fs : Files) (g : PrivateRegion) (r : Ram) (p : Space) : Prop where
  total : p.proc.total_mmaps = 1
  mapping : (p.proc.slot 0).toMapping = g.toMapping
  stored : (p.proc.slot 0).stored_length = 0
  absent : ∀ k, k < g.pages → p.proc.pgdir (g.addr / PGSIZE + k) = none
  cached : Cached fs g.file g.bytes r.cache

/-- Every byte of the mapping is the byte of the file. -/
def Correct (g : PrivateRegion) (r : Ram) (p : Space) : Prop :=
  ∀ x, x < g.length → byteAt r p (g.addr + x) = some (g.bytes.getD x 0)

/-- Of the page that is touched last, the bytes behind what is left of the length are zeros in
the file. -/
def ZerosAtEnd (g : PrivateRegion) (pages : List ℕ) : Prop :=
  ∀ x, x < g.length → pages.getLast? = some (x / 4096) →
    g.length - 4096 * (g.pages - 1) ≤ x % 4096 → g.bytes.getD x 0 = 0

section Order

variable {fs : Files} {g : PrivateRegion} {r r' : Ram} {p p' : Space} {xs : List ℕ} {x : ℕ}
  {es : List Access}

theorem Start.twin_invariant (h : Start fs g r p) : Invariant fs g.twin [] r (twin p) := by
  refine start_invariant ⟨?_, ?_, ?_, fun k hk => ?_, h.cached⟩
  · rw [twin_total, h.total]
  · have hmapping : { (p.proc.slot 0).toMapping with
        flags := (p.proc.slot 0).flags ||| MAP_SHARED } = g.twin.toMapping := by
      rw [h.mapping]
      rfl
    rw [twin_slot]
    exact hmapping
  · rw [twin_slot]
    exact h.stored
  · rw [twin_pgdir]
    exact h.absent k hk

theorem twin_touch (hone : p.proc.total_mmaps = 1) (a : ℕ) :
    touch fs r (twin p) a = (touch fs r p a).map twinSpace := by
  unfold touch
  rw [twin_pgdir]
  split
  · rfl
  · exact twin_fault hone

theorem twin_load (hone : p.proc.total_mmaps = 1) :
    access fs g.twin r (twin p) (.load x) = (access fs g.twin r p (.load x)).map twinSpace := by
  unfold access
  dsimp only [Access.at]
  rw [twin_touch hone]
  rcases touch fs r p (g.twin.addr + x) with _ | ⟨r₁, p₁⟩
  · rfl
  · simp only [Option.map_some, twinSpace, twin_pgdir]
    rcases p₁.proc.pgdir ((g.twin.addr + x) / PGSIZE) with _ | frame <;> rfl

theorem total_one (h : Invariant fs g.twin es r (twin p)) : p.proc.total_mmaps = 1 := by
  have := h.total
  rwa [twin_total] at this

/-- Reads of the private mapping are reads of its twin. -/
theorem twin_run (h : Invariant fs g.twin es r (twin p)) (hin : ∀ x ∈ xs, x < g.length) :
    run fs g.twin r (twin p) (xs.map .load) = (readAll fs g r p xs).map twinSpace := by
  induction xs generalizing es r p with
  | nil => rfl
  | cons x xs ih =>
    rw [readAll, List.map_cons, run, run, Runs.run, Runs.run, twin_load (total_one h)]
    rcases haccess : access fs g.twin r p (.load x) with _ | ⟨r₁, p₁⟩
    · rfl
    · have htwin : access fs g.twin r (twin p) (.load x) = some (r₁, twin p₁) := by
        rw [twin_load (total_one h), haccess]
        rfl
      exact ih (access_invariant (e := .load x) h (hin x (List.mem_cons_self ..)) htwin)
        fun y hy => hin y (List.mem_cons_of_mem _ hy)

theorem readAll_invariant (h : Start fs g r p) (hin : ∀ x ∈ xs, x < g.length)
    (hr : readAll fs g r p xs = some (r', p')) :
    Invariant fs g.twin (xs.map .load) r' (twin p') := by
  have hrun := twin_run h.twin_invariant hin
  rw [hr] at hrun
  refine run_invariant h.twin_invariant (fun e he => ?_) hrun
  obtain ⟨x, hx, rfl⟩ := List.mem_map.mp he
  exact hin x hx

theorem lastStore_loads (xs : List ℕ) (x : ℕ) : lastStore (xs.map .load) x = none := by
  induction xs using List.reverseRecOn with
  | nil => rfl
  | append_singleton xs y ih =>
    rw [List.map_append, List.map_singleton, lastStore_append, ih]
    rfl

/-- A byte of a touched page depends on how many pages were touched before it. -/
theorem read_byte (h : Start fs g r p) (hin : ∀ x ∈ xs, x < g.length)
    (hr : readAll fs g r p xs = some (r', p')) (hx : x < g.length) (hmem : x / 4096 ∈ order xs) :
    byteAt r' p' (g.addr + x) =
      some (loadedByte g.bytes (x / 4096) (g.twin.left ((order xs).idxOf (x / 4096)))
        (x % 4096)) := by
  have hbyte := (readAll_invariant h hin hr).pages.byteAt hx hmem
  rw [contentsAfter, Nat.div_add_mod, lastStore_loads] at hbyte
  rw [← twin_byteAt]
  exact hbyte

/-- Touched pages are pages of the mapping, and each is counted once. -/
theorem order_perm (h : Start fs g r p) (hin : ∀ x ∈ xs, x < g.length)
    (hr : readAll fs g r p xs = some (r', p')) (hall : ∀ k, k < g.pages → k ∈ order xs) :
    (order xs).Perm (List.range g.pages) := by
  refine (List.perm_ext_iff_of_nodup (touched_nodup _) List.nodup_range).mpr fun k => ?_
  rw [List.mem_range]
  exact ⟨(readAll_invariant h hin hr).inside k, hall k⟩

/-- Only the page touched last is loaded short. -/
theorem cut_iff_last {l : List ℕ} {k y : ℕ} (hperm : l.Perm (List.range g.pages)) (hk : k ∈ l)
    (hy : y < 4096) : g.twin.left (l.idxOf k) ≤ y ↔
      l.getLast? = some k ∧ g.length - 4096 * (g.pages - 1) ≤ y := by
  have hlength : l.length = g.pages := by rw [hperm.length_eq, List.length_range]
  have hidx : l.idxOf k < l.length := List.idxOf_lt_length_of_mem hk
  have hpages : g.length ≤ 4096 * g.pages ∧ 4096 * (g.pages - 1) < g.length := by
    have hpos := g.positive
    unfold PrivateRegion.pages
    omega
  have hleft : ∀ j, g.twin.left j = min 4096 (g.length - 4096 * j) := fun _ => rfl
  have hlast : l.getLast? = some k ↔ l.idxOf k = g.pages - 1 := by
    rw [List.getLast?_eq_getElem?, hlength]
    constructor
    · intro hsome
      obtain ⟨hlt, hget⟩ := List.getElem?_eq_some_iff.mp hsome
      have hnodup : l.Nodup := hperm.nodup_iff.mpr List.nodup_range
      rw [← hget, hnodup.idxOf_getElem]
    · intro hlast
      rw [← hlast, List.getElem?_eq_getElem hidx, List.getElem_idxOf]
  rw [hlast, hleft]
  constructor
  · intro hcut
    have hend : l.idxOf k = g.pages - 1 := by omega
    rw [hend] at hcut
    exact ⟨hend, by omega⟩
  · rintro ⟨hend, hcut⟩
    rw [hend]
    omega

/-- Once all pages have been touched, the mapping holds the file exactly when the part of the
page touched last that its load leaves out is zero in the file. -/
theorem order_keeps_iff (h : Start fs g r p) (hin : ∀ x ∈ xs, x < g.length)
    (hr : readAll fs g r p xs = some (r', p')) (hall : ∀ k, k < g.pages → k ∈ order xs) :
    Correct g r' p' ↔ ZerosAtEnd g (order xs) := by
  have hperm := order_perm h hin hr hall
  have hpage : ∀ x, x < g.length → x / 4096 ∈ order xs := fun x hx =>
    hall _ (by unfold PrivateRegion.pages; omega)
  have hbyte : ∀ x, x < g.length → (byteAt r' p' (g.addr + x) = some (g.bytes.getD x 0) ↔
      ((order xs).getLast? = some (x / 4096) → g.length - 4096 * (g.pages - 1) ≤ x % 4096 →
        g.bytes.getD x 0 = 0)) := by
    intro x hx
    rw [read_byte h hin hr hx (hpage x hx), Option.some_inj, loadedByte_iff,
      cut_iff_last hperm (hpage x hx) (Nat.mod_lt x (by decide)), and_imp]
  exact ⟨fun hcorrect x hx => (hbyte x hx).mp (hcorrect x hx),
    fun hzeros x hx => (hbyte x hx).mpr (hzeros x hx)⟩

/-- In ascending order, and for whole pages in any order, nothing is left out. -/
theorem zeros_of_whole {pages : List ℕ}
    (h : pages.getLast? = some (g.pages - 1) ∨ g.length % 4096 = 0) : ZerosAtEnd g pages := by
  intro x hx hlast hcut
  have hpos := g.positive
  have hpages : g.pages = (g.length + 4095) / 4096 := rfl
  rcases h with h | h
  · have hpage : x / 4096 = g.pages - 1 := Option.some.inj (hlast.symm.trans h)
    omega
  · omega

/-- The allocator has frames for `n` faults. -/
def Enough : ℕ → Ram → Prop
  | 0, _ => True
  | n + 1, r => Available r ∧ ∀ mem cache, Enough n ⟨(allocated r).memory, mem, cache⟩

/-- With frames for all of them, the pages can be touched in any order. -/
theorem readAll_completes (h : Invariant fs g.twin es r (twin p)) (hin : ∀ x ∈ xs, x < g.length)
    (hnew : (xs.map (· / 4096)).Nodup) (huntouched : ∀ x ∈ xs, x / 4096 ∉ touched es)
    (henough : Enough xs.length r) : ∃ r' p', readAll fs g r p xs = some (r', p') := by
  induction xs generalizing es r p with
  | nil => exact ⟨r, p, rfl⟩
  | cons x xs ih =>
    have hx := hin x (List.mem_cons_self ..)
    have hnot := huntouched x (List.mem_cons_self ..)
    obtain ⟨r₁, q, hload, hmemory⟩ := access_completes (e := .load x) h rfl hx hnot henough.1
    have hstep := access_invariant (e := .load x) h hx hload
    rw [twin_load (total_one h)] at hload
    obtain ⟨⟨r₂, p₂⟩, haccess, heq⟩ := Option.map_eq_some_iff.mp hload
    obtain ⟨rfl, rfl⟩ : r₂ = r₁ ∧ twin p₂ = q := ⟨congrArg Prod.fst heq, congrArg Prod.snd heq⟩
    rw [List.map_cons, List.nodup_cons] at hnew
    obtain ⟨r', p', hrest⟩ := ih hstep (fun y hy => hin y (List.mem_cons_of_mem _ hy)) hnew.2
      (fun y hy => by
        rw [touched_append, mem_note, not_or]
        refine ⟨huntouched y (List.mem_cons_of_mem _ hy), fun hsame => hnew.1 ?_⟩
        exact List.mem_map.mpr ⟨y, hy, hsame⟩)
      (by
        have hmore := henough.2 r₂.mem r₂.cache
        rw [← hmemory] at hmore
        exact hmore)
    refine ⟨r', p', ?_⟩
    rw [readAll, List.map_cons, run, Runs.run, haccess]
    exact hrest

end Order

/-- A private mapping of a file of 5000 bytes. -/
def sevensMapping : Mapping where
  addr := MMAPBASE
  length := 5000
  flags := MAP_PRIVATE
  prot := 6
  f := some 0
  offset := 0

def sevens : PrivateRegion where
  toMapping := sevensMapping
  file := 0
  bytes := List.replicate 5000 7
  aligned := rfl
  positive := by decide
  low := le_refl _
  user := by decide
  isPrivate := by decide
  backed := by decide
  start := rfl
  opened := rfl
  long := (List.length_replicate ..).ge
  permission := by decide

def sevensRam : Ram where
  memory := ⟨⟨fun _ => true, false⟩, [⟨1, true⟩, ⟨2, true⟩]⟩
  mem := fun _ => 0
  cache := PageCache.initial (fun _ => 0) fun _ => sevens.bytes

def sevensSpace : Space :=
  ⟨⟨fun _ => ⟨sevens.toMapping, 0, 0⟩, 1, fun _ => none, false⟩, fun _ => 0⟩

theorem sevens_start : Start oneFile sevens sevensRam sevensSpace := by
  refine ⟨rfl, rfl, rfl, fun _ _ => rfl, ?_, fun _ => rfl, rfl, show 2 ≠ 0 by decide⟩
  refine PageCoherence.initial_invariant fun _ => ?_
  change (List.replicate 5000 (7 : UInt8)).length ≤ _
  rw [List.length_replicate]
  decide

theorem sevens_enough : Enough 2 sevensRam :=
  ⟨⟨rfl, show 1 ≠ 0 by decide, rfl⟩,
    fun _ _ => ⟨⟨rfl, show 2 ≠ 0 by decide, rfl⟩, fun _ _ => trivial⟩⟩

theorem sevens_all {xs : List ℕ} (h : xs = [0, 4096] ∨ xs = [4096, 0]) :
    ∀ k, k < sevens.pages → k ∈ order xs := by
  have htwo : sevens.pages = 2 := rfl
  intro k hk
  rcases h with rfl | rfl
  · change k ∈ [0, 1]
    simp only [List.mem_cons, List.not_mem_nil, or_false]
    omega
  · change k ∈ [1, 0]
    simp only [List.mem_cons, List.not_mem_nil, or_false]
    omega

theorem sevens_completes {xs : List ℕ} (h : xs = [0, 4096] ∨ xs = [4096, 0]) :
    ∃ r' p', readAll oneFile sevens sevensRam sevensSpace xs = some (r', p') := by
  rcases h with rfl | rfl
  · exact readAll_completes sevens_start.twin_invariant (by decide) (by decide)
      (fun _ _ => List.not_mem_nil) sevens_enough
  · exact readAll_completes sevens_start.twin_invariant (by decide) (by decide)
      (fun _ _ => List.not_mem_nil) sevens_enough

theorem ascending_order_exact : ∃ r' p',
    readAll oneFile sevens sevensRam sevensSpace [0, 4096] = some (r', p') ∧
      Correct sevens r' p' := by
  obtain ⟨r', p', hr⟩ := sevens_completes (.inl rfl)
  exact ⟨r', p', hr, (order_keeps_iff sevens_start (by decide) hr (sevens_all (.inl rfl))).mpr
    (zeros_of_whole (.inl rfl))⟩

/-- With the second page first, only 904 bytes of the first page are loaded. -/
theorem descending_order_cuts : ∃ r' p',
    readAll oneFile sevens sevensRam sevensSpace [4096, 0] = some (r', p') ∧
      ¬ Correct sevens r' p' := by
  obtain ⟨r', p', hr⟩ := sevens_completes (.inr rfl)
  refine ⟨r', p', hr, fun hcorrect => ?_⟩
  have hin : 904 < sevens.length := by decide
  have hbyte := hcorrect 904 hin
  rw [read_byte sevens_start (by decide) hr hin (sevens_all (.inr rfl) _ (by decide)),
    Option.some_inj, loadedByte_iff] at hbyte
  have hseven : sevens.bytes.getD 904 0 = 7 := by
    change (List.replicate 5000 (7 : UInt8)).getD 904 0 = 7
    rw [List.getD_eq_getElem _ _ (by rw [List.length_replicate]; decide), List.getElem_replicate]
  have hzero := hbyte (by decide)
  rw [hseven] at hzero
  exact absurd hzero (by decide)

end MmapOrder
