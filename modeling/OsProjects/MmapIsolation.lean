import OsProjects.MmapFills
import OsProjects.MmapSafety
import OsProjects.MmapTracking
import OsProjects.PrivatePages

/-! # Isolation of private anonymous memory

Processes that map private anonymous pages only, fault them in, store to them, fork and exit,
in any interleaving. `view` is the account of what every process should read: what it stored
last, else what its parent should have read at the `fork`. The memory agrees with it as long
as no protection has bits of the frame number in it.
-/
namespace MmapIsolation

open Word32 MmapTable MmapMemory MmapFaults MmapFills ByteMemory PrivatePages
open MmapFrames (Answer Memory kalloc Phase exitArgs covers growsTo)
open MmapTracking (Listed Layout Placed)
open FrameLedger (Tables setEntry)

def plainFlags : BitVec 32 := MAP_PRIVATE ||| MAP_ANONYMOUS

/-- A slot of the process table keeps its `mmaps` array when it is reused. -/
structure Machine where
  spaces : ℕ → Space
  phase : ℕ → Phase
  ram : Ram

def Machine.set (s : Machine) (i : ℕ) (p : Space) (r : Ram) : Machine :=
  { s with spaces := Function.update s.spaces i p, ram := r }

def Machine.setPhase (s : Machine) (i : ℕ) (f : Phase) : Machine :=
  { s with phase := Function.update s.phase i f }

inductive Event where
  | mmap (i : ℕ) (f : File) (length offset protection : BitVec 32)
  | fault (i : ℕ) (addr : BitVec 32) (answers : List Answer)
  | store (i addr : ℕ) (v : UInt8)
  | fork (i j : ℕ) (answers : List Answer)
  | exitBegin (i : ℕ)
  | exitStep (i : ℕ)
  | exitEnd (i : ℕ)
  | reap (i : ℕ)
  deriving DecidableEq, Repr

/-- The address lies in a mapping of the table. -/
def inMapping (p : Proc) (a : ℕ) : Bool :=
  (List.range p.total_mmaps.toNat).any fun k =>
    (p.slot k).addr ≤ a ∧ a < (p.slot k).addr + (p.slot k).length

def store (r : Ram) (frame a : ℕ) (v : UInt8) : Ram :=
  { r with mem := storeBytes r.mem (frame * PGSIZE + a % PGSIZE) [v] }

/-- The table entry of a new process, before `copy_maps`. -/
def newborn (p : Space) : Space :=
  { p with proc := { p.proc with pgdir := fun _ => none, total_mmaps := 0, killed := false } }

def release (s : Machine) (i : ℕ) (addr length : BitVec 32) : Machine :=
  let (k, p, _) := my_munmap s.ram.memory.frames (s.spaces i).proc addr length 0
  s.set i { s.spaces i with proc := p } { s.ram with memory := { s.ram.memory with frames := k } }

/-- A store that completes is one to a page that is present. `kalloc` never runs out of frames
during a `fork`. -/
def next (fs : Files) (s : Machine) : Event → Option Machine
  | .mmap i f length offset protection =>
    if s.phase i = .live then
      let p := (my_mmap (s.spaces i).proc 0 f length offset plainFlags protection).1
      some (s.set i { s.spaces i with proc := p } s.ram)
    else none
  | .fault i addr answers =>
    if s.phase i = .live then
      (handle_page_fault fs (withAnswers s.ram answers) (s.spaces i) addr.toNat).map fun (r, p) =>
        s.set i p r
    else none
  | .store i a v =>
    if s.phase i = .live ∧ inMapping (s.spaces i).proc a = true then
      ((s.spaces i).proc.pgdir (a / PGSIZE)).map fun frame => { s with ram := store s.ram frame a v }
    else none
  | .fork i j answers =>
    if s.phase i = .live ∧ s.phase j = .unused then
      match copy_maps fs (withAnswers s.ram answers) (s.spaces i) (newborn (s.spaces j)) with
      | some (r, parent, child, true) => some (((s.set i parent r).set j child r).setPhase j .live)
      | _ => none
    else none
  | .exitBegin i =>
    if s.phase i = .live then
      some (s.setPhase i (.exiting (s.spaces i).proc.total_mmaps.toNat))
    else none
  | .exitStep i =>
    match s.phase i with
    | .exiting (n + 1) =>
      match exitArgs (s.spaces i).proc n with
      | some (addr, length) => some ((release s i addr length).setPhase i (.exiting n))
      | none => some (s.setPhase i (.exiting n))
    | _ => none
  | .exitEnd i =>
    if s.phase i = .exiting 0 then
      let p := { (s.spaces i).proc with total_mmaps := 0 }
      some ((s.set i { s.spaces i with proc := p } s.ram).setPhase i .zombie)
    else none
  | .reap i => if s.phase i = .zombie then some (s.setPhase i .unused) else none

abbrev run (fs : Files) (s : Machine) (es : List Event) : Option Machine :=
  Runs.run (next fs) s es

/-- What every process should read, by address. -/
def account (v : ℕ → ℕ → UInt8) : Event → ℕ → ℕ → UInt8
  | .store i a b => Function.update v i (Function.update (v i) a b)
  | .fork i j _ => Function.update v j (v i)
  | _ => v

def view (es : List Event) : ℕ → ℕ → UInt8 := es.foldl account fun _ _ => 0

/-- One process without mappings; the process table starts zeroed. -/
structure Fresh (s : Machine) : Prop where
  first : s.phase 0 = .live
  others : ∀ i, i ≠ 0 → s.phase i = .unused
  empty : ∀ i, (s.spaces i).proc.total_mmaps = 0
  zeroed : ∀ i (k : ℕ), k < 32 → (s.spaces i).proc.mmaps k = Mmp.zero
  absent : ∀ a, (s.spaces 0).proc.pgdir a = none

/-- Every load that completes in a mapping gives what the account says. -/
def Faithful (s : Machine) (v : ℕ → ℕ → UInt8) : Prop :=
  ∀ i a b, s.phase i = .live → inMapping (s.spaces i).proc a = true →
    byteAt s.ram (s.spaces i) a = some b → b = v i a

/-- A store of process `i` is not seen by any other process. -/
def Unseen (fs : Files) (s : Machine) : Prop :=
  ∀ i a v s', next fs s (.store i a v) = some s' → ∀ j, j ≠ i → s.phase j = .live →
    ∀ x, byteAt s'.ram (s'.spaces j) x = byteAt s.ram (s.spaces j) x

/-- Protections without bits of the frame number. -/
def Plain : Event → Prop
  | .mmap _ _ _ _ protection => protection.toNat < PGSIZE
  | _ => True

/-- The contents of the frames and the views, page by page. -/
def contents (m : Mem) (frame : ℕ) (o : Fin 4096) : UInt8 := m (frame * PGSIZE + o)

def paged (v : ℕ → ℕ → UInt8) (i page : ℕ) (o : Fin 4096) : UInt8 := v i (page * PGSIZE + o)

def tables (s : Machine) : Tables ℕ ℕ ℕ :=
  fun i a => if s.phase i = .unused then none else (s.spaces i).proc.pgdir a

abbrev Sound (live : ℕ → Prop) (k : Frames) (T : Tables ℕ ℕ ℕ) (m : Mem) (v : ℕ → ℕ → UInt8) :
    Prop :=
  Isolated 0 0 live k.free T (contents m) (paged v)

/-- The pages that a mapping of the list reaches. -/
def Reaches (m : Mapping) (page : ℕ) : Prop :=
  m.addr / PGSIZE ≤ page ∧ page < m.addr / PGSIZE + (m.length + 4095) / 4096

/-- Whatever was stored lies in a page of a mapping. -/
def Covered (l : List Mapping) (w : ℕ → UInt8) : Prop :=
  ∀ a, w a ≠ 0 → ∃ m ∈ l, Reaches m (a / PGSIZE)

structure Tabled (p : Proc) (l : List Mapping) : Prop where
  listed : Listed p l
  layout : Layout l
  room : l.length ≤ 32
  plain : ∀ m ∈ l, m.flags = plainFlags ∧ m.prot.toNat < PGSIZE
  refs : ∀ k : ℕ, k < 32 → (p.slot k).ref = 0

/-- How far the table of a process is from empty. -/
def Stage (f : Phase) (l : List Mapping) (w : ℕ → UInt8) : Prop :=
  match f with
  | .live => Covered l w
  | .exiting n => l.length = n
  | _ => l = []

structure Invariant (s : Machine) (v : ℕ → ℕ → UInt8) : Prop where
  sound : Sound (fun i => s.phase i = .live) s.ram.memory.frames (tables s) s.ram.mem v
  table : ∀ i, ∃ l, Tabled (s.spaces i).proc l ∧ Stage (s.phase i) l (v i)

section Views

variable {v : ℕ → ℕ → UInt8} {i page : ℕ}

/-- The account with one page of process `i` replaced. -/
def repage (w : ℕ → UInt8) (page : ℕ) (bytes : ℕ → UInt8) (a : ℕ) : UInt8 :=
  if a / PGSIZE = page then bytes (a % PGSIZE) else w a

theorem page_div (o : Fin 4096) : (page * PGSIZE + o) / PGSIZE = page := by
  have := o.isLt
  simp only [PGSIZE]
  omega

theorem page_mod (o : Fin 4096) : (page * PGSIZE + o) % PGSIZE = o := by
  have := o.isLt
  simp only [PGSIZE]
  omega

theorem paged_repage (bytes : ℕ → UInt8) :
    setView (paged v) i page (fun o => bytes o) =
      paged (Function.update v i (repage (v i) page bytes)) := by
  funext j b o
  by_cases hjb : j = i ∧ b = page
  · obtain ⟨rfl, rfl⟩ := hjb
    rw [setView_self, paged, Function.update_self, repage, page_div, page_mod, if_pos rfl]
  · rw [setView_of_ne hjb, paged, paged]
    rcases eq_or_ne j i with rfl | hj
    · rw [Function.update_self, repage, page_div, if_neg fun hb => hjb ⟨rfl, hb⟩]
    · rw [Function.update_of_ne hj]

theorem paged_at (v : ℕ → ℕ → UInt8) (i a : ℕ) :
    paged v i (a / PGSIZE) ⟨a % PGSIZE, Nat.mod_lt a (by decide)⟩ = v i a := by
  rw [paged]
  congr 1
  exact Nat.div_add_mod' a PGSIZE

end Views

section Frames

variable {live : ℕ → Prop} {T : Tables ℕ ℕ ℕ} {v : ℕ → ℕ → UInt8} {i page : ℕ} {r r' : Ram}
  {p p' : Space} {perm : BitVec 32} {ok : Bool} {bytes : ℕ → UInt8}

theorem filled_contents {frame : ℕ} {m m' : Mem} (h : Filled bytes frame m m') :
    (contents m' frame = fun o : Fin 4096 => bytes o) ∧
      ∀ g, g ≠ frame → contents m' g = contents m g := by
  refine ⟨funext fun o => ?_, fun g hg => funext fun o => ?_⟩
  · exact (h frame o o.isLt).trans (if_pos rfl)
  · exact (h g o o.isLt).trans (if_neg hg)

/-- A fill leaves the allocator alone and writes `bytes` into the frame. -/
def FillsWith (fill : Ram → ℕ → Option Ram) (m : Mem) (bytes : ℕ → UInt8) : Prop :=
  ∀ r frame r', r.mem = m → fill r frame = some r' →
    r'.memory = r.memory ∧ Filled bytes frame m r'.mem

theorem anonFill_clears (m : Mem) : FillsWith (anonFill 0) m fun _ => 0 := by
  rintro r frame r' rfl hr
  cases hr
  exact ⟨rfl, cleared_filled r frame⟩

theorem copyFill_copies (source : ℕ) (m : Mem) :
    FillsWith (copyFill source) m fun y => m (source * PGSIZE + y) := by
  rintro r frame r' rfl hr
  cases hr
  refine ⟨rfl, fun x y hy => ?_⟩
  split_ifs with hx
  · subst x
    have hin : y < (loadBytes r.mem (source * PGSIZE) PGSIZE).length := by simpa using hy
    exact (storeBytes_inside hin).trans (loadBytes_getElem hin)
  · have hout := mt (frame_range frame hy).mp hx
    exact storeBytes_outside (by rw [loadBytes_length]; omega)

theorem update_setEntry {e : Option ℕ} :
    Function.update T i (Function.update p.proc.pgdir page e) =
      setEntry (Function.update T i p.proc.pgdir) i page e := by
  unfold setEntry
  rw [Function.update_self, Function.update_idem]

/-- A fresh page shows what was filled in; a failed attempt changes nothing. -/
theorem mapFresh_sound {fill : Ram → ℕ → Option Ram} (hfill : FillsWith fill r.mem bytes)
    (hperm : perm.toNat < PGSIZE)
    (h : Sound live r.memory.frames (Function.update T i p.proc.pgdir) r.mem v)
    (hr : mapFresh fill r p page perm = some (r', p', ok)) :
    p'.proc.mmaps = p.proc.mmaps ∧ p'.proc.total_mmaps = p.proc.total_mmaps ∧
      Sound live r'.memory.frames (Function.update T i p'.proc.pgdir) r'.mem
        (if ok then Function.update v i (repage (v i) page bytes) else v) := by
  simp only [mapFresh] at hr
  split at hr
  next =>
    cases hr
    refine ⟨rfl, rfl, ?_⟩
    rw [← pop_frames] at h
    exact h
  next k halloc =>
    obtain ⟨hne, hfree, rfl⟩ := MmapSafety.kalloc_some halloc
    rw [pop_frames] at hfree
    obtain ⟨r₁, hr₁, hr⟩ := Option.bind_eq_some_iff.mp hr
    have hspec := fun hm => hfill _ _ _ hm hr₁
    obtain ⟨hmem, hfilled⟩ := hspec rfl
    obtain ⟨hnew, hold⟩ := filled_contents hfilled
    split_ifs at hr
    · obtain ⟨q, hmap, heq⟩ := Option.map_eq_some_iff.mp hr
      simp only [Prod.mk.injEq] at heq
      obtain ⟨rfl, rfl, rfl⟩ := heq
      unfold mapPage at hmap
      split at hmap
      next => cases hmap
      next =>
        cases hmap
        refine ⟨rfl, rfl, ?_⟩
        rw [if_pos rfl, aliased_of_permission _ hperm, update_setEntry, Sound,
          ← paged_repage, hmem]
        rw [← pop_frames] at h hfree
        exact h.map hfree hne hnew hold
    · simp only [Option.some.injEq, Prod.mk.injEq] at hr
      obtain ⟨rfl, rfl, rfl⟩ := hr
      refine ⟨rfl, rfl, ?_⟩
      have hback : (kfree r₁.memory.frames r.memory.pop.1.frame).free = r.memory.frames.free := by
        rw [hmem]
        funext g
        rcases eq_or_ne g r.memory.pop.1.frame with rfl | hg
        · simp [kfree, hfree]
        · simp [kfree, hg, pop_frames]
      simp only [Sound, hback, Bool.false_eq_true, if_false]
      exact h.scratch hfree hold

end Frames

section Fault

variable {fs : Files} {live : ℕ → Prop} {T : Tables ℕ ℕ ℕ} {v : ℕ → ℕ → UInt8} {i a : ℕ}
  {r r' : Ram} {p p' : Space} {q : Proc} {l : List Mapping}

theorem Tabled.of_slots (h : Tabled p.proc l) (htotal : q.total_mmaps = p.proc.total_mmaps)
    (hslot : ∀ k : ℕ, k < 32 → (q.slot k).toMapping = (p.proc.slot k).toMapping ∧
      (q.slot k).ref = (p.proc.slot k).ref) : Tabled q l := by
  have hroom := h.room
  refine ⟨⟨htotal.trans h.listed.total, fun k hk => ?_, fun k hk hk32 => ?_⟩, h.layout, h.room,
    h.plain, fun k hk => ?_⟩
  · rw [(hslot k (by omega)).1]
    exact h.listed.entries k hk
  · rw [(hslot k hk32).1]
    exact h.listed.rest k hk hk32
  · rw [(hslot k hk).2]
    exact h.refs k hk

theorem Tabled.of_mmaps (h : Tabled p.proc l) (htotal : q.total_mmaps = p.proc.total_mmaps)
    (hmmaps : q.mmaps = p.proc.mmaps) : Tabled q l :=
  h.of_slots htotal fun k _ => by
    rw [MmapTracking.slot_congr hmmaps htotal]
    exact ⟨rfl, rfl⟩

theorem Tabled.counted (h : Tabled p.proc l) {k : ℕ} (hk : k < 32) :
    Tabled (MmapFaults.counted p k).proc l := by
  have hne : (k : ℤ) ≠ 32 := by omega
  refine h.of_slots (setSlot_total _ hne) fun j hj => ?_
  rcases eq_or_ne (j : ℤ) k with hjk | hjk
  · rw [hjk, MmapFaults.counted, Space.setSlot, slot_setSlot_self _ hne]
    exact ⟨rfl, rfl⟩
  · rw [MmapFaults.counted, Space.setSlot, slot_setSlot_of_ne _ hne hjk]
    exact ⟨rfl, rfl⟩

theorem Tabled.slot_plain (h : Tabled p.proc l) {k : ℕ} (hk : k < p.proc.total_mmaps) :
    k < 32 ∧ (p.proc.slot k).flags = plainFlags ∧ (p.proc.slot k).prot.toNat < PGSIZE := by
  have htotal := h.listed.total
  have hroom := h.room
  have hkl : k < l.length := by omega
  rw [h.listed.entries k hkl]
  exact ⟨by omega, h.plain _ (List.getElem_mem hkl)⟩

/-- A live process sees zeros where it has no page, so a cleared page changes nothing. -/
theorem repage_absent {page : ℕ} (h : Sound live r.memory.frames T r.mem v) (hi : live i)
    (habsent : T i page = none) : Function.update v i (repage (v i) page fun _ => 0) = v := by
  rw [Function.update_eq_self_iff]
  funext x
  rw [repage]
  split_ifs with hx
  · rw [← paged_at v i x, hx]
    exact (h.lazy hi habsent _).symm
  · rfl

theorem physical_absent (h : Sound live r.memory.frames (Function.update T i p.proc.pgdir) r.mem v)
    (hz : get_physical_page p.proc a = 0) : p.proc.pgdir (a / PGSIZE) = none := by
  rw [get_physical_page] at hz
  rcases hp : p.proc.pgdir (a / PGSIZE) with _ | frame
  · rfl
  · rw [hp] at hz
    have := h.held (i := i) (a := a / PGSIZE) (f := frame) (by rw [Function.update_self, hp])
    exact absurd hz this.1

theorem faultIn_sound {k : ℕ} (ht : Tabled p.proc l) (hk : k < p.proc.total_mmaps) (hi : live i)
    (h : Sound live r.memory.frames (Function.update T i p.proc.pgdir) r.mem v)
    (hr : faultIn fs r p k a = some (r', p')) :
    Tabled p'.proc l ∧ Sound live r'.memory.frames (Function.update T i p'.proc.pgdir) r'.mem v := by
  obtain ⟨hk32, hflags, hprot⟩ := ht.slot_plain hk
  by_cases hpresent : get_physical_page p.proc (pgRoundDown a) = 0
  · have habsent := physical_absent h hpresent
    rw [pgRoundDown_div] at habsent
    rw [faultIn_eq habsent] at hr
    obtain ⟨⟨r₁, p₁, ok⟩, hs, heq⟩ := Option.map_eq_some_iff.mp hr
    simp only [Prod.mk.injEq] at heq
    obtain ⟨rfl, rfl⟩ := heq
    have hanon : has (faultCall p.proc k a).flags MAP_ANONYMOUS = true := by
      change has (p.proc.slot k).flags MAP_ANONYMOUS = true
      rw [hflags]
      decide
    rw [mmap_store_data, if_pos hanon, fault_pages] at hs
    have hone : p₁.proc.mmaps = p.proc.mmaps ∧ p₁.proc.total_mmaps = p.proc.total_mmaps ∧
        Sound live r₁.memory.frames (Function.update T i p₁.proc.pgdir) r₁.mem v := by
      split_ifs at hs
      · cases hs
        exact ⟨rfl, rfl, h⟩
      · rw [storePages_one] at hs
        obtain ⟨hmmaps, htotal, hsound⟩ := mapFresh_sound (anonFill_clears _) hprot h hs
        refine ⟨hmmaps, htotal, ?_⟩
        have hpage : Function.update T i p.proc.pgdir i ((faultCall p.proc k a).addr / PGSIZE) = none := by
          rw [Function.update_self]
          exact (congrArg _ (pgRoundDown_div a)).trans habsent
        rwa [repage_absent h hi hpage, ite_self] at hsound
    obtain ⟨hmmaps, htotal, hsound⟩ := hone
    have ht₁ : Tabled p₁.proc l := ht.of_mmaps htotal hmmaps
    cases ok with
    | true => exact ⟨ht₁.counted hk32, by rw [counted_pgdir hk32]; exact hsound⟩
    | false =>
      refine ⟨Tabled.counted (p := p₁.kill) (ht₁.of_mmaps rfl rfl) hk32, ?_⟩
      rw [counted_pgdir hk32]
      exact hsound
  · rw [faultIn, if_pos hpresent] at hr
    cases hr
    exact ⟨ht.of_mmaps rfl rfl, h⟩

theorem fault_sound (ht : Tabled p.proc l) (hi : live i)
    (h : Sound live r.memory.frames (Function.update T i p.proc.pgdir) r.mem v)
    (hr : handle_page_fault fs r p a = some (r', p')) :
    Tabled p'.proc l ∧ Sound live r'.memory.frames (Function.update T i p'.proc.pgdir) r'.mem v := by
  have hrange : ∀ {f : ℕ → Bool} {k : ℕ}, (List.range p.proc.total_mmaps.toNat).find? f = some k →
      (k : ℤ) < p.proc.total_mmaps := fun hf => mem_range_total (List.mem_of_find?_eq_some hf)
  rw [handle_page_fault, planFault] at hr
  split at hr
  next => cases hr; exact ⟨ht.of_mmaps rfl rfl, h⟩
  next => cases hr; exact ⟨ht, h⟩
  next k hplan =>
    split at hplan
    next j hf =>
      cases hplan
      exact faultIn_sound ht (hrange hf) hi h hr
    next =>
      dsimp only at hplan
      split_ifs at hplan
      split at hplan <;> cases hplan
  next k hplan =>
    split at hplan
    next => cases hplan
    next =>
      dsimp only at hplan
      split_ifs at hplan
      split at hplan
      next j hf =>
        cases hplan
        -- no plain mapping grows
        have hgrows := List.find?_some hf
        rw [growsTo, decide_eq_true_eq, (ht.slot_plain (hrange hf)).2.1] at hgrows
        exact absurd hgrows.1 (by decide)
      next => cases hplan

end Fault

section Fork

variable {fs : Files} {live : ℕ → Prop} {T : Tables ℕ ℕ ℕ} {v : ℕ → ℕ → UInt8} {i j : ℕ}
  {r r' : Ram} {p p' c c' : Space} {l : List Mapping} {u : ℕ → UInt8}

/-- A child in progress: it sees `u`, which is what its parent sees, or still zero. -/
structure Cloning (live : ℕ → Prop) (T : Tables ℕ ℕ ℕ) (v : ℕ → ℕ → UInt8) (i j : ℕ) (p : Space)
    (r : Ram) (c : Space) (u : ℕ → UInt8) : Prop where
  other : i ≠ j
  parent : T i = p.proc.pgdir
  alive : live i
  sound : Sound live r.memory.frames (Function.update T j c.proc.pgdir) r.mem (Function.update v j u)
  partly : ∀ a, u a = v i a ∨ u a = 0

/-- Nothing the child sees already is lost. -/
def Grows (w u u' : ℕ → UInt8) : Prop := ∀ a, u a = w a → u' a = w a

theorem childPage_sound {prot : BitVec 32} {start : ℕ} (h : Cloning live T v i j p r c u)
    (hprot : prot.toNat < PGSIZE)
    (hr : childPage r p c false prot start = some (r', c', true)) :
    c'.proc.mmaps = c.proc.mmaps ∧ c'.proc.total_mmaps = c.proc.total_mmaps ∧
      ∃ u', Cloning live T v i j p r' c' u' ∧ Grows (v i) u u' ∧
        ∀ a, a / PGSIZE = start / PGSIZE → u' a = v i a := by
  have hparent : ∀ page, Function.update T j c.proc.pgdir i page = p.proc.pgdir page := by
    intro page
    rw [Function.update_of_ne h.other, h.parent]
  have hsame : ∀ a, Function.update v j u i a = v i a := by
    intro a
    rw [Function.update_of_ne h.other]
  simp only [childPage, Bool.false_eq_true, if_false] at hr
  split_ifs at hr with hzero
  · cases hr
    refine ⟨rfl, rfl, u, h, fun _ ha => ha, fun a ha => ?_⟩
    have habsent : p.proc.pgdir (start / PGSIZE) = none := by
      rw [get_physical_page] at hzero
      rcases hp : p.proc.pgdir (start / PGSIZE) with _ | frame
      · rfl
      · rw [hp] at hzero
        exact absurd hzero (h.sound.held ((hparent _).trans hp)).1
    have hblank := h.sound.lazy h.alive ((hparent _).trans habsent)
      ⟨a % PGSIZE, Nat.mod_lt a (by decide)⟩
    rw [← ha, paged_at, hsame] at hblank
    rcases h.partly a with hu | hu
    · exact hu
    · rw [hu, hblank]
  · obtain ⟨frame, hframe⟩ : ∃ frame, p.proc.pgdir (start / PGSIZE) = some frame := by
      rcases hp : p.proc.pgdir (start / PGSIZE) with _ | frame
      · rw [get_physical_page, hp] at hzero
        exact absurd rfl hzero
      · exact ⟨frame, rfl⟩
    have hpa : get_physical_page p.proc start = frame := by
      rw [get_physical_page, hframe]
      rfl
    rw [hpa] at hr
    obtain ⟨hmmaps, htotal, hsound⟩ := mapFresh_sound (copyFill_copies frame r.mem) hprot h.sound hr
    have hcopied : ∀ a, a / PGSIZE = start / PGSIZE →
        repage u (start / PGSIZE) (fun y => r.mem (frame * PGSIZE + y)) a = v i a := by
      intro a ha
      have hshown := h.sound.shown ((hparent _).trans hframe) ⟨a % PGSIZE, Nat.mod_lt a (by decide)⟩
      rw [← ha, paged_at, hsame] at hshown
      rw [repage, if_pos ha]
      exact hshown
    have hkept : ∀ a, ¬ a / PGSIZE = start / PGSIZE →
        repage u (start / PGSIZE) (fun y => r.mem (frame * PGSIZE + y)) a = u a :=
      fun a ha => if_neg ha
    refine ⟨hmmaps, htotal, repage u (start / PGSIZE) fun y => r.mem (frame * PGSIZE + y),
      ⟨h.other, h.parent, h.alive, ?_, fun a => ?_⟩, fun a ha => ?_, hcopied⟩
    · rwa [if_pos rfl, Function.update_idem, Function.update_self] at hsound
    · by_cases ha : a / PGSIZE = start / PGSIZE
      · exact .inl (hcopied a ha)
      · rw [hkept a ha]
        exact h.partly a
    · by_cases hpage : a / PGSIZE = start / PGSIZE
      · exact hcopied a hpage
      · rw [hkept a hpage]
        exact ha

theorem next_page {start n : ℕ} (hstart : start + PGSIZE * (n + 1) < 4294967296)
    (hal : start % PGSIZE = 0) : wrap (start + PGSIZE) = start + PGSIZE ∧
      start + PGSIZE + PGSIZE * n < 4294967296 ∧
      (start + PGSIZE) / PGSIZE = start / PGSIZE + 1 ∧ (start + PGSIZE) % PGSIZE = 0 := by
  simp only [PGSIZE] at *
  refine ⟨?_, by omega, by omega, by omega⟩
  unfold wrap
  omega

theorem copyPages_sound {k : ℤ} {prot : BitVec 32} {n start : ℕ}
    (hplain : has (p.proc.slot k).flags MAP_SHARED = false) (hprot : prot.toNat < PGSIZE)
    (hstart : start + PGSIZE * n < 4294967296) (hal : start % PGSIZE = 0)
    (h : Cloning live T v i j p r c u)
    (hr : copyPages fs k false prot n start r p c = some (r', p', c', true)) :
    p' = p ∧ c'.proc.mmaps = c.proc.mmaps ∧ c'.proc.total_mmaps = c.proc.total_mmaps ∧
      ∃ u', Cloning live T v i j p r' c' u' ∧ Grows (v i) u u' ∧
        ∀ a, start / PGSIZE ≤ a / PGSIZE → a / PGSIZE < start / PGSIZE + n → u' a = v i a := by
  induction n generalizing start r c u with
  | zero =>
    cases hr
    exact ⟨rfl, rfl, rfl, u, h, fun _ ha => ha, fun a hlo hhi => by omega⟩
  | succ n ih =>
    have hparent : parentPage fs r p k start = some (r, p, true) := by
      rw [parentPage, if_neg (by simp [hplain])]
    simp only [copyPages, hparent] at hr
    split at hr
    next => cases hr
    next => cases hr
    next r₁ c₁ hchild =>
      obtain ⟨hmmaps, htotal, u₁, h₁, hgrows, hpage⟩ := childPage_sound h hprot hchild
      obtain ⟨hnext, hstart', hdiv, hal'⟩ := next_page hstart hal
      rw [hnext] at hr
      obtain ⟨rfl, hmmaps', htotal', u', h', hgrows', hpages⟩ := ih hstart' hal' h₁ hr
      refine ⟨rfl, hmmaps'.trans hmmaps, htotal'.trans htotal, u', h',
        fun a ha => hgrows' a (hgrows a ha), fun a hlo hhi => ?_⟩
      rw [hdiv] at hpages
      rcases Nat.eq_or_lt_of_le hlo with heq | hlt
      · exact hgrows' a (hpage a heq.symm)
      · exact hpages a (by omega) (by omega)

/-- The first `k` entries are copied and the others are still those of a dead process. -/
structure HalfCopied (c : Proc) (l : List Mapping) (k : ℕ) : Prop where
  total : c.total_mmaps = 0
  copied : ∀ t (h : t < l.length), t < k → (c.slot t).toMapping = l[t]
  rest : ∀ t : ℕ, k ≤ t → t < 32 → (c.slot t).addr < 4096
  refs : ∀ t : ℕ, t < 32 → (c.slot t).ref = 0

theorem Layout.copy_range {m : Mapping} (h : Placed m) :
    (wrap (m.addr + m.length) - m.addr + 4095) / 4096 = (m.length + 4095) / 4096 ∧
      m.addr + PGSIZE * ((m.length + 4095) / 4096) < 4294967296 ∧ m.addr % PGSIZE = 0 := by
  obtain ⟨hbase, hal, hpos, htop⟩ := h
  simp only [MMAPBASE, KERNBASE, PGSIZE] at *
  rw [wrap_add_of_lt (by omega)]
  omega

theorem copy_single_mmap_sound {k : ℕ} (hk : k < l.length) (ht : Tabled p.proc l)
    (hc : HalfCopied c.proc l k) (h : Cloning live T v i j p r c u)
    (hr : copy_single_mmap fs r p c k = some (r', p', c', true)) :
    p' = p ∧ HalfCopied c'.proc l (k + 1) ∧
      ∃ u', Cloning live T v i j p r' c' u' ∧ Grows (v i) u u' ∧
        ∀ a, Reaches l[k] (a / PGSIZE) → u' a = v i a := by
  have hm := ht.listed.entries k hk
  have hroom := ht.room
  obtain ⟨hflags, hprot⟩ := ht.plain l[k] (List.getElem_mem hk)
  obtain ⟨hcount, hlast, hal⟩ := Layout.copy_range (ht.layout.placed l[k] (List.getElem_mem hk))
  have hprivate : has l[k].flags MAP_SHARED = false := by
    rw [hflags]
    decide
  obtain ⟨⟨r₁, p₁, c₁, ok⟩, hloop, heq⟩ := Option.map_eq_some_iff.mp hr
  cases ok with
  | false => cases heq
  | true =>
    simp only [hm, hprivate, hcount] at hloop heq
    obtain ⟨rfl, hmmaps, htotal, u', h', hgrows, hpages⟩ :=
      copyPages_sound (by rw [hm]; exact hprivate) hprot hlast hal h hloop
    cases heq
    have hne : (k : ℤ) ≠ 32 := by omega
    have hslot : ∀ t : ℤ, c₁.proc.slot t = c.proc.slot t :=
      MmapTracking.slot_congr hmmaps htotal
    refine ⟨rfl, ⟨?_, fun t htl htk => ?_, fun t htk ht32 => ?_, fun t ht32 => ?_⟩, u',
      ⟨h'.other, h'.parent, h'.alive, ?_, h'.partly⟩, hgrows,
      fun a ha => hpages a ha.1 ha.2⟩
    · exact (setSlot_total _ hne).trans (htotal.trans hc.total)
    · rcases Nat.lt_succ_iff_lt_or_eq.mp htk with hlt | rfl
      · rw [Space.setSlot, slot_setSlot_of_ne _ hne (by omega), hslot]
        exact hc.copied t htl hlt
      · rw [Space.setSlot, slot_setSlot_self _ hne]
        exact hm
    · rw [Space.setSlot, slot_setSlot_of_ne _ hne (by omega), hslot]
      exact hc.rest t (by omega) ht32
    · rcases eq_or_ne t k with rfl | htk
      · rw [Space.setSlot, slot_setSlot_self _ hne]
        simpa [hslot] using hc.refs t ht32
      · rw [Space.setSlot, slot_setSlot_of_ne _ hne (by omega), hslot]
        exact hc.refs t ht32
    · rw [Space.setSlot, MmapSafety.setSlot_pgdir]
      exact h'.sound

theorem copyAll_sound {n k : ℕ} (hn : k + n = l.length) (ht : Tabled p.proc l)
    (hc : HalfCopied c.proc l k) (h : Cloning live T v i j p r c u)
    (hr : copyAll fs n k r p c = some (r', p', c', true)) :
    p' = p ∧ HalfCopied c'.proc l l.length ∧
      ∃ u', Cloning live T v i j p r' c' u' ∧ Grows (v i) u u' ∧
        ∀ t (htl : t < l.length), k ≤ t → ∀ a, Reaches l[t] (a / PGSIZE) → u' a = v i a := by
  induction n generalizing k r c u with
  | zero =>
    cases hr
    obtain rfl : k = l.length := by omega
    exact ⟨rfl, hc, u, h, fun _ ha => ha, fun t htl hkt => absurd htl (by omega)⟩
  | succ n ih =>
    have hk : k < l.length := by omega
    rw [copyAll] at hr
    split at hr
    next => cases hr
    next => cases hr
    next r₁ p₁ c₁ hsingle =>
      obtain ⟨rfl, hc₁, u₁, h₁, hgrows, hpages⟩ := copy_single_mmap_sound hk ht hc h hsingle
      obtain ⟨rfl, hc', u', h', hgrows', hrest⟩ := ih (by omega) hc₁ h₁ hr
      refine ⟨rfl, hc', u', h', fun a ha => hgrows' a (hgrows a ha), fun t htl hkt a ha => ?_⟩
      rcases Nat.eq_or_lt_of_le hkt with rfl | hlt
      · exact hgrows' a (hpages a ha)
      · exact hrest t htl hlt a ha

/-- The child of a successful `fork` sees what its parent sees. -/
theorem copy_maps_sound (ht : Tabled p.proc l) (hcov : Covered l (v i))
    (hc : HalfCopied c.proc l 0) (h : Cloning live T v i j p r c fun _ => 0)
    (hr : copy_maps fs r p c = some (r', p', c', true)) :
    p' = p ∧ Tabled c'.proc l ∧ Sound live r'.memory.frames (Function.update T j c'.proc.pgdir)
      r'.mem (Function.update v j (v i)) := by
  obtain ⟨⟨r₁, p₁, c₁, ok⟩, hall, heq⟩ := Option.map_eq_some_iff.mp hr
  simp only [Prod.mk.injEq] at heq
  obtain ⟨rfl, rfl, rfl, rfl⟩ := heq
  have htotal := ht.listed.total
  rw [htotal, Int.toNat_natCast] at hall
  obtain ⟨rfl, hc', u, h', -, hpages⟩ := copyAll_sound (Nat.zero_add _) ht hc h hall
  have hu : u = v i := by
    funext a
    by_cases hzero : v i a = 0
    · rcases h'.partly a with hu | hu
      · exact hu
      · rw [hu, hzero]
    · obtain ⟨m, hm, hreach⟩ := hcov a hzero
      obtain ⟨t, htl, rfl⟩ := List.mem_iff_getElem.mp hm
      exact hpages t htl (Nat.zero_le t) a hreach
  have hslot : ∀ t : ℕ, t < 32 → Proc.slot { c₁.proc with total_mmaps := p₁.proc.total_mmaps } t =
      c₁.proc.slot t := fun t ht32 => by
    simp [Proc.slot, show (t : ℤ) ≠ 32 by omega]
  have hroom := ht.room
  refine ⟨rfl, ⟨⟨htotal, fun t htl => ?_, fun t htl ht32 => ?_⟩, ht.layout, ht.room, ht.plain,
    fun t ht32 => ?_⟩, ?_⟩
  · simp only [if_true]
    rw [hslot t (by omega)]
    exact hc'.copied t htl htl
  · simp only [if_true]
    rw [hslot t ht32]
    exact hc'.rest t htl ht32
  · simp only [if_true]
    rw [hslot t ht32]
    exact hc'.refs t ht32
  · rw [← hu]
    exact h'.sound

end Fork

section Exit

variable {live : ℕ → Prop} {T : Tables ℕ ℕ ℕ} {v : ℕ → ℕ → UInt8} {i : ℕ} {k : Frames} {p : Proc}
  {m : Mem} {l : List Mapping}

/-- What a dying process gives back was seen by nobody else. -/
theorem releasePages_sound {addr : BitVec 32} {n c : ℕ} (hi : ¬ live i)
    (h : Sound live k (Function.update T i p.pgdir) m v) :
    Sound live (releasePages addr n c k p).1
      (Function.update T i (releasePages addr n c k p).2.pgdir) m v := by
  induction n generalizing c k p with
  | zero => exact h
  | succ n ih =>
    simp only [releasePages]
    split_ifs with hzero
    · exact ih h
    · refine ih ?_
      rw [get_physical_page] at hzero ⊢
      rcases hp : p.pgdir (wrap (addr.toNat + c) / PGSIZE) with _ | frame
      · rw [hp] at hzero
        exact absurd rfl hzero
      · have hentry : Function.update T i p.pgdir i (wrap (addr.toNat + c) / PGSIZE) =
            some frame := by
          rw [Function.update_self, hp]
        have hdone := h.release hentry hi
        rw [setEntry, Function.update_self, Function.update_idem] at hdone
        exact hdone

theorem my_munmap_sound (addr length : BitVec 32) (written : ℤ) (hi : ¬ live i)
    (h : Sound live k (Function.update T i p.pgdir) m v) :
    Sound live (my_munmap k p addr length written).1
      (Function.update T i (my_munmap k p addr length written).2.1.pgdir) m v := by
  obtain ⟨hframes, hpgdir⟩ := MmapSafety.my_munmap_effect k p addr length written
  rw [hframes, hpgdir]
  exact releasePages_sound hi h

theorem my_munmap_kept (k : Frames) (p : Proc) (addr length : BitVec 32) (written : ℤ) (t : ℕ)
    (ht : t < 32) : ((my_munmap k p addr length written).2.1.slot t).ref = (p.slot t).ref := by
  have hrelease : ∀ n, ((releasePages addr n 0 k p).2.slot t).ref = (p.slot t).ref := fun n => by
    obtain ⟨hmmaps, htotal⟩ := MmapTracking.releasePages_table addr n 0 k p
    rw [MmapTracking.slot_congr hmmaps htotal]
  unfold my_munmap
  dsimp only
  split_ifs
  · rfl
  · rfl
  · rw [← hrelease]
    refine MmapSafety.kept_ref ((MmapSafety.kept_total _ _).trans
      (MmapSafety.shiftLeft_kept.trans (MmapSafety.setSlot_kept ?_))) ht
    rfl
  · rw [← hrelease]
    refine MmapSafety.kept_ref (MmapSafety.setSlot_kept ?_) ht
    rfl

/-- The topmost mapping leaves the table, and only small addresses stay behind. -/
theorem Tabled.pop {n : ℕ} (h : Tabled p l) (hn : l.length = n + 1) :
    Tabled (my_munmap k p (BitVec.ofNat 32 (p.slot n).addr) (BitVec.ofNat 32 (p.slot n).length)
      0).2.1 l.dropLast := by
  have hk : n < l.length := by omega
  have hroom := h.room
  have hn32 : (n : ℤ) ≠ 32 := by omega
  obtain ⟨haddr, hlength, -⟩ := h.listed.slot_addr hk
  obtain ⟨hbase, hal, hpos, htop⟩ := h.layout.placed_getElem hk
  have hnat : ∀ {x : ℕ}, x ≤ 2147479552 → (BitVec.ofNat 32 x).toNat = x := fun hx => by
    rw [BitVec.toNat_ofNat, Nat.mod_eq_of_lt (by omega)]
  have hka : l[n].addr = pgRoundUp (BitVec.ofNat 32 (p.slot n).addr).toNat := by
    rw [haddr, hnat (by omega), pgRoundUp_of_aligned hal (by omega)]
  have hfull : l[n].length ≤ pgRoundUp (BitVec.ofNat 32 (p.slot n).length).toNat := by
    rw [hlength, hnat (by omega)]
    unfold pgRoundUp
    omega
  obtain ⟨frames, q, hmmaps, htotal, hrun⟩ := MmapTracking.munmap_removes hk k h.listed h.layout
    h.room hka (fun hw : _ ∧ (0 : ℤ) < 0 => absurd hw.2 (by decide)) hfull
  have hslot : ∀ t : ℕ, t ≤ 32 → t ≠ n → (clearSlot q n).slot t = p.slot t := fun t _ htn => by
    rw [clearSlot, slot_setSlot_of_ne _ hn32 (by omega), MmapTracking.slot_congr hmmaps htotal]
  have htotalp := h.listed.total
  -- slot 32 is the counter itself, which is small too
  have hsmall : ∀ t : ℕ, n ≤ t → t ≤ 32 → ((clearSlot q n).slot t).addr < 4096 := by
    intro t hnt ht32
    rcases eq_or_ne t n with rfl | htn
    · rw [clearSlot, slot_setSlot_self _ hn32]
      exact Nat.zero_lt_succ _
    · rw [hslot t ht32 htn]
      rcases Nat.eq_or_lt_of_le ht32 with rfl | hlt
      · have hcounter : (p.slot 32).addr = wrap p.total_mmaps := rfl
        rw [Nat.cast_ofNat, hcounter, htotalp, wrap_of_lt (by omega)]
        omega
      · exact h.listed.rest t (by omega) hlt
  obtain ⟨hlow, hhigh⟩ := MmapTracking.shiftLeft_small (n := 32) (i := n) (by omega) hsmall
  have hdrop : l.dropLast.length = n := by
    rw [List.length_dropLast]
    omega
  have hout : ∀ t : ℕ, t < 32 → Proc.slot { shiftLeft 32 n (clearSlot q n) with
      total_mmaps := (shiftLeft 32 n (clearSlot q n)).total_mmaps - 1 } t =
        (shiftLeft 32 n (clearSlot q n)).slot t := fun t ht => by
    simp [Proc.slot, show (t : ℤ) ≠ 32 by omega]
  refine ⟨⟨?_, fun t ht => ?_, fun t htn ht32 => ?_⟩, ?_, by omega, fun m hm => ?_, fun t ht => ?_⟩
  · rw [hrun]
    change (shiftLeft 32 n (clearSlot q n)).total_mmaps - 1 = _
    rw [MmapTracking.shiftLeft_total, clearSlot, setSlot_total _ hn32, htotal, htotalp, hdrop]
    omega
  · have htn : t < n := by omega
    rw [hrun]
    change (Proc.slot { shiftLeft 32 n (clearSlot q n) with
      total_mmaps := (shiftLeft 32 n (clearSlot q n)).total_mmaps - 1 } t).toMapping = _
    rw [hout t (by omega), hlow t htn, hslot t (by omega) (by omega), h.listed.entries t (by omega),
      List.getElem_dropLast]
  · rw [hrun]
    change (Proc.slot { shiftLeft 32 n (clearSlot q n) with
      total_mmaps := (shiftLeft 32 n (clearSlot q n)).total_mmaps - 1 } t).addr < _
    rw [hout t ht32]
    exact hhigh t (by omega) ht32
  · exact ⟨fun m hm => h.layout.placed m (List.dropLast_subset l hm),
      h.layout.apart.sublist (List.dropLast_sublist l)⟩
  · exact h.plain m (List.dropLast_subset l hm)
  · rw [my_munmap_kept _ _ _ _ _ t ht]
    exact h.refs t ht

end Exit

theorem newMapping_prot {file : File} {a : ℕ} {length offset flags protection : BitVec 32}
    (h : protection.toNat < PGSIZE) :
    (MmapTracking.newMapping file a length offset flags protection).prot.toNat < PGSIZE := by
  unfold MmapTracking.newMapping
  dsimp only
  split_ifs
  · decide
  · rw [BitVec.toNat_or]
    exact Nat.or_lt_two_pow (n := 12) (by decide) h

section Steps

variable {fs : Files} {s s' : Machine} {v : ℕ → ℕ → UInt8} {i j : ℕ} {p : Space} {r : Ram}
  {l : List Mapping} {f : Phase}

theorem tables_of_used (h : s.phase i ≠ .unused) : tables s i = (s.spaces i).proc.pgdir := by
  funext a
  exact if_neg h

theorem tables_of_unused (h : s.phase i = .unused) : tables s i = fun _ => none := by
  funext a
  exact if_pos h

theorem tables_set (h : s.phase i ≠ .unused) :
    tables (s.set i p r) = Function.update (tables s) i p.proc.pgdir := by
  funext j a
  rcases eq_or_ne j i with rfl | hj
  · simp [tables, Machine.set, h]
  · simp [tables, Machine.set, hj]

theorem update_tables_self (h : s.phase i ≠ .unused) :
    Function.update (tables s) i (s.spaces i).proc.pgdir = tables s := by
  rw [← tables_of_used h, Function.update_eq_self]

theorem tables_setPhase (h : s.phase i ≠ .unused) (hf : f ≠ .unused) :
    tables (s.setPhase i f) = tables s := by
  funext j a
  rcases eq_or_ne j i with rfl | hj
  · rw [tables_of_used h, tables_of_used (by simpa [Machine.setPhase] using hf)]
    rfl
  · simp [tables, Machine.setPhase, hj]

theorem Invariant.update_self (h : Invariant s v) (hi : s.phase i ≠ .unused) :
    Sound (fun i => s.phase i = .live) s.ram.memory.frames
      (Function.update (tables s) i (s.spaces i).proc.pgdir) s.ram.mem v := by
  rw [update_tables_self hi]
  exact h.sound

/-- A step of process `i` that keeps its phase touches no other table. -/
theorem Invariant.set (h : Invariant s v) (hi : s.phase i ≠ .unused)
    (hsound : Sound (fun i => s.phase i = .live) r.memory.frames
      (Function.update (tables s) i p.proc.pgdir) r.mem v)
    (htable : Tabled p.proc l) (hstage : Stage (s.phase i) l (v i)) : Invariant (s.set i p r) v := by
  refine ⟨?_, fun j => ?_⟩
  · rw [tables_set hi]
    exact hsound
  · rcases eq_or_ne j i with rfl | hj
    · refine ⟨l, ?_, hstage⟩
      simpa [Machine.set] using htable
    · simpa [Machine.set, hj] using h.table j

/-- A process that leaves the live ones keeps its table until it is reaped. -/
theorem Invariant.setPhase (h : Invariant s v) (hf : f ≠ .live)
    (hstage : ∃ l, Tabled (s.spaces i).proc l ∧ Stage f l (v i))
    (hused : f ≠ .unused → s.phase i ≠ .unused) : Invariant (s.setPhase i f) v := by
  have hphase : ∀ j, j ≠ i → (s.setPhase i f).phase j = s.phase j := fun j hj => by
    simp [Machine.setPhase, hj]
  have hself : (s.setPhase i f).phase i = f := by simp [Machine.setPhase]
  have hother : ∀ j, (s.setPhase i f).phase j = .live → j ≠ i := by
    rintro j hj rfl
    exact hf (hself.symm.trans hj)
  have htables : ∀ j, j ≠ i → tables (s.setPhase i f) j = tables s j := fun j hj => by
    funext a
    simp only [tables, hphase j hj]
    rfl
  refine ⟨h.sound.restrict (fun j hj => ?_) (fun j a => ?_) fun j hj => htables j (hother j hj),
    fun j => ?_⟩
  · rwa [hphase j (hother j hj)] at hj
  · rcases eq_or_ne j i with rfl | hj
    · by_cases hu : f = .unused
      · exact .inr (congrFun (tables_of_unused (hself.trans hu)) a)
      · rw [tables_setPhase (hused hu) hu]
        exact .inl rfl
    · exact .inl (congrFun (htables j hj) a)
  · rcases eq_or_ne j i with rfl | hj
    · rw [hself]
      exact hstage
    · rw [hphase j hj]
      exact h.table j

theorem mmap_step {file : File} {length offset protection : BitVec 32} (h : Invariant s v)
    (hi : s.phase i = .live) (hplain : protection.toNat < PGSIZE) :
    Invariant (s.set i { s.spaces i with proc := (my_mmap (s.spaces i).proc 0 file length offset
      plainFlags protection).1 } s.ram) v := by
  have hu : s.phase i ≠ .unused := by simp [hi]
  obtain ⟨l, ht, hcov⟩ := h.table i
  rw [hi] at hcov
  have hkept := @MmapSafety.my_mmap_kept (s.spaces i).proc 0 file length offset plainFlags protection
  have hsound := h.update_self hu
  rw [← MmapSafety.kept_pgdir hkept] at hsound
  rcases MmapTracking.my_mmap_spec ht.listed ht.layout ht.room file length offset plainFlags
    protection with hnone | ⟨p', pos, m, hrun, ho, hroom, hm, hfit⟩
  · refine h.set hu hsound ?_ (by rw [hi]; exact hcov)
    simpa only [hnone] using ht
  · have hlen := List.length_insertIdx_of_le_length hfit.inside m.toMapping
    refine h.set hu hsound (l := l.insertIdx pos m.toMapping)
      ⟨?_, ht.layout.insert hfit, by omega, fun n hn => ?_, fun k hk => ?_⟩ ?_
    · simpa only [hrun] using ho.listed ht.listed hroom hfit.inside m
    · rcases List.eq_or_mem_of_mem_insertIdx hn with rfl | hn
      · rw [hm]
        exact ⟨rfl, newMapping_prot hplain⟩
      · exact ht.plain n hn
    · exact (MmapSafety.kept_ref hkept hk).trans (ht.refs k hk)
    · rw [hi]
      intro a ha
      obtain ⟨n, hn, hreach⟩ := hcov a ha
      exact ⟨n, (List.mem_insertIdx hfit.inside).mpr (.inr hn), hreach⟩

theorem fault_step {addr : BitVec 32} {answers : List Answer} (h : Invariant s v)
    (hi : s.phase i = .live)
    (hr : handle_page_fault fs (withAnswers s.ram answers) (s.spaces i) addr.toNat = some (r, p)) :
    Invariant (s.set i p r) v := by
  have hu : s.phase i ≠ .unused := by simp [hi]
  obtain ⟨l, ht, hcov⟩ := h.table i
  have hstart : Sound (fun i => s.phase i = .live) (withAnswers s.ram answers).memory.frames
      (Function.update (tables s) i (s.spaces i).proc.pgdir) (withAnswers s.ram answers).mem v :=
    h.update_self hu
  obtain ⟨ht', hsound⟩ := fault_sound (i := i) ht hi hstart hr
  exact h.set hu hsound ht' hcov

theorem store_contents {m : Mem} {frame a : ℕ} {b : UInt8} (g : ℕ) (o : Fin 4096) :
    contents (storeBytes m (frame * PGSIZE + a % PGSIZE) [b]) g o =
      if g = frame ∧ (o : ℕ) = a % PGSIZE then b else contents m g o := by
  have ho := o.isLt
  have ha : a % PGSIZE < 4096 := Nat.mod_lt a (by decide)
  unfold contents
  split_ifs with hgo
  · obtain ⟨rfl, ho⟩ := hgo
    rw [ho]
    have hin : 0 < [b].length := Nat.one_pos
    have hread := storeBytes_inside (m := m) (a := g * PGSIZE + a % PGSIZE) hin
    rw [Nat.add_zero] at hread
    exact hread
  · refine storeBytes_outside ?_
    rw [List.length_singleton]
    simp only [PGSIZE] at *
    omega

theorem store_paged {a : ℕ} {b : UInt8} :
    setView (paged v) i (a / PGSIZE) (fun o => if (o : ℕ) = a % PGSIZE then b
      else paged v i (a / PGSIZE) o) = paged (Function.update v i (Function.update (v i) a b)) := by
  have hsame : ∀ o : Fin 4096, (a / PGSIZE * PGSIZE + o = a) ↔ (o : ℕ) = a % PGSIZE := fun o => by
    simp only [PGSIZE]
    omega
  funext k page o
  by_cases hkp : k = i ∧ page = a / PGSIZE
  · obtain ⟨rfl, rfl⟩ := hkp
    rw [setView_self]
    unfold paged
    rw [Function.update_self]
    by_cases ho : (o : ℕ) = a % PGSIZE
    · rw [if_pos ho, (hsame o).mpr ho, Function.update_self]
    · rw [if_neg ho, Function.update_of_ne (mt (hsame o).mp ho)]
  · rw [setView_of_ne hkp, paged, paged]
    rcases eq_or_ne k i with rfl | hk
    · rw [Function.update_self, Function.update_of_ne]
      rintro rfl
      exact hkp ⟨rfl, (page_div o).symm⟩
    · rw [Function.update_of_ne hk]

theorem inMapping_reached {p : Proc} {a : ℕ} (ht : Tabled p l) (ha : inMapping p a = true) :
    ∃ m ∈ l, Reaches m (a / PGSIZE) := by
  have htotal := ht.listed.total
  simp only [inMapping, List.any_eq_true, List.mem_range, decide_eq_true_eq] at ha
  obtain ⟨k, hk, hlow, hhigh⟩ := ha
  have hkl : k < l.length := by omega
  obtain ⟨haddr, hlength, -⟩ := ht.listed.slot_addr hkl
  have hal := (ht.layout.placed_getElem hkl).2.1
  refine ⟨l[k], List.getElem_mem hkl, ?_⟩
  rw [haddr] at hlow hhigh
  rw [hlength] at hhigh
  simp only [Reaches, PGSIZE]
  omega

theorem store_step {a frame : ℕ} {b : UInt8} (h : Invariant s v) (hi : s.phase i = .live)
    (ha : inMapping (s.spaces i).proc a = true)
    (hframe : (s.spaces i).proc.pgdir (a / PGSIZE) = some frame) :
    Invariant { s with ram := store s.ram frame a b }
      (Function.update v i (Function.update (v i) a b)) := by
  have hentry : tables s i (a / PGSIZE) = some frame := by
    rw [tables_of_used (by simp [hi]), hframe]
  have hnew : contents (store s.ram frame a b).mem frame =
      fun o : Fin 4096 => if (o : ℕ) = a % PGSIZE then b else paged v i (a / PGSIZE) o := by
    funext o
    rw [store, store_contents]
    simp only [true_and, h.sound.shown hentry o]
  have hold : ∀ g, g ≠ frame → contents (store s.ram frame a b).mem g = contents s.ram.mem g := by
    intro g hg
    funext o
    rw [store, store_contents, if_neg fun hgo => hg hgo.1]
  refine ⟨?_, fun j => ?_⟩
  · have hwritten := h.sound.write hentry hnew hold
    rwa [store_paged] at hwritten
  · rcases eq_or_ne j i with rfl | hj
    · obtain ⟨l, ht, hcov⟩ := h.table j
      refine ⟨l, ht, ?_⟩
      rw [hi] at hcov
      change Stage (s.phase j) l _
      rw [hi, Function.update_self]
      intro x hx
      rcases eq_or_ne x a with rfl | hxa
      · exact inMapping_reached ht ha
      · rw [Function.update_of_ne hxa] at hx
        exact hcov x hx
    · rw [Function.update_of_ne hj]
      exact h.table j

theorem HalfCopied.newborn (ht : Tabled (s.spaces j).proc []) :
    HalfCopied (newborn (s.spaces j)).proc l 0 := by
  have hslot : ∀ t : ℕ, t < 32 → (MmapIsolation.newborn (s.spaces j)).proc.slot t =
      (s.spaces j).proc.slot t := fun t ht32 => by
    simp [MmapIsolation.newborn, Proc.slot, show (t : ℤ) ≠ 32 by omega]
  refine ⟨rfl, fun t _ ht0 => absurd ht0 (Nat.not_lt_zero t), fun t _ ht32 => ?_, fun t ht32 => ?_⟩
  · rw [hslot t ht32]
    exact ht.listed.rest t (Nat.zero_le t) ht32
  · rw [hslot t ht32]
    exact ht.refs t ht32

theorem Cloning.newborn {answers : List Answer} (h : Invariant s v) (hi : s.phase i = .live)
    (hj : s.phase j = .unused) :
    Cloning (fun k => s.phase k = .live ∨ k = j) (tables s) v i j (s.spaces i)
      (withAnswers s.ram answers) (newborn (s.spaces j)) fun _ => 0 := by
  have hij : i ≠ j := by
    rintro rfl
    rw [hi] at hj
    cases hj
  have hblank : Function.update (paged v) j (fun _ _ => 0) =
      paged (Function.update v j fun _ => 0) := by
    funext k page o
    rcases eq_or_ne k j with rfl | hk
    · simp [paged]
    · simp [paged, hk]
  refine ⟨hij, tables_of_used (by simp [hi]), .inl hi, ?_, fun a => .inr rfl⟩
  have hjoined := h.sound.join fun a => congrFun (tables_of_unused hj) a
  have hsame : Function.update (tables s) j (MmapIsolation.newborn (s.spaces j)).proc.pgdir =
      tables s := by
    rw [Function.update_eq_self_iff]
    exact (tables_of_unused hj).symm
  rw [hsame, Sound, ← hblank]
  exact hjoined

theorem fork_step {answers : List Answer} {parent child : Space} (h : Invariant s v)
    (hi : s.phase i = .live) (hj : s.phase j = .unused)
    (hr : copy_maps fs (withAnswers s.ram answers) (s.spaces i) (newborn (s.spaces j)) =
      some (r, parent, child, true)) :
    Invariant (((s.set i parent r).set j child r).setPhase j .live)
      (Function.update v j (v i)) := by
  obtain ⟨l, ht, hcov⟩ := h.table i
  rw [hi] at hcov
  obtain ⟨l₀, htj, hempty⟩ := h.table j
  rw [hj] at hempty
  obtain rfl : l₀ = [] := hempty
  have hclone := @Cloning.newborn _ _ _ _ answers h hi hj
  obtain ⟨rfl, htc, hsound⟩ := copy_maps_sound ht hcov (HalfCopied.newborn htj) hclone hr
  set s₁ := ((s.set i (s.spaces i) r).set j child r).setPhase j .live with hs₁
  have hspaces : ∀ k, s₁.spaces k = if k = j then child else s.spaces k := by
    intro k
    rcases eq_or_ne k j with rfl | hk
    · simp [s₁, Machine.set, Machine.setPhase]
    · rcases eq_or_ne k i with rfl | hki
      · simp [s₁, Machine.set, Machine.setPhase, hk]
      · simp [s₁, Machine.set, Machine.setPhase, hk]
  have hphase : ∀ k, s₁.phase k = if k = j then .live else s.phase k := by
    intro k
    rcases eq_or_ne k j with rfl | hk
    · simp [s₁, Machine.set, Machine.setPhase]
    · simp [s₁, Machine.set, Machine.setPhase, hk]
  have htables : tables s₁ = Function.update (tables s) j child.proc.pgdir := by
    funext k a
    rcases eq_or_ne k j with rfl | hk
    · simp [tables, hspaces, hphase]
    · simp [tables, hspaces, hphase, hk]
  have hlive : (fun k => s₁.phase k = .live) = fun k => s.phase k = .live ∨ k = j := by
    funext k
    rcases eq_or_ne k j with rfl | hk
    · simp [hphase]
    · simp [hphase, hk]
  refine ⟨?_, fun k => ?_⟩
  · rw [hlive, htables]
    exact hsound
  · rcases eq_or_ne k j with rfl | hk
    · refine ⟨l, ?_, ?_⟩
      · rwa [hspaces, if_pos rfl]
      · rw [hphase, if_pos rfl, Function.update_self]
        exact hcov
    · rw [hspaces, hphase, if_neg hk, if_neg hk, Function.update_of_ne hk]
      exact h.table k

/-- A step of a process that is not live any more. -/
theorem Invariant.setExiting (h : Invariant s v) (hi : s.phase i ≠ .unused) (hlive : f ≠ .live)
    (hused : f ≠ .unused)
    (hsound : Sound (fun i => s.phase i = .live) r.memory.frames
      (Function.update (tables s) i p.proc.pgdir) r.mem v)
    (htable : Tabled p.proc l) (hstage : Stage f l (v i)) :
    Invariant ((s.set i p r).setPhase i f) v := by
  refine ⟨?_, fun j => ?_⟩
  · rw [tables_setPhase (s := s.set i p r) hi hused, tables_set hi]
    refine hsound.restrict (fun j hj => ?_) (fun _ _ => .inl rfl) fun _ _ => rfl
    rcases eq_or_ne j i with rfl | hne
    · simp only [Machine.setPhase, Function.update_self] at hj
      exact absurd hj hlive
    · simpa [Machine.setPhase, Machine.set, hne] using hj
  · rcases eq_or_ne j i with rfl | hj
    · refine ⟨l, ?_, ?_⟩
      · simpa [Machine.setPhase, Machine.set] using htable
      · simpa [Machine.setPhase] using hstage
    · simpa [Machine.setPhase, Machine.set, hj] using h.table j

theorem exitBegin_step (h : Invariant s v) (hi : s.phase i = .live) :
    Invariant (s.setPhase i (.exiting (s.spaces i).proc.total_mmaps.toNat)) v := by
  obtain ⟨l, ht, -⟩ := h.table i
  refine h.setPhase (by simp) ⟨l, ht, ?_⟩ fun _ => by simp [hi]
  have htotal := ht.listed.total
  change l.length = _
  omega

theorem exitArgs_some {n : ℕ} {p : Proc} (ht : Tabled p l) (hlen : l.length = n + 1) :
    (exitArgs p n).isSome = true := by
  have htotal := ht.listed.total
  have hroom := ht.room
  have hlast : p.total_mmaps - 1 = (n : ℤ) := by omega
  rw [exitArgs, hlast, if_pos (ht.refs n (by omega))]
  rfl

/-- No mapping is inherited, so `delete_mmaps` unmaps the topmost one in every round. -/
theorem exitStep_step {n : ℕ} {addr length : BitVec 32} (h : Invariant s v)
    (hi : s.phase i = .exiting (n + 1))
    (hargs : exitArgs (s.spaces i).proc n = some (addr, length)) :
    Invariant ((release s i addr length).setPhase i (.exiting n)) v := by
  have hu : s.phase i ≠ .unused := by simp [hi]
  obtain ⟨l, ht, hlen⟩ := h.table i
  rw [hi] at hlen
  change l.length = n + 1 at hlen
  unfold exitArgs at hargs
  split_ifs at hargs
  simp only [Option.some.injEq, Prod.mk.injEq] at hargs
  obtain ⟨rfl, rfl⟩ := hargs
  have hpop := ht.pop (k := s.ram.memory.frames) hlen
  have hsound := my_munmap_sound (i := i) (BitVec.ofNat 32 ((s.spaces i).proc.slot n).addr)
    (BitVec.ofNat 32 ((s.spaces i).proc.slot n).length) 0 (by simp [hi]) (h.update_self hu)
  refine h.setExiting (r := { s.ram with memory := { s.ram.memory with frames := _ } }) hu (by simp)
    (by simp) hsound hpop ?_
  change l.dropLast.length = n
  rw [List.length_dropLast, hlen, Nat.add_sub_cancel]

theorem exitEnd_step (h : Invariant s v) (hi : s.phase i = .exiting 0) :
    Invariant ((s.set i { s.spaces i with proc := { (s.spaces i).proc with total_mmaps := 0 } }
      s.ram).setPhase i .zombie) v := by
  have hu : s.phase i ≠ .unused := by simp [hi]
  obtain ⟨l, ht, hlen⟩ := h.table i
  rw [hi] at hlen
  obtain rfl : l = [] := List.length_eq_zero_iff.mp hlen
  have hsame : { (s.spaces i).proc with total_mmaps := 0 } = (s.spaces i).proc := by
    rw [← show (s.spaces i).proc.total_mmaps = 0 from ht.listed.total]
  rw [hsame]
  exact h.setExiting hu (by simp) (by simp) (h.update_self hu) ht rfl

theorem reap_step (h : Invariant s v) (hi : s.phase i = .zombie) :
    Invariant (s.setPhase i .unused) v := by
  refine h.setPhase (by simp) ?_ fun hne => absurd rfl hne
  obtain ⟨l, ht, hempty⟩ := h.table i
  rw [hi] at hempty
  exact ⟨l, ht, hempty⟩

theorem step_invariant (h : Invariant s v) {e : Event} (he : Plain e) (hs : next fs s e = some s') :
    Invariant s' (account v e) := by
  cases e with
  | mmap i f length offset protection =>
    simp only [next, Option.ite_none_right_eq_some, Option.some.injEq] at hs
    obtain ⟨hi, rfl⟩ := hs
    exact mmap_step h hi he
  | fault i addr answers =>
    simp only [next, Option.ite_none_right_eq_some, Option.map_eq_some_iff] at hs
    obtain ⟨hi, ⟨r, p⟩, hr, rfl⟩ := hs
    exact fault_step h hi hr
  | store i a b =>
    simp only [next, Option.ite_none_right_eq_some, Option.map_eq_some_iff] at hs
    obtain ⟨⟨hi, ha⟩, frame, hframe, rfl⟩ := hs
    exact store_step h hi ha hframe
  | fork i j answers =>
    simp only [next, Option.ite_none_right_eq_some] at hs
    obtain ⟨⟨hi, hj⟩, hs⟩ := hs
    split at hs
    next r parent child hr =>
      cases hs
      exact fork_step h hi hj hr
    next => cases hs
  | exitBegin i =>
    simp only [next, Option.ite_none_right_eq_some, Option.some.injEq] at hs
    obtain ⟨hi, rfl⟩ := hs
    exact exitBegin_step h hi
  | exitStep i =>
    simp only [next] at hs
    split at hs
    next n hi =>
      obtain ⟨l, ht, hlen⟩ := h.table i
      rw [hi] at hlen
      have hsome := exitArgs_some ht hlen
      split at hs
      next addr length hargs =>
        cases hs
        exact exitStep_step h hi hargs
      next hnone =>
        rw [hnone] at hsome
        cases hsome
    next => cases hs
  | exitEnd i =>
    simp only [next, Option.ite_none_right_eq_some, Option.some.injEq] at hs
    obtain ⟨hi, rfl⟩ := hs
    exact exitEnd_step h hi
  | reap i =>
    simp only [next, Option.ite_none_right_eq_some, Option.some.injEq] at hs
    obtain ⟨hi, rfl⟩ := hs
    exact reap_step h hi

theorem run_invariant {es : List Event} (h : Invariant s v) (hes : ∀ e ∈ es, Plain e)
    (hs : run fs s es = some s') : Invariant s' (es.foldl account v) := by
  induction es generalizing s v with
  | nil =>
    cases hs
    exact h
  | cons e es ih =>
    obtain ⟨s₁, he, hs⟩ := Option.bind_eq_some_iff.mp hs
    have h₁ := step_invariant h (hes e List.mem_cons_self) he
    exact ih h₁ (fun e' he' => hes e' (List.mem_cons_of_mem e he')) hs

theorem fresh_invariant (h : Fresh s) : Invariant s fun _ _ => 0 := by
  have hslot : ∀ i (k : ℕ), k < 32 → (s.spaces i).proc.slot k = Mmp.zero := fun i k hk => by
    rw [Proc.slot, if_neg (by omega)]
    exact h.zeroed i k hk
  have hnone : ∀ i a, tables s i a = none := by
    intro i a
    rcases eq_or_ne i 0 with rfl | hi
    · rw [tables_of_used (by simp [h.first]), h.absent]
    · rw [tables_of_unused (h.others i hi)]
  refine ⟨⟨fun hf => ?_, fun hf => ?_, fun hf => ?_, fun _ _ _ => rfl⟩, fun i => ⟨[], ?_, ?_⟩⟩
  · rw [hnone] at hf
    cases hf
  · rw [hnone] at hf
    cases hf
  · rw [hnone] at hf
    cases hf
  · refine ⟨⟨h.empty i, fun k hk => absurd hk (Nat.not_lt_zero k), fun k _ hk => ?_⟩,
      ⟨fun m hm => absurd hm List.not_mem_nil, List.Pairwise.nil⟩, Nat.zero_le _,
      fun m hm => absurd hm List.not_mem_nil, fun k hk => ?_⟩
    · rw [hslot i k hk]
      exact Nat.succ_pos _
    · rw [hslot i k hk]
      rfl
  · rcases eq_or_ne i 0 with rfl | hi
    · rw [h.first]
      exact fun a ha => absurd rfl ha
    · rw [h.others i hi]
      rfl

theorem Invariant.faithful (h : Invariant s v) : Faithful s v := by
  intro i a b hi _ hb
  obtain ⟨frame, hframe, rfl⟩ := Option.map_eq_some_iff.mp hb
  have hentry : tables s i (a / PGSIZE) = some frame := by
    rw [tables_of_used (by simp [hi]), hframe]
  have hshown := h.sound.shown hentry ⟨a % PGSIZE, Nat.mod_lt a (by decide)⟩
  rwa [paged_at] at hshown

theorem Invariant.unseen (h : Invariant s v) : Unseen fs s := by
  intro i a b s' hs j hj hlive x
  simp only [next, Option.ite_none_right_eq_some, Option.map_eq_some_iff] at hs
  obtain ⟨⟨hi, -⟩, frame, hframe, rfl⟩ := hs
  have hentry : tables s i (a / PGSIZE) = some frame := by
    rw [tables_of_used (by simp [hi]), hframe]
  refine Option.map_congr fun g hg => ?_
  have hother : tables s j (x / PGSIZE) = some g := by
    rw [tables_of_used (by simp [hlive])]
    exact hg
  have hne : ¬ (g = frame ∧ x % PGSIZE = a % PGSIZE) := by
    rintro ⟨rfl, -⟩
    exact hj (h.sound.unique hother hentry).1
  have hkept := @store_contents s.ram.mem frame a b g
    ⟨x % PGSIZE, Nat.mod_lt x (by decide)⟩
  rw [if_neg hne] at hkept
  exact hkept

end Steps

/-- Whatever the interleaving of faults, stores, forks and exits, every load returns what the
account says, and no store is seen by another process. -/
theorem private_memory_isolated {fs : Files} {s₀ s : Machine} {es : List Event} (h : Fresh s₀)
    (hes : ∀ e ∈ es, Plain e) (hs : run fs s₀ es = some s) :
    Faithful s (view es) ∧ Unseen fs s :=
  ⟨(run_invariant (fresh_invariant h) hes hs).faithful,
    (run_invariant (fresh_invariant h) hes hs).unseen⟩

def firstProcess : Machine where
  spaces := fun _ => ⟨⟨fun _ => Mmp.zero, 0, fun _ => none, false⟩, fun _ => 0⟩
  phase := fun i => if i = 0 then .live else .unused
  ram := withAnswers oneFrame []

theorem firstProcess_fresh : Fresh firstProcess :=
  ⟨rfl, fun _ hi => if_neg hi, fun _ => rfl, fun _ _ _ => rfl, fun _ => rfl⟩

/-- A page that is stored to before the `fork` and by the child after it. -/
def forkedStores : List Event :=
  [.mmap 0 ⟨0, true, true⟩ 4096 0 3, .fault 0 0x60000008 [⟨3, true⟩], .store 0 0x60000000 5,
    .fork 0 1 [⟨4, true⟩], .store 1 0x60000000 9]

theorem forked_stores_isolated : Fresh firstProcess ∧ (∀ e ∈ forkedStores, Plain e) ∧
    ∃ s, run noFiles firstProcess forkedStores = some s ∧
      byteAt s.ram (s.spaces 0) 0x60000000 = some 5 ∧
      byteAt s.ram (s.spaces 1) 0x60000000 = some 9 ∧
      Faithful s (view forkedStores) ∧ Unseen noFiles s := by
  have hplain : ∀ e ∈ forkedStores, Plain e := by
    simp [forkedStores, Plain, PGSIZE]
  have hsome : ((run noFiles firstProcess forkedStores).any fun s =>
      byteAt s.ram (s.spaces 0) 0x60000000 = some 5 ∧
        byteAt s.ram (s.spaces 1) 0x60000000 = some 9) = true := by
    decide +kernel
  obtain ⟨s, hs, hst⟩ := (Option.any_eq_true _ _).mp hsome
  simp only [decide_eq_true_eq] at hst
  exact ⟨firstProcess_fresh, hplain, s, hs, hst.1, hst.2,
    private_memory_isolated firstProcess_fresh hplain hs⟩

/-- The second mapping asks for protection `0x1003`. Its page is frame 2, but its entry leads
to frame 3, which belongs to the first mapping. -/
def aliasedStores : List Event :=
  [.mmap 0 ⟨0, true, true⟩ 4096 0 3, .mmap 0 ⟨0, true, true⟩ 4096 0 0x1003,
    .fault 0 0x60000008 [⟨3, true⟩], .fault 0 0x60001008 [⟨2, true⟩], .store 0 0x60000000 5,
    .store 0 0x60001000 9]

theorem aliased_page_overwritten : Fresh firstProcess ∧
    ∃ s, run noFiles firstProcess aliasedStores = some s ∧ ¬ Faithful s (view aliasedStores) := by
  have hsome : ((run noFiles firstProcess aliasedStores).any fun s =>
      s.phase 0 = .live ∧ inMapping (s.spaces 0).proc 0x60000000 = true ∧
        byteAt s.ram (s.spaces 0) 0x60000000 = some 9) = true := by
    decide +kernel
  obtain ⟨s, hs, hst⟩ := (Option.any_eq_true _ _).mp hsome
  simp only [decide_eq_true_eq] at hst
  refine ⟨firstProcess_fresh, s, hs, fun hf => ?_⟩
  have hread := hf 0 0x60000000 9 hst.1 hst.2.1 hst.2.2
  exact absurd hread (by decide)

end MmapIsolation
