import OsProjects.ForkFailure
import OsProjects.MmapExit

/-! # One `copy_maps` in three models

`MmapMemory` adds the contents of the pages to `MmapFrames`, and `ForkFailure` the page tables
and the order of the free list. What either does to frames, entries and mappings in `copy_maps`,
and the first of them in a fault, `MmapFrames` does as well.
-/
namespace CopyMaps

open Word32 MmapTable
open MmapFrames (Answer Memory covers growsTo)
open MmapExit (SameTable)

/-- No protection reaches into a frame number. -/
def Plain (p : Proc) : Prop := ∀ k, (p.slot k).prot.toNat < PGSIZE

theorem Plain.same {p q : Proc} (h : Plain p) (hsame : SameTable p q) : Plain q := by
  intro k
  rw [hsame.mappings k]
  exact h k

section Contents

open MmapMemory

variable {fs : Files} {fill : Ram → ℕ → Option Ram} {r r' : Ram} {p p' c c' : Space}
  {perm : BitVec 32} {page start n : ℕ} {i : ℤ} {ok : Bool}

/-- Filling a page moves no frames. -/
def Quiet (fill : Ram → ℕ → Option Ram) : Prop :=
  ∀ r frame r', fill r frame = some r' → r'.memory = r.memory

theorem readPage_quiet {f fuel dest toRead : ℕ} {offset : BitVec 32}
    (h : readPage fs f fuel dest toRead offset r = some r') : r'.memory = r.memory := by
  induction fuel generalizing dest toRead offset r with
  | zero =>
    cases h
    rfl
  | succ fuel ih =>
    rw [readPage] at h
    dsimp only at h
    by_cases hdone : toRead = 0
    · rw [if_pos hdone] at h
      cases h
      rfl
    · rw [if_neg hdone] at h
      split at h
      next =>
        cases h
        rfl
      next =>
        split at h
        next => cases h
        next => exact (ih h).trans rfl

theorem fileFill_quiet (f : ℕ) (offset : BitVec 32) (length done : ℕ) :
    Quiet (fileFill fs f offset length done) := fun _ _ _ h => (readPage_quiet h).trans rfl

theorem anonFill_quiet (done : ℕ) : Quiet (anonFill done) := by
  intro r frame r' h
  cases h
  rfl

theorem copyFill_quiet (source : ℕ) : Quiet (copyFill source) := by
  intro r frame r' h
  cases h
  rfl

theorem mapPage_frames {frame : ℕ} (hperm : perm.toNat < PGSIZE)
    (h : mapPage p page frame perm = some p') :
    MmapFrames.mapPage p.proc page frame = some p'.proc := by
  unfold mapPage at h
  rcases hentry : p.proc.pgdir page with _ | f
  · rw [hentry] at h
    cases h
    rw [MmapFrames.mapPage, hentry, aliased_of_permission _ hperm]
  · rw [hentry] at h
    cases h

theorem mapFresh_frames (hfill : Quiet fill) (hperm : perm.toNat < PGSIZE)
    (h : mapFresh fill r p page perm = some (r', p', ok)) :
    MmapFrames.mapFresh r.memory p.proc page = some (r'.memory, p'.proc, ok) := by
  unfold mapFresh at h
  unfold MmapFrames.mapFresh
  dsimp only at h ⊢
  rcases halloc : MmapFrames.kalloc r.memory.pop.2.frames r.memory.pop.1.frame with _ | k
  · rw [halloc] at h
    cases h
    rfl
  · rw [halloc] at h
    obtain ⟨r₁, hfilled, h⟩ := Option.bind_eq_some_iff.mp h
    have hmemory := hfill _ _ _ hfilled
    dsimp only at h hmemory ⊢
    split_ifs at h ⊢
    · obtain ⟨q, hmap, he⟩ := Option.map_eq_some_iff.mp h
      cases he
      rw [mapPage_frames hperm hmap, hmemory]
      rfl
    · cases h
      rw [hmemory]

theorem storePages_frames {fill : ℕ → Ram → ℕ → Option Ram} {done : ℕ}
    (hfill : ∀ done, Quiet (fill done)) (hperm : perm.toNat < PGSIZE)
    (h : storePages fill perm n page done r p = some (r', p', ok)) :
    MmapFrames.storePages n page r.memory p.proc = some (r'.memory, p'.proc, ok) := by
  induction n generalizing page done r p with
  | zero =>
    cases h
    rfl
  | succ n ih =>
    rw [storePages] at h
    rw [MmapFrames.storePages]
    split at h
    next => cases h
    next hfresh =>
      cases h
      rw [mapFresh_frames (hfill _) hperm hfresh]
    next hfresh =>
      rw [mapFresh_frames (hfill _) hperm hfresh]
      exact ih h

theorem mmap_store_data_frames {call : StoreCall} (hperm : call.prot.toNat < PGSIZE)
    (h : mmap_store_data fs r p call = some (r', p', ok)) :
    MmapFrames.mmap_store_data r.memory p.proc call.addr call.length =
      some (r'.memory, p'.proc, ok) := by
  unfold mmap_store_data at h
  split_ifs at h
  · exact storePages_frames anonFill_quiet hperm h
  · split at h
    next => cases h
    next => exact storePages_frames (fileFill_quiet _ _ _) hperm h

theorem faultIn_frames {addr : ℕ} (hperm : (p.proc.slot i).prot.toNat < PGSIZE)
    (h : faultIn fs r p i addr = some (r', p')) :
    MmapFrames.faultIn r.memory p.proc i addr = some (r'.memory, p'.proc) := by
  unfold faultIn at h
  unfold MmapFrames.faultIn
  by_cases hpage : get_physical_page p.proc (pgRoundDown addr) ≠ 0
  · rw [if_pos hpage] at h ⊢
    cases h
    rfl
  · rw [if_neg hpage] at h ⊢
    obtain ⟨⟨r₁, p₁, ok⟩, hstore, he⟩ := Option.map_eq_some_iff.mp h
    have hcall : (faultCall p.proc i addr).prot.toNat < PGSIZE := hperm
    have hframes := mmap_store_data_frames hcall hstore
    dsimp only [faultCall] at hframes ⊢
    rw [← Nat.cast_ite] at hframes
    rw [hframes]
    cases ok <;> cases he <;> rfl

theorem setSlot_prot (p : Proc) (m : Mmp) : ((p.setSlot i m).slot i).prot = m.prot := by
  by_cases h32 : i = 32
  · subst h32
    simp [Proc.setSlot, Proc.slot]
  · rw [slot_setSlot_self _ h32]

/-- What a page fault reads from the file does not change which frames it moves. -/
theorem handle_page_fault_frames {addr : ℕ} (hplain : Plain p.proc)
    (h : handle_page_fault fs r p addr = some (r', p')) :
    MmapFrames.handle_page_fault r.memory p.proc addr = some (r'.memory, p'.proc) := by
  unfold handle_page_fault planFault at h
  unfold MmapFrames.handle_page_fault
  rcases hcovers : (List.range p.proc.total_mmaps.toNat).find? (covers p.proc addr) with _ | j
  · rw [hcovers] at h
    dsimp only at h ⊢
    split_ifs at h ⊢ with hhigh
    · cases h
      rfl
    · rcases hgrows : (List.range p.proc.total_mmaps.toNat).find?
        (growsTo p.proc addr (pgRoundDown (wrap (addr + PGSIZE)))) with _ | j
      · rw [hgrows] at h
        cases h
        rfl
      · rw [hgrows] at h
        refine faultIn_frames ?_ h
        rw [grown, setSlot_prot]
        exact hplain j
  · rw [hcovers] at h
    exact faultIn_frames (hplain j) h

theorem parentPage_frames (hplain : Plain p.proc)
    (h : parentPage fs r p i start = some (r', p', ok)) :
    MmapFrames.parentPage r.memory p.proc i start = some (r'.memory, p'.proc, ok) := by
  unfold parentPage at h
  unfold MmapFrames.parentPage
  dsimp only at h ⊢
  by_cases hc : has (p.proc.slot i).flags MAP_SHARED ∧ get_physical_page p.proc start = 0
  · rw [if_pos hc] at h ⊢
    obtain ⟨⟨r₁, p₁, ok₁⟩, hstore, he⟩ := Option.map_eq_some_iff.mp h
    have hperm : (copyCall p.proc i start).prot.toNat < PGSIZE := hplain i
    have hframes := mmap_store_data_frames hperm hstore
    dsimp only [copyCall] at hframes
    rw [hframes]
    cases ok₁ <;> cases he <;> rfl
  · rw [if_neg hc] at h ⊢
    cases h
    rfl

theorem childPage_frames {shared : Bool} (hperm : perm.toNat < PGSIZE)
    (h : childPage r p c shared perm start = some (r', c', ok)) :
    MmapFrames.childPage r.memory p.proc c.proc shared start = some (r'.memory, c'.proc, ok) := by
  unfold childPage at h
  unfold MmapFrames.childPage
  dsimp only at h ⊢
  split_ifs at h ⊢
  · obtain ⟨q, hmap, he⟩ := Option.map_eq_some_iff.mp h
    cases he
    rw [mapPage_frames hperm hmap]
    rfl
  · cases h
    rfl
  · cases h
    rfl
  · exact mapFresh_frames (copyFill_quiet _) hperm h

theorem copyPages_frames {shared : Bool} (hi : i ≠ 32) (hplain : Plain p.proc)
    (hperm : perm.toNat < PGSIZE)
    (h : copyPages fs i shared perm n start r p c = some (r', p', c', ok)) :
    MmapFrames.copyPages i shared n start r.memory p.proc c.proc =
      some (r'.memory, p'.proc, c'.proc, ok) := by
  induction n generalizing start r p c with
  | zero =>
    cases h
    rfl
  | succ n ih =>
    rw [copyPages] at h
    rw [MmapFrames.copyPages]
    split at h
    next => cases h
    next hparent =>
      cases h
      rw [parentPage_frames hplain hparent]
    next hparent =>
      have hframes := parentPage_frames hplain hparent
      rw [hframes]
      split at h
      next => cases h
      next hchild =>
        cases h
        dsimp only
        rw [childPage_frames hperm hchild]
      next hchild =>
        dsimp only
        rw [childPage_frames hperm hchild]
        exact ih (hplain.same (MmapExit.parentPage_same hi hframes)) h

theorem copy_single_mmap_frames (hi : i ≠ 32) (hplain : Plain p.proc)
    (h : copy_single_mmap fs r p c i = some (r', p', c', ok)) :
    MmapFrames.copy_single_mmap r.memory p.proc c.proc i =
      some (r'.memory, p'.proc, c'.proc, ok) := by
  obtain ⟨⟨r₁, p₁, c₁, ok₁⟩, hpages, he⟩ := Option.map_eq_some_iff.mp h
  unfold MmapFrames.copy_single_mmap
  dsimp only
  rw [copyPages_frames hi hplain (hplain i) hpages]
  cases ok₁ <;> cases he <;> rfl

theorem copyAll_frames {i : ℕ} (hin : i + n ≤ 32) (hplain : Plain p.proc)
    (h : copyAll fs n i r p c = some (r', p', c', ok)) :
    MmapFrames.copyAll n i r.memory p.proc c.proc = some (r'.memory, p'.proc, c'.proc, ok) := by
  induction n generalizing i r p c with
  | zero =>
    cases h
    rfl
  | succ n ih =>
    have hi : (i : ℤ) ≠ 32 := by omega
    rw [copyAll] at h
    rw [MmapFrames.copyAll]
    split at h
    next => cases h
    next hsingle =>
      cases h
      rw [copy_single_mmap_frames hi hplain hsingle]
    next hsingle =>
      have hframes := copy_single_mmap_frames hi hplain hsingle
      rw [hframes]
      exact ih (by omega) (hplain.same (MmapExit.copy_single_mmap_same hi hframes).1) h

/-- With protections that leave the frame numbers alone, what `copy_maps` reads and writes does
not change which frames it moves. -/
theorem copy_maps_frames (hroom : p.proc.total_mmaps ≤ 32) (hplain : Plain p.proc)
    (h : copy_maps fs r p c = some (r', p', c', ok)) :
    MmapFrames.copy_maps r.memory p.proc c.proc = some (r'.memory, p'.proc, c'.proc, ok) := by
  obtain ⟨⟨r₁, p₁, c₁, ok₁⟩, hall, he⟩ := Option.map_eq_some_iff.mp h
  unfold MmapFrames.copy_maps
  rw [copyAll_frames (by omega) hplain hall]
  cases ok₁ <;> cases he <;> rfl

end Contents

section Answers

variable {α β γ : Type*} {run : Memory → Option (Memory × α)}
  {whole later : Memory → Option (Memory × β)} {k k₁ k₂ k₃ : Frames} {x : α} {y : β}

/-- With the right answers of the allocator `run` ends with the frames `k'` and result `x`. -/
def Answered (run : Memory → Option (Memory × α)) (k k' : Frames) (x : α) : Prop :=
  ∃ answers, ∀ rest, run ⟨k, answers ++ rest⟩ = some (⟨k', rest⟩, x)

theorem Answered.silent (h : ∀ m, run m = some (m, x)) : Answered run k k x :=
  ⟨[], fun rest => h ⟨k, rest⟩⟩

theorem Answered.last (h : Answered run k k₁ x)
    (hw : ∀ m m₁, run m = some (m₁, x) → whole m = some (m₁, y)) : Answered whole k k₁ y := by
  obtain ⟨answers, h⟩ := h
  exact ⟨answers, fun rest => hw _ _ (h rest)⟩

theorem Answered.next (h : Answered run k k₁ x) (h' : Answered later k₁ k₂ y)
    (hw : ∀ m m₁, run m = some (m₁, x) → whole m = later m₁) : Answered whole k k₂ y := by
  obtain ⟨first, h⟩ := h
  obtain ⟨second, h'⟩ := h'
  refine ⟨first ++ second, fun rest => ?_⟩
  rw [List.append_assoc, hw _ _ (h _)]
  exact h' rest

/-- Two runs and what follows them. -/
theorem Answered.next₂ {run' : Memory → Option (Memory × γ)} {z : γ} (h : Answered run k k₁ x)
    (h' : Answered run' k₁ k₂ z) (hlater : Answered later k₂ k₃ y)
    (hw : ∀ m m₁ m₂, run m = some (m₁, x) → run' m₁ = some (m₂, z) → whole m = later m₂) :
    Answered whole k k₃ y := by
  obtain ⟨first, h⟩ := h
  obtain ⟨second, h'⟩ := h'
  obtain ⟨third, hlater⟩ := hlater
  refine ⟨first ++ (second ++ third), fun rest => ?_⟩
  rw [List.append_assoc, List.append_assoc, hw _ _ _ (h _) (h' _)]
  exact hlater rest

end Answers

section Tables

open PageTables
open ForkFailure (Env Copy mapFresh kalloc_cons mapPage_lookup)

variable {env : Env} {fill : ℕ → Kernel → Kernel} {k k' : Kernel} {d d' : PageDir}
  {frames : Frames} {mmaps : ℕ → Mmp} {p q : Proc} {c c' : Copy} {perm : BitVec 32}
  {page frame start n i : ℕ} {ok : Bool}

/-- Every page of the free list is free. Page tables come from the list as well and stay free
on the right. -/
structure Frees (k : Kernel) (frames : Frames) : Prop where
  distinct : k.freelist.Nodup
  free : ∀ f ∈ k.freelist, f ≠ 0 ∧ frames.free f = true

structure Shows (d : PageDir) (mmaps : ℕ → Mmp) (p : Proc) : Prop where
  entries : ∀ page, p.pgdir page = (lookup d page).map Pte.frame
  slots : ∀ j : ℕ, j < 32 → p.slot j = mmaps j

structure Matches (c : Copy) (frames : Frames) (p q : Proc) : Prop where
  frees : Frees c.kernel frames
  parent : Shows c.parent c.mmaps p
  child : Shows c.child c.childMmaps q

def listed (k : Kernel) : Frames := ⟨fun f => decide (f ∈ k.freelist), false⟩

def table (d : PageDir) (mmaps : ℕ → Mmp) (total : ℤ) : Proc :=
  ⟨fun j => mmaps j.toNat, total, fun page => (lookup d page).map Pte.frame, false⟩

theorem table_shows (d : PageDir) (mmaps : ℕ → Mmp) (total : ℤ) :
    Shows d mmaps (table d mmaps total) := by
  refine ⟨fun _ => rfl, fun j hj => ?_⟩
  rw [Proc.slot, if_neg (show (j : ℤ) ≠ 32 by omega)]
  exact congrArg mmaps (Int.toNat_natCast j)

/-- Where a free list has no page twice, a call of `copy_maps` starts in agreement. -/
theorem table_matches (c : Copy) (total : ℤ) (hnodup : c.kernel.freelist.Nodup)
    (hzero : 0 ∉ c.kernel.freelist) : Matches c (listed c.kernel) (table c.parent c.mmaps total)
      (table c.child c.childMmaps 0) :=
  ⟨⟨hnodup, fun _ hf => ⟨fun he => hzero (he ▸ hf), decide_eq_true hf⟩⟩, table_shows ..,
    table_shows ..⟩

theorem Frees.suffix (h : Frees k frames) (hs : k'.freelist <:+ k.freelist) : Frees k' frames :=
  ⟨h.distinct.sublist hs.sublist, fun f hf => h.free f (hs.subset hf)⟩

/-- The frames after `kalloc` has handed one out. -/
def taken (frames : Frames) (frame : ℕ) : Frames :=
  { frames with free := Function.update frames.free frame false }

theorem Frees.taken (h : Frees k frames) (hlist : k.freelist = frame :: k'.freelist) :
    MmapFrames.kalloc frames frame = some (taken frames frame) ∧ frame ≠ 0 ∧
      frame ∉ k'.freelist ∧ Frees k' (taken frames frame) := by
  have hnodup := h.distinct
  rw [hlist, List.nodup_cons] at hnodup
  have hfree := h.free frame (hlist ▸ List.mem_cons_self)
  refine ⟨if_pos hfree, hfree.1, hnodup.1, hnodup.2, fun f hf => ?_⟩
  have hne : f ≠ frame := fun he => hnodup.1 (he ▸ hf)
  obtain ⟨hzero, hold⟩ := h.free f (hlist ▸ List.mem_cons_of_mem frame hf)
  exact ⟨hzero, (Function.update_of_ne hne ..).trans hold⟩

theorem Frees.kfree (h : Frees k frames) (hne : frame ≠ 0) (hout : frame ∉ k.freelist) :
    Frees (PageTables.kfree k frame) (MmapTable.kfree frames frame) := by
  refine ⟨List.nodup_cons.mpr ⟨hout, h.distinct⟩, fun f hf => ?_⟩
  rcases List.mem_cons.mp hf with rfl | hf
  · exact ⟨hne, Function.update_self ..⟩
  · have hold := h.free f hf
    exact ⟨hold.1, (Function.update_of_ne (fun he : f = frame => hout (he ▸ hf)) ..).trans hold.2⟩

theorem Shows.lookup_eq (h : Shows d mmaps p) (hl : lookup d' = lookup d) : Shows d' mmaps p :=
  ⟨fun page => by rw [h.entries, hl], h.slots⟩

theorem Shows.setSlot (h : Shows d mmaps p) (hi : i < 32) (m : Mmp) :
    Shows d (Function.update mmaps i m) (p.setSlot i m) := by
  have hne : (i : ℤ) ≠ 32 := by omega
  refine ⟨fun page => ?_, fun j hj => ?_⟩
  · rw [MmapSafety.setSlot_pgdir, h.entries]
  · rcases eq_or_ne j i with rfl | hji
    · rw [Function.update_self, slot_setSlot_self _ hne]
    · rw [Function.update_of_ne hji, slot_setSlot_of_ne _ hne (by omega), h.slots j hj]

theorem Shows.physical (h : Shows d mmaps p) (addr : ℕ) :
    MmapTable.get_physical_page p addr = ForkFailure.get_physical_page d addr := by
  unfold MmapTable.get_physical_page ForkFailure.get_physical_page
  rw [h.entries]
  cases lookup d (addr / PGSIZE) <;> rfl

/-- One `mappages` call for a page, with the answer that `MmapFrames` takes for it. -/
theorem mapPage_shows (hperm : perm.toNat < PGSIZE) (hd : Shows d mmaps p)
    (h : mapPage k d page frame perm = some (k', d', ok)) :
    (ok = false ∧ Shows d' mmaps p) ∨
      ok = true ∧ ∃ p', MmapFrames.mapPage p page frame = some p' ∧ Shows d' mmaps p' := by
  obtain ⟨-, hfailed, hmapped⟩ := mapPage_lookup h
  cases ok with
  | false => exact .inl ⟨rfl, hd.lookup_eq (hfailed rfl)⟩
  | true =>
    obtain ⟨habsent, hlookup⟩ := hmapped rfl
    refine .inr ⟨rfl, { p with pgdir := Function.update p.pgdir page (some frame) }, ?_, ?_,
      hd.slots⟩
    · rw [MmapFrames.mapPage, hd.entries, habsent]
      rfl
    · intro a
      rw [hlookup, MmapMemory.aliased_of_permission _ hperm]
      rcases eq_or_ne a page with rfl | ha
      · simp only [Function.update_self, Option.map_some]
      · rw [Function.update_of_ne ha]
        dsimp only
        rw [Function.update_of_ne ha, hd.entries]

theorem mapFresh_answered (hfill : ∀ f k, (fill f k).freelist = k.freelist)
    (hperm : perm.toNat < PGSIZE) (hk : Frees k frames) (hd : Shows d mmaps p)
    (h : mapFresh fill k d page perm = some (k', d', ok)) :
    ∃ frames' p', Answered (fun m => MmapFrames.mapFresh m p page) frames frames' (p', ok) ∧
      Frees k' frames' ∧ Shows d' mmaps p' := by
  unfold mapFresh at h
  split at h
  next =>
    cases h
    exact ⟨frames, p, ⟨[⟨0, false⟩], fun _ => rfl⟩, hk, hd⟩
  next f k₁ halloc =>
    obtain ⟨htaken, hne, hout, hk₁⟩ := hk.taken (kalloc_cons halloc)
    split at h
    next => cases h
    next k₂ d₂ hmap =>
      -- no page table for the entry: the frame goes back
      cases h
      obtain ⟨hsuffix, -⟩ := mapPage_lookup hmap
      rw [hfill] at hsuffix
      obtain ⟨-, hshows⟩ | ⟨hok, -⟩ := mapPage_shows hperm hd hmap
      · refine ⟨MmapTable.kfree (taken frames f) f, p, ⟨[⟨f, false⟩], fun rest => ?_⟩,
          (hk₁.suffix hsuffix).kfree hne (mt (hsuffix.subset ·) hout), hshows⟩
        simp only [List.cons_append, List.nil_append, MmapFrames.mapFresh, Memory.pop, htaken,
          Bool.false_eq_true, if_false]
      · cases hok
    next k₂ d₂ hmap =>
      cases h
      obtain ⟨hsuffix, -⟩ := mapPage_lookup hmap
      rw [hfill] at hsuffix
      obtain ⟨hok, -⟩ | ⟨-, p', hmapped, hshows⟩ := mapPage_shows hperm hd hmap
      · cases hok
      · refine ⟨taken frames f, p', ⟨[⟨f, true⟩], fun rest => ?_⟩, hk₁.suffix hsuffix, hshows⟩
        simp only [List.cons_append, List.nil_append, MmapFrames.mapFresh, Memory.pop, htaken,
          if_true, hmapped, Option.map_some]

theorem storePages_answered {call : MmapMemory.StoreCall} (hperm : call.prot.toNat < PGSIZE)
    (hk : Frees k frames) (hd : Shows d mmaps p)
    (h : ForkFailure.storePages env call n page k d = some (k', d', ok)) :
    ∃ frames' p', Answered (fun m => MmapFrames.storePages n page m p) frames frames' (p', ok) ∧
      Frees k' frames' ∧ Shows d' mmaps p' := by
  induction n generalizing page k d frames p with
  | zero =>
    cases h
    exact ⟨frames, p, .silent fun _ => rfl, hk, hd⟩
  | succ n ih =>
    rw [ForkFailure.storePages_succ] at h
    split at h
    next => cases h
    next hfresh =>
      cases h
      obtain ⟨frames', p', hanswered, hk', hd'⟩ :=
        mapFresh_answered (ForkFailure.loadFill_freelist call) hperm hk hd hfresh
      exact ⟨frames', p', hanswered.last fun m m₁ hm => by rw [MmapFrames.storePages, hm], hk', hd'⟩
    next hfresh =>
      obtain ⟨frames₁, p₁, hanswered, hk₁, hd₁⟩ :=
        mapFresh_answered (ForkFailure.loadFill_freelist call) hperm hk hd hfresh
      obtain ⟨frames', p', hrest, hk', hd'⟩ := ih hk₁ hd₁ h
      exact ⟨frames', p', hanswered.next hrest fun m m₁ hm => by rw [MmapFrames.storePages, hm],
        hk', hd'⟩

theorem parentPage_answered (hi : i < 32) (hplain : Plain p) (hm : Matches c frames p q)
    (h : ForkFailure.parentPage env i start c = some (c', ok)) :
    ∃ frames' p', Answered (fun m => MmapFrames.parentPage m p i start) frames frames' (p', ok) ∧
      Matches c' frames' p' q := by
  have hslot : p.slot i = c.mmaps i := hm.parent.slots i hi
  unfold ForkFailure.parentPage at h
  dsimp only at h
  by_cases hc : has (c.mmaps i).flags MAP_SHARED ∧ ForkFailure.get_physical_page c.parent start = 0
  · rw [if_pos hc] at h
    have hc' : has (p.slot i).flags MAP_SHARED ∧ MmapTable.get_physical_page p start = 0 := by
      rw [hslot, hm.parent.physical]
      exact hc
    have hperm : (ForkFailure.copyCall (c.mmaps i) start).prot.toNat < PGSIZE := hslot ▸ hplain i
    split at h
    next => cases h
    next hstore =>
      cases h
      obtain ⟨frames', p', hanswered, hk', hd'⟩ :=
        storePages_answered hperm hm.frees hm.parent hstore
      refine ⟨frames', p', hanswered.last fun m m₁ hrun => ?_, hk', hd', hm.child⟩
      have hstored : MmapFrames.mmap_store_data m p start
          (ForkFailure.copyCall (c.mmaps i) start).length = some (m₁, p', false) := hrun
      unfold MmapFrames.parentPage
      dsimp only [ForkFailure.copyCall] at hstored ⊢
      rw [if_pos hc', hslot, hstored]
      rfl
    next hstore =>
      cases h
      obtain ⟨frames', p', hanswered, hk', hd'⟩ :=
        storePages_answered hperm hm.frees hm.parent hstore
      refine ⟨frames', _, hanswered.last fun m m₁ hrun => ?_, hk', hd'.setSlot hi _, hm.child⟩
      have hstored : MmapFrames.mmap_store_data m p start
          (ForkFailure.copyCall (c.mmaps i) start).length = some (m₁, p', true) := hrun
      unfold MmapFrames.parentPage
      dsimp only [ForkFailure.copyCall] at hstored ⊢
      rw [if_pos hc', hslot, hstored]
      simp only [Option.map_some, if_true, hd'.slots i hi]
  · rw [if_neg hc] at h
    cases h
    refine ⟨frames, p, .silent fun m => if_neg ?_, hm⟩
    rw [hslot, hm.parent.physical]
    exact hc

theorem childPage_answered {shared : Bool} (hperm : perm.toNat < PGSIZE) (hm : Matches c frames p q)
    (h : ForkFailure.childPage shared perm start c = some (c', ok)) :
    ∃ frames' q', Answered (fun m => MmapFrames.childPage m p q shared start) frames frames'
      (q', ok) ∧ Matches c' frames' p q' := by
  have hpa := hm.parent.physical start
  cases shared with
  | true =>
    unfold ForkFailure.childPage at h
    dsimp only at h
    rw [← hpa, if_pos rfl] at h
    split at h
    next => cases h
    next k₁ d₁ ok₁ hmap =>
      cases h
      have hk' := hm.frees.suffix (mapPage_lookup hmap).1
      obtain ⟨rfl, hshows⟩ | ⟨rfl, q', hmapped, hshows⟩ := mapPage_shows hperm hm.child hmap
      · exact ⟨frames, q, ⟨[⟨0, false⟩], fun _ => rfl⟩, hk', hm.parent, hshows⟩
      · refine ⟨frames, q', ⟨[⟨0, true⟩], fun rest => ?_⟩, hk', hm.parent, hshows⟩
        simp only [List.cons_append, List.nil_append, MmapFrames.childPage, Memory.pop, if_true,
          hmapped, Option.map_some]
  | false =>
    by_cases hzero : ForkFailure.get_physical_page c.parent start = 0
    · rw [ForkFailure.childPage_absent hzero] at h
      cases h
      exact ⟨frames, q, .silent fun m => if_pos (hpa.trans hzero), hm⟩
    · rw [ForkFailure.childPage_private hzero] at h
      obtain ⟨⟨k₁, d₁, ok₁⟩, hfresh, he⟩ := Option.map_eq_some_iff.mp h
      cases he
      obtain ⟨frames', q', hanswered, hk', hd'⟩ := mapFresh_answered
        (ForkFailure.memmove_freelist _) hperm hm.frees hm.child hfresh
      refine ⟨frames', q', hanswered.last fun m m₁ hrun => ?_, hk', hm.parent, hd'⟩
      unfold MmapFrames.childPage
      dsimp only
      rw [if_neg Bool.false_ne_true, hpa, if_neg hzero]
      exact hrun

theorem parentPage_plain {k k' : Frames} {p' : Proc} (hi : i < 32) (hplain : Plain p)
    (h : Answered (fun m => MmapFrames.parentPage m p i start) k k' (p', ok)) : Plain p' := by
  obtain ⟨answers, h⟩ := h
  exact hplain.same (MmapExit.parentPage_same (by omega) (h []))

theorem copyLoop_answered {shared : Bool} (hi : i < 32) (hplain : Plain p)
    (hperm : perm.toNat < PGSIZE) (hm : Matches c frames p q)
    (h : ForkFailure.copyLoop env i shared perm n start c = some (c', ok)) :
    ∃ frames' p' q', Answered (fun m => MmapFrames.copyPages i shared n start m p q) frames frames'
      (p', q', ok) ∧ Matches c' frames' p' q' ∧ Plain p' := by
  induction n generalizing start c frames p q with
  | zero =>
    cases h
    exact ⟨frames, p, q, .silent fun _ => rfl, hm, hplain⟩
  | succ n ih =>
    rw [ForkFailure.copyLoop] at h
    split at h
    next => cases h
    next hparent =>
      cases h
      obtain ⟨frames', p', hanswered, hm'⟩ := parentPage_answered hi hplain hm hparent
      exact ⟨frames', p', q, hanswered.last fun m m₁ hrun => by rw [MmapFrames.copyPages, hrun],
        hm', parentPage_plain hi hplain hanswered⟩
    next hparent =>
      obtain ⟨frames₁, p₁, hfirst, hm₁⟩ := parentPage_answered hi hplain hm hparent
      have hplain₁ := parentPage_plain hi hplain hfirst
      split at h
      next => cases h
      next hchild =>
        cases h
        obtain ⟨frames', q', hsecond, hm'⟩ := childPage_answered hperm hm₁ hchild
        refine ⟨frames', p₁, q', hfirst.next₂ hsecond (.silent fun _ => rfl) ?_, hm', hplain₁⟩
        intro m m₁ m₂ hrun hrun'
        rw [MmapFrames.copyPages, hrun]
        dsimp only
        rw [hrun']
      next hchild =>
        obtain ⟨frames₂, q₂, hsecond, hm₂⟩ := childPage_answered hperm hm₁ hchild
        obtain ⟨frames', p', q', hrest, hm', hplain'⟩ := ih hplain₁ hm₂ h
        refine ⟨frames', p', q', hfirst.next₂ hsecond hrest ?_, hm', hplain'⟩
        intro m m₁ m₂ hrun hrun'
        rw [MmapFrames.copyPages, hrun]
        dsimp only
        rw [hrun']

theorem copy_single_mmap_answered (hi : i < 32) (hplain : Plain p) (hm : Matches c frames p q)
    (h : ForkFailure.copy_single_mmap env i c = some (c', ok)) :
    ∃ frames' p' q', Answered (fun m => MmapFrames.copy_single_mmap m p q i) frames frames'
      (p', q', ok) ∧ Matches c' frames' p' q' ∧ Plain p' := by
  have hslot : p.slot i = c.mmaps i := hm.parent.slots i hi
  have hperm : (c.mmaps i).prot.toNat < PGSIZE := hslot ▸ hplain i
  unfold ForkFailure.copy_single_mmap at h
  dsimp only at h
  split at h
  next => cases h
  next hloop =>
    cases h
    obtain ⟨frames', p', q', hanswered, hm', hplain'⟩ := copyLoop_answered hi hplain hperm hm hloop
    refine ⟨frames', p', q', hanswered.last fun m m₁ hrun => ?_, hm', hplain'⟩
    unfold MmapFrames.copy_single_mmap
    dsimp only
    rw [hslot, hrun]
    rfl
  next c₁ hloop =>
    cases h
    obtain ⟨frames', p', q', hanswered, hm', hplain'⟩ := copyLoop_answered hi hplain hperm hm hloop
    have hparent : p'.slot i = c₁.mmaps i := hm'.parent.slots i hi
    have hchild : q'.slot i = c₁.childMmaps i := hm'.child.slots i hi
    refine ⟨frames', p', _, hanswered.last fun m m₁ hrun => ?_,
      ⟨hm'.frees, hm'.parent, hm'.child.setSlot hi _⟩, hplain'⟩
    unfold MmapFrames.copy_single_mmap
    dsimp only
    rw [hslot, hrun]
    simp only [Option.map_some, if_true, hparent, hchild]

theorem copyAll_answered (hin : i + n ≤ 32) (hplain : Plain p) (hm : Matches c frames p q)
    (h : ForkFailure.copy_maps env n i c = some (c', ok)) :
    ∃ frames' p' q', Answered (fun m => MmapFrames.copyAll n i m p q) frames frames' (p', q', ok) ∧
      Matches c' frames' p' q' := by
  induction n generalizing i c frames p q with
  | zero =>
    cases h
    exact ⟨frames, p, q, .silent fun _ => rfl, hm⟩
  | succ n ih =>
    rw [ForkFailure.copy_maps] at h
    split at h
    next => cases h
    next hsingle =>
      cases h
      obtain ⟨frames', p', q', hanswered, hm', -⟩ :=
        copy_single_mmap_answered (by omega) hplain hm hsingle
      exact ⟨frames', p', q', hanswered.last fun m m₁ hrun => by rw [MmapFrames.copyAll, hrun], hm'⟩
    next hsingle =>
      obtain ⟨frames₁, p₁, q₁, hanswered, hm₁, hplain₁⟩ :=
        copy_single_mmap_answered (by omega) hplain hm hsingle
      obtain ⟨frames', p', q', hrest, hm'⟩ := ih (by omega) hplain₁ hm₁ h
      exact ⟨frames', p', q', hanswered.next hrest fun m m₁ hrun => by
        rw [MmapFrames.copyAll, hrun], hm'⟩

/-- Whatever `copy_maps` does with page tables and the free list, some answers of the allocator
make `MmapFrames` do it, out of memory or not. -/
theorem copy_maps_answered (hroom : p.total_mmaps ≤ 32) (hplain : Plain p)
    (hm : Matches c frames p q)
    (h : ForkFailure.copy_maps env p.total_mmaps.toNat 0 c = some (c', ok)) :
    ∃ frames' p' q', Answered (fun m => MmapFrames.copy_maps m p q) frames frames' (p', q', ok) ∧
      Matches c' frames' p' q' := by
  obtain ⟨frames', p', q', hanswered, hm'⟩ := copyAll_answered (by omega) hplain hm h
  cases ok with
  | false =>
    refine ⟨frames', p', q', hanswered.last fun m m₁ hrun => ?_, hm'⟩
    rw [MmapFrames.copy_maps, hrun]
    rfl
  | true =>
    refine ⟨frames', p', { q' with total_mmaps := p'.total_mmaps },
      hanswered.last fun m m₁ hrun => ?_, hm'.frees, hm'.parent, hm'.child.entries, fun j hj => ?_⟩
    · rw [MmapFrames.copy_maps, hrun]
      rfl
    · have hne : (j : ℤ) ≠ 32 := by omega
      rw [← hm'.child.slots j hj, Proc.slot, Proc.slot, if_neg hne, if_neg hne]

/-- The call that `fork` makes, for a free list without repetitions. -/
theorem copy_maps_listed {total : ℤ} (hroom : total ≤ 32)
    (hplain : ∀ j, (c.mmaps j).prot.toNat < PGSIZE) (hnodup : c.kernel.freelist.Nodup)
    (hzero : 0 ∉ c.kernel.freelist)
    (h : ForkFailure.copy_maps env total.toNat 0 c = some (c', ok)) :
    ∃ frames' p' q', Answered (fun m => MmapFrames.copy_maps m (table c.parent c.mmaps total)
        (table c.child c.childMmaps 0)) (listed c.kernel) frames' (p', q', ok) ∧
      Matches c' frames' p' q' := by
  have htable : Plain (table c.parent c.mmaps total) := by
    intro j
    unfold Proc.slot
    split_ifs
    · exact hplain _
    · exact hplain _
  exact copy_maps_answered hroom htable (table_matches c total hnodup hzero) h

end Tables

end CopyMaps
