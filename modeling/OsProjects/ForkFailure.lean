import OsProjects.PageTables
import OsProjects.MmapMemory

/-! # What a failed `fork` leaves behind

`fork` with every page it takes: the kernel stack, the page directory of the child with its
tables and pages, and the pages of the mappings. When `copyuvm` fails everything is undone;
when `copy_maps` fails the child keeps its page directory. What is read from a file into a
page is left open. A panic is `none`.
-/
namespace ForkFailure

open Word32 PageTables
open MmapTable hiding kfree get_physical_page
open MmapMemory (StoreCall)

inductive ProcState where
  | unused
  | embryo
  | sleeping
  | runnable
  | running
  | zombie
  deriving DecidableEq, Repr

structure Process where
  state : ProcState
  pid : ℕ
  parent : Option ℕ
  sz : ℕ
  kstack : Option ℕ
  pgdir : Option PageDir
  mmaps : ℕ → Mmp
  total_mmaps : ℤ

structure System where
  kernel : Kernel
  procs : ℕ → Process
  nextpid : ℕ

/-- `data` is the linker's symbol; `load` is what `map_pagecache_page` makes of the bytes of all
frames when it fills one. -/
structure Env where
  data : ℕ
  load : StoreCall → ℕ → (ℕ → ℕ → UInt8) → ℕ → ℕ → UInt8

/-- The page loop of `map_anon_main` and `map_pagecache_page`. -/
def storePages (env : Env) (c : StoreCall) : ℕ → ℕ → Kernel → PageDir →
    Option (Kernel × PageDir × Bool)
  | 0, _, k, d => some (k, d, true)
  | n + 1, page, k, d =>
    match kalloc k with
    | none => some (k, d, false)
    | some (temp, k) =>
      let k := memset k temp
      let k := if has c.flags MAP_ANONYMOUS then k else { k with mem := env.load c temp k.mem }
      match mapPage k d page temp c.prot with
      | none => none
      | some (k, d, false) => some (kfree k temp, d, false)
      | some (k, d, true) => storePages env c n (page + 1) k d

def mmap_store_data (env : Env) (k : Kernel) (d : PageDir) (c : StoreCall) :
    Option (Kernel × PageDir × Bool) :=
  storePages env c c.pages (c.addr / PGSIZE) k d

/-- `PTE_ADDR` of the entry as a page number, 0 without one. -/
def get_physical_page (d : PageDir) (addr : ℕ) : ℕ :=
  match lookup d (addr / PGSIZE) with
  | none => 0
  | some e => e.frame

/-- What `copy_maps` works on: the table and page directory of the parent and those of the
child. -/
structure Copy where
  kernel : Kernel
  mmaps : ℕ → Mmp
  parent : PageDir
  childMmaps : ℕ → Mmp
  child : PageDir

def copyCall (m : Mmp) (start : ℕ) : StoreCall :=
  let remaining_length := signed (wrap (m.length - m.stored_length))
  { addr := start
    length := if PGSIZE > remaining_length then remaining_length else PGSIZE
    flags := m.flags
    prot := m.prot
    f := m.f
    offset := m.offset }

/-- A shared page that the parent does not have yet is made for it first. -/
def parentPage (env : Env) (i start : ℕ) (c : Copy) : Option (Copy × Bool) :=
  let m := c.mmaps i
  if has m.flags MAP_SHARED ∧ get_physical_page c.parent start = 0 then
    match mmap_store_data env c.kernel c.parent (copyCall m start) with
    | none => none
    | some (k, d, false) => some ({ c with kernel := k, parent := d }, false)
    | some (k, d, true) =>
      some ({ c with
        kernel := k
        parent := d
        mmaps := Function.update c.mmaps i
          { m with stored_length := m.stored_length + (copyCall m start).length } }, true)
  else some (c, true)

def childPage (shared : Bool) (protection : BitVec 32) (start : ℕ) (c : Copy) :
    Option (Copy × Bool) :=
  let pa := get_physical_page c.parent start
  if shared then
    match mapPage c.kernel c.child (start / PGSIZE) pa protection with
    | none => none
    | some (k, d, ok) => some ({ c with kernel := k, child := d }, ok)
  else if pa = 0 then some (c, true)
  else
    match kalloc c.kernel with
    | none => some (c, false)
    | some (mem, k) =>
      match mapPage (memmove k mem pa) c.child (start / PGSIZE) mem protection with
      | none => none
      | some (k, d, false) => some ({ c with kernel := kfree k mem, child := d }, false)
      | some (k, d, true) => some ({ c with kernel := k, child := d }, true)

def copyLoop (env : Env) (i : ℕ) (shared : Bool) (protection : BitVec 32) :
    ℕ → ℕ → Copy → Option (Copy × Bool)
  | 0, _, c => some (c, true)
  | n + 1, start, c =>
    match parentPage env i start c with
    | none => none
    | some (c, false) => some (c, false)
    | some (c, true) =>
      match childPage shared protection start c with
      | none => none
      | some (c, false) => some (c, false)
      | some (c, true) => copyLoop env i shared protection n (wrap (start + PGSIZE)) c

def copy_single_mmap (env : Env) (i : ℕ) (c : Copy) : Option (Copy × Bool) :=
  let m := c.mmaps i
  let shared := has m.flags MAP_SHARED
  let pages := (wrap (m.addr + m.length) - m.addr + 4095) / 4096
  match copyLoop env i shared m.prot pages m.addr c with
  | none => none
  | some (c, false) => some (c, false)
  | some (c, true) =>
    let entry := { c.childMmaps i with toMapping := (c.mmaps i).toMapping }
    some ({ c with
      childMmaps := Function.update c.childMmaps i
        (if shared then { entry with ref := 1 } else entry) }, true)

def copy_maps (env : Env) : ℕ → ℕ → Copy → Option (Copy × Bool)
  | 0, _, c => some (c, true)
  | n + 1, i, c =>
    match copy_single_mmap env i c with
    | none => none
    | some (c, false) => some (c, false)
    | some (c, true) => copy_maps env n (i + 1) c

/-- The scan of `allocproc` for an unused slot. -/
def freeSlot (s : System) : Option ℕ :=
  (List.range 64).find? fun i => decide ((s.procs i).state = .unused)

def System.setProc (s : System) (i : ℕ) (p : Process) : System :=
  { s with procs := Function.update s.procs i p }

/-- The undo code of `fork`, with the page directory that the slot is left with. -/
def undo (s : System) (i : ℕ) (np : Process) (k : Kernel) (kstack : ℕ) (pgdir : Option PageDir) :
    System :=
  { s.setProc i { np with state := .unused, kstack := none, pgdir := pgdir } with
    kernel := kfree k kstack
    nextpid := s.nextpid + 1 }

def fork (env : Env) (s : System) (cur : ℕ) : Option (System × ℤ) :=
  match freeSlot s with
  | none => some (s, -1)
  | some i =>
    let np := { s.procs i with state := .embryo, pid := s.nextpid }
    match kalloc s.kernel with
    | none =>
      some ({ s.setProc i { np with state := .unused, kstack := none } with
        nextpid := s.nextpid + 1 }, -1)
    | some (kstack, k) =>
      let np := { np with kstack := some kstack, total_mmaps := 0 }
      let curproc := s.procs cur
      match curproc.pgdir with
      | none => none
      | some pgdir =>
        match copyuvm env.data k pgdir curproc.sz with
        | none => none
        | some (k, none) => some (undo s i np k kstack none, -1)
        | some (k, some d) =>
          match copy_maps env curproc.total_mmaps.toNat 0 ⟨k, curproc.mmaps, pgdir, np.mmaps, d⟩ with
          | none => none
          | some (c, false) =>
            let s := s.setProc cur { curproc with pgdir := some c.parent, mmaps := c.mmaps }
            some (undo s i { np with mmaps := c.childMmaps } c.kernel kstack (some c.child), -1)
          | some (c, true) =>
            let s := s.setProc cur { curproc with pgdir := some c.parent, mmaps := c.mmaps }
            some ({ s.setProc i { np with
                state := .runnable
                parent := some cur
                sz := curproc.sz
                pgdir := some c.child
                mmaps := c.childMmaps
                total_mmaps := curproc.total_mmaps } with
              kernel := c.kernel
              nextpid := s.nextpid + 1 }, s.nextpid)

/-- A running process whose user pages are different pages of physical memory in use. Nothing
is asked of the entries above, where the kernel maps all of the memory. -/
structure Sound (s : System) (cur : ℕ) (pgdir : PageDir) : Prop where
  attached : (s.procs cur).pgdir = some pgdir
  running : (s.procs cur).state ≠ .unused
  present : ∀ page < ((s.procs cur).sz + 4095) / 4096, lookup pgdir page ≠ none
  low : ∀ page < KERNPAGE, ∀ e, lookup pgdir page = some e → e.frame < 0xe000
  used : ∀ page < KERNPAGE, ∀ e, lookup pgdir page = some e → e.frame ∉ s.kernel.freelist
  apart : ∀ page page' e e', lookup pgdir page = some e → lookup pgdir page' = some e' →
    page < MMAPPAGE → page' < MMAPPAGE → e.frame = e'.frame → page = page'

/-- The free pages, the table and the user pages of the parent and the slot of the child are as
before the call. -/
structure Clean (s s' : System) (cur : ℕ) : Prop where
  frames : ∀ f, f ∈ s'.kernel.freelist ↔ f ∈ s.kernel.freelist
  parent : s'.procs cur = s.procs cur
  contents : ∀ pgdir, (s.procs cur).pgdir = some pgdir → ∀ page < KERNPAGE, ∀ e,
    lookup pgdir page = some e → s'.kernel.mem e.frame = s.kernel.mem e.frame
  child : ∀ i, freeSlot s = some i → (s'.procs i).state = .unused ∧ (s'.procs i).pgdir = none

/-- There are too few pages for the kernel stack or for `copyuvm`. A slot in which no page
directory was left by an earlier process is needed for the first case. -/
def TooFew (s : System) (cur : ℕ) : Prop :=
  ∀ i, freeSlot s = some i →
    (s.kernel.freelist = [] ∧ (s.procs i).pgdir = none) ∨
    (s.kernel.freelist ≠ [] ∧
      s.kernel.freelist.length < 1 + uvmPages (((s.procs cur).sz + 4095) / 4096))

section Fresh

variable {env : Env} {fill : ℕ → Kernel → Kernel} {k k' : Kernel} {d d' : PageDir}
  {page frame start n : ℕ} {perm : BitVec 32} {ok : Bool} {c c' : Copy} {call : StoreCall}

theorem kalloc_cons (h : kalloc k = some (frame, k')) : k.freelist = frame :: k'.freelist := by
  rcases kalloc_cases k with ⟨hnone, -⟩ | ⟨f, rest, hlist, hsome⟩
  · rw [hnone] at h
    cases h
  · rw [hsome] at h
    cases h
    exact hlist

theorem kalloc_shrinks (h : kalloc k = some (frame, k')) :
    k'.freelist.length + 1 = k.freelist.length := by
  rw [kalloc_cons h, List.length_cons]

/-- A new page table has no entries, so that `walkpgdir` changes no look-up. -/
theorem walkpgdir_lookup (h : walkpgdir k d page = some (k', d')) :
    k'.freelist <:+ k.freelist ∧ lookup d' = lookup d ∧ (∃ t, d'.tables (page / 1024) = some t) ∧
      d'.ptes page = lookup d page := by
  unfold walkpgdir at h
  split at h
  next t ht =>
    cases h
    refine ⟨List.suffix_rfl, rfl, ⟨t, ht⟩, ?_⟩
    rw [lookup, ht]
  next ht =>
    split at h
    next => cases h
    next pgtab k₁ halloc =>
      cases h
      refine ⟨⟨[pgtab], (kalloc_cons halloc).symm⟩, funext fun a => ?_,
        ⟨pgtab, Function.update_self ..⟩, ?_⟩
      · rcases eq_or_ne (a / 1024) (page / 1024) with ha | ha
        · simp only [lookup, ha, Function.update_self, ht, if_true]
        · simp only [lookup, Function.update_of_ne ha, if_neg ha]
      · rw [lookup, ht]
        exact if_pos rfl

theorem mapPage_lookup (h : mapPage k d page frame perm = some (k', d', ok)) :
    k'.freelist <:+ k.freelist ∧ (ok = false → lookup d' = lookup d) ∧
      (ok = true → lookup d page = none ∧ lookup d' = Function.update (lookup d) page
        (some ⟨MmapMemory.aliased frame perm, perm⟩)) := by
  unfold mapPage at h
  split at h
  next =>
    cases h
    exact ⟨List.suffix_rfl, fun _ => rfl, fun hok => absurd hok Bool.false_ne_true⟩
  next k₁ d₁ hwalk =>
    obtain ⟨hsuffix, hlookup, ⟨t, ht⟩, hpte⟩ := walkpgdir_lookup hwalk
    split at h
    next => cases h
    next habsent =>
      cases h
      refine ⟨hsuffix, fun hok => absurd hok.symm Bool.false_ne_true, fun _ =>
        ⟨hpte.symm.trans habsent, funext fun a => ?_⟩⟩
      rcases eq_or_ne a page with rfl | ha
      · simp only [lookup, ht, Function.update_self]
        rfl
      · rw [Function.update_of_ne ha, ← hlookup]
        simp only [lookup, Function.update_of_ne ha]

theorem mapPage_shrinks (h : mapPage k d page frame perm = some (k', d', ok)) :
    k'.freelist.length ≤ k.freelist.length := (mapPage_lookup h).1.length_le

/-- `kalloc`, then `fill`, then `mappages`, as both page loops have it. -/
def mapFresh (fill : ℕ → Kernel → Kernel) (k : Kernel) (d : PageDir) (page : ℕ)
    (perm : BitVec 32) : Option (Kernel × PageDir × Bool) :=
  match kalloc k with
  | none => some (k, d, false)
  | some (frame, k) =>
    match mapPage (fill frame k) d page frame perm with
    | none => none
    | some (k, d, false) => some (kfree k frame, d, false)
    | some (k, d, true) => some (k, d, true)

/-- What `storePages` puts into a page before it maps it. -/
def loadFill (env : Env) (call : StoreCall) (temp : ℕ) (k : Kernel) : Kernel :=
  let k := memset k temp
  if has call.flags MAP_ANONYMOUS then k else { k with mem := env.load call temp k.mem }

theorem storePages_succ :
    storePages env call (n + 1) page k d =
      match mapFresh (loadFill env call) k d page call.prot with
      | none => none
      | some (k, d, false) => some (k, d, false)
      | some (k, d, true) => storePages env call n (page + 1) k d := by
  rw [storePages, mapFresh]
  rcases kalloc k with _ | ⟨temp, k₁⟩
  · rfl
  · dsimp only [loadFill]
    rcases mapPage _ d page temp call.prot with _ | ⟨k₂, d₂, _ | _⟩ <;> rfl

theorem loadFill_freelist (call : StoreCall) (temp : ℕ) (k : Kernel) :
    (loadFill env call temp k).freelist = k.freelist := by
  dsimp only [loadFill]
  split_ifs <;> rfl

theorem mapFresh_shrinks (hfill : ∀ f k, (fill f k).freelist = k.freelist)
    (h : mapFresh fill k d page perm = some (k', d', ok)) :
    k'.freelist.length ≤ k.freelist.length := by
  unfold mapFresh at h
  split at h
  next =>
    cases h
    exact le_rfl
  next f k₁ halloc =>
    have hlen := kalloc_shrinks halloc
    split at h
    next => cases h
    next hmap =>
      cases h
      have hmapped := mapPage_shrinks hmap
      rw [hfill] at hmapped
      dsimp only [kfree]
      rw [List.length_cons]
      omega
    next hmap =>
      cases h
      have hmapped := mapPage_shrinks hmap
      rw [hfill] at hmapped
      omega

theorem memmove_freelist (source mem : ℕ) (k : Kernel) :
    (memmove k mem source).freelist = k.freelist := rfl

theorem childPage_absent (hzero : get_physical_page c.parent start = 0) :
    childPage false perm start c = some (c, true) := if_pos hzero

theorem childPage_private (hzero : get_physical_page c.parent start ≠ 0) :
    childPage false perm start c =
      (mapFresh (fun mem k => memmove k mem (get_physical_page c.parent start)) c.kernel
        c.child (start / PGSIZE) perm).map fun (k, d, ok) =>
          ({ c with kernel := k, child := d }, ok) := by
  unfold childPage mapFresh
  dsimp only
  rw [if_neg Bool.false_ne_true, if_neg hzero]
  rcases kalloc c.kernel with _ | ⟨mem, k₁⟩
  · rfl
  · dsimp only
    rcases mapPage _ c.child (start / PGSIZE) mem perm with _ | ⟨k₂, d₂, _ | _⟩ <;> rfl

end Fresh

section Shrinks

variable {env : Env} {k k' : Kernel} {d d' : PageDir} {page frame : ℕ} {perm : BitVec 32}
  {ok : Bool} {c c' : Copy}

theorem storePages_shrinks {call : StoreCall} {n : ℕ}
    (h : storePages env call n page k d = some (k', d', ok)) :
    k'.freelist.length ≤ k.freelist.length := by
  induction n generalizing k d page with
  | zero => cases h; exact le_rfl
  | succ n ih =>
    rw [storePages_succ] at h
    split at h
    next => cases h
    next hfresh =>
      cases h
      exact mapFresh_shrinks (loadFill_freelist call) hfresh
    next hfresh => exact (ih h).trans (mapFresh_shrinks (loadFill_freelist call) hfresh)

theorem parentPage_shrinks {i start : ℕ} (h : parentPage env i start c = some (c', ok)) :
    c'.kernel.freelist.length ≤ c.kernel.freelist.length := by
  unfold parentPage at h
  dsimp only at h
  split_ifs at h
  · split at h
    next => cases h
    next hstore => cases h; exact storePages_shrinks hstore
    next hstore => cases h; exact storePages_shrinks hstore
  · cases h
    exact le_rfl

theorem childPage_shrinks {shared : Bool} {start : ℕ}
    (h : childPage shared perm start c = some (c', ok)) :
    c'.kernel.freelist.length ≤ c.kernel.freelist.length := by
  cases shared with
  | true =>
    unfold childPage at h
    dsimp only at h
    rw [if_pos rfl] at h
    split at h
    next => cases h
    next hmap => cases h; exact mapPage_shrinks hmap
  | false =>
    by_cases hzero : get_physical_page c.parent start = 0
    · rw [childPage_absent hzero] at h
      cases h
      exact le_rfl
    · rw [childPage_private hzero] at h
      obtain ⟨⟨k₁, d₁, ok₁⟩, hfresh, he⟩ := Option.map_eq_some_iff.mp h
      cases he
      exact mapFresh_shrinks (memmove_freelist _) hfresh

theorem copyLoop_shrinks {i n start : ℕ} {shared : Bool}
    (h : copyLoop env i shared perm n start c = some (c', ok)) :
    c'.kernel.freelist.length ≤ c.kernel.freelist.length := by
  induction n generalizing c start with
  | zero => cases h; exact le_rfl
  | succ n ih =>
    rw [copyLoop] at h
    split at h
    next => cases h
    next hparent => cases h; exact parentPage_shrinks hparent
    next c₁ hparent =>
      have hlen := parentPage_shrinks hparent
      split at h
      next => cases h
      next hchild => cases h; exact (childPage_shrinks hchild).trans hlen
      next hchild => exact (ih h).trans ((childPage_shrinks hchild).trans hlen)

/-- Whatever `copy_maps` gives back it has taken before. -/
theorem copy_maps_shrinks {i n : ℕ} (h : copy_maps env n i c = some (c', ok)) :
    c'.kernel.freelist.length ≤ c.kernel.freelist.length := by
  induction n generalizing c i with
  | zero => cases h; exact le_rfl
  | succ n ih =>
    have hsingle {c₁ : Copy} {b : Bool} (h₁ : copy_single_mmap env i c = some (c₁, b)) :
        c₁.kernel.freelist.length ≤ c.kernel.freelist.length := by
      unfold copy_single_mmap at h₁
      dsimp only at h₁
      split at h₁
      next => cases h₁
      next hloop => cases h₁; exact copyLoop_shrinks hloop
      next hloop =>
        cases h₁
        have hlen := copyLoop_shrinks hloop
        exact hlen
    rw [copy_maps] at h
    split at h
    next => cases h
    next hfirst => cases h; exact hsingle hfirst
    next hfirst => exact (ih h).trans (hsingle hfirst)

end Shrinks

section Undone

variable {env : Env} {s s' : System} {cur i : ℕ} {pgdir : PageDir}

theorem freeSlot_unused (h : freeSlot s = some i) : (s.procs i).state = .unused := by
  simpa using List.find?_some h

/-- The pages of a process lie below `MMAPBASE`, since there is less physical memory. -/
theorem Sound.heap_low (h : Sound s cur pgdir) : ((s.procs cur).sz + 4095) / 4096 ≤ MMAPPAGE := by
  by_contra hmany
  rw [not_le] at hmany
  have hinj : ∀ page ∈ Finset.range 0xe001, ∃ f ∈ Finset.range 0xe000,
      ∃ e, lookup pgdir page = some e ∧ e.frame = f := by
    intro page hpage
    have hlt := Finset.mem_range.mp hpage
    obtain ⟨e, he⟩ := Option.ne_none_iff_exists'.mp (h.present page (by
      simp only [MMAPPAGE] at hmany; omega))
    have huser : page < KERNPAGE := hlt.trans (by decide)
    exact ⟨e.frame, Finset.mem_range.mpr (h.low page huser e he), e, he, rfl⟩
  choose! frame hframe hentry using hinj
  have hcard := Finset.exists_ne_map_eq_of_card_lt_of_maps_to (s := Finset.range 0xe001)
    (t := Finset.range 0xe000) (f := frame) (by simp only [Finset.card_range]; decide) hframe
  obtain ⟨page, hpage, page', hpage', hne, hsame⟩ := hcard
  obtain ⟨e, he, hef⟩ := hentry page hpage
  obtain ⟨e', he', hef'⟩ := hentry page' hpage'
  have hlt := Finset.mem_range.mp hpage
  have hlt' := Finset.mem_range.mp hpage'
  exact hne (h.apart page page' e e' he he' (by simp only [MMAPPAGE]; omega)
    (by simp only [MMAPPAGE]; omega) (hef.trans (hsame.trans hef'.symm)))

theorem Sound.slot_ne (h : Sound s cur pgdir) (hi : freeSlot s = some i) : cur ≠ i := by
  rintro rfl
  exact h.running (freeSlot_unused hi)

theorem fork_of_failed_uvm {kstack : ℕ} {k₀ k : Kernel} (hi : freeSlot s = some i)
    (halloc : kalloc s.kernel = some (kstack, k₀)) (hpgdir : (s.procs cur).pgdir = some pgdir)
    (hcopy : copyuvm env.data k₀ pgdir (s.procs cur).sz = some (k, none)) :
    fork env s cur = some (undo s i
      { s.procs i with
        state := .embryo, pid := s.nextpid, kstack := some kstack, total_mmaps := 0 }
      k kstack none, -1) := by
  unfold fork
  simp only [hi, halloc, hpgdir, hcopy]

/-- What a failure of `copy_maps` makes of the slot. -/
theorem fork_of_failed_copy {kstack : ℕ} {k₀ k : Kernel} {d : PageDir} {c : Copy}
    (hi : freeSlot s = some i) (halloc : kalloc s.kernel = some (kstack, k₀))
    (hpgdir : (s.procs cur).pgdir = some pgdir)
    (hcopy : copyuvm env.data k₀ pgdir (s.procs cur).sz = some (k, some d))
    (hmaps : copy_maps env (s.procs cur).total_mmaps.toNat 0
      ⟨k, (s.procs cur).mmaps, pgdir, (s.procs i).mmaps, d⟩ = some (c, false)) :
    ∃ s₁ np, fork env s cur = some (undo s₁ i np c.kernel kstack (some c.child), -1) := by
  unfold fork
  simp only [hi, halloc, hpgdir, hcopy, hmaps]
  exact ⟨_, _, rfl⟩

/-- The three ways to fail once there is a slot. -/
theorem fork_fails (h : Sound s cur pgdir) (hlow : 0x80100 ≤ env.data) (hhigh : env.data ≤ 0x8e000)
    (hi : freeSlot s = some i) (hf : fork env s cur = some (s', -1)) :
    (s.kernel.freelist = [] ∧ s'.kernel = s.kernel ∧ s'.procs = Function.update s.procs i
      { s.procs i with state := .unused, pid := s.nextpid, kstack := none }) ∨
    (∃ kstack rest k np, s.kernel.freelist = kstack :: rest ∧
      s.kernel.freelist.length < 1 + uvmPages (((s.procs cur).sz + 4095) / 4096) ∧
      Restored { s.kernel with freelist := rest } k ∧ s' = undo s i np k kstack none) ∨
    (1 + uvmPages (((s.procs cur).sz + 4095) / 4096) ≤ s.kernel.freelist.length ∧
      ∃ kstack k c mmaps np s₁ d, copy_maps env (s.procs cur).total_mmaps.toNat 0
          ⟨k, (s.procs cur).mmaps, pgdir, mmaps, d⟩ = some (c, false) ∧
        k.freelist.length < s.kernel.freelist.length - 1 ∧
        s' = undo s₁ i np c.kernel kstack (some c.child)) := by
  unfold fork at hf
  rw [hi] at hf
  dsimp only at hf
  rcases kalloc_cases s.kernel with ⟨hfail, hempty⟩ | ⟨kstack, rest, hlist, halloc⟩
  · rw [hfail] at hf
    cases hf
    exact .inl ⟨hempty, rfl, rfl⟩
  rw [halloc, h.attached] at hf
  dsimp only at hf
  have hlen : s.kernel.freelist.length = rest.length + 1 := by rw [hlist, List.length_cons]
  rcases copyuvm_spec hlow hhigh { s.kernel with freelist := rest } h.heap_low h.present with
    ⟨hfew, k', hcopy, hrestored⟩ | ⟨k', d, hcopy, hlen'⟩
  · rw [hcopy] at hf
    cases hf
    dsimp only at hfew
    exact .inr (.inl ⟨kstack, rest, k', _, hlist, by omega, hrestored, rfl⟩)
  · rw [hcopy] at hf
    dsimp only at hf hlen'
    refine .inr (.inr ⟨by omega, ?_⟩)
    split at hf
    next => cases hf
    next c hmaps =>
      cases hf
      exact ⟨kstack, k', c, _, _, _, d, hmaps, by unfold uvmPages at hlen'; omega, rfl⟩
    next =>
      simp only [Option.some.injEq, Prod.mk.injEq] at hf
      omega

theorem undo_proc {np : Process} {k : Kernel} {kstack : ℕ} {d : Option PageDir} :
    ((undo s i np k kstack d).procs i).state = .unused ∧
      ((undo s i np k kstack d).procs i).pgdir = d := by
  simp [undo, System.setProc]

/-- When `copy_maps` is what fails, some page that was free before is lost. -/
theorem failed_copy_leaks (h : Sound s cur pgdir) (hlow : 0x80100 ≤ env.data)
    (hhigh : env.data ≤ 0x8e000) (hi : freeSlot s = some i) (hnodup : s.kernel.freelist.Nodup)
    (hmany : 1 + uvmPages (((s.procs cur).sz + 4095) / 4096) ≤ s.kernel.freelist.length)
    (hf : fork env s cur = some (s', -1)) :
    ∃ f ∈ s.kernel.freelist, f ∉ s'.kernel.freelist := by
  rcases fork_fails h hlow hhigh hi hf with ⟨hempty, -⟩ | ⟨kstack, rest, k, np, -, hfew, -⟩ |
      ⟨-, kstack, k, c, mmaps, np, s₁, d, hcopy, hlen, rfl⟩
  · rw [hempty, List.length_nil] at hmany
    omega
  · omega
  · by_contra hkept
    push Not at hkept
    have hle := (hnodup.subperm hkept).length_le
    have hshrinks := copy_maps_shrinks hcopy
    change _ ≤ (kstack :: c.kernel.freelist).length at hle
    rw [List.length_cons] at hle
    dsimp only at hshrinks
    omega

/-- A `fork` that fails leaves everything as it was exactly when it is not `copy_maps` that
fails. -/
theorem failed_fork_clean_iff (h : Sound s cur pgdir) (hlow : 0x80100 ≤ env.data)
    (hhigh : env.data ≤ 0x8e000) (hf : fork env s cur = some (s', -1)) :
    Clean s s' cur ↔ TooFew s cur := by
  rcases hi : freeSlot s with _ | i
  · have hsame : s' = s := by
      unfold fork at hf
      rw [hi] at hf
      cases hf
      rfl
    subst hsame
    refine ⟨fun _ j hj => ?_, fun _ =>
      ⟨fun _ => Iff.rfl, rfl, fun _ _ _ _ _ _ => rfl, fun j hj => ?_⟩⟩
    · rw [hi] at hj
      cases hj
    · rw [hi] at hj
      cases hj
  have hslot {j : ℕ} (hj : freeSlot s = some j) : j = i := Option.some.inj (hj.symm.trans hi)
  rcases fork_fails h hlow hhigh hi hf with ⟨hempty, hkernel, hprocs⟩ |
      ⟨kstack, rest, k, np, hlist, hfew, ⟨hfree, hmem⟩, rfl⟩ |
      ⟨hmany, kstack, k, c, mmaps, np, s₁, d, -, -, rfl⟩
  · constructor
    · intro hclean j hj
      obtain rfl := hslot hj
      refine .inl ⟨hempty, ?_⟩
      have hnone := (hclean.child j hi).2
      rw [hprocs, Function.update_self] at hnone
      exact hnone
    · intro hfew
      have hnone := ((hfew i hi).resolve_right fun hright => hright.1 hempty).2
      refine ⟨fun f => by rw [hkernel], ?_, fun _ _ _ _ _ _ => by rw [hkernel],
        fun j hj => ?_⟩
      · rw [hprocs, Function.update_of_ne (h.slot_ne hi)]
      · obtain rfl := hslot hj
        rw [hprocs, Function.update_self]
        exact ⟨rfl, hnone⟩
  · refine ⟨fun _ j hj => .inr ⟨?_, hfew⟩, fun _ => ⟨fun f => ?_, ?_, fun p hp page huser e he => ?_,
      fun j hj => ?_⟩⟩
    · rw [hlist]
      exact List.cons_ne_nil _ _
    · change f ∈ (kfree k kstack).freelist ↔ _
      rw [mem_kfree, hfree, hlist, List.mem_cons, or_comm]
    · exact Function.update_of_ne (h.slot_ne hi) ..
    · obtain rfl := Option.some.inj (hp.symm.trans h.attached)
      have hused := h.used page huser e he
      rw [hlist, List.mem_cons, not_or] at hused
      change (kfree k kstack).mem e.frame = _
      exact (Function.update_of_ne hused.1 ..).trans (hmem _ hused.2)
    · obtain rfl := hslot hj
      exact undo_proc
  · refine ⟨fun hclean => ?_, fun hfew => ?_⟩
    · have hnone := (hclean.child i hi).2
      rw [undo_proc.2] at hnone
      cases hnone
    · rcases hfew i hi with ⟨hempty, -⟩ | ⟨-, hfew⟩
      · rw [hempty, List.length_nil] at hmany
        omega
      · omega

end Undone

def plainEnv : Env := ⟨0x80110, fun _ _ mem => mem⟩

/-- The entry that `setupkvm` makes for a page. -/
def kernelPte (data page : ℕ) : Option Pte :=
  ((kmap data).find? fun m => decide (m.virt ≤ page ∧ page < m.virt + m.pages)).map fun m =>
    ⟨m.phys_start + (page - m.virt), m.perm⟩

theorem kernelPte_kmap {data i : ℕ} {m : Kmap} (hlow : 0x80100 ≤ data) (hhigh : data ≤ 0x8e000)
    (hm : m ∈ kmap data) (hi : i < m.pages) :
    kernelPte data (m.virt + i) = some ⟨m.phys_start + i, m.perm⟩ := by
  have hself : decide (m.virt ≤ m.virt + i ∧ m.virt + i < m.virt + m.pages) = true :=
    decide_eq_true (by omega)
  -- the four ranges follow one another
  have hbefore : ∀ m' ∈ kmap data, m'.virt + m'.pages ≤ m.virt ∨ m.virt + m.pages ≤ m'.virt ∨
      m' = m := by
    intro m' hm'
    simp only [kmap, List.mem_cons, List.not_mem_nil, or_false] at hm hm'
    rcases hm with rfl | rfl | rfl | rfl <;> rcases hm' with rfl | rfl | rfl | rfl <;>
      first | exact .inr (.inr rfl) | (dsimp only; omega)
  have hsome : ((kmap data).find? fun m' =>
      decide (m'.virt ≤ m.virt + i ∧ m.virt + i < m'.virt + m'.pages)).isSome :=
    List.find?_isSome.mpr ⟨m, hm, hself⟩
  obtain ⟨m', hfind⟩ := Option.isSome_iff_exists.mp hsome
  have hin : m'.virt ≤ m.virt + i ∧ m.virt + i < m'.virt + m'.pages := by
    simpa using List.find?_some hfind
  obtain rfl : m' = m := by
    rcases hbefore m' (List.mem_of_find?_eq_some hfind) with hleft | hright | hsame
    · omega
    · omega
    · exact hsame
  rw [kernelPte, hfind, Option.map_some, Nat.add_sub_cancel_left]

/-- A parent with one page of its own and one page of a private mapping, under the kernel's
mappings. -/
def pgdir : PageDir where
  frame := 3
  tables i :=
    if i = 0 then some 4 else if i = 384 then some 6
    else if 512 ≤ i ∧ i < 568 then some (i - 504)
    else if 1016 ≤ i ∧ i < 1024 then some (i - 952) else none
  ptes page :=
    if page = 0 then some ⟨5, 6⟩ else if page = 0x60000 then some ⟨7, 6⟩
    else kernelPte plainEnv.data page

def parent : Process where
  state := .running
  pid := 1
  parent := none
  sz := 4096
  kstack := some 2
  pgdir := some pgdir
  mmaps i := if i = 0 then { Mmp.zero with addr := MMAPBASE, length := 4096, flags := 5 } else
    Mmp.zero
  total_mmaps := 1

def empty : Process := ⟨.unused, 0, none, 0, none, none, fun _ => Mmp.zero, 0⟩

/-- A free list of `n` pages. -/
def system (n : ℕ) : System :=
  ⟨⟨List.range' 100 n, fun _ _ => 0⟩, fun i => if i = 0 then parent else empty, 2⟩

theorem kernelPte_user {data page : ℕ} (hlow : 0x80100 ≤ data) (huser : page < KERNPAGE) :
    kernelPte data page = none := by
  rw [kernelPte, Option.map_eq_none_iff, List.find?_eq_none]
  intro m hm
  simp only [kmap, List.mem_cons, List.not_mem_nil, or_false] at hm
  rcases hm with rfl | rfl | rfl | rfl <;>
    simp only [decide_eq_true_eq, KERNPAGE] at * <;> omega

theorem lookup_pgdir {page : ℕ} {e : Pte} (huser : page < KERNPAGE)
    (h : lookup pgdir page = some e) :
    page = 0 ∧ e = ⟨5, 6⟩ ∨ page = 0x60000 ∧ e = ⟨7, 6⟩ := by
  unfold lookup at h
  split at h
  · cases h
  · dsimp only [pgdir] at h
    rw [kernelPte_user (by decide) huser] at h
    split_ifs at h with hzero hmmap
    · exact .inl ⟨hzero, (Option.some.inj h).symm⟩
    · exact .inr ⟨hmmap, (Option.some.inj h).symm⟩

/-- The page directory holds what `setupkvm` maps. -/
theorem pgdir_kernel : ∀ m ∈ kmap plainEnv.data, ∀ i < m.pages,
    lookup pgdir (m.virt + i) = some ⟨m.phys_start + i, m.perm⟩ := by
  intro m hm i hi
  have hentry := kernelPte_kmap (by decide) (by decide) hm hi
  have hrange : 0x80000 ≤ m.virt + i ∧ m.virt + i < 0x8e000 ∨
      0xfe000 ≤ m.virt + i ∧ m.virt + i < 0x100000 := by
    have hdata : plainEnv.data = 0x80110 := rfl
    rw [hdata] at hm
    simp only [kmap, List.mem_cons, List.not_mem_nil, or_false] at hm
    rcases hm with rfl | rfl | rfl | rfl <;> dsimp only at hi ⊢ <;> omega
  have htable : pgdir.tables ((m.virt + i) / 1024) ≠ none := by
    dsimp only [pgdir]
    split_ifs with h₁ h₂ h₃ h₄
    case neg => omega
    all_goals exact Option.some_ne_none _
  rw [lookup]
  split
  next hnone => exact absurd hnone htable
  next =>
    dsimp only [pgdir]
    rw [if_neg (by omega), if_neg (by omega), hentry]

theorem system_sound (n : ℕ) : Sound (system n) 0 pgdir where
  attached := rfl
  running := ProcState.noConfusion
  present page hpage := by
    have hone : ((system n).procs 0).sz = 4096 := rfl
    obtain rfl : page = 0 := by omega
    decide
  low page huser e he := by
    rcases lookup_pgdir huser he with ⟨-, rfl⟩ | ⟨-, rfl⟩ <;> decide
  used page huser e he hmem := by
    have hlow := (List.mem_range'_1.mp hmem).1
    rcases lookup_pgdir huser he with ⟨-, rfl⟩ | ⟨-, rfl⟩
    · exact absurd hlow (by decide)
    · exact absurd hlow (by decide)
  apart page page' e e' he he' hpage hpage' hsame := by
    have huser {a : ℕ} (ha : a < MMAPPAGE) : a < KERNPAGE := ha.trans (by decide)
    rcases lookup_pgdir (huser hpage) he with ⟨rfl, -⟩ | ⟨rfl, -⟩
    · rcases lookup_pgdir (huser hpage') he' with ⟨rfl, -⟩ | ⟨rfl, -⟩
      · rfl
      · exact absurd hpage' (by decide)
    · exact absurd hpage (by decide)

theorem system_slot (n : ℕ) : freeSlot (system n) = some 1 := rfl

/-- Forty pages are enough for the kernel stack and the page directory, but not for the tables
of the kernel's mappings. -/
theorem forty_pages_undone : (∀ m ∈ kmap plainEnv.data, ∀ i < m.pages,
      lookup pgdir (m.virt + i) = some ⟨m.phys_start + i, m.perm⟩) ∧
    ∃ s', fork plainEnv (system 40) 0 = some (s', -1) ∧ Clean (system 40) s' 0 := by
  obtain ⟨k, hcopy⟩ : ∃ k, copyuvm plainEnv.data ⟨List.range' 101 39, fun _ _ => 0⟩ pgdir 4096 =
      some (k, none) := by
    rcases copyuvm_spec (show 0x80100 ≤ plainEnv.data by decide) (by decide)
        ⟨List.range' 101 39, fun _ _ => 0⟩ (system_sound 40).heap_low (system_sound 40).present with
      ⟨-, k, hcopy, -⟩ | ⟨k, d, -, hlen⟩
    · exact ⟨k, hcopy⟩
    · have hfew : uvmPages ((((system 40).procs 0).sz + 4095) / 4096) = 67 := by decide
      simp only [List.length_range', hfew] at hlen
      omega
  have hf := fork_of_failed_uvm (system_slot 40) rfl (system_sound 40).attached hcopy
  refine ⟨pgdir_kernel, _, hf,
    (failed_fork_clean_iff (system_sound 40) (by decide) (by decide) hf).mpr ?_⟩
  intro i hi
  exact .inr ⟨List.cons_ne_nil _ _, by decide⟩

/-- With an empty free list the page of the mapping cannot be copied. -/
theorem copy_maps_starved {k : Kernel} {m : ℕ → Mmp} {d : PageDir} (hempty : k.freelist = []) :
    copy_maps plainEnv 1 0 ⟨k, parent.mmaps, pgdir, m, d⟩ =
      some (⟨k, parent.mmaps, pgdir, m, d⟩, false) := by
  have hpage : get_physical_page pgdir 0x60000000 = 7 := by decide
  have hprivate : ¬ has (parent.mmaps 0).flags MAP_SHARED = true := by decide
  have hparent : parentPage plainEnv 0 0x60000000 ⟨k, parent.mmaps, pgdir, m, d⟩ =
      some (⟨k, parent.mmaps, pgdir, m, d⟩, true) := if_neg fun hshared => hprivate hshared.1
  have hchild : childPage false 0 0x60000000 ⟨k, parent.mmaps, pgdir, m, d⟩ =
      some (⟨k, parent.mmaps, pgdir, m, d⟩, false) := by
    simp [childPage, hpage, kalloc, hempty]
  have hloop : copyLoop plainEnv 0 false 0 1 0x60000000 ⟨k, parent.mmaps, pgdir, m, d⟩ =
      some (⟨k, parent.mmaps, pgdir, m, d⟩, false) := by
    rw [copyLoop, hparent]
    simp only [hchild]
  have hsingle : copy_single_mmap plainEnv 0 ⟨k, parent.mmaps, pgdir, m, d⟩ =
      some (⟨k, parent.mmaps, pgdir, m, d⟩, false) := by
    have hshared : has (parent.mmaps 0).flags MAP_SHARED = false := by decide
    have hpages : (wrap ((parent.mmaps 0).addr + (parent.mmaps 0).length) - (parent.mmaps 0).addr +
        4095) / 4096 = 1 := by decide
    have haddr : (parent.mmaps 0).addr = 0x60000000 := rfl
    have hprot : (parent.mmaps 0).prot = 0 := rfl
    unfold copy_single_mmap
    dsimp only
    rw [hshared, hpages, haddr, hprot, hloop]
  rw [copy_maps, hsingle]

/-- With 68 pages everything up to `copyuvm` goes through, and the page of the mapping finds the
free list empty. -/
theorem mapping_page_starved : ∃ s', fork plainEnv (system 68) 0 = some (s', -1) ∧
    ¬ Clean (system 68) s' 0 := by
  have hsound := system_sound 68
  have hlow : 0x80100 ≤ plainEnv.data := by decide
  have hhigh : plainEnv.data ≤ 0x8e000 := by decide
  rcases copyuvm_spec hlow hhigh ⟨List.range' 101 67, fun _ _ => 0⟩ hsound.heap_low
      hsound.present with ⟨hfew, -⟩ | ⟨k, d, hcopy, hlen⟩
  · exact absurd hfew (by decide)
  have hempty : k.freelist = [] := by
    have hsz : uvmPages ((((system 68).procs 0).sz + 4095) / 4096) = 67 := by decide
    rw [hsz] at hlen
    rw [← List.length_eq_zero_iff]
    simpa using hlen
  obtain ⟨s₁, np, hf⟩ := fork_of_failed_copy (system_slot 68) rfl hsound.attached hcopy
    (copy_maps_starved hempty)
  refine ⟨_, hf, fun hclean => ?_⟩
  have hnone := (hclean.child 1 (system_slot 68)).2
  rw [undo_proc.2] at hnone
  cases hnone

end ForkFailure
