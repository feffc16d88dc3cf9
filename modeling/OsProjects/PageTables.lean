import OsProjects.MmapTable
import Mathlib.Data.Finset.Card

/-! # Page directories and the pages they are built from

`kalloc.c` and the part of `vm.c` that builds and frees the page directory of a process. The
page tables are pages of their own, taken from the same free list as user pages. `data` is
the page number at which the kernel's writable data begins. A panic is `none`.
-/
namespace PageTables

open MmapTable

/-- Pages are numbered; `mem` are the bytes of a physical page. -/
structure Kernel where
  freelist : List ℕ
  mem : ℕ → ℕ → UInt8

def kalloc (k : Kernel) : Option (ℕ × Kernel) :=
  match k.freelist with
  | [] => none
  | frame :: rest => some (frame, { k with freelist := rest })

/-- A freed page is filled with ones. -/
def kfree (k : Kernel) (frame : ℕ) : Kernel :=
  ⟨frame :: k.freelist, Function.update k.mem frame fun _ => 1⟩

def memset (k : Kernel) (frame : ℕ) : Kernel :=
  { k with mem := Function.update k.mem frame fun _ => 0 }

def memmove (k : Kernel) (dst src : ℕ) : Kernel :=
  { k with mem := Function.update k.mem dst (k.mem src) }

structure Pte where
  frame : ℕ
  perm : BitVec 32
  deriving DecidableEq, Repr

/-- The page tables by directory index and the entries in them by page number. -/
structure PageDir where
  frame : ℕ
  tables : ℕ → Option ℕ
  ptes : ℕ → Option Pte

/-- `walkpgdir` without `alloc`, and the entry it leads to. -/
def lookup (d : PageDir) (page : ℕ) : Option Pte :=
  match d.tables (page / 1024) with
  | none => none
  | some _ => d.ptes page

/-- `walkpgdir` with `alloc`. -/
def walkpgdir (k : Kernel) (d : PageDir) (page : ℕ) : Option (Kernel × PageDir) :=
  match d.tables (page / 1024) with
  | some _ => some (k, d)
  | none =>
    match kalloc k with
    | none => none
    | some (pgtab, k) =>
      some (memset k pgtab,
        { d with
          tables := Function.update d.tables (page / 1024) (some pgtab)
          ptes := fun a => if a / 1024 = page / 1024 then none else d.ptes a })

/-- One round of `mappages`; the upper bits of `perm` go into the frame number. -/
def mapPage (k : Kernel) (d : PageDir) (page frame : ℕ) (perm : BitVec 32) :
    Option (Kernel × PageDir × Bool) :=
  match walkpgdir k d page with
  | none => some (k, d, false)
  | some (k, d) =>
    match d.ptes page with
    | some _ => none
    | none =>
      some (k, { d with
        ptes := Function.update d.ptes page (some ⟨frame ||| perm.toNat / PGSIZE, perm⟩) }, true)

/-- `mappages` for `n` pages. -/
def mappages (perm : BitVec 32) : ℕ → Kernel → PageDir → ℕ → ℕ → Option (Kernel × PageDir × Bool)
  | 0, k, d, _, _ => some (k, d, true)
  | n + 1, k, d, page, frame =>
    match mapPage k d page frame perm with
    | none => none
    | some (k, d, false) => some (k, d, false)
    | some (k, d, true) => mappages perm n k d (page + 1) (frame + 1)

/-- `deallocuvm` down to address 0 from page `last`; missing page tables are skipped. -/
def deallocuvm (last : ℕ) : ℕ → Kernel → PageDir → ℕ → Kernel × PageDir
  | 0, k, d, _ => (k, d)
  | n + 1, k, d, page =>
    if page < last then
      match d.tables (page / 1024) with
      | none => deallocuvm last n k d ((page / 1024 + 1) * 1024)
      | some _ =>
        match d.ptes page with
        | none => deallocuvm last n k d (page + 1)
        | some e =>
          deallocuvm last n (kfree k e.frame)
            { d with ptes := Function.update d.ptes page none } (page + 1)
    else (k, d)

/-- `MMAPBASE / PGSIZE`. -/
abbrev MMAPPAGE : ℕ := 0x60000

/-- `KERNBASE / PGSIZE`; the pages below belong to the process. -/
abbrev KERNPAGE : ℕ := 0x80000

abbrev NPDENTRIES : ℕ := 1024

def freeTables (k : Kernel) (d : PageDir) : List ℕ → Kernel
  | [] => k
  | i :: is =>
    match d.tables i with
    | none => freeTables k d is
    | some pgtab => freeTables (kfree k pgtab) d is

def freevm (k : Kernel) (d : PageDir) : Kernel :=
  let (k, d) := deallocuvm MMAPPAGE MMAPPAGE k d 0
  kfree (freeTables k d (List.range NPDENTRIES)) d.frame

structure Kmap where
  virt : ℕ
  phys_start : ℕ
  pages : ℕ
  perm : BitVec 32
  deriving DecidableEq, Repr

/-- The kernel's mappings, in pages; physical memory ends at page 0xe000. -/
def kmap (data : ℕ) : List Kmap :=
  [⟨0x80000, 0, 0x100, 2⟩, ⟨0x80100, 0x100, data - 0x80100, 0⟩,
    ⟨data, data - 0x80000, 0x8e000 - data, 2⟩, ⟨0xfe000, 0xfe000, 0x2000, 2⟩]

def mapKernel : List Kmap → Kernel → PageDir → Option (Kernel × PageDir × Bool)
  | [], k, d => some (k, d, true)
  | m :: ms, k, d =>
    match mappages m.perm m.pages k d m.virt m.phys_start with
    | none => none
    | some (k, d, false) => some (k, d, false)
    | some (k, d, true) => mapKernel ms k d

def setupkvm (data : ℕ) (k : Kernel) : Option (Kernel × Option PageDir) :=
  match kalloc k with
  | none => some (k, none)
  | some (pgdir, k) =>
    match mapKernel (kmap data) (memset k pgdir) ⟨pgdir, fun _ => none, fun _ => none⟩ with
    | none => none
    | some (k, d, false) => some (freevm k d, none)
    | some (k, d, true) => some (k, some d)

/-- The page loop of `copyuvm`. -/
def copyPages (pgdir : PageDir) : ℕ → Kernel → PageDir → ℕ → Option (Kernel × PageDir × Bool)
  | 0, k, d, _ => some (k, d, true)
  | n + 1, k, d, page =>
    match lookup pgdir page with
    | none => none
    | some e =>
      match kalloc k with
      | none => some (k, d, false)
      | some (mem, k) =>
        match mapPage (memmove k mem e.frame) d page mem (e.perm &&& 0xfff) with
        | none => none
        | some (k, d, false) => some (kfree k mem, d, false)
        | some (k, d, true) => copyPages pgdir n k d (page + 1)

def copyuvm (data : ℕ) (k : Kernel) (pgdir : PageDir) (sz : ℕ) :
    Option (Kernel × Option PageDir) :=
  match setupkvm data k with
  | none => none
  | some (k, none) => some (k, none)
  | some (k, some d) =>
    match copyPages pgdir ((sz + 4095) / 4096) k d 0 with
    | none => none
    | some (k, d, false) => some (freevm k d, none)
    | some (k, d, true) => some (k, some d)

/-- The pages that `freevm` gives back. -/
def Owned (d : PageDir) (frame : ℕ) : Prop :=
  frame = d.frame ∨ (∃ i < NPDENTRIES, d.tables i = some frame) ∨
    ∃ page < MMAPPAGE, ∃ e, d.ptes page = some e ∧ e.frame = frame

section Free

variable {k k' : Kernel} {d d' : PageDir} {f page n : ℕ}

theorem mem_kfree : f ∈ (kfree k page).freelist ↔ f ∈ k.freelist ∨ f = page := by
  rw [kfree, List.mem_cons, or_comm]

/-- Entries only in page tables that are there. -/
def Rooted (d : PageDir) : Prop := ∀ page, d.ptes page ≠ none → d.tables (page / 1024) ≠ none

theorem mem_deallocuvm {last : ℕ} (hroot : Rooted d) (hn : last ≤ page + n) :
    (∀ f, f ∈ (deallocuvm last n k d page).1.freelist ↔ f ∈ k.freelist ∨
      ∃ a < last, page ≤ a ∧ ∃ e, d.ptes a = some e ∧ e.frame = f) ∧
    (deallocuvm last n k d page).2.tables = d.tables ∧
    (deallocuvm last n k d page).2.frame = d.frame := by
  induction n generalizing k d page with
  | zero =>
    refine ⟨fun f => ⟨.inl, fun hf => hf.elim id ?_⟩, rfl, rfl⟩
    rintro ⟨a, ha, hpage, -⟩
    omega
  | succ n ih =>
    rw [deallocuvm]
    split_ifs with hlt
    · split
      next htable =>
        obtain ⟨hmem, hrest⟩ := @ih k d ((page / 1024 + 1) * 1024) hroot (by omega)
        refine ⟨fun f => (hmem f).trans (or_congr_right ?_), hrest⟩
        constructor
        · rintro ⟨a, ha, hpage, he⟩
          exact ⟨a, ha, by omega, he⟩
        · rintro ⟨a, ha, hpage, e, he, hf⟩
          refine ⟨a, ha, ?_, e, he, hf⟩
          -- the pages before the next table have no entry
          by_contra hless
          have hsame : a / 1024 = page / 1024 := by omega
          exact hroot a (by rw [he]; exact Option.some_ne_none e) (by rw [hsame]; exact htable)
      next pgtab htable =>
        split
        next hnone =>
          obtain ⟨hmem, hrest⟩ := @ih k d (page + 1) hroot (by omega)
          refine ⟨fun f => (hmem f).trans (or_congr_right ?_), hrest⟩
          constructor
          · rintro ⟨a, ha, hpage, he⟩
            exact ⟨a, ha, by omega, he⟩
          · rintro ⟨a, ha, hpage, e, he, hf⟩
            have hne : a ≠ page := by
              rintro rfl
              rw [hnone] at he
              cases he
            exact ⟨a, ha, by omega, e, he, hf⟩
        next e he =>
          have hroot' : Rooted { d with ptes := Function.update d.ptes page none } := by
            intro a ha
            rcases eq_or_ne a page with rfl | hne
            · exact absurd (Function.update_self ..) ha
            · dsimp only at ha
              rw [Function.update_of_ne hne] at ha
              exact hroot a ha
          obtain ⟨hmem, hrest⟩ := @ih (kfree k e.frame) _ (page + 1) hroot' (by omega)
          refine ⟨fun f => (hmem f).trans ?_, hrest⟩
          rw [mem_kfree, or_assoc]
          refine or_congr_right ⟨?_, ?_⟩
          · rintro (rfl | ⟨a, ha, hpage, e', he', hf⟩)
            · exact ⟨page, hlt, le_rfl, e, he, rfl⟩
            · dsimp only at he'
              rw [Function.update_of_ne (show a ≠ page by omega)] at he'
              exact ⟨a, ha, by omega, e', he', hf⟩
          · rintro ⟨a, ha, hpage, e', he', hf⟩
            rcases eq_or_ne a page with rfl | hne
            · rw [he] at he'
              cases he'
              exact .inl hf.symm
            · refine .inr ⟨a, ha, by omega, e', ?_, hf⟩
              dsimp only
              rw [Function.update_of_ne hne]
              exact he'
    · refine ⟨fun f => ⟨.inl, fun hf => hf.elim id ?_⟩, rfl, rfl⟩
      rintro ⟨a, ha, hpage, -⟩
      omega

theorem mem_freeTables (l : List ℕ) : f ∈ (freeTables k d l).freelist ↔
    f ∈ k.freelist ∨ ∃ i ∈ l, d.tables i = some f := by
  induction l generalizing k with
  | nil => simp [freeTables]
  | cons i l ih =>
    rw [freeTables]
    split
    next hnone => simp [ih, hnone]
    next pgtab hsome =>
      rw [ih, mem_kfree, or_assoc]
      refine or_congr_right ?_
      simp only [List.mem_cons, exists_eq_or_imp, hsome, Option.some_inj]
      exact or_congr_left eq_comm

/-- `freevm` gives back what a page directory owns, and nothing else. -/
theorem mem_freevm (hroot : Rooted d) :
    f ∈ (freevm k d).freelist ↔ f ∈ k.freelist ∨ Owned d f := by
  obtain ⟨hmem, htables, hframe⟩ := @mem_deallocuvm k d 0 MMAPPAGE MMAPPAGE hroot (by omega)
  rw [freevm, mem_kfree, mem_freeTables, hmem, htables, hframe, Owned, or_assoc, or_assoc]
  refine or_congr_right ?_
  simp only [List.mem_range, Nat.zero_le, true_and]
  constructor
  · rintro (hpage | htable | hdir)
    · exact .inr (.inr hpage)
    · exact .inr (.inl htable)
    · exact .inl hdir
  · rintro (hdir | htable | hpage)
    · exact .inr (.inr hdir)
    · exact .inr (.inl htable)
    · exact .inl hpage

theorem deallocuvm_mem {last : ℕ} (hf : ∀ a < last, ∀ e, d.ptes a = some e → e.frame ≠ f) :
    (deallocuvm last n k d page).1.mem f = k.mem f := by
  induction n generalizing k d page with
  | zero => rfl
  | succ n ih =>
    rw [deallocuvm]
    split_ifs with hlt
    · split
      next => exact ih hf
      next =>
        split
        next => exact ih hf
        next e he =>
          rw [ih fun a ha e' he' => ?_]
          · exact Function.update_of_ne (hf page hlt e he).symm ..
          · dsimp only at he'
            rcases eq_or_ne a page with rfl | hne
            · rw [Function.update_self] at he'
              cases he'
            · rw [Function.update_of_ne hne] at he'
              exact hf a ha e' he'
    · rfl

theorem freeTables_mem {l : List ℕ} (hf : ∀ i ∈ l, d.tables i ≠ some f) :
    (freeTables k d l).mem f = k.mem f := by
  induction l generalizing k with
  | nil => rfl
  | cons i l ih =>
    have hrest := fun j hj => hf j (List.mem_cons_of_mem _ hj)
    rw [freeTables]
    split
    next => exact ih hrest
    next pgtab hsome =>
      rw [ih hrest]
      refine Function.update_of_ne ?_ ..
      rintro rfl
      exact hf i (List.mem_cons_self ..) hsome

/-- Pages that a page directory does not own keep their bytes. -/
theorem freevm_mem (hroot : Rooted d) (hf : ¬ Owned d f) : (freevm k d).mem f = k.mem f := by
  obtain ⟨-, htables, hframe⟩ := @mem_deallocuvm k d 0 MMAPPAGE MMAPPAGE hroot (by omega)
  rw [Owned, not_or, not_or] at hf
  obtain ⟨hdir, htable, hpage⟩ := hf
  unfold freevm
  dsimp only [kfree]
  rw [hframe, Function.update_of_ne hdir, freeTables_mem fun i hi hsome => ?_,
    deallocuvm_mem fun a ha e he hf => hpage ⟨a, ha, e, he, hf⟩]
  rw [htables] at hsome
  exact htable ⟨i, List.mem_range.mp hi, hsome⟩

theorem owned_table {g i : ℕ} (hnone : d.tables i = none) (hi : i < NPDENTRIES) :
    Owned { d with tables := Function.update d.tables i (some f) } g ↔ Owned d g ∨ g = f := by
  have htable : (∃ j < NPDENTRIES, Function.update d.tables i (some f) j = some g) ↔
      (∃ j < NPDENTRIES, d.tables j = some g) ∨ g = f := by
    constructor
    · rintro ⟨j, hj, hsome⟩
      rw [Function.update_apply] at hsome
      split_ifs at hsome
      · exact .inr (Option.some.inj hsome).symm
      · exact .inl ⟨j, hj, hsome⟩
    · rintro (⟨j, hj, hsome⟩ | rfl)
      · refine ⟨j, hj, ?_⟩
        rw [Function.update_of_ne, hsome]
        rintro rfl
        rw [hnone] at hsome
        cases hsome
      · exact ⟨i, hi, Function.update_self ..⟩
  rw [Owned, Owned, htable]
  simp only [or_assoc, or_comm, or_left_comm]

theorem owned_pte {g : ℕ} {e : Pte} (hnone : d.ptes page = none) :
    Owned { d with ptes := Function.update d.ptes page (some e) } g ↔
      Owned d g ∨ page < MMAPPAGE ∧ g = e.frame := by
  have hpte : (∃ a < MMAPPAGE, ∃ e', Function.update d.ptes page (some e) a = some e' ∧
        e'.frame = g) ↔
      (∃ a < MMAPPAGE, ∃ e', d.ptes a = some e' ∧ e'.frame = g) ∨
        page < MMAPPAGE ∧ g = e.frame := by
    constructor
    · rintro ⟨a, ha, e', hsome, rfl⟩
      rw [Function.update_apply] at hsome
      split_ifs at hsome with hpage
      · cases hsome
        exact .inr ⟨hpage ▸ ha, rfl⟩
      · exact .inl ⟨a, ha, e', hsome, rfl⟩
    · rintro (⟨a, ha, e', hsome, rfl⟩ | ⟨hpage, rfl⟩)
      · refine ⟨a, ha, e', ?_, rfl⟩
        rw [Function.update_of_ne, hsome]
        rintro rfl
        rw [hnone] at hsome
        cases hsome
      · exact ⟨page, hpage, e, Function.update_self .., rfl⟩
  rw [Owned, Owned, hpte]
  simp only [or_assoc]

end Free

/-- `d` is being filled upwards from directory index `s` and has reached page `a`; the tables
in `old` were there before, with whatever entries. -/
structure Filling (d : PageDir) (old : ℕ → Prop) (s a : ℕ) : Prop where
  tables : ∀ i, d.tables i ≠ none ↔ old i ∨ s ≤ i ∧ i * 1024 < a
  ptes : ∀ page, d.ptes page ≠ none → old (page / 1024) ∨ s * 1024 ≤ page ∧ page < a
  bounded : ∀ i, old i → i < NPDENTRIES
  start : s * 1024 ≤ a

/-- Since the free list was `free`, pages went to `d` or to `held`, and other pages kept their
bytes. -/
structure Building (free : List ℕ) (mem : ℕ → ℕ → UInt8) (held : ℕ → Prop) (k : Kernel)
    (d : PageDir) : Prop where
  frames : ∀ f, f ∈ free ↔ f ∈ k.freelist ∨ held f ∨ Owned d f
  kept : ∀ f, f ∉ free → k.mem f = mem f

/-- The tables that `setupkvm` makes. -/
def KernelTable (i : ℕ) : Prop := 512 ≤ i ∧ i < 568 ∨ 1016 ≤ i ∧ i < 1024

/-- How many page tables the pages from `s * 1024` up to `a` need. -/
def tablesTo (s a : ℕ) : ℕ := (a + 1023) / 1024 - s

section Build

variable {k k' : Kernel} {d d' : PageDir} {old held : ℕ → Prop} {free : List ℕ}
  {mem : ℕ → ℕ → UInt8} {s a page frame : ℕ} {perm : BitVec 32}

theorem Filling.rooted (h : Filling d old s a) : Rooted d := by
  intro page hpage
  rw [h.tables]
  refine (h.ptes page hpage).imp_right fun hin => ?_
  omega

theorem Filling.table_lt (h : Filling d old s a) (ha : a ≤ NPDENTRIES * 1024) {i : ℕ}
    (hi : d.tables i ≠ none) : i < NPDENTRIES := by
  rcases (h.tables i).mp hi with hold | hin
  · exact h.bounded i hold
  · simp only [NPDENTRIES] at *
    omega

theorem Building.freevm (h : Building free mem held k d) (hroot : Rooted d) (f : ℕ) :
    f ∈ free ↔ f ∈ (freevm k d).freelist ∨ held f := by
  rw [h.frames, mem_freevm hroot, or_assoc]
  exact or_congr_right or_comm

/-- A new page table is needed exactly at the first page of its range. -/
theorem Filling.absent_iff (h : Filling d old s a) (hnew : ¬ old (a / 1024)) :
    d.tables (a / 1024) = none ↔ a % 1024 = 0 := by
  have hstart := h.start
  rw [← not_iff_not, ← ne_eq, h.tables]
  constructor
  · rintro (hold | hin)
    · exact absurd hold hnew
    · omega
  · intro hmod
    exact .inr (by omega)

theorem kalloc_cases (k : Kernel) : (kalloc k = none ∧ k.freelist = []) ∨
    ∃ f rest, k.freelist = f :: rest ∧ kalloc k = some (f, { k with freelist := rest }) := by
  unfold kalloc
  rcases k.freelist with _ | ⟨f, rest⟩
  · exact .inl ⟨rfl, rfl⟩
  · exact .inr ⟨f, rest, rfl, rfl⟩

/-- What `walkpgdir` with `alloc` does. -/
theorem walkpgdir_spec (h : Filling d old s a) (hnew : ¬ old (a / 1024))
    (ha : a < NPDENTRIES * 1024) (hb : Building free mem held k d) :
    (walkpgdir k d a = none ∧ k.freelist = [] ∧ a % 1024 = 0) ∨
    ∃ k' d', walkpgdir k d a = some (k', d') ∧ Building free mem held k' d' ∧
      k'.freelist.length + tablesTo s (a + 1) = k.freelist.length + tablesTo s a ∧
      d'.ptes = d.ptes ∧ ∀ i, d'.tables i ≠ none ↔ old i ∨ s ≤ i ∧ i * 1024 < a + 1 := by
  have hstart := h.start
  unfold walkpgdir
  split
  next pgtab hsome =>
    have hmod : a % 1024 ≠ 0 := fun h0 => by
      rw [(h.absent_iff hnew).mpr h0] at hsome
      cases hsome
    refine .inr ⟨k, d, rfl, hb, ?_, rfl, fun i => ?_⟩
    · unfold tablesTo
      omega
    · rw [h.tables]
      refine or_congr_right ?_
      omega
  next hnone =>
    have hmod := (h.absent_iff hnew).mp hnone
    rcases kalloc_cases k with ⟨hfail, hempty⟩ | ⟨f, rest, hlist, halloc⟩
    · rw [hfail]
      exact .inl ⟨rfl, hempty, hmod⟩
    rw [halloc]
    -- the new table is empty, as the entries of a missing table were
    have hptes : (fun b => if b / 1024 = a / 1024 then none else d.ptes b) = d.ptes := by
      funext b
      split_ifs with hsame
      · by_contra hne
        exact h.rooted b (Ne.symm hne) (by rw [hsame]; exact hnone)
      · rfl
    refine .inr ⟨_, _, rfl, ⟨fun g => ?_, fun g hg => ?_⟩, ?_, hptes, fun i => ?_⟩
    · have hframes := hb.frames g
      rw [hlist, List.mem_cons] at hframes
      rw [hframes]
      have howned := owned_table (f := f) (g := g) hnone (by simp only [NPDENTRIES] at *; omega)
      rw [hptes, howned]
      dsimp only [memset]
      simp only [or_assoc, or_comm, or_left_comm]
    · have hne : g ≠ f := by
        rintro rfl
        exact hg ((hb.frames g).mpr (.inl (by rw [hlist]; exact List.mem_cons_self ..)))
      exact (Function.update_of_ne hne ..).trans (hb.kept g hg)
    · dsimp only [memset]
      rw [hlist, List.length_cons]
      unfold tablesTo
      omega
    · rcases eq_or_ne i (a / 1024) with rfl | hne
      · dsimp only
        rw [Function.update_self]
        simp only [ne_eq, reduceCtorEq, not_false_eq_true, true_iff]
        exact .inr (by omega)
      · dsimp only
        rw [Function.update_of_ne hne, h.tables]
        refine or_congr_right ?_
        omega

theorem Filling.absent (h : Filling d old s a) (hnew : ¬ old (a / 1024)) : d.ptes a = none := by
  by_contra hne
  rcases h.ptes a hne with hold | hin
  · exact hnew hold
  · omega

theorem Building.congr {held' : ℕ → Prop} (hb : Building free mem held k d)
    (h : ∀ f, held' f ↔ held f) : Building free mem held' k d :=
  ⟨fun f => by rw [hb.frames, h], hb.kept⟩

/-- The page that is mapped next; a user page takes over the frame that was held for it. -/
theorem mapPage_spec (h : Filling d old s a) (hnew : ¬ old (a / 1024))
    (ha : a < NPDENTRIES * 1024) (hperm : perm.toNat < PGSIZE)
    (hb : Building free mem (fun f => held f ∨ a < MMAPPAGE ∧ f = frame) k d) :
    (mapPage k d a frame perm = some (k, d, false) ∧ k.freelist = [] ∧ a % 1024 = 0) ∨
    ∃ k' d', mapPage k d a frame perm = some (k', d', true) ∧ Filling d' old s (a + 1) ∧
      Building free mem held k' d' ∧
      k'.freelist.length + tablesTo s (a + 1) = k.freelist.length + tablesTo s a := by
  have hstart := h.start
  have habsent := h.absent hnew
  have hframe : frame ||| perm.toNat / PGSIZE = frame := by
    rw [Nat.div_eq_of_lt hperm, Nat.or_zero]
  rcases walkpgdir_spec h hnew ha hb with ⟨hfail, hrest⟩ | ⟨k', d', hwalk, hb', hlen, hptes, htables⟩
  · refine .inl ⟨?_, hrest⟩
    rw [mapPage, hfail]
  · refine .inr ⟨k', { d' with ptes := Function.update d'.ptes a (some ⟨frame, perm⟩) }, ?_, ?_,
      ⟨fun f => ?_, hb'.kept⟩, hlen⟩
    · rw [mapPage, hwalk]
      simp only [hptes, habsent, hframe]
    · refine ⟨htables, fun page hpage => ?_, h.bounded, by omega⟩
      dsimp only at hpage
      rcases eq_or_ne page a with rfl | hne
      · exact .inr (by omega)
      · rw [Function.update_of_ne hne, hptes] at hpage
        exact (h.ptes page hpage).imp_right fun hin => by omega
    · rw [hb'.frames, owned_pte (by rw [hptes]; exact habsent)]
      simp only [or_assoc, or_comm, or_left_comm]

/-- Mapping `n` pages of the kernel. It fails exactly when the free list cannot give the page
tables that are needed. -/
theorem mappages_spec {n : ℕ} (h : Filling d old s a)
    (hnew : ∀ i, i * 1024 < a + n → a < i * 1024 + 1024 → ¬ old i)
    (ha : a + n ≤ NPDENTRIES * 1024) (hkernel : MMAPPAGE ≤ a) (hperm : perm.toNat < PGSIZE)
    (hb : Building free mem held k d) :
    ∃ k' d' ok, mappages perm n k d a frame = some (k', d', ok) ∧
      Building free mem held k' d' ∧ (∃ a', a' ≤ a + n ∧ Filling d' old s a') ∧
      (ok = true → Filling d' old s (a + n) ∧
        k'.freelist.length + tablesTo s (a + n) = k.freelist.length + tablesTo s a) ∧
      (ok = false → k.freelist.length + tablesTo s a < tablesTo s (a + n)) := by
  have hstart := h.start
  induction n generalizing k d a frame with
  | zero =>
    exact ⟨k, d, true, rfl, hb, ⟨a, le_rfl, h⟩, fun _ => ⟨h, rfl⟩, fun hok => (nomatch hok)⟩
  | succ n ih =>
    have hb' : Building free mem (fun f => held f ∨ a < MMAPPAGE ∧ f = frame) k d :=
      hb.congr fun f => ⟨fun hf => hf.elim id fun hlow => absurd hlow.1 (by omega), .inl⟩
    rw [mappages]
    rcases mapPage_spec h (hnew _ (by omega) (by omega)) (by omega) hperm hb' with
      ⟨hmap, hempty, hmod⟩ | ⟨k₁, d₁, hmap, h₁, hb₁, hlen⟩
    · rw [hmap]
      refine ⟨k, d, false, rfl, hb, ⟨a, by omega, h⟩, fun hok => (nomatch hok), fun _ => ?_⟩
      rw [hempty, List.length_nil]
      unfold tablesTo
      omega
    · rw [hmap]
      obtain ⟨k', d', ok, hrun, hb₂, ⟨a', ha', h'⟩, hdone, hstop⟩ := @ih _ _ _ (frame + 1) h₁
        (fun i hi hi' => hnew i (by omega) (by omega)) (by omega) (by omega) hb₁ h₁.start
      refine ⟨k', d', ok, hrun, hb₂, ⟨a', by omega, h'⟩, fun hok => ?_, fun hok => ?_⟩
      · obtain ⟨hfill, hlen'⟩ := hdone hok
        rw [show a + (n + 1) = a + 1 + n by omega]
        exact ⟨hfill, by omega⟩
      · have := hstop hok
        rw [show a + (n + 1) = a + 1 + n by omega]
        omega

/-- The tables made so far become old ones. -/
theorem Filling.rebase (h : Filling d old s a) {old' : ℕ → Prop} (s' : ℕ)
    (hold : ∀ i, old' i ↔ old i ∨ s ≤ i ∧ i * 1024 < a) (ha : a ≤ NPDENTRIES * 1024) :
    Filling d old' s' (s' * 1024) := by
  refine ⟨fun i => ?_, fun page hpage => .inl ?_, fun i hi => ?_, le_rfl⟩
  · rw [h.tables, hold]
    refine ⟨.inl, fun hi => hi.elim id fun hin => ?_⟩
    omega
  · rw [hold]
    refine (h.ptes page hpage).imp_right fun hin => ?_
    omega
  · refine h.table_lt ha ((h.tables i).mpr ?_)
    exact (hold i).mp hi

/-- The mappings of the kernel are made, or fewer than 64 pages were left for its tables. -/
def Mapped (free : List ℕ) (mem : ℕ → ℕ → UInt8) (held : ℕ → Prop) (pages : ℕ)
    (r : Option (Kernel × PageDir × Bool)) : Prop :=
  ∃ k d ok, r = some (k, d, ok) ∧ Building free mem held k d ∧ Rooted d ∧
    (ok = true → Filling d KernelTable 0 0 ∧ k.freelist.length + 64 = pages) ∧
    (ok = false → pages < 64)

theorem mapKernel_cons {m : Kmap} {ms : List Kmap} {c pages : ℕ} (h : Filling d old s m.virt)
    (hnew : ∀ i, i * 1024 < m.virt + m.pages → m.virt < i * 1024 + 1024 → ¬ old i)
    (hend : m.virt + m.pages ≤ NPDENTRIES * 1024) (hkernel : MMAPPAGE ≤ m.virt)
    (hperm : m.perm.toNat < PGSIZE) (hb : Building free mem held k d)
    (hpages : k.freelist.length + tablesTo s m.virt + c = pages)
    (hmax : tablesTo s (m.virt + m.pages) + c ≤ 64)
    (hrest : ∀ k' d', Filling d' old s (m.virt + m.pages) → Building free mem held k' d' →
      k'.freelist.length + tablesTo s (m.virt + m.pages) + c = pages →
      Mapped free mem held pages (mapKernel ms k' d')) :
    Mapped free mem held pages (mapKernel (m :: ms) k d) := by
  obtain ⟨k', d', ok, hrun, hb', ⟨a', -, hfill⟩, hdone, hstop⟩ :=
    @mappages_spec _ _ _ _ _ _ _ _ m.phys_start _ _ h hnew hend hkernel hperm hb
  rw [mapKernel, hrun]
  cases ok with
  | false =>
    have := hstop rfl
    exact ⟨k', d', false, rfl, hb', hfill.rooted, fun hok => (nomatch hok), fun _ => by omega⟩
  | true =>
    obtain ⟨hfill', hlen⟩ := hdone rfl
    exact hrest k' d' hfill' hb' (by omega)

theorem mapKernel_spec {data : ℕ} (hlow : 0x80100 ≤ data) (hhigh : data ≤ 0x8e000)
    (h : Filling d (fun _ => False) 512 0x80000) (hb : Building free mem held k d) :
    Mapped free mem held k.freelist.length (mapKernel (kmap data) k d) := by
  have hzero : tablesTo 512 0x80000 = 0 := rfl
  have hkernel : tablesTo 512 0x8e000 = 56 := rfl
  have hdevices : tablesTo 1016 (0xfe000 + 0x2000) = 8 := rfl
  have hmono : ∀ a, a ≤ 0x8e000 → tablesTo 512 a ≤ 56 := fun a ha => by
    unfold tablesTo
    omega
  refine mapKernel_cons (c := 0) h (fun _ _ _ => id) (by decide) (by decide) (by decide) hb rfl
    (by decide) fun k₁ d₁ h₁ hb₁ hlen₁ => ?_
  dsimp only at h₁ hlen₁
  refine mapKernel_cons (c := 0) h₁ (fun _ _ _ => id) (by simp only [NPDENTRIES]; omega)
    (show 0x60000 ≤ 0x80100 by decide) (show (0 : BitVec 32).toNat < 4096 by decide) hb₁ hlen₁
    (by have := hmono (0x80100 + (data - 0x80100)) (by omega); dsimp only; omega)
    fun k₂ d₂ h₂ hb₂ hlen₂ => ?_
  dsimp only at h₂ hlen₂
  rw [Nat.add_sub_cancel' hlow] at h₂ hlen₂
  refine mapKernel_cons (c := 0) h₂ (fun _ _ _ => id) (by simp only [NPDENTRIES]; omega)
    (show 0x60000 ≤ data by omega) (show (2 : BitVec 32).toNat < 4096 by decide) hb₂ hlen₂
    (by have := hmono (data + (0x8e000 - data)) (by omega); dsimp only; omega)
    fun k₃ d₃ h₃ hb₃ hlen₃ => ?_
  dsimp only at h₃ hlen₃
  rw [Nat.add_sub_cancel' hhigh] at h₃ hlen₃
  -- the devices lie behind a gap of tables
  have h₃' := h₃.rebase 1016 (fun i : ℕ => (by rw [false_or]; omega :
    512 ≤ i ∧ i < 568 ↔ _)) (by decide)
  have hbase : tablesTo 1016 0xfe000 = 0 := rfl
  refine mapKernel_cons (c := 56) h₃' (fun i hi hi' hold => by dsimp only at hi hi'; omega)
    (by decide) (by decide) (by decide) hb₃ (by dsimp only; omega) (by decide)
    fun k₄ d₄ h₄ hb₄ hlen₄ => ?_
  dsimp only at h₄ hlen₄
  refine ⟨k₄, d₄, true, rfl, hb₄, h₄.rooted, fun _ => ⟨?_, by omega⟩, fun hok => (nomatch hok)⟩
  exact h₄.rebase 0 (fun i => by unfold KernelTable; omega) (by decide)

/-- The free list is that of `k` again, up to its order, and the pages that were not on it
keep their bytes. -/
def Restored (k k' : Kernel) : Prop :=
  (∀ f, f ∈ k'.freelist ↔ f ∈ k.freelist) ∧ ∀ f, f ∉ k.freelist → k'.mem f = k.mem f

theorem Building.restored {k₀ : Kernel}
    (hb : Building k₀.freelist k₀.mem (fun _ => False) k d) (hroot : Rooted d) :
    Restored k₀ (PageTables.freevm k d) := by
  refine ⟨fun f => ?_, fun f hf => ?_⟩
  · rw [hb.freevm hroot, or_false]
  · have howned : ¬ Owned d f := fun ho => hf ((hb.frames f).mpr (.inr (.inr ho)))
    rw [freevm_mem hroot howned, hb.kept f hf]

variable {data : ℕ}

/-- `setupkvm` needs 65 pages. -/
theorem setupkvm_spec (hlow : 0x80100 ≤ data) (hhigh : data ≤ 0x8e000) (k : Kernel) :
    (k.freelist.length < 65 ∧ ∃ k', setupkvm data k = some (k', none) ∧ Restored k k') ∨
    ∃ k' d, setupkvm data k = some (k', some d) ∧
      Building k.freelist k.mem (fun _ => False) k' d ∧ Filling d KernelTable 0 0 ∧
      k'.freelist.length + 65 = k.freelist.length := by
  rw [setupkvm]
  rcases kalloc_cases k with ⟨hfail, hempty⟩ | ⟨f, rest, hlist, halloc⟩
  · rw [hfail]
    exact .inl ⟨by rw [hempty]; decide, k, rfl, fun _ => Iff.rfl, fun _ _ => rfl⟩
  rw [halloc]
  have hb : Building k.freelist k.mem (fun _ => False)
      (memset { k with freelist := rest } f) ⟨f, fun _ => none, fun _ => none⟩ := by
    refine ⟨fun g => ?_, fun g hg => ?_⟩
    · rw [hlist, List.mem_cons, Owned, or_comm]
      simp [memset]
    · refine Function.update_of_ne ?_ ..
      rintro rfl
      exact hg (by rw [hlist]; exact List.mem_cons_self ..)
  have hfill : Filling ⟨f, fun _ => none, fun _ => none⟩ (fun _ => False) 512 0x80000 :=
    ⟨fun i => ⟨fun hne => absurd rfl hne, fun hin => hin.elim False.elim fun hlt => by omega⟩,
      fun _ hne => absurd rfl hne, fun _ => False.elim, by decide⟩
  obtain ⟨k', d, ok, hrun, hb', hroot, hdone, hstop⟩ := mapKernel_spec hlow hhigh hfill hb
  dsimp only
  rw [hrun]
  cases ok with
  | false =>
    have hfew := hstop rfl
    dsimp only [memset] at hfew
    refine .inl ⟨?_, _, rfl, hb'.restored hroot⟩
    rw [hlist, List.length_cons]
    omega
  | true =>
    obtain ⟨hfill', hlen⟩ := hdone rfl
    dsimp only [memset] at hlen
    refine .inr ⟨k', d, rfl, hb', hfill', ?_⟩
    rw [hlist, List.length_cons]
    omega

/-- Every page takes a frame, and the first page of a table one more. -/
theorem copyPages_spec {n : ℕ} {pgdir : PageDir} (h : Filling d KernelTable 0 a)
    (ha : a + n ≤ MMAPPAGE) (hpresent : ∀ page < a + n, lookup pgdir page ≠ none)
    (hb : Building free mem (fun _ => False) k d) :
    ∃ k' d' ok, copyPages pgdir n k d a = some (k', d', ok) ∧
      Building free mem (fun _ => False) k' d' ∧ Rooted d' ∧
      (ok = true → k'.freelist.length + n + tablesTo 0 (a + n) =
        k.freelist.length + tablesTo 0 a) ∧
      (ok = false → k.freelist.length + tablesTo 0 a < n + tablesTo 0 (a + n)) := by
  induction n generalizing k d a with
  | zero => exact ⟨k, d, true, rfl, hb, h.rooted, fun _ => rfl, fun hok => (nomatch hok)⟩
  | succ n ih =>
    rw [copyPages]
    obtain ⟨e, he⟩ := Option.ne_none_iff_exists'.mp (hpresent a (by omega))
    rw [he]
    rcases kalloc_cases k with ⟨hfail, hempty⟩ | ⟨f, rest, hlist, halloc⟩
    · rw [hfail]
      refine ⟨k, d, false, rfl, hb, h.rooted, fun hok => (nomatch hok), fun _ => ?_⟩
      rw [hempty, List.length_nil]
      unfold tablesTo
      omega
    rw [halloc]
    have hnew : ¬ KernelTable (a / 1024) := by
      simp only [KernelTable, MMAPPAGE] at *
      omega
    have hfree : f ∈ free := (hb.frames f).mpr (.inl (by rw [hlist]; exact List.mem_cons_self ..))
    have hperm : (e.perm &&& 0xfff).toNat < PGSIZE := by
      rw [BitVec.toNat_and]
      exact Nat.lt_of_le_of_lt Nat.and_le_right (by decide)
    have hb' : Building free mem (fun g => False ∨ a < MMAPPAGE ∧ g = f)
        (memmove { k with freelist := rest } f e.frame) d := by
      refine ⟨fun g => ?_, fun g hg => ?_⟩
      · rw [hb.frames, hlist, List.mem_cons]
        have hlt : a < MMAPPAGE := by omega
        dsimp only [memmove]
        tauto
      · refine (Function.update_of_ne ?_ ..).trans (hb.kept g hg)
        rintro rfl
        exact hg hfree
    have hlen : (memmove { k with freelist := rest } f e.frame).freelist.length + 1 =
        k.freelist.length := by
      rw [hlist, List.length_cons]
      rfl
    dsimp only
    rcases mapPage_spec h hnew (by simp only [NPDENTRIES, MMAPPAGE] at *; omega) hperm hb' with
      ⟨hmap, hempty, hmod⟩ | ⟨k₁, d₁, hmap, h₁, hb₁, hlen₁⟩
    · rw [hmap]
      refine ⟨_, d, false, rfl, ⟨fun g => ?_, fun g hg => ?_⟩, h.rooted, fun hok => (nomatch hok),
        fun _ => ?_⟩
      · rw [hb.frames, hlist, mem_kfree, List.mem_cons]
        dsimp only [memmove]
        tauto
      · refine (Function.update_of_ne ?_ ..).trans (hb'.kept g hg)
        rintro rfl
        exact hg hfree
      · rw [hempty, List.length_nil] at hlen
        unfold tablesTo
        omega
    · rw [hmap]
      obtain ⟨k', d', ok, hrun, hb₂, hroot, hdone, hstop⟩ := ih h₁ (by omega)
        (fun page hpage => hpresent page (by omega)) hb₁
      refine ⟨k', d', ok, hrun, hb₂, hroot, fun hok => ?_, fun hok => ?_⟩
      · have := hdone hok
        rw [show a + (n + 1) = a + 1 + n by omega]
        omega
      · have := hstop hok
        rw [show a + (n + 1) = a + 1 + n by omega]
        omega

/-- The pages that `copyuvm` takes for a process of `n` pages. -/
def uvmPages (n : ℕ) : ℕ := 65 + n + (n + 1023) / 1024

/-- `copyuvm` fails exactly when the free list is too short, and then undoes everything. -/
theorem copyuvm_spec (hlow : 0x80100 ≤ data) (hhigh : data ≤ 0x8e000) (k : Kernel)
    {pgdir : PageDir} {sz : ℕ} (hsz : (sz + 4095) / 4096 ≤ MMAPPAGE)
    (hpresent : ∀ page < (sz + 4095) / 4096, lookup pgdir page ≠ none) :
    (k.freelist.length < uvmPages ((sz + 4095) / 4096) ∧
      ∃ k', copyuvm data k pgdir sz = some (k', none) ∧ Restored k k') ∨
    ∃ k' d, copyuvm data k pgdir sz = some (k', some d) ∧
      k'.freelist.length + uvmPages ((sz + 4095) / 4096) = k.freelist.length := by
  rw [copyuvm]
  rcases setupkvm_spec hlow hhigh k with ⟨hfew, k', hsetup, hrestored⟩ | ⟨k₁, d, hsetup, hb, hfill, hlen⟩
  · rw [hsetup]
    exact .inl ⟨by unfold uvmPages; omega, k', rfl, hrestored⟩
  rw [hsetup]
  obtain ⟨k', d', ok, hrun, hb', hroot, hdone, hstop⟩ := copyPages_spec hfill
    (n := (sz + 4095) / 4096) (by omega) (by simpa using hpresent) hb
  dsimp only
  rw [hrun]
  simp only [Nat.zero_add, tablesTo] at hdone hstop
  cases ok with
  | false =>
    have := hstop rfl
    exact .inl ⟨by unfold uvmPages; omega, _, rfl, hb'.restored hroot⟩
  | true =>
    have := hdone rfl
    exact .inr ⟨k', d', rfl, by unfold uvmPages; omega⟩

end Build

end PageTables
