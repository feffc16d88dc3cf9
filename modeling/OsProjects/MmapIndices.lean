import OsProjects.MmapFrames
import OsProjects.MmapPlacement
import OsProjects.Runs

/-! # Indices into the mmap array

Every `p->mmaps[k]` of the functions that search, fill and empty the table, in the order of
the source. Index 32 is the counter behind the array, index -1 the words before it.
-/
namespace MmapIndices

open Word32 MmapTable MmapTracking MmapPlacement Runs
open MmapFrames (Machine Event exitArgs)
open MmapFrames.Exec (Step next)

def shiftRightAt (stop : ℤ) : ℕ → ℤ → List ℤ
  | 0, _ => []
  | n + 1, j => if j > stop then j :: (j - 1) :: shiftRightAt stop n (j - 1) else []

def mmp_insertAt (p : Proc) (length : BitVec 32) (i : ℤ) (mmapaddr : ℕ) : List ℤ :=
  shiftRightAt (i + 1) (p.total_mmaps - (i + 1)).toNat p.total_mmaps ++
    if pgRoundUp (wrap (mmapaddr + length.toNat)) ≥ KERNBASE then [] else [i + 1]

def checkGapAt (p : Proc) (addr : ℕ) (length : BitVec 32) (last : ℤ) : ℕ → ℤ → List ℤ
  | 0, _ => []
  | n + 1, i =>
    if i < last then
      let next_mmap_start := pgRoundUp (p.slot (i + 1)).addr
      let current_mmap_end := pgRoundUp (wrap ((p.slot i).addr + (p.slot i).length))
      (i + 1) :: i ::
        if addr ≥ current_mmap_end ∧ next_mmap_start ≥ wrap (addr + length.toNat) then []
        else checkGapAt p addr length last n (i + 1)
    else []

def mmp_checkAt (p : Proc) (addr : ℕ) (length : BitVec 32) : List ℤ :=
  let last := p.total_mmaps - 1
  last ::
    if addr > pgRoundUp (wrap ((p.slot last).addr + (p.slot last).length)) then
      mmp_insertAt p length last addr
    else
      checkGapAt p addr length last last.toNat 0 ++
        match checkGap p addr length last last.toNat 0 with
        | some i => mmp_insertAt p length i addr
        | none => []

/-- The comparison between neighbours that ends the search of `mmp_any`. -/
def Gap (p : Proc) (length : BitVec 32) (i : ℤ) : Prop :=
  let start_addr := pgRoundUp (wrap ((p.slot i).addr + (p.slot i).length))
  let end_addr := pgRoundUp (p.slot (i + 1)).addr
  let margin := if has (p.slot i).flags MAP_GROWSUP then PGSIZE else 0
  wrap (end_addr - start_addr) > wrap (length.toNat + margin)

instance (p : Proc) (length : BitVec 32) (i : ℤ) : Decidable (Gap p length i) :=
  inferInstanceAs (Decidable (wrap _ > wrap _))

def anyGapAt (p : Proc) (length : BitVec 32) : ℕ → ℤ → List ℤ
  | 0, _ => []
  | n + 1, i =>
    if i < p.total_mmaps then
      (i + 1) ::
        if (p.slot (i + 1)).addr ≠ 0 then
          i :: if Gap p length i then [] else anyGapAt p length n (i + 1)
        else []
    else []

def mmp_anyAt (p : Proc) (length : BitVec 32) : List ℤ :=
  if p.total_mmaps = 0 then
    if pgRoundUp (wrap (MMAPBASE + length.toNat)) ≥ KERNBASE then [] else [0]
  else
    0 :: if wrap ((p.slot 0).addr - MMAPBASE) > length.toNat then
      mmp_insertAt p length (-1) MMAPBASE
    else
      let i := anyGap p length p.total_mmaps.toNat 0
      let mmapaddr := pgRoundUp (wrap ((p.slot i).addr + (p.slot i).length))
      anyGapAt p length p.total_mmaps.toNat 0 ++ i ::
        if wrap (mmapaddr + length.toNat) > KERNBASE then [] else mmp_insertAt p length i mmapaddr

/-- The tests of `my_mmap` in front of the search. -/
def Accepted (p : Proc) (addr : BitVec 32) (f : File)
    (length offset flags protection : BitVec 32) : Prop :=
  badArgs f length offset flags protection = false ∧ p.total_mmaps ≠ 32 ∧
    ¬ (addr ≠ 0 ∧ (addr.toInt < MMAPBASE ∨
      pgRoundUp (wrap (pgRoundUp addr.toNat + length.toNat)) > KERNBASE ∨
      addr.toNat % PGSIZE ≠ 0))

instance (p : Proc) (addr : BitVec 32) (f : File) (length offset flags protection : BitVec 32) :
    Decidable (Accepted p addr f length offset flags protection) :=
  inferInstanceAs (Decidable (_ = false ∧ _ ≠ _ ∧ ¬ _))

def searchAt (p : Proc) (addr length flags : BitVec 32) : List ℤ :=
  if has flags MAP_FIXED then
    if addr ≠ 0 then mmp_checkAt p addr.toNat length else []
  else if addr ≠ 0 then mmp_checkAt p addr.toNat length
  else mmp_anyAt p length

/-- `my_mmap` fills the entry that its search answers, unless the answer is -1. -/
def fillAt (ks : List ℤ) (i : ℤ) : List ℤ := ks ++ if i = -1 then [] else [i]

def my_mmapAt (p : Proc) (addr : BitVec 32) (f : File)
    (length offset flags protection : BitVec 32) : List ℤ :=
  if Accepted p addr f length offset flags protection then
    fillAt (searchAt p addr length flags) (search p addr length flags).2
  else []

def findSlotAt (p : Proc) (mainaddr : ℕ) : ℕ → ℤ → List ℤ
  | 0, _ => []
  | n + 1, i => i :: if (p.slot i).addr = mainaddr then [] else findSlotAt p mainaddr n (i + 1)

def shiftLeftAt : ℕ → ℤ → Proc → List ℤ
  | 0, _, _ => []
  | n + 1, i, p =>
    if i < 32 then
      (i + 1) ::
        if (p.slot (i + 1)).addr ≠ 0 then i :: shiftLeftAt n (i + 1) (mmp_cpy p i (i + 1)) else []
    else []

def my_munmapAt (p : Proc) (addr length : BitVec 32) (written : ℤ) : List ℤ :=
  let mainaddr := pgRoundUp addr.toNat
  let unmapping_length := pgRoundUp length.toNat
  let i := findSlot p mainaddr 32 0
  findSlotAt p mainaddr 32 0 ++
    if i = 32 ∨ signed (p.slot i).length = 0 then []
    else
      i :: if writesBack (p.slot i).toMapping ∧ written < 0 then []
      else if (p.slot i).length ≤ unmapping_length then shiftLeftAt 32 i (clearSlot p i)
      else []

/-- The round of `delete_mmaps` in which `total_maps` is `n + 1`. -/
def delete_mmapsAt (p : Proc) (n : ℕ) (written : ℤ) : List ℤ :=
  (p.total_mmaps - 1) ::
    match exitArgs p n with
    | some (addr, length) => (n : ℤ) :: my_munmapAt p addr length written
    | none => []

def InArray (ks : List ℤ) : Prop := ∀ k ∈ ks, 0 ≤ k ∧ k < 32

instance (ks : List ℤ) : Decidable (InArray ks) :=
  inferInstanceAs (Decidable (∀ k ∈ ks, _ ∧ _))

section Lists

variable {k : ℤ} {ks ls : List ℤ}

@[simp] theorem inArray_nil : InArray [] := fun _ h => absurd h List.not_mem_nil

@[simp] theorem inArray_cons : InArray (k :: ks) ↔ (0 ≤ k ∧ k < 32) ∧ InArray ks :=
  List.forall_mem_cons

@[simp] theorem inArray_append : InArray (ks ++ ls) ↔ InArray ks ∧ InArray ls :=
  List.forall_mem_append

theorem fillAt_inArray (h : k = -1 ∨ k ∈ ks) : InArray (fillAt ks k) ↔ InArray ks := by
  rw [fillAt, inArray_append, and_iff_left_iff_imp]
  intro hks
  split_ifs with hk
  · exact inArray_nil
  · exact inArray_cons.mpr ⟨hks k (h.resolve_left hk), inArray_nil⟩

end Lists

section Search

variable {p : Proc} {length : BitVec 32} {i last stop j : ℤ} {n a : ℕ}

theorem shiftRightAt_inArray (hstop : 0 ≤ stop) (hj : j < 32) :
    InArray (shiftRightAt stop n j) := by
  induction n generalizing j with
  | zero => exact inArray_nil
  | succ n ih =>
    rw [shiftRightAt]
    split_ifs with hgt
    · exact inArray_cons.mpr ⟨by omega, inArray_cons.mpr ⟨by omega, ih (by omega)⟩⟩
    · exact inArray_nil

theorem mmp_insertAt_inArray (hi : 0 ≤ i + 1) (htot : p.total_mmaps < 32) :
    InArray (mmp_insertAt p length i a) ↔
      i + 1 < 32 ∨ pgRoundUp (wrap (a + length.toNat)) ≥ KERNBASE := by
  rw [mmp_insertAt, inArray_append, and_iff_right (shiftRightAt_inArray hi htot)]
  split_ifs with hhigh
  · simp [hhigh]
  · simp [hhigh, hi]

/-- The index that `mmp_insert` answers is the one it writes last. -/
theorem mmp_insert_mem (p : Proc) (length : BitVec 32) (i : ℤ) (a : ℕ) :
    (mmp_insert p length i a).2 = -1 ∨
      (mmp_insert p length i a).2 ∈ mmp_insertAt p length i a := by
  unfold mmp_insert mmp_insertAt
  dsimp only
  split_ifs with hhigh
  · exact .inl rfl
  · exact .inr (List.mem_append_right _ (List.mem_singleton_self _))

theorem checkGapAt_inArray (hi : 0 ≤ i) (hlast : last < 32) :
    InArray (checkGapAt p a length last n i) := by
  induction n generalizing i with
  | zero => exact inArray_nil
  | succ n ih =>
    rw [checkGapAt]
    dsimp only
    split_ifs with hlt hgap
    · simp only [inArray_cons, inArray_nil, and_true]
      omega
    · simp only [inArray_cons, ih (show 0 ≤ i + 1 by omega), and_true]
      omega
    · exact inArray_nil

theorem mmp_check_mem (p : Proc) (a : ℕ) (length : BitVec 32) :
    (mmp_check p a length).2 = -1 ∨ (mmp_check p a length).2 ∈ mmp_checkAt p a length := by
  unfold mmp_check mmp_checkAt
  dsimp only
  split_ifs with hbehind
  · exact (mmp_insert_mem ..).imp_right (List.mem_cons_of_mem _)
  · cases checkGap p a length (p.total_mmaps - 1) (p.total_mmaps - 1).toNat 0 with
    | none => exact .inl rfl
    | some i =>
      exact (mmp_insert_mem ..).imp_right fun h =>
        List.mem_cons_of_mem _ (List.mem_append_right _ h)

/-- A hint goes astray only in a process without mappings. -/
theorem mmp_checkAt_inArray (h0 : 0 ≤ p.total_mmaps) (htot : p.total_mmaps < 32) :
    InArray (mmp_checkAt p a length) ↔ p.total_mmaps ≠ 0 := by
  unfold mmp_checkAt
  dsimp only
  rw [inArray_cons]
  constructor
  · rintro ⟨⟨hlast, -⟩, -⟩
    omega
  · intro hne
    refine ⟨by omega, ?_⟩
    split_ifs with hbehind
    · exact (mmp_insertAt_inArray (by omega) htot).mpr (.inl (by omega))
    · refine inArray_append.mpr ⟨checkGapAt_inArray le_rfl (by omega), ?_⟩
      split
      next i hgap =>
        obtain ⟨k, rfl, hlt, -, -⟩ := checkGap_some (i := 0) (by exact_mod_cast hgap)
        exact (mmp_insertAt_inArray (by omega) htot).mpr (.inl (by omega))
      next => exact inArray_nil

theorem anyGap_succ (hi : i < p.total_mmaps) (hne : (p.slot (i + 1)).addr ≠ 0) :
    anyGap p length (n + 1) i = if Gap p length i then i else anyGap p length n (i + 1) := by
  rw [anyGap, if_pos ⟨hi, hne⟩]
  rfl

theorem anyGap_range (h : i ≤ p.total_mmaps) :
    i ≤ anyGap p length n i ∧ anyGap p length n i ≤ p.total_mmaps := by
  induction n generalizing i with
  | zero => exact ⟨le_rfl, h⟩
  | succ n ih =>
    by_cases hloop : i < p.total_mmaps ∧ (p.slot (i + 1)).addr ≠ 0
    · rw [anyGap_succ hloop.1 hloop.2]
      split_ifs with hgap
      · exact ⟨le_rfl, h⟩
      · obtain ⟨hlow, hhigh⟩ := ih (i := i + 1) (by omega)
        exact ⟨by omega, hhigh⟩
    · rw [anyGap, if_neg hloop]
      exact ⟨le_rfl, h⟩

/-- The search reaches the entry behind the last one only past used slots without a gap. -/
theorem anyGap_end_iff (hn : p.total_mmaps = i + n) :
    anyGap p length n i = p.total_mmaps ↔
      ∀ j, i ≤ j → j < p.total_mmaps → (p.slot (j + 1)).addr ≠ 0 ∧ ¬ Gap p length j := by
  induction n generalizing i with
  | zero => exact ⟨fun _ j hij hj => by omega, fun _ => by rw [anyGap]; omega⟩
  | succ n ih =>
    push_cast at hn
    have hrest := ih (i := i + 1) (by omega)
    constructor
    · intro hend j hij hj
      by_cases hloop : i < p.total_mmaps ∧ (p.slot (i + 1)).addr ≠ 0
      · rw [anyGap_succ hloop.1 hloop.2] at hend
        split_ifs at hend with hgap
        · omega
        · rcases eq_or_lt_of_le hij with rfl | hlt
          · exact ⟨hloop.2, hgap⟩
          · exact hrest.mp hend j (by omega) hj
      · rw [anyGap, if_neg hloop] at hend
        omega
    · intro hall
      obtain ⟨hne, hgap⟩ := hall i le_rfl (by omega)
      rw [anyGap_succ (by omega) hne, if_neg hgap]
      exact hrest.mpr fun j hij hj => hall j (by omega) hj

theorem anyGapAt_inArray (hi : 0 ≤ i) (htot : p.total_mmaps < 32) :
    InArray (anyGapAt p length n i) := by
  induction n generalizing i with
  | zero => exact inArray_nil
  | succ n ih =>
    rw [anyGapAt]
    split_ifs with hlt hne hgap
    · simp only [inArray_cons, inArray_nil, and_true]
      omega
    · simp only [inArray_cons, ih (show 0 ≤ i + 1 by omega), and_true]
      omega
    · simp only [inArray_cons, inArray_nil, and_true]
      omega
    · exact inArray_nil

theorem mmp_any_mem (p : Proc) (length : BitVec 32) :
    (mmp_any p length).2 = -1 ∨ (mmp_any p length).2 ∈ mmp_anyAt p length := by
  unfold mmp_any mmp_anyAt
  dsimp only
  split_ifs with hnone hhigh hfront htop
  · exact .inl rfl
  · exact .inr (List.mem_singleton_self _)
  · exact (mmp_insert_mem ..).imp_right (List.mem_cons_of_mem _)
  · exact .inl rfl
  · exact (mmp_insert_mem ..).imp_right fun h =>
      List.mem_cons_of_mem _ (List.mem_append_right _ (List.mem_cons_of_mem _ h))

/-- 31 mappings without a gap and a used slot behind them: the new entry is placed in slot 32,
the counter. -/
structure Packed (p : Proc) (length : BitVec 32) : Prop where
  total : p.total_mmaps = 31
  front : wrap ((p.slot 0).addr - MMAPBASE) ≤ length.toNat
  tight : ∀ j : ℤ, 0 ≤ j → j < 31 → (p.slot (j + 1)).addr ≠ 0 ∧ ¬ Gap p length j
  below : let a := pgRoundUp (wrap ((p.slot 31).addr + (p.slot 31).length))
    wrap (a + length.toNat) ≤ KERNBASE ∧ pgRoundUp (wrap (a + length.toNat)) < KERNBASE

theorem mmp_anyAt_inArray (h0 : 0 ≤ p.total_mmaps) (htot : p.total_mmaps < 32) :
    InArray (mmp_anyAt p length) ↔ ¬ Packed p length := by
  have hend := @anyGap_end_iff p length 0 p.total_mmaps.toNat (by omega)
  obtain ⟨hlow, hhigh⟩ := @anyGap_range p length 0 p.total_mmaps.toNat h0
  have hlist : InArray (anyGapAt p length p.total_mmaps.toNat 0) := anyGapAt_inArray le_rfl htot
  unfold mmp_anyAt
  dsimp only
  generalize anyGap p length p.total_mmaps.toNat 0 = i at hend hlow hhigh ⊢
  split_ifs with hnone hbound hfront htop
  · refine iff_of_true inArray_nil fun hp => ?_
    have := hp.total
    omega
  · refine iff_of_true (by simp) fun hp => ?_
    have := hp.total
    omega
  · refine iff_of_true ?_ fun hp => absurd hp.front (by omega)
    exact inArray_cons.mpr ⟨by omega, (mmp_insertAt_inArray (by omega) htot).mpr (.inl (by omega))⟩
  · refine iff_of_true ?_ fun hp => ?_
    · simp only [inArray_cons, inArray_append, hlist, inArray_nil, and_true, true_and]
      omega
    · have h31 : i = 31 := (hend.mpr (by rw [hp.total]; exact hp.tight)).trans hp.total
      subst h31
      exact absurd hp.below.1 (by omega)
  · simp only [inArray_cons, inArray_append, hlist, true_and,
      mmp_insertAt_inArray (show 0 ≤ i + 1 by omega) htot]
    constructor
    · rintro ⟨-, -, hin⟩ hp
      have h31 : i = 31 := (hend.mpr (by rw [hp.total]; exact hp.tight)).trans hp.total
      subst h31
      have := hp.below.2
      omega
    · intro hp
      refine ⟨by omega, by omega, ?_⟩
      by_contra hout
      rw [not_or] at hout
      have h31 : i = 31 := by omega
      have htotal : p.total_mmaps = 31 := by omega
      subst h31
      refine hp ⟨htotal, by omega, ?_, by omega, by omega⟩
      have htight := hend.mp htotal.symm
      rwa [htotal] at htight

end Search

section Calls

variable {p : Proc} {addr length : BitVec 32} {written : ℤ}

/-- A call of `my_mmap` that leaves the array: a hint in a process without mappings, or a new
entry behind a table with no room. -/
def MmapStrays (p : Proc) (addr : BitVec 32) (f : File)
    (length offset flags protection : BitVec 32) : Prop :=
  Accepted p addr f length offset flags protection ∧
    (addr ≠ 0 ∧ p.total_mmaps = 0 ∨
      addr = 0 ∧ has flags MAP_FIXED = false ∧ Packed p length)

theorem search_mem (p : Proc) (addr length flags : BitVec 32) :
    (search p addr length flags).2 = -1 ∨
      (search p addr length flags).2 ∈ searchAt p addr length flags := by
  unfold search searchAt
  split_ifs with hfixed haddr haddr
  · exact mmp_check_mem ..
  · exact .inl rfl
  · exact mmp_check_mem ..
  · exact mmp_any_mem ..

theorem searchAt_inArray (h0 : 0 ≤ p.total_mmaps) (htot : p.total_mmaps < 32)
    (addr length flags : BitVec 32) : InArray (searchAt p addr length flags) ↔
      ¬ (addr ≠ 0 ∧ p.total_mmaps = 0 ∨
        addr = 0 ∧ has flags MAP_FIXED = false ∧ Packed p length) := by
  unfold searchAt
  by_cases haddr : addr = 0
  · by_cases hfixed : has flags MAP_FIXED = true
    · simp [haddr, hfixed]
    · simp [haddr, hfixed, mmp_anyAt_inArray h0 htot]
  · have hhint : ¬ addr = 0#32 := haddr
    simp [hhint, mmp_checkAt_inArray h0 htot]

theorem my_mmapAt_inArray (h0 : 0 ≤ p.total_mmaps) (h32 : p.total_mmaps ≤ 32)
    (addr : BitVec 32) (f : File) (length offset flags protection : BitVec 32) :
    InArray (my_mmapAt p addr f length offset flags protection) ↔
      ¬ MmapStrays p addr f length offset flags protection := by
  unfold my_mmapAt MmapStrays
  split_ifs with haccept
  · have hroom := haccept.2.1
    rw [fillAt_inArray (search_mem ..), searchAt_inArray h0 (by omega), and_iff_right haccept]
  · exact iff_of_true inArray_nil fun h => haccept h.1

theorem findSlotAt_inArray {mainaddr n i : ℕ} (h : i + n ≤ 32) :
    InArray (findSlotAt p mainaddr n i) := by
  induction n generalizing i with
  | zero => exact inArray_nil
  | succ n ih =>
    rw [findSlotAt]
    split_ifs with hfound
    · simp only [inArray_cons, inArray_nil, and_true]
      omega
    · have hrest := ih (i := i + 1) (by omega)
      push_cast at hrest
      simp only [inArray_cons, hrest, and_true]
      omega

/-- The left shift ends inside the array at the first unused slot behind its start. -/
theorem shiftLeftAt_inArray {n i : ℕ} (hn : 32 ≤ i + n) (hi : i < 32) :
    InArray (shiftLeftAt n i p) ↔ ¬ ∀ k : ℕ, i < k → k < 32 → (p.slot k).addr ≠ 0 := by
  induction n generalizing i p with
  | zero => omega
  | succ n ih =>
    have hnext : ((i : ℤ) + 1) = ((i + 1 : ℕ) : ℤ) := by push_cast; rfl
    rw [shiftLeftAt, if_pos (by omega), inArray_cons, hnext]
    rcases Nat.lt_or_ge (i + 1) 32 with hlt | hlast
    · split_ifs with hused
      · have hcopy : ∀ k : ℕ, i < k → (mmp_cpy p i ((i + 1 : ℕ) : ℤ)).slot k = p.slot k :=
          fun k hk => by rw [mmp_cpy, slot_setSlot_of_ne _ (by omega) (by omega)]
        rw [inArray_cons, ih (by omega) hlt]
        have hbehind : (∀ k : ℕ, i + 1 < k → k < 32 →
            ((mmp_cpy p i ((i + 1 : ℕ) : ℤ)).slot k).addr ≠ 0) ↔
              ∀ k : ℕ, i < k → k < 32 → (p.slot k).addr ≠ 0 := by
          constructor
          · intro hall k hik hk
            rcases Nat.eq_or_lt_of_le hik with rfl | hgt
            · exact hused
            · rw [← hcopy k hik]
              exact hall k hgt hk
          · intro hall k hik hk
            rw [hcopy k (by omega)]
            exact hall k (by omega) hk
        rw [hbehind]
        exact ⟨fun h => h.2.2, fun h => ⟨by omega, by omega, h⟩⟩
      · refine iff_of_true ⟨by omega, inArray_nil⟩ fun hall => ?_
        exact hused (hall (i + 1) (Nat.lt_succ_self i) hlt)
    · refine iff_of_false (fun h => by omega) (not_not.mpr fun k hik hk => by omega)

/-- The entry that `my_munmap` finds goes as a whole and every slot behind it is used. -/
structure Flush (p : Proc) (addr length : BitVec 32) (written : ℤ) (j : ℕ) : Prop where
  inside : j < 32
  found : (p.slot j).addr = pgRoundUp addr.toNat
  first : ∀ i : ℕ, i < j → (p.slot i).addr ≠ pgRoundUp addr.toNat
  nonempty : signed (p.slot j).length ≠ 0
  saved : ¬ (writesBack (p.slot j).toMapping ∧ written < 0)
  whole : (p.slot j).length ≤ pgRoundUp length.toNat
  behind : ∀ k : ℕ, j < k → k < 32 → (p.slot k).addr ≠ 0

theorem my_munmapAt_inArray (p : Proc) (addr length : BitVec 32) (written : ℤ) :
    InArray (my_munmapAt p addr length written) ↔ ¬ ∃ j, Flush p addr length written j := by
  obtain ⟨j, hj, -, hj32, hbefore, hat⟩ :=
    findSlot_spec (p := p) (a := pgRoundUp addr.toNat) (n := 32) (i := 0) (by omega)
  have hlookup : InArray (findSlotAt p (pgRoundUp addr.toNat) 32 0) :=
    findSlotAt_inArray (i := 0) (by omega)
  have hsame : ∀ i, Flush p addr length written i → i = j := by
    intro i hf
    rcases lt_trichotomy i j with hlt | heq | hgt
    · exact absurd hf.found (hbefore i (Nat.zero_le i) hlt)
    · exact heq
    · exact absurd (hat (hgt.trans hf.inside)) (hf.first j hgt)
  unfold my_munmapAt
  dsimp only
  rw [show findSlot p (pgRoundUp addr.toNat) 32 0 = (j : ℤ) from hj, inArray_append,
    and_iff_right hlookup]
  split_ifs with hnone hback hwhole
  · refine iff_of_true inArray_nil ?_
    rintro ⟨i, hf⟩
    obtain rfl := hsame i hf
    have hin := hf.inside
    exact hnone.elim (by omega) hf.nonempty
  · rw [not_or] at hnone
    refine iff_of_true (inArray_cons.mpr ⟨by omega, inArray_nil⟩) ?_
    rintro ⟨i, hf⟩
    obtain rfl := hsame i hf
    exact hf.saved hback
  · rw [not_or] at hnone
    have hlt : j < 32 := by omega
    have hcleared : ∀ k : ℕ, j < k → (clearSlot p j).slot k = p.slot k := fun k hk => by
      rw [clearSlot, slot_setSlot_of_ne _ (by omega) (by omega)]
    rw [inArray_cons, and_iff_right (by omega), shiftLeftAt_inArray (by omega) hlt, not_iff_not]
    constructor
    · intro hall
      refine ⟨j, hlt, hat hlt, fun i hi => hbefore i (Nat.zero_le i) hi, hnone.2, hback, hwhole,
        fun k hjk hk => ?_⟩
      rw [← hcleared k hjk]
      exact hall k hjk hk
    · rintro ⟨i, hf⟩ k hjk hk
      obtain rfl := hsame i hf
      rw [hcleared k hjk]
      exact hf.behind k hjk hk
  · rw [not_or] at hnone
    refine iff_of_true (inArray_cons.mpr ⟨by omega, inArray_nil⟩) ?_
    rintro ⟨i, hf⟩
    obtain rfl := hsame i hf
    exact hwhole hf.whole

end Calls

section Written

variable {p : Proc} {k : ℤ}

theorem setSlot_mmaps {j : ℤ} (m : Mmp) (h : k ≠ j) : (p.setSlot j m).mmaps k = p.mmaps k := by
  unfold Proc.setSlot
  split_ifs with h32
  · exact Function.update_of_ne (h32 ▸ h) ..
  · exact Function.update_of_ne h ..

theorem shiftRight_mmaps {stop j : ℤ} {n : ℕ} (h : k ∉ shiftRightAt stop n j) :
    (shiftRight stop n j p).mmaps k = p.mmaps k := by
  induction n generalizing j p with
  | zero => rfl
  | succ n ih =>
    rw [shiftRightAt] at h
    rw [shiftRight]
    split_ifs at h ⊢ with hgt
    · simp only [List.mem_cons, not_or] at h
      rw [ih h.2.2, mmp_cpy, setSlot_mmaps _ h.1]
    · rfl

theorem mmp_insert_mmaps {length : BitVec 32} {i : ℤ} {a : ℕ}
    (h : k ∉ mmp_insertAt p length i a) : (mmp_insert p length i a).1.mmaps k = p.mmaps k := by
  rw [mmp_insertAt, List.mem_append, not_or] at h
  unfold mmp_insert
  dsimp only
  split_ifs at h ⊢ with hhigh
  · exact shiftRight_mmaps h.1
  · rw [setSlot_mmaps _ (fun he => h.2 (List.mem_singleton.mpr he)), shiftRight_mmaps h.1]

theorem mmp_check_mmaps {a : ℕ} {length : BitVec 32} (h : k ∉ mmp_checkAt p a length) :
    (mmp_check p a length).1.mmaps k = p.mmaps k := by
  unfold mmp_checkAt at h
  unfold mmp_check
  dsimp only at h ⊢
  rw [List.mem_cons, not_or] at h
  split_ifs at h ⊢ with hbehind
  · exact mmp_insert_mmaps h.2
  · rw [List.mem_append, not_or] at h
    cases hgap : checkGap p a length (p.total_mmaps - 1) (p.total_mmaps - 1).toNat 0 with
    | none => rfl
    | some i =>
      rw [hgap] at h
      exact mmp_insert_mmaps h.2.2

theorem mmp_any_mmaps {length : BitVec 32} (h : k ∉ mmp_anyAt p length) :
    (mmp_any p length).1.mmaps k = p.mmaps k := by
  unfold mmp_anyAt at h
  unfold mmp_any
  dsimp only at h ⊢
  split_ifs at h ⊢ with hnone hhigh hfront htop
  · rfl
  · exact setSlot_mmaps _ fun he => h (List.mem_singleton.mpr he)
  · exact mmp_insert_mmaps fun hk => h (List.mem_cons_of_mem _ hk)
  · rfl
  · exact mmp_insert_mmaps fun hk =>
      h (List.mem_cons_of_mem _ (List.mem_append_right _ (List.mem_cons_of_mem _ hk)))

/-- `my_mmap` leaves every slot outside its list as it was. -/
theorem my_mmap_mmaps {addr : BitVec 32} {f : File} {length offset flags protection : BitVec 32}
    (h : k ∉ my_mmapAt p addr f length offset flags protection) :
    (my_mmap p addr f length offset flags protection).1.mmaps k = p.mmaps k := by
  rw [my_mmap_eq]
  split_ifs with hbad hfull hhint
  · rfl
  · rfl
  · rfl
  rw [my_mmapAt, if_pos ⟨Bool.eq_false_iff.mpr hbad, hfull, hhint⟩, fillAt, List.mem_append,
    not_or] at h
  have hsearch : (search p addr length flags).1.mmaps k = p.mmaps k := by
    obtain ⟨h, -⟩ := h
    unfold searchAt at h
    unfold search
    split_ifs at h ⊢ with hfixed haddr haddr
    · exact mmp_check_mmaps h
    · rfl
    · exact mmp_check_mmaps h
    · exact mmp_any_mmaps h
  unfold fill
  by_cases hnone : (search p addr length flags).2 = -1
  · rw [if_pos hnone]
    exact hsearch
  · rw [if_neg hnone] at h ⊢
    exact (setSlot_mmaps _ fun he => h.2 (List.mem_singleton.mpr he)).trans hsearch

theorem shiftLeft_mmaps {n : ℕ} {i : ℤ} (h : k ∉ shiftLeftAt n i p) :
    (shiftLeft n i p).mmaps k = p.mmaps k := by
  induction n generalizing i p with
  | zero => rfl
  | succ n ih =>
    rw [shiftLeftAt] at h
    rw [shiftLeft]
    by_cases hloop : i < 32 ∧ (p.slot (i + 1)).addr ≠ 0
    · rw [if_pos hloop.1, if_pos hloop.2] at h
      simp only [List.mem_cons, not_or] at h
      rw [if_pos hloop, ih h.2.2, mmp_cpy, setSlot_mmaps _ h.2.1]
    · rw [if_neg hloop]

theorem releasePages_pgdir (addr : BitVec 32) (n c : ℕ) (fr : Frames) (p : Proc) :
    ∃ d, (releasePages addr n c fr p).2 = { p with pgdir := d } := by
  induction n generalizing c fr p with
  | zero => exact ⟨p.pgdir, rfl⟩
  | succ n ih =>
    simp only [releasePages]
    split_ifs
    · exact ih ..
    · exact ih ..

theorem mmp_cpy_withPgdir (d : ℕ → Option ℕ) (dst src : ℤ) :
    mmp_cpy { p with pgdir := d } dst src = { mmp_cpy p dst src with pgdir := d } := by
  unfold mmp_cpy Proc.setSlot
  split_ifs <;> rfl

theorem shiftLeftAt_withPgdir (d : ℕ → Option ℕ) (n : ℕ) (i : ℤ) (p : Proc) :
    shiftLeftAt n i { p with pgdir := d } = shiftLeftAt n i p := by
  induction n generalizing i p with
  | zero => rfl
  | succ n ih =>
    rw [shiftLeftAt, shiftLeftAt, mmp_cpy_withPgdir, ih]
    rfl

theorem clearSlot_withPgdir (d : ℕ → Option ℕ) (i : ℤ) :
    clearSlot { p with pgdir := d } i = { clearSlot p i with pgdir := d } := by
  unfold clearSlot Proc.setSlot
  split_ifs <;> rfl

theorem my_munmap_mmaps {fr : Frames} {addr length : BitVec 32} {written : ℤ}
    (h : k ∉ my_munmapAt p addr length written) :
    (my_munmap fr p addr length written).2.1.mmaps k = p.mmaps k := by
  unfold my_munmapAt at h
  unfold my_munmap
  dsimp only at h ⊢
  generalize findSlot p (pgRoundUp addr.toNat) 32 0 = i at h ⊢
  rw [List.mem_append, not_or] at h
  obtain ⟨d, hreleased⟩ := releasePages_pgdir addr
    ((min (signed (pgRoundUp length.toNat)) (signed (p.slot i).length) + 4095) / 4096).toNat 0 fr p
  have hslot : ({ p with pgdir := d } : Proc).slot i = p.slot i := rfl
  rw [hreleased, hslot]
  split_ifs at h ⊢ with hnone hback hwhole
  · rfl
  · rfl
  · simp only [List.mem_cons, not_or] at h
    have hshift := shiftLeft_mmaps (p := clearSlot { p with pgdir := d } i) (n := 32) (k := k)
      (i := i) (by rw [clearSlot_withPgdir, shiftLeftAt_withPgdir]; exact h.2.2)
    exact hshift.trans (setSlot_mmaps _ h.2.1)
  · exact setSlot_mmaps _ fun he => h.2 (List.mem_cons.mpr (.inl he))

end Written

def actor : Step → ℕ
  | .event (.mmap i ..) | .event (.fault i ..) | .event (.fork i ..) | .event (.munmap i ..)
  | .event (.exitBegin i) | .event (.exitStep i _) | .event (.exitEnd i) | .event (.reap i)
  | .exec i => i

/-- The indices that a step uses; a step that cannot be taken uses none. -/
def touched (s : Machine) : Step → List ℤ
  | .event (.mmap i addr f length offset flags protection) =>
    if s.phase i = .live then my_mmapAt (s.procs i) addr f length offset flags protection else []
  | .event (.munmap i addr length written) =>
    if s.phase i = .live then my_munmapAt (s.procs i) addr length written else []
  | .event (.exitStep i written) =>
    match s.phase i with
    | .exiting (n + 1) => delete_mmapsAt (s.procs i) n written
    | _ => []
  | _ => []

/-- The acting process has 0 to 32 mappings. -/
def Counted (s : Machine) (e : Step) : Prop :=
  0 ≤ (s.procs (actor e)).total_mmaps ∧ (s.procs (actor e)).total_mmaps ≤ 32

instance (s : Machine) (e : Step) : Decidable (Counted s e) := inferInstanceAs (Decidable (_ ∧ _))

/-- The round of `delete_mmaps` unmaps an entry with used slots only behind it. -/
def RoundStrays (p : Proc) (n : ℕ) (written : ℤ) : Prop :=
  ∃ addr length j, exitArgs p n = some (addr, length) ∧ Flush p addr length written j

def Strays (s : Machine) : Step → Prop
  | .event (.mmap i addr f length offset flags protection) =>
    s.phase i = .live ∧ MmapStrays (s.procs i) addr f length offset flags protection
  | .event (.munmap i addr length written) =>
    s.phase i = .live ∧ ∃ j, Flush (s.procs i) addr length written j
  | .event (.exitStep i written) =>
    ∃ n, s.phase i = .exiting (n + 1) ∧ RoundStrays (s.procs i) n written
  | _ => False

section Rounds

variable {s s' : Machine} {i : ℕ} {p : Proc} {n : ℕ}

theorem delete_mmapsAt_inArray (hn : (n : ℤ) + 1 ≤ p.total_mmaps) (h32 : p.total_mmaps ≤ 32)
    (written : ℤ) : InArray (delete_mmapsAt p n written) ↔ ¬ RoundStrays p n written := by
  unfold delete_mmapsAt RoundStrays
  rw [inArray_cons, and_iff_right (by omega)]
  cases hargs : exitArgs p n with
  | none => exact iff_of_true inArray_nil fun ⟨_, _, _, h, _⟩ => absurd h (by simp)
  | some args =>
    obtain ⟨addr, length⟩ := args
    dsimp only
    rw [inArray_cons, and_iff_right (by omega), my_munmapAt_inArray, not_iff_not]
    constructor
    · rintro ⟨j, hj⟩
      exact ⟨addr, length, j, rfl, hj⟩
    · rintro ⟨_, _, j, h, hj⟩
      cases h
      exact ⟨j, hj⟩

theorem my_munmap_total (k : Frames) (p : Proc) (addr length : BitVec 32) (written : ℤ) :
    p.total_mmaps - 1 ≤ (my_munmap k p addr length written).2.1.total_mmaps := by
  obtain ⟨j, hj, -, hj32, -, -⟩ :=
    findSlot_spec (p := p) (a := pgRoundUp addr.toNat) (n := 32) (i := 0) (by omega)
  unfold my_munmap
  dsimp only
  rw [show findSlot p (pgRoundUp addr.toNat) 32 0 = (j : ℤ) from hj]
  have hreleased := fun n => (releasePages_table addr n 0 k p).2
  split_ifs with hnone hback hwhole
  · exact Int.sub_le_self _ (by decide)
  · exact Int.sub_le_self _ (by decide)
  · rw [not_or] at hnone
    simp only [shiftLeft_total, clearSlot, setSlot_total _ hnone.1, hreleased, le_refl]
  · rw [not_or] at hnone
    rw [setSlot_total _ hnone.1, hreleased]
    exact Int.sub_le_self _ (by decide)

/-- A process inside `delete_mmaps` has at least as many mappings as rounds to go. -/
def Rounds (s : Machine) : Prop :=
  ∀ i n, s.phase i = .exiting (n + 1) → (n : ℤ) + 1 ≤ (s.procs i).total_mmaps

theorem Rounds.set (h : Rounds s) {k : Frames} (hi : ∀ n, s.phase i ≠ .exiting (n + 1)) :
    Rounds (s.set i p k) := by
  intro j n hj
  rcases eq_or_ne j i with rfl | hne
  · exact absurd hj (hi n)
  · simp only [Machine.set, Function.update_of_ne hne]
    exact h j n hj

theorem Rounds.setPhase (h : Rounds s) {f : MmapFrames.Phase}
    (hf : ∀ n, f = .exiting (n + 1) → (n : ℤ) + 1 ≤ (s.procs i).total_mmaps) :
    Rounds (s.setPhase i f) := by
  intro j n hj
  rcases eq_or_ne j i with rfl | hne
  · simp only [Machine.setPhase, Function.update_self] at hj
    exact hf n hj
  · simp only [Machine.setPhase, Function.update_of_ne hne] at hj
    exact h j n hj

theorem not_exiting {f : MmapFrames.Phase} (h : s.phase i = f) (hf : ∀ n, f ≠ .exiting (n + 1)) :
    ∀ n, s.phase i ≠ .exiting (n + 1) := fun n => h ▸ hf n

/-- One more round, which takes at most one entry off. -/
theorem Rounds.round (h : Rounds s) {n : ℕ} (hi : s.phase i = .exiting (n + 1)) {q : Proc}
    (k : Frames) (hq : (s.procs i).total_mmaps - 1 ≤ q.total_mmaps) :
    Rounds ((s.set i q k).setPhase i (.exiting n)) := by
  have hround := h i n hi
  intro j t hj
  rcases eq_or_ne j i with rfl | hne
  · simp only [Machine.set, Machine.setPhase, Function.update_self,
      MmapFrames.Phase.exiting.injEq] at hj ⊢
    omega
  · simp only [Machine.set, Machine.setPhase, Function.update_of_ne hne] at hj ⊢
    exact h j t hj

theorem event_rounds {e : Event} (h : Rounds s) (hs : MmapFrames.next s e = some s') :
    Rounds s' := by
  cases MmapFrames.next_moved hs with
  | mmap live => exact h.set (not_exiting live nofun)
  | fault live => exact h.set (not_exiting live nofun)
  | @fork i j answers s' live unused forked =>
    obtain ⟨⟨m, q, c, ok⟩, -, rfl⟩ := Option.map_eq_some_iff.mp forked
    have hset : Rounds ((s.set i q m.frames).set j c m.frames) :=
      (h.set (not_exiting live nofun)).set
        (not_exiting (s := s.set i q m.frames) unused nofun)
    dsimp only
    split_ifs
    · exact hset.setPhase nofun
    · exact hset
  | munmap live => exact h.set (not_exiting live nofun)
  | exitBegin live =>
    refine h.setPhase fun n hn => ?_
    have htotal := MmapFrames.Phase.exiting.inj hn
    omega
  | @skipped i n written inside ref =>
    have hround := h i n inside
    refine h.setPhase fun m hm => ?_
    have hn := MmapFrames.Phase.exiting.inj hm
    omega
  | round inside args => exact h.round inside _ (my_munmap_total ..)
  | exitEnd done => exact (h.set (not_exiting done nofun)).setPhase nofun
  | reap zombie => exact h.setPhase nofun

theorem next_rounds {e : Step} (h : Rounds s) (hs : next s e = some s') : Rounds s' := by
  cases e with
  | event e => exact event_rounds h hs
  | exec i =>
    rw [next] at hs
    split_ifs at hs with hphase
    cases hs
    exact (h.set (not_exiting hphase nofun)).setPhase nofun

/-- Outside the three stray cases every index is that of a slot. -/
theorem touched_inArray {e : Step} (h : Rounds s) (hc : Counted s e) :
    InArray (touched s e) ↔ ¬ Strays s e := by
  have hnone : ∀ {P : Prop}, ¬ P → (InArray [] ↔ ¬ P) := fun h => iff_of_true inArray_nil h
  cases e with
  | exec i => exact hnone nofun
  | event e =>
    cases e with
    | mmap i addr f length offset flags protection =>
      have hrun := my_mmapAt_inArray (p := s.procs i) hc.1 hc.2 addr f length offset flags protection
      simp only [touched, Strays]
      split_ifs with hlive
      · rw [hrun, and_iff_right hlive]
      · exact hnone fun h => hlive h.1
    | munmap i addr length written =>
      simp only [touched, Strays]
      split_ifs with hlive
      · rw [my_munmapAt_inArray, and_iff_right hlive]
      · exact hnone fun h => hlive h.1
    | exitStep i written =>
      simp only [touched, Strays]
      split
      next n hphase =>
        rw [delete_mmapsAt_inArray (h i n hphase) hc.2, not_iff_not]
        constructor
        · exact fun hr => ⟨n, hphase, hr⟩
        · rintro ⟨t, ht, hr⟩
          cases hphase.symm.trans ht
          exact hr
      next hphase => exact hnone fun ⟨n, hn, _⟩ => hphase n hn
    | fault => exact hnone nofun
    | fork => exact hnone nofun
    | exitBegin => exact hnone nofun
    | exitEnd => exact hnone nofun
    | reap => exact hnone nofun

end Rounds

/-- No process is inside `exit` or `exec`. -/
def Idle (s : Machine) : Prop := ∀ i n, s.phase i ≠ .exiting n

/-- Along every run, the indices of states with 0 to 32 mappings are those of slots exactly
when no such step is one of the stray ones. -/
theorem indices_in_array_iff {s : Machine} (h : Idle s) (es : List Step) :
    Along next (fun s e => Counted s e → InArray (touched s e)) s es ↔
      Along next (fun s e => Counted s e → ¬ Strays s e) s es := by
  refine along_iff (fun s e hr => forall_congr' fun hc => touched_inArray hr hc)
    (fun s e s' hr _ hs => next_rounds hr hs) ?_
  exact fun i n hi => absurd hi (h i (n + 1))

def firstProcess : Machine :=
  ⟨fun _ => ⟨fun _ => Mmp.zero, 0, fun _ => none, false⟩,
    fun i => if i = 0 then .live else .unused, ⟨fun _ => true, false⟩⟩

theorem firstProcess_idle : Idle firstProcess := by
  intro i n
  unfold firstProcess
  dsimp only
  split_ifs <;> nofun

/-- A private anonymous page, at `addr` if that is not 0. -/
def page (addr : BitVec 32) : Step := .event (.mmap 0 addr ⟨0, true, true⟩ 4096 0 5 3)

def threePages : List Step :=
  [page 0, page 0, page 0x60005000, .event (.munmap 0 0x60001000 4096 0),
    .event (.exitBegin 0), .event (.exitStep 0 0), .event (.exitStep 0 0), .exec 0]

theorem three_pages_inside : (run next firstProcess threePages).isSome = true ∧
    Along next (fun s e => Counted s e → ¬ Strays s e) firstProcess threePages :=
  ⟨by decide +kernel, (indices_in_array_iff firstProcess_idle threePages).mp (by decide +kernel)⟩

/-- The hint of a first call is compared with the entry in front of the array. -/
theorem first_hint_outside : Idle firstProcess ∧
    touched firstProcess (page 0x60000000) = [-1, 0, 0] ∧
    ¬ Along next (fun s e => Counted s e → InArray (touched s e)) firstProcess
      [page 0x60000000] :=
  ⟨firstProcess_idle, by decide +kernel, by decide +kernel⟩

end MmapIndices
