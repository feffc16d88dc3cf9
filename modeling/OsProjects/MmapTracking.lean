import OsProjects.MmapTable
import OsProjects.Runs
import Mathlib.Data.List.Sort
import Mathlib.Data.List.InsertIdx

/-! # Which mappings the region table tracks

The table of one process under any sequence of `my_mmap` calls with hint 0 and
`my_munmap` calls of whole mappings. `live` is the abstract account: the mappings created
and not yet unmapped. The table follows it exactly as long as each removal takes the
mapping with the highest address out of a table that is not full.
-/
namespace MmapTracking

open Word32 MmapTable

/-- The table holds exactly the mappings `l`, in this order, and nothing behind them. -/
structure Table (p : Proc) (l : List Mapping) : Prop where
  total : p.total_mmaps = l.length
  entries : ∀ k (h : k < l.length), (p.slot k).toMapping = l[k]
  rest : ∀ k : ℕ, l.length ≤ k → k < 32 → (p.slot k).addr = 0

/-- The table holds the mappings `l`; the slots behind them hold no address of a mapping. -/
structure Listed (p : Proc) (l : List Mapping) : Prop where
  total : p.total_mmaps = l.length
  entries : ∀ k (h : k < l.length), (p.slot k).toMapping = l[k]
  rest : ∀ k : ℕ, l.length ≤ k → k < 32 → (p.slot k).addr < 4096

theorem Table.listed {p : Proc} {l : List Mapping} (h : Table p l) : Listed p l :=
  ⟨h.total, h.entries, fun k hk hk32 => by rw [h.rest k hk hk32]; decide⟩

/-- Free slots also have length 0, which is what makes `my_munmap(0, n)` fail. -/
def Blank (p : Proc) (n : ℕ) : Prop := ∀ k : ℕ, n ≤ k → k < 32 → (p.slot k).length = 0

def Placed (m : Mapping) : Prop :=
  MMAPBASE ≤ m.addr ∧ m.addr % 4096 = 0 ∧ 0 < m.length ∧ m.addr + m.length ≤ KERNBASE - 4096

structure Layout (l : List Mapping) : Prop where
  placed : ∀ m ∈ l, Placed m
  apart : l.Pairwise fun a b => a.addr + a.length ≤ b.addr

theorem Placed.signed_length {m : Mapping} (h : Placed m) : signed m.length = m.length := by
  obtain ⟨ha, _, _, he⟩ := h
  simp only [MMAPBASE, KERNBASE] at ha he
  exact signed_of_lt (by omega)

theorem mmp_cpy_slot {p : Proc} {dst src k : ℤ} (hd : dst ≠ 32) :
    ((mmp_cpy p dst src).slot k).toMapping =
      if k = dst then (p.slot src).toMapping else (p.slot k).toMapping := by
  by_cases hk : k = dst
  · subst k; simp [mmp_cpy, hd]
  · simp [mmp_cpy, slot_setSlot_of_ne _ hd hk, hk]

theorem mmp_cpy_total {p : Proc} {dst src : ℤ} (hd : dst ≠ 32) :
    (mmp_cpy p dst src).total_mmaps = p.total_mmaps := by
  simp [mmp_cpy, hd]

/-- The right shift moves the entries behind `e` up by one and nothing else. -/
theorem shiftRight_spec {e j : ℤ} {n : ℕ} {p : Proc} (hn : j = e + n) (hj : j < 32) :
    (shiftRight e n j p).total_mmaps = p.total_mmaps ∧
    ∀ k, ((shiftRight e n j p).slot k).toMapping =
      if e < k ∧ k ≤ j then (p.slot (k - 1)).toMapping else (p.slot k).toMapping := by
  induction n generalizing j p with
  | zero =>
    refine ⟨rfl, fun k => ?_⟩
    rw [if_neg (show ¬ (e < k ∧ k ≤ j) by omega)]
    rfl
  | succ n ih =>
    have hgt : j > e := by omega
    have hd : j ≠ 32 := by omega
    rw [shiftRight, if_pos hgt]
    obtain ⟨ht, hs⟩ := ih (p := mmp_cpy p j (j - 1)) (j := j - 1) (by omega) (by omega)
    refine ⟨ht.trans (mmp_cpy_total hd), fun k => ?_⟩
    rw [hs k, mmp_cpy_slot hd, mmp_cpy_slot hd]
    by_cases hkj : k = j
    · subst k
      rw [if_neg (show ¬ (e < j ∧ j ≤ j - 1) by omega), if_pos rfl, if_pos ⟨hgt, le_rfl⟩]
    · by_cases hin : e < k ∧ k ≤ j
      · rw [if_pos (show e < k ∧ k ≤ j - 1 by omega), if_neg (show k - 1 ≠ j by omega), if_pos hin]
      · rw [if_neg (show ¬ (e < k ∧ k ≤ j - 1) by omega), if_neg hkj, if_neg hin]

/-- `p'` is `p` with slot `pos` opened among its first `n` entries. -/
structure Opened (p p' : Proc) (n pos : ℕ) : Prop where
  total : p'.total_mmaps = p.total_mmaps
  low : ∀ k : ℕ, k < pos → (p'.slot k).toMapping = (p.slot k).toMapping
  high : ∀ k : ℕ, pos < k → k ≤ n → (p'.slot k).toMapping = (p.slot ((k - 1 : ℕ) : ℤ)).toMapping
  rest : ∀ k : ℕ, n < k → k < 32 → (p'.slot k).toMapping = (p.slot k).toMapping

/-- Inserting behind position `i` of a table with room, when the address bound holds. -/
theorem mmp_insert_spec {p : Proc} {n : ℕ} (htot : p.total_mmaps = n) (hl : n < 32)
    (length : BitVec 32) {pos : ℕ} (hpos : pos ≤ n) {i : ℤ} (hi : i + 1 = pos) {a : ℕ}
    (hb : pgRoundUp (wrap (a + length.toNat)) < KERNBASE) :
    ∃ p' : Proc, mmp_insert p length i a = (p', (pos : ℤ)) ∧ Opened p p' n pos ∧
      (p'.slot pos).addr = a ∧ (p'.slot pos).length = length.toNat := by
  obtain ⟨hst, hss⟩ := shiftRight_spec (e := pos) (j := p.total_mmaps)
    (n := (p.total_mmaps - pos).toNat) (p := p) (by omega) (by omega)
  set q := shiftRight (pos : ℤ) (p.total_mmaps - pos).toNat p.total_mmaps p with hq
  have hp32 : (pos : ℤ) ≠ 32 := by omega
  have hrun : mmp_insert p length i a =
      (q.setSlot pos { q.slot pos with addr := a, length := length.toNat }, (pos : ℤ)) := by
    simp only [mmp_insert, hi, ← hq]
    exact if_neg (not_le.mpr hb)
  have hother : ∀ k : ℤ, k ≠ pos →
      ((q.setSlot pos { q.slot pos with addr := a, length := length.toNat }).slot k).toMapping =
        if (pos : ℤ) < k ∧ k ≤ p.total_mmaps then (p.slot (k - 1)).toMapping
        else (p.slot k).toMapping := by
    intro k hk
    rw [slot_setSlot_of_ne _ hp32 hk, hss k]
  refine ⟨_, hrun, ⟨?_, ?_, ?_, ?_⟩, ?_, ?_⟩
  · rw [setSlot_total _ hp32, hst]
  · intro k hk
    rw [hother k (by omega), if_neg (show ¬ ((pos : ℤ) < k ∧ (k : ℤ) ≤ p.total_mmaps) by omega)]
  · intro k hk hkl
    rw [hother k (by omega), if_pos (show (pos : ℤ) < k ∧ (k : ℤ) ≤ p.total_mmaps by omega),
      Nat.cast_sub (by omega : 1 ≤ k), Nat.cast_one]
  · intro k hk hkl
    rw [hother k (by omega), if_neg (show ¬ ((pos : ℤ) < k ∧ (k : ℤ) ≤ p.total_mmaps) by omega)]
  · rw [slot_setSlot_self _ hp32]
  · rw [slot_setSlot_self _ hp32]

section Filled

variable {p p' : Proc} {l : List Mapping} {pos : ℕ}

/-- The table after `my_mmap` has filled the opened slot. -/
def filled (p' : Proc) (pos : ℕ) (m : Mmp) : Proc :=
  { p'.setSlot pos m with total_mmaps := p'.total_mmaps + 1 }

theorem filled_slot (hpos : pos < 32) (m : Mmp) {k : ℕ} (hk : k < 32) :
    (filled p' pos m).slot k = if k = pos then m else p'.slot k := by
  have h32 : (k : ℤ) ≠ 32 := by omega
  have hp32 : (pos : ℤ) ≠ 32 := by omega
  by_cases hkp : k = pos
  · subst k; simp [filled, Proc.slot, Proc.setSlot, h32]
  · have hkz : (k : ℤ) ≠ pos := by omega
    simp [filled, Proc.slot, Proc.setSlot, h32, hp32, hkp]

/-- The new mapping is inserted at its place, and the slots behind the table stay. -/
theorem Opened.inserted (ho : Opened p p' l.length pos) (htotal : p.total_mmaps = l.length)
    (hentries : ∀ k (h : k < l.length), (p.slot k).toMapping = l[k]) (hl : l.length < 32)
    (hpos : pos ≤ l.length) (m : Mmp) :
    (filled p' pos m).total_mmaps = (l.insertIdx pos m.toMapping).length ∧
      (∀ k (h : k < (l.insertIdx pos m.toMapping).length),
        ((filled p' pos m).slot k).toMapping = (l.insertIdx pos m.toMapping)[k]) ∧
      ∀ k : ℕ, l.length < k → k < 32 →
        ((filled p' pos m).slot k).toMapping = (p.slot k).toMapping := by
  have hlen : (l.insertIdx pos m.toMapping).length = l.length + 1 :=
    List.length_insertIdx_of_le_length hpos _
  refine ⟨?_, fun k hk => ?_, fun k hkl hk => ?_⟩
  · have hopened := ho.total
    rw [hlen]
    simp only [filled]
    omega
  · rw [hlen] at hk
    rw [filled_slot (by omega) m (by omega)]
    rcases lt_trichotomy k pos with h | h | h
    · rw [if_neg (by omega), ho.low k h, hentries k (by omega), List.getElem_insertIdx_of_lt h]
    · subst k; rw [if_pos rfl, List.getElem_insertIdx_self]
    · rw [if_neg (by omega), ho.high k h (by omega), hentries (k - 1) (by omega),
        List.getElem_insertIdx_of_gt h]
  · rw [filled_slot (by omega) m hk, if_neg (by omega)]
    exact ho.rest k hkl hk

theorem Opened.listed (ho : Opened p p' l.length pos) (ht : Listed p l) (hl : l.length < 32)
    (hpos : pos ≤ l.length) (m : Mmp) :
    Listed (filled p' pos m) (l.insertIdx pos m.toMapping) := by
  obtain ⟨htotal, hentries, hrest⟩ := ho.inserted ht.total ht.entries hl hpos m
  refine ⟨htotal, hentries, fun k hkl hk => ?_⟩
  rw [List.length_insertIdx_of_le_length hpos] at hkl
  rw [hrest k (by omega) hk]
  exact ht.rest k (by omega) hk

theorem Opened.filled (ho : Opened p p' l.length pos)
    (ht : Table p l) (hb : Blank p l.length) (hl : l.length < 32) (hpos : pos ≤ l.length)
    (m : Mmp) :
    Table (filled p' pos m) (l.insertIdx pos m.toMapping) ∧
      Blank (MmapTracking.filled p' pos m) (l.length + 1) := by
  obtain ⟨htotal, hentries, hrest⟩ := ho.inserted ht.total ht.entries hl hpos m
  refine ⟨⟨htotal, hentries, fun k hkl hk => ?_⟩, fun k hkl hk => ?_⟩
  · rw [List.length_insertIdx_of_le_length hpos] at hkl
    rw [hrest k (by omega) hk]
    exact ht.rest k (by omega) hk
  · rw [hrest k (by omega) hk]
    exact hb k (by omega) hk

end Filled

/-- A range of `length` bytes at `a` that may be inserted at position `pos`. -/
structure Fits (l : List Mapping) (pos a length : ℕ) : Prop where
  inside : pos ≤ l.length
  base : MMAPBASE ≤ a
  aligned : a % 4096 = 0
  positive : 0 < length
  top : a + length ≤ KERNBASE - 4096
  above : ∀ k (h : k < l.length), k < pos → l[k].addr + l[k].length ≤ a
  below : ∀ k (h : k < l.length), pos ≤ k → a + length ≤ l[k].addr

theorem getElem_apart {l : List Mapping} (h : l.Pairwise fun a b => a.addr + a.length ≤ b.addr)
    {i j : ℕ} (hj : j < l.length) (hij : i < j) : l[i].addr + l[i].length ≤ l[j].addr :=
  List.pairwise_iff_getElem.mp h i j (by omega) hj hij

theorem Fits.pairwise_insert {l : List Mapping} {pos : ℕ} {m : Mapping}
    (h : l.Pairwise fun a b => a.addr + a.length ≤ b.addr) (hf : Fits l pos m.addr m.length) :
    (l.insertIdx pos m).Pairwise fun a b => a.addr + a.length ≤ b.addr := by
  have hapart {i j : ℕ} (hj : j < l.length) (hij : i < j) :
      l[i].addr + l[i].length ≤ l[j].addr :=
    List.pairwise_iff_getElem.mp h i j (by omega) hj hij
  have hlen := List.length_insertIdx_of_le_length hf.inside m
  refine List.pairwise_iff_getElem.mpr ?_
  intro i j hi hj hij
  have hjl : j < l.length + 1 := hlen ▸ hj
  rcases lt_trichotomy i pos with hip | hip | hip
  · rw [List.getElem_insertIdx_of_lt hip]
    rcases lt_trichotomy j pos with hjp | hjp | hjp
    · rw [List.getElem_insertIdx_of_lt hjp]
      have := hf.inside
      exact hapart (by omega) hij
    · subst j
      rw [List.getElem_insertIdx_self]
      exact hf.above i (by omega) hip
    · rw [List.getElem_insertIdx_of_gt hjp]
      exact hapart (by omega) (by omega)
  · subst i
    rw [List.getElem_insertIdx_self, List.getElem_insertIdx_of_gt hij]
    exact hf.below (j - 1) (by omega) (by omega)
  · rw [List.getElem_insertIdx_of_gt hip, List.getElem_insertIdx_of_gt (by omega)]
    exact hapart (by omega) (by omega)

theorem Layout.insert {l : List Mapping} (h : Layout l) {pos : ℕ} {m : Mapping}
    (hf : Fits l pos m.addr m.length) : Layout (l.insertIdx pos m) := by
  refine ⟨fun x hx => ?_, hf.pairwise_insert h.apart⟩
  rcases List.eq_or_mem_of_mem_insertIdx hx with rfl | hx
  · exact ⟨hf.base, hf.aligned, hf.positive, hf.top⟩
  · exact h.placed x hx

theorem Layout.placed_getElem {l : List Mapping} (h : Layout l) {k : ℕ} (hk : k < l.length) :
    1610612736 ≤ l[k].addr ∧ l[k].addr % 4096 = 0 ∧ 0 < l[k].length ∧
      l[k].addr + l[k].length ≤ 2147479552 := h.placed _ (List.getElem_mem hk)

theorem Listed.slot_addr {p : Proc} {l : List Mapping} (h : Listed p l) {k : ℕ}
    (hk : k < l.length) : (p.slot k).addr = l[k].addr ∧ (p.slot k).length = l[k].length ∧
      (p.slot k).flags = l[k].flags := by
  rw [← h.entries k hk]
  exact ⟨rfl, rfl, rfl⟩

/-- Where the mapping behind entry `k` would start. -/
def endOf (m : Mapping) : ℕ := pgRoundUp (wrap (m.addr + m.length))

theorem Layout.endOf_bounds {l : List Mapping} (h : Layout l) {k : ℕ} (hk : k < l.length) :
    l[k].addr + l[k].length ≤ endOf l[k] ∧ endOf l[k] % 4096 = 0 ∧ endOf l[k] ≤ 2147479552 ∧
      ∀ j (hj : j < l.length), k < j → endOf l[k] ≤ l[j].addr := by
  obtain ⟨hb, ha, hp, ht⟩ := h.placed_getElem hk
  have hw : wrap ((l[k].addr : ℤ) + l[k].length) = l[k].addr + l[k].length :=
    wrap_add_of_lt (by omega)
  have he : endOf l[k] = (l[k].addr + l[k].length + 4095) / 4096 * 4096 := by
    rw [endOf, hw, pgRoundUp, Nat.mod_eq_of_lt (by omega)]
  refine ⟨by omega, by omega, by omega, fun j hj hkj => ?_⟩
  have hap := getElem_apart h.apart hj hkj
  have hal := (h.placed_getElem hj).2.1
  omega

/-- First fit stops at the last entry or at a gap that is wide enough. -/
theorem anyGap_spec {p : Proc} {l : List Mapping} (ht : Listed p l) (hl : l.length < 32)
    (hy : Layout l) {length : BitVec 32} (hlen : length.toNat < 2147483648) {n i : ℕ}
    (hn : i + n = l.length) (hi : i < l.length) :
    ∃ j : ℕ, anyGap p length n i = j ∧ ∃ hj : j < l.length,
      ∀ hj' : j + 1 < l.length, endOf l[j] + length.toNat < l[j + 1].addr := by
  induction n generalizing i with
  | zero => omega
  | succ n ih =>
    have htot := ht.total
    obtain ⟨hsa, hsl, hsf⟩ := ht.slot_addr hi
    by_cases hlast : i + 1 = l.length
    · -- the distance down to an address in the first page wraps around and is wide enough
      have hsmall : (p.slot ((i : ℤ) + 1)).addr < 4096 := by
        exact_mod_cast ht.rest (i + 1) (by omega) (by omega)
      have hwide : ∀ margin : ℕ, margin ≤ PGSIZE → (p.slot ((i : ℤ) + 1)).addr ≠ 0 →
          wrap ((pgRoundUp (p.slot ((i : ℤ) + 1)).addr : ℤ) - endOf l[i]) >
            wrap (length.toNat + margin) := by
        intro margin hmargin hnz
        obtain ⟨hbase, -, htop, -⟩ := hy.endOf_bounds hi
        have hfirst : pgRoundUp (p.slot ((i : ℤ) + 1)).addr = 4096 := by
          unfold pgRoundUp
          omega
        have hlow := (hy.placed_getElem hi).1
        simp only [wrap, PGSIZE, hfirst] at hmargin ⊢
        omega
      refine ⟨i, ?_, hi, fun hj' => by omega⟩
      by_cases hloop : i < p.total_mmaps ∧ (p.slot ((i : ℤ) + 1)).addr ≠ 0
      · rw [anyGap, if_pos hloop]
        simp only [hsa, hsl]
        rw [← endOf, if_pos (hwide _ (by split_ifs <;> simp) hloop.2)]
      · rw [anyGap, if_neg hloop]
    · have hi' : i + 1 < l.length := by omega
      obtain ⟨hna, _, _⟩ := ht.slot_addr hi'
      push_cast at hna
      obtain ⟨hb, ha, hp, htop⟩ := hy.placed_getElem hi'
      obtain ⟨_, _, hle, hnext⟩ := hy.endOf_bounds hi
      have hup := hnext (i + 1) hi' (by omega)
      have hgap : wrap (((pgRoundUp l[i + 1].addr : ℕ) : ℤ) - (endOf l[i] : ℕ)) =
          l[i + 1].addr - endOf l[i] := by
        rw [pgRoundUp_of_aligned ha (by omega)]
        exact wrap_sub_of_le hup (by omega)
      rw [anyGap, if_pos (by rw [hna]; omega)]
      simp only [hsa, hsl, hna, hsf]
      rw [← endOf, hgap]
      split_ifs with hg hfit hfit
      · refine ⟨i, rfl, hi, fun hj' => ?_⟩
        simp only [wrap, PGSIZE] at hfit
        omega
      · exact_mod_cast ih (i := i + 1) (by omega) hi'
      · exact ⟨i, rfl, hi, fun hj' => by rw [wrap] at hfit; omega⟩
      · exact_mod_cast ih (i := i + 1) (by omega) hi'

/-- A search either leaves the table alone or opens one slot for a range that fits. -/
def Searched (p : Proc) (l : List Mapping) (length : BitVec 32) (r : Proc × ℤ) : Prop :=
  r = (p, -1) ∨ ∃ (p' : Proc) (pos : ℕ), r = (p', (pos : ℤ)) ∧ Opened p p' l.length pos ∧
    (p'.slot pos).length = length.toNat ∧ Fits l pos (p'.slot pos).addr length.toNat

theorem mmp_any_empty {p : Proc} (ht : Listed p []) {length : BitVec 32}
    (hpos : 0 < length.toNat) (hlen : length.toNat < 2147483648) :
    Searched p [] length (mmp_any p length) := by
  have htot : p.total_mmaps = 0 := ht.total
  have hbase : pgRoundUp MMAPBASE = MMAPBASE := by decide
  rw [mmp_any, if_pos htot]
  split_ifs with hb
  · exact Or.inl rfl
  refine Or.inr ⟨_, 0, rfl, ⟨by simp, by simp, ?_, ?_⟩, by simp, ?_⟩
  · intro k hk hkl
    exact absurd hk (by simpa using hkl)
  · intro k hk _
    rw [slot_setSlot_of_ne _ (by decide) (by simpa using Nat.ne_of_gt hk)]
  · have hslot : ((p.setSlot 0 { p.slot 0 with
        addr := pgRoundUp MMAPBASE, length := length.toNat }).slot ((0 : ℕ) : ℤ)).addr =
        MMAPBASE := by simp [hbase]
    rw [hslot]
    refine ⟨le_rfl, le_rfl, by decide, hpos, ?_, by simp, by simp⟩
    simp only [wrap, MMAPBASE, KERNBASE, pgRoundUp, not_le] at hb ⊢
    omega

theorem mmp_any_front {p : Proc} {l : List Mapping} (ht : Listed p l) (hl : l.length < 32)
    (hy : Layout l) {length : BitVec 32} (hpos : 0 < length.toNat)
    (hlen : length.toNat < 2147483648) (hne : 0 < l.length)
    (hfront : l[0].addr - MMAPBASE > length.toNat) :
    Searched p l length (mmp_insert p length (-1) MMAPBASE) := by
  obtain ⟨hb0, ha0, hp0, htop0⟩ := hy.placed_getElem hne
  have hw : wrap (((MMAPBASE : ℕ) : ℤ) + length.toNat) = MMAPBASE + length.toNat :=
    wrap_add_of_lt (by simp only [MMAPBASE]; omega)
  obtain ⟨p', hrun, ho, hsa, hsl⟩ := mmp_insert_spec ht.total hl length (Nat.zero_le l.length)
    (i := -1) (by omega) (a := MMAPBASE) (by
      rw [hw]
      exact lt_of_le_of_lt (pgRoundUp_le (a := l[0].addr) (by omega) ha0)
        (by simp only [KERNBASE]; omega))
  refine Or.inr ⟨p', 0, hrun, ho, hsl, ?_⟩
  rw [hsa]
  refine ⟨by omega, le_rfl, by decide, hpos, by simp only [MMAPBASE, KERNBASE] at *; omega,
    by omega, ?_⟩
  intro k hk _
  rcases Nat.eq_zero_or_pos k with rfl | hk0
  · omega
  · have := getElem_apart hy.apart hk hk0
    omega

/-- Insertion behind entry `j`, whose successor is missing or far enough away. A failing
bound test is met only behind the last entry, where nothing has been shifted yet. -/
theorem mmp_insert_behind {p : Proc} {l : List Mapping} (ht : Listed p l) (hl : l.length < 32)
    (hy : Layout l) {length : BitVec 32} (hpos : 0 < length.toNat)
    (hlen : length.toNat < 2147483648) {j : ℕ} (hj : j < l.length)
    (hgap : ∀ hj' : j + 1 < l.length, endOf l[j] + length.toNat < l[j + 1].addr) :
    Searched p l length (mmp_insert p length j (endOf l[j])) := by
  have htot := ht.total
  obtain ⟨hej, hea, het, hen⟩ := hy.endOf_bounds hj
  obtain ⟨hbj, haj, hpj, htj⟩ := hy.placed_getElem hj
  have hwe : wrap ((endOf l[j] : ℕ) + length.toNat) = endOf l[j] + length.toNat :=
    wrap_add_of_lt (by omega)
  by_cases hbound : pgRoundUp (endOf l[j] + length.toNat) ≥ KERNBASE
  · have hlast : j + 1 = l.length := by
      by_contra hne
      have := hgap (by omega)
      obtain ⟨_, haj', _, _⟩ := hy.placed_getElem (k := j + 1) (by omega)
      have hup := pgRoundUp_le (n := endOf l[j] + length.toNat) (a := l[j + 1].addr)
        (by omega) haj'
      simp only [KERNBASE] at hbound
      omega
    left
    rw [mmp_insert]
    simp only [show (p.total_mmaps - ((j : ℤ) + 1)).toNat = 0 by omega, shiftRight, hwe,
      if_pos hbound]
  · obtain ⟨p', hins, ho, hpa, hpl⟩ := mmp_insert_spec htot hl length
      (show j + 1 ≤ l.length by omega)
      (i := j) (by push_cast; rfl) (a := endOf l[j]) (by rw [hwe]; omega)
    refine Or.inr ⟨p', j + 1, hins, ho, hpl, ?_⟩
    rw [hpa]
    refine ⟨by omega, by simp only [MMAPBASE]; omega, hea, hpos, ?_, ?_, ?_⟩
    · simp only [KERNBASE, pgRoundUp] at *
      omega
    · intro k hk hkj
      rcases Nat.lt_succ_iff_lt_or_eq.mp hkj with h | rfl
      · have := getElem_apart hy.apart hj h
        omega
      · exact hej
    · intro k hk hkj
      have := hgap (by omega)
      rcases Nat.eq_or_lt_of_le hkj with rfl | h
      · omega
      · have := getElem_apart hy.apart hk h
        omega

theorem mmp_any_spec {p : Proc} {l : List Mapping} (ht : Listed p l) (hl : l.length < 32)
    (hy : Layout l) {length : BitVec 32} (hpos : 0 < length.toNat)
    (hlen : length.toNat < 2147483648) : Searched p l length (mmp_any p length) := by
  have htot := ht.total
  rcases Nat.eq_zero_or_pos l.length with hz | hne
  · obtain rfl := List.length_eq_zero_iff.mp hz
    exact mmp_any_empty ht hpos hlen
  obtain ⟨hb0, ha0, hp0, htop0⟩ := hy.placed_getElem hne
  have hs0 : (p.slot 0).addr = l[0].addr := (ht.slot_addr hne).1
  have hw0 : wrap (((p.slot 0).addr : ℤ) - ((MMAPBASE : ℕ) : ℤ)) = l[0].addr - MMAPBASE := by
    rw [hs0]
    exact wrap_sub_of_le hb0 (by omega)
  rw [mmp_any, if_neg (by omega : ¬ p.total_mmaps = 0), hw0]
  split_ifs with hfront
  · exact mmp_any_front ht hl hy hpos hlen hne hfront
  obtain ⟨j, hj, hjl, hgap⟩ := anyGap_spec ht hl hy hlen (n := l.length) (i := 0)
    (by omega) (by omega)
  obtain ⟨hsa, hsl, _⟩ := ht.slot_addr hjl
  have hj' : anyGap p length p.total_mmaps.toNat 0 = (j : ℤ) := by
    rw [show p.total_mmaps.toNat = l.length by omega]
    exact_mod_cast hj
  simp only [hj', hsa, hsl]
  rw [← endOf]
  split_ifs
  · exact Or.inl rfl
  · exact mmp_insert_behind ht hl hy hpos hlen hjl hgap

theorem releasePages_table (addr : BitVec 32) (n c : ℕ) (k : Frames) (p : Proc) :
    (releasePages addr n c k p).2.mmaps = p.mmaps ∧
      (releasePages addr n c k p).2.total_mmaps = p.total_mmaps := by
  induction n generalizing c k p with
  | zero => exact ⟨rfl, rfl⟩
  | succ n ih =>
    simp only [releasePages]
    split_ifs
    · exact ih _ _ _
    · exact ih _ _ _

theorem slot_congr {p q : Proc} (hm : q.mmaps = p.mmaps) (ht : q.total_mmaps = p.total_mmaps)
    (k : ℤ) : q.slot k = p.slot k := by
  simp [Proc.slot, hm, ht]

/-- The lookup returns the first slot with the address, or 32. -/
theorem findSlot_spec {p : Proc} {a : ℕ} {n i : ℕ} (h : i + n = 32) :
    ∃ j : ℕ, findSlot p a n i = j ∧ i ≤ j ∧ j ≤ 32 ∧
      (∀ t : ℕ, i ≤ t → t < j → (p.slot t).addr ≠ a) ∧ (j < 32 → (p.slot j).addr = a) := by
  induction n generalizing i with
  | zero => exact ⟨i, rfl, le_rfl, by omega, by omega, by omega⟩
  | succ n ih =>
    rw [findSlot]
    split_ifs with ha
    · exact ⟨i, rfl, le_rfl, by omega, by omega, fun _ => ha⟩
    · obtain ⟨j, hj, hij, hj32, hbefore, hat⟩ := ih (i := i + 1) (by omega)
      refine ⟨j, by exact_mod_cast hj, by omega, hj32, ?_, hat⟩
      intro t hit htj
      rcases Nat.eq_or_lt_of_le hit with rfl | h
      · exact ha
      · exact hbefore t h htj

theorem shiftLeft_total (n : ℕ) (i : ℤ) (p : Proc) :
    (shiftLeft n i p).total_mmaps = p.total_mmaps := by
  induction n generalizing i p with
  | zero => rfl
  | succ n ih =>
    rw [shiftLeft]
    split_ifs with h
    · rw [ih, mmp_cpy_total (by omega)]
    · rfl

/-- The shift writes no slot below its start, and it copies small addresses only if there are
no others. -/
theorem shiftLeft_small {n i : ℕ} {p : Proc} (hi : i ≤ 32)
    (hsmall : ∀ t : ℕ, i ≤ t → t ≤ 32 → (p.slot t).addr < 4096) :
    (∀ t : ℕ, t < i → (shiftLeft n i p).slot t = p.slot t) ∧
      ∀ t : ℕ, i ≤ t → t < 32 → ((shiftLeft n i p).slot t).addr < 4096 := by
  induction n generalizing i p with
  | zero => exact ⟨fun t _ => rfl, fun t hit ht => hsmall t hit ht.le⟩
  | succ n ih =>
    rw [shiftLeft]
    split_ifs with h
    · have hi32 : (i : ℤ) ≠ 32 := by omega
      have hcopy : ∀ t : ℕ, t ≠ i → (mmp_cpy p i (i + 1)).slot t = p.slot t := fun t ht => by
        rw [mmp_cpy, slot_setSlot_of_ne _ hi32 (by omega)]
      have hhere : ((mmp_cpy p i (i + 1)).slot i).addr < 4096 := by
        rw [mmp_cpy_slot hi32, if_pos rfl]
        exact_mod_cast hsmall (i + 1) (by omega) (by omega)
      obtain ⟨hlow, hhigh⟩ := ih (i := i + 1) (p := mmp_cpy p i (i + 1)) (by omega) (by
        intro t hit ht
        rw [hcopy t (by omega)]
        exact hsmall t (by omega) ht)
      push_cast at hlow hhigh
      refine ⟨fun t ht => ?_, fun t hit ht => ?_⟩
      · rw [hlow t (by omega), hcopy t (by omega)]
      · rcases Nat.eq_or_lt_of_le hit with rfl | hlt
        · rw [hlow _ (Nat.lt_succ_self _)]
          exact hhere
        · exact hhigh t hlt ht
    · exact ⟨fun t _ => rfl, fun t hit ht => hsmall t hit ht.le⟩

/-- With a zero address at slot `e + 1` the shift never writes slot `e`: the last entry
is copied down but not erased. -/
theorem shiftLeft_keeps {n : ℕ} {i e : ℤ} {p : Proc} (hz : (p.slot (e + 1)).addr = 0)
    (hi : i ≤ e) (he : e < 32) : (shiftLeft n i p).slot e = p.slot e := by
  induction n generalizing i p with
  | zero => rfl
  | succ n ih =>
    rw [shiftLeft]
    split_ifs with h
    · have hne : i ≠ e := by
        rintro rfl
        exact h.2 hz
      have hi32 : i ≠ 32 := by omega
      have hcopy : ∀ k, k ≠ i → (mmp_cpy p i (i + 1)).slot k = p.slot k := fun k hk => by
        rw [mmp_cpy, slot_setSlot_of_ne _ hi32 hk]
      rw [ih (by rw [hcopy _ (by omega)]; exact hz) (by omega), hcopy e (Ne.symm hne)]
    · rfl

/-- In a full table the shift runs on into `total_mmaps`, which lands in slot 31. -/
theorem shiftLeft_full {n i : ℕ} {p : Proc} (hn : 32 ≤ i + n) (hi : i < 32)
    (hlive : ∀ t : ℕ, i < t → t < 32 → (p.slot t).addr ≠ 0) (htot : wrap p.total_mmaps ≠ 0) :
    ((shiftLeft n i p).slot 31).addr ≠ 0 := by
  induction n generalizing i p with
  | zero => omega
  | succ n ih =>
    have hi32 : (i : ℤ) ≠ 32 := by omega
    have hcopy : ∀ k : ℤ, k ≠ i → (mmp_cpy p i (i + 1)).slot k = p.slot k := fun k hk => by
      rw [mmp_cpy, slot_setSlot_of_ne _ hi32 hk]
    by_cases hlast : i = 31
    · subst i
      have h32 : (p.slot 32).addr = wrap p.total_mmaps := rfl
      have hcp : ((mmp_cpy p 31 32).slot 31).toMapping = (p.slot 32).toMapping := by
        rw [mmp_cpy_slot (by decide), if_pos rfl]
      have hstop : shiftLeft (n + 1) ((31 : ℕ) : ℤ) p = mmp_cpy p 31 32 := by
        rw [shiftLeft, if_pos ⟨by decide, by simpa [h32] using htot⟩]
        cases n <;> simp [shiftLeft]
      rw [hstop, hcp, h32]
      exact htot
    · have hnext : (p.slot ((i : ℤ) + 1)).addr ≠ 0 := by
        exact_mod_cast hlive (i + 1) (by omega) (by omega)
      rw [shiftLeft, if_pos ⟨by omega, hnext⟩]
      have := ih (i := i + 1) (p := mmp_cpy p i (i + 1)) (by omega) (by omega) (by
        intro t hit ht
        rw [hcopy t (by omega)]
        exact hlive t (by omega) ht) (by rwa [mmp_cpy_total hi32])
      exact_mod_cast this

/-- `live` lists the mappings created and not yet unmapped, in the order of creation. -/
structure Session where
  frames : Frames
  proc : Proc
  live : List Mapping

inductive Call where
  | mmap (f : File) (length offset flags protection : BitVec 32)
  | munmap (addr length : BitVec 32) (written : ℤ)
  deriving DecidableEq, Repr

def newMapping (f : File) (a : ℕ) (length offset flags protection : BitVec 32) : Mapping :=
  ⟨a, length.toNat, flags, if protection = PROT_NONE then 0 else PTE_U ||| protection,
    some f.ptr, offset⟩

def Session.next (s : Session) : Call → Session
  | .mmap f length offset flags protection =>
    let (p, r) := my_mmap s.proc 0 f length offset flags protection
    { s with proc := p
             live := match r with
               | none => s.live
               | some a => s.live ++ [newMapping f a length offset flags protection] }
  | .munmap addr length written =>
    let (k, p, _) := my_munmap s.frames s.proc addr length written
    ⟨k, p, s.live.filter (·.addr ≠ addr.toNat)⟩

/-- A whole mapping is unmapped with its own length; other addresses take any length. -/
def Legal (s : Session) : Call → Prop
  | .mmap .. => True
  | .munmap addr length _ => ∀ m ∈ s.live, m.addr = addr.toNat → length.toNat = m.length

/-- The table holds the live mappings, sorted by address, and nothing else. -/
def Tracks (s : Session) : Prop :=
  ∃ l, Table s.proc l ∧ l.Perm s.live ∧ l.Pairwise fun a b => a.addr < b.addr

def StartOfLive (s : Session) (addr : BitVec 32) : Prop := ∃ m ∈ s.live, m.addr = addr.toNat

/-- After the call the table lists the live mappings, and a removal is refused exactly when it
names none of them. -/
def Exact (s : Session) (c : Call) : Prop :=
  Tracks (s.next c) ∧
  match c with
  | .mmap .. => True
  | .munmap addr length written =>
    let r := my_munmap s.frames s.proc addr length written
    (r.2.2 = 0 ↔ StartOfLive s addr) ∧
    (¬ StartOfLive s addr → r.2.2 = -1 ∧ r.2.1.mmaps = s.proc.mmaps ∧
      r.2.1.total_mmaps = s.proc.total_mmaps)

/-- A removal is harmless when it names the topmost of fewer than 32 mappings by its exact
address; a write-back that fails must not be asked for by an exact address. -/
def Harmless (s : Session) : Call → Prop
  | .mmap .. => True
  | .munmap addr _ written => ∀ m ∈ s.live, m.addr = pgRoundUp addr.toNat →
    if writesBack m ∧ written < 0 then addr.toNat % 4096 ≠ 0
    else addr.toNat % 4096 = 0 ∧ (∀ n ∈ s.live, n.addr ≤ m.addr) ∧ s.live.length < 32

abbrev Along (P : Session → Call → Prop) (s : Session) (cs : List Call) : Prop :=
  Runs.Along (fun s c => some (s.next c)) P s cs

structure Invariant (s : Session) (l : List Mapping) : Prop where
  table : Table s.proc l
  blank : Blank s.proc l.length
  layout : Layout l
  perm : l.Perm s.live
  room : l.length ≤ 32

theorem Layout.sorted {l : List Mapping} (h : Layout l) :
    l.Pairwise fun a b => a.addr < b.addr :=
  h.apart.imp_of_mem fun ha _ hab => by
    obtain ⟨_, _, hp, _⟩ := h.placed _ ha
    omega

theorem Invariant.tracks {s : Session} {l : List Mapping} (h : Invariant s l) : Tracks s :=
  ⟨l, h.table, h.perm, h.layout.sorted⟩

theorem badArgs_length {f : File} {length offset flags protection : BitVec 32}
    (h : badArgs f length offset flags protection = false) :
    0 < length.toNat ∧ length.toNat < 2147483648 := by
  simp only [badArgs, Bool.or_eq_false_iff, decide_eq_false_iff_not, not_le] at h
  have hpos := h.1.1.1.2
  rw [BitVec.toInt_eq_toNat_cond] at hpos
  split_ifs at hpos <;> omega

/-- A call with hint 0 leaves the table alone or inserts the new mapping where it fits. -/
theorem my_mmap_spec {p : Proc} {l : List Mapping} (ht : Listed p l) (hy : Layout l)
    (hroom : l.length ≤ 32) (f : File) (length offset flags protection : BitVec 32) :
    my_mmap p 0 f length offset flags protection = (p, none) ∨
    ∃ (p' : Proc) (pos : ℕ) (m : Mmp),
      my_mmap p 0 f length offset flags protection = (filled p' pos m, some m.addr) ∧
      Opened p p' l.length pos ∧ l.length < 32 ∧
      m.toMapping = newMapping f m.addr length offset flags protection ∧
      Fits l pos m.addr m.length := by
  by_cases hbad : badArgs f length offset flags protection = true
  · exact .inl (by simp [my_mmap, hbad])
  obtain ⟨hpos, hlen⟩ := badArgs_length (Bool.eq_false_iff.mpr hbad)
  by_cases hfull : p.total_mmaps = 32
  · exact .inl (by simp [my_mmap, hfull])
  by_cases hfix : has flags MAP_FIXED = true
  · exact .inl (by simp [my_mmap, hbad, hfull, hfix])
  have hl : l.length < 32 := by
    have := ht.total
    omega
  rcases mmp_any_spec ht hl hy hpos hlen with hnone | ⟨p', pos, hrun, ho, hsl, hfit⟩
  · exact .inl (by simp [my_mmap, hbad, hfull, hfix, hnone])
  have hp32 : (pos : ℤ) ≠ 32 := by have := hfit.inside; omega
  have hm1 : (pos : ℤ) ≠ -1 := by omega
  refine .inr ⟨p', pos, { p'.slot pos with
    flags := flags
    prot := if protection = PROT_NONE then 0 else PTE_U ||| protection
    offset := offset
    f := some f.ptr }, ?_, ho, hl, by simp [newMapping, hsl], by simpa [hsl] using hfit⟩
  simp [my_mmap, hbad, hfull, hfix, hrun, hm1, filled, hp32]

theorem mmap_invariant {s : Session} {l : List Mapping} (h : Invariant s l) (f : File)
    (length offset flags protection : BitVec 32) :
    ∃ l', Invariant (s.next (.mmap f length offset flags protection)) l' := by
  rcases my_mmap_spec h.table.listed h.layout h.room f length offset flags protection with
    hkeep | ⟨p', pos, m, hret, ho, hroom, hm, hfit⟩
  · refine ⟨l, ?_⟩
    simp only [Session.next, hkeep]
    exact ⟨h.table, h.blank, h.layout, h.perm, h.room⟩
  obtain ⟨htab, hblank⟩ := ho.filled h.table h.blank hroom hfit.inside m
  have hlen' : (l.insertIdx pos m.toMapping).length = l.length + 1 :=
    List.length_insertIdx_of_le_length hfit.inside _
  refine ⟨l.insertIdx pos m.toMapping, ?_⟩
  simp only [Session.next, hret]
  refine ⟨htab, by rw [hlen']; exact hblank, h.layout.insert hfit, ?_, ?_⟩
  · rw [← hm]
    exact ((List.perm_insertIdx _ l hfit.inside).trans (h.perm.cons _)).trans
      (List.perm_append_singleton _ _).symm
  · omega

section Munmap

variable {s : Session} {l : List Mapping} {addr length : BitVec 32} {written : ℤ}

theorem munmap_miss (h : Invariant s l) (hm : ∀ m ∈ l, m.addr ≠ pgRoundUp addr.toNat) :
    my_munmap s.frames s.proc addr length written = (s.frames, s.proc, -1) := by
  obtain ⟨j, hj, _, hj32, _, hat⟩ := findSlot_spec (p := s.proc)
    (a := pgRoundUp addr.toNat) (n := 32) (i := 0) (by omega)
  have hstop : (j : ℤ) = 32 ∨ signed (s.proc.slot j).length = 0 := by
    rcases Nat.eq_or_lt_of_le hj32 with rfl | hlt
    · exact Or.inl rfl
    right
    have hge : l.length ≤ j := by
      by_contra hlt'
      have hjl : j < l.length := by omega
      exact hm l[j] (List.getElem_mem hjl) ((h.table.listed.slot_addr hjl).1 ▸ hat hlt)
    rw [h.blank j hge hlt]
    rfl
  have hj' : findSlot s.proc (pgRoundUp addr.toNat) 32 0 = (j : ℤ) := by exact_mod_cast hj
  simp only [my_munmap, hj', if_pos hstop]

variable {p : Proc} {k : ℕ} (hk : k < l.length)

include hk in
theorem findSlot_hit (ht : Listed p l) (hy : Layout l) (hroom : l.length ≤ 32)
    (hka : l[k].addr = pgRoundUp addr.toNat) :
    findSlot p (pgRoundUp addr.toNat) 32 0 = (k : ℤ) := by
  obtain ⟨j, hj, _, hj32, hbefore, hat⟩ := findSlot_spec (p := p)
    (a := pgRoundUp addr.toNat) (n := 32) (i := 0) (by omega)
  have hjk : j ≤ k := by
    by_contra hlt
    exact hbefore k (by omega) (by omega) ((ht.slot_addr hk).1.trans hka)
  have heq : j = k := by
    by_contra hne
    have hjl : j < l.length := by omega
    have hsame := (ht.slot_addr hjl).1.symm.trans (hat (by omega))
    have hapart := getElem_apart hy.apart hk (by omega : j < k)
    have hpos := (hy.placed_getElem hjl).2.2.1
    omega
  subst heq
  exact_mod_cast hj

include hk in
theorem slot_nonzero (ht : Listed p l) (hy : Layout l) (hroom : l.length ≤ 32) :
    ¬ ((k : ℤ) = 32 ∨ signed (p.slot k).length = 0) := by
  rw [(ht.slot_addr hk).2.1, (hy.placed _ (List.getElem_mem hk)).signed_length]
  have := (hy.placed_getElem hk).2.2.1
  omega

include hk in
theorem munmap_refused (h : Invariant s l) (hka : l[k].addr = pgRoundUp addr.toNat)
    (hw : writesBack l[k] ∧ written < 0) :
    my_munmap s.frames s.proc addr length written = (s.frames, s.proc, -1) := by
  simp only [my_munmap, findSlot_hit hk h.table.listed h.layout h.room hka]
  rw [if_neg (slot_nonzero hk h.table.listed h.layout h.room), h.table.entries k hk, if_pos hw]

include hk in
/-- Past the tests the call succeeds, whatever it then does to the table. -/
theorem munmap_accepts (h : Invariant s l) (hka : l[k].addr = pgRoundUp addr.toNat)
    (hw : ¬ (writesBack l[k] ∧ written < 0)) :
    (my_munmap s.frames s.proc addr length written).2.2 = 0 := by
  simp only [my_munmap, findSlot_hit hk h.table.listed h.layout h.room hka]
  rw [if_neg (slot_nonzero hk h.table.listed h.layout h.room), h.table.entries k hk, if_neg hw]
  split_ifs <;> rfl

include hk in
theorem munmap_removes (frames : Frames) (ht : Listed p l) (hy : Layout l) (hroom : l.length ≤ 32)
    (hka : l[k].addr = pgRoundUp addr.toNat) (hw : ¬ (writesBack l[k] ∧ written < 0))
    (hfull : l[k].length ≤ pgRoundUp length.toNat) :
    ∃ (frames' : Frames) (q : Proc), q.mmaps = p.mmaps ∧ q.total_mmaps = p.total_mmaps ∧
      my_munmap frames p addr length written =
        (frames', { shiftLeft 32 k (clearSlot q k) with
          total_mmaps := (shiftLeft 32 k (clearSlot q k)).total_mmaps - 1 }, 0) := by
  let n := ((min (signed (pgRoundUp length.toNat)) (signed l[k].length) + 4095) / 4096).toNat
  obtain ⟨hqm, hqt⟩ := releasePages_table addr n 0 frames p
  refine ⟨(releasePages addr n 0 frames p).1, (releasePages addr n 0 frames p).2,
    hqm, hqt, ?_⟩
  simp only [my_munmap, findSlot_hit hk ht hy hroom hka]
  rw [if_neg (slot_nonzero hk ht hy hroom), ht.entries k hk, if_neg hw]
  have hslot : ((releasePages addr n 0 frames p).2.slot k).length ≤ pgRoundUp length.toNat := by
    rw [slot_congr hqm hqt, (ht.slot_addr hk).2.1]
    exact hfull
  rw [if_pos hslot]

end Munmap

/-- Removing the topmost mapping of a table that is not full. -/
theorem top_removed {p q : Proc} {l : List Mapping} (ht : Table p l) (hb : Blank p l.length)
    (hqm : q.mmaps = p.mmaps) (hqt : q.total_mmaps = p.total_mmaps) {k : ℕ}
    (hk : k + 1 = l.length) (hl : l.length < 32) :
    Table { shiftLeft 32 k (clearSlot q k) with
        total_mmaps := (shiftLeft 32 k (clearSlot q k)).total_mmaps - 1 } l.dropLast ∧
      Blank { shiftLeft 32 k (clearSlot q k) with
        total_mmaps := (shiftLeft 32 k (clearSlot q k)).total_mmaps - 1 } l.dropLast.length := by
  have hk32 : (k : ℤ) ≠ 32 := by omega
  have hstop : shiftLeft 32 k (clearSlot q k) = clearSlot q k := by
    have hz : ((clearSlot q k).slot ((k : ℤ) + 1)).addr = 0 := by
      rw [clearSlot, slot_setSlot_of_ne _ hk32 (by omega), slot_congr hqm hqt]
      exact_mod_cast ht.rest (k + 1) (by omega) (by omega)
    rw [shiftLeft, if_neg (by simp [hz])]
  rw [hstop]
  have hslot : ∀ t : ℕ, t < 32 → Proc.slot { clearSlot q k with
      total_mmaps := (clearSlot q k).total_mmaps - 1 } t =
        if t = k then { Mmp.zero with ref := (q.slot k).ref } else p.slot t := by
    intro t ht'
    have ht32 : (t : ℤ) ≠ 32 := by omega
    rw [← slot_congr hqm hqt]
    by_cases htk : t = k
    · subst t; simp [Proc.slot, clearSlot, Proc.setSlot, ht32]
    · simp [Proc.slot, clearSlot, Proc.setSlot, ht32, hk32, htk]
  have hlen : l.dropLast.length = k := by simp [List.length_dropLast]; omega
  refine ⟨⟨?_, ?_, ?_⟩, ?_⟩
  · have := ht.total
    simp only [clearSlot, setSlot_total _ hk32, hqt, hlen]
    omega
  · intro t ht'
    rw [hlen] at ht'
    rw [hslot t (by omega), if_neg (by omega), ht.entries t (by omega), List.getElem_dropLast]
  · intro t hkt ht'
    rw [hlen] at hkt
    rw [hslot t ht']
    split_ifs with htk
    · rfl
    · exact ht.rest t (by omega) ht'
  · intro t hkt ht'
    rw [hlen] at hkt
    rw [hslot t ht']
    split_ifs with htk
    · rfl
    · exact hb t (by omega) ht'

/-- Any other removal leaves an address behind the new end of the table. -/
theorem phantom_left {p q : Proc} {l : List Mapping} (ht : Table p l) (hy : Layout l)
    (hqm : q.mmaps = p.mmaps) (hqt : q.total_mmaps = p.total_mmaps) {k : ℕ}
    (hk : k < l.length) (hl : l.length ≤ 32) (hbad : k + 1 ≠ l.length ∨ l.length = 32) :
    (Proc.slot { shiftLeft 32 k (clearSlot q k) with
      total_mmaps := (shiftLeft 32 k (clearSlot q k)).total_mmaps - 1 }
        ((l.length - 1 : ℕ) : ℤ)).addr ≠ 0 := by
  have hk32 : (k : ℤ) ≠ 32 := by omega
  have hother : ∀ t : ℤ, t ≠ k → (clearSlot q k).slot t = p.slot t := fun t htk => by
    rw [clearSlot, slot_setSlot_of_ne _ hk32 htk, slot_congr hqm hqt]
  have hread : ∀ (r : Proc) (n : ℤ) (t : ℕ), t < 32 →
      Proc.slot { r with total_mmaps := n } t = r.slot t := fun r n t ht' => by
    simp [Proc.slot, show (t : ℤ) ≠ 32 by omega]
  rw [hread _ _ _ (by omega)]
  rcases Nat.eq_or_lt_of_le hl with hfull | hlt
  · have := shiftLeft_full (n := 32) (i := k) (p := clearSlot q k) (by omega) (by omega) (by
      intro t hkt ht'
      rw [hother t (by omega), (ht.listed.slot_addr (by omega : t < l.length)).1]
      have := (hy.placed_getElem (by omega : t < l.length)).1
      omega) (by
      rw [clearSlot, setSlot_total _ hk32, hqt, ht.total, hfull]
      decide)
    simpa [hfull] using this
  · have hkl : k + 1 < l.length := by omega
    rw [shiftLeft_keeps (e := ((l.length - 1 : ℕ) : ℤ)) (by
      rw [show ((l.length - 1 : ℕ) : ℤ) + 1 = (l.length : ℕ) by omega, hother _ (by omega)]
      exact ht.rest l.length le_rfl hlt) (by omega) (by omega), hother _ (by omega),
      (ht.listed.slot_addr (by omega : l.length - 1 < l.length)).1]
    have := (hy.placed_getElem (by omega : l.length - 1 < l.length)).1
    omega

section Exactness

variable {s : Session} {l : List Mapping} {addr length : BitVec 32} {written : ℤ}

theorem Invariant.start_iff (h : Invariant s l) :
    StartOfLive s addr ↔ addr.toNat % 4096 = 0 ∧ ∃ m ∈ l, m.addr = pgRoundUp addr.toNat := by
  have hlt : addr.toNat < 4294967296 := addr.isLt
  constructor
  · rintro ⟨m, hm, hma⟩
    have hml := h.perm.symm.subset hm
    have ha := (h.layout.placed m hml).2.1
    rw [hma] at ha
    exact ⟨ha, m, hml, by rw [pgRoundUp_of_aligned ha hlt, hma]⟩
  · rintro ⟨ha, m, hm, hma⟩
    exact ⟨m, h.perm.subset hm, by rw [hma, pgRoundUp_of_aligned ha hlt]⟩

theorem filter_live (hn : ¬ StartOfLive s addr) :
    s.live.filter (·.addr ≠ addr.toNat) = s.live := by
  apply List.filter_eq_self.mpr
  intro m hm
  simpa using fun e => hn ⟨m, hm, e⟩

/-- A refused call changes nothing, so it is exact as soon as nothing starts there. -/
theorem refused_exact (h : Invariant s l)
    (hrun : my_munmap s.frames s.proc addr length written = (s.frames, s.proc, -1))
    (hn : ¬ StartOfLive s addr) :
    Exact s (.munmap addr length written) ∧
      ∃ l', Invariant (s.next (.munmap addr length written)) l' := by
  have hnext : s.next (.munmap addr length written) = s := by
    simp only [Session.next, hrun, filter_live hn]
  rw [Exact, hnext]
  exact ⟨⟨h.tracks, by simp [hrun, hn], fun _ => by simp [hrun]⟩, l, h⟩

theorem Invariant.mem_live_iff (h : Invariant s l) {m : Mapping} : m ∈ s.live ↔ m ∈ l :=
  ⟨fun hm => h.perm.symm.subset hm, fun hm => h.perm.subset hm⟩

theorem Invariant.top_iff (h : Invariant s l) {k : ℕ} (hk : k < l.length) :
    (∀ n ∈ s.live, n.addr ≤ l[k].addr) ↔ k + 1 = l.length := by
  constructor
  · intro hall
    by_contra hne
    have hk' : k + 1 < l.length := by omega
    have hle := hall l[k + 1] (h.mem_live_iff.mpr (List.getElem_mem hk'))
    have hap := getElem_apart h.layout.apart hk' (Nat.lt_succ_self k)
    have hpos := (h.layout.placed_getElem hk).2.2.1
    omega
  · intro hlast n hn
    obtain ⟨j, hj, rfl⟩ := List.getElem_of_mem (h.mem_live_iff.mp hn)
    rcases Nat.lt_or_ge j k with hlt | hge
    · have := getElem_apart h.layout.apart hk hlt
      omega
    · obtain rfl : j = k := by omega
      exact le_rfl

/-- The live mappings that survive the removal of the last table entry. -/
theorem Invariant.filter_top (h : Invariant s l) {k : ℕ} (hk : k + 1 = l.length)
    (hka : l[k].addr = addr.toNat) :
    l.dropLast.Perm (s.live.filter (·.addr ≠ addr.toNat)) := by
  have hne : l ≠ [] := List.ne_nil_of_length_pos (by omega)
  have hlast : l.getLast hne = l[k] := by
    rw [List.getLast_eq_getElem]
    congr 1
    omega
  have hfilter : l.filter (·.addr ≠ addr.toNat) = l.dropLast := by
    conv_lhs => rw [← List.dropLast_append_getLast hne]
    rw [List.filter_append, hlast, List.filter_eq_self.mpr, List.filter_cons_of_neg (by simp [hka])]
    · simp
    · intro m hm
      obtain ⟨j, hj, rfl⟩ := List.getElem_of_mem hm
      rw [List.length_dropLast] at hj
      have hap := getElem_apart h.layout.apart (i := j) (by omega : k < l.length) (by omega)
      have hpos := (h.layout.placed_getElem (k := j) (by omega)).2.2.1
      rw [List.getElem_dropLast]
      simp only [ne_eq, decide_eq_true_eq, ← hka]
      omega
  rw [← hfilter]
  exact h.perm.filter _

theorem exact_removal_iff (h : Invariant s l) {k : ℕ} (hk : k < l.length)
    (hka : l[k].addr = addr.toNat) (hlen : length.toNat = l[k].length)
    (hw : ¬ (writesBack l[k] ∧ written < 0)) :
    (Exact s (.munmap addr length written) ↔ k + 1 = l.length ∧ l.length < 32) ∧
    (k + 1 = l.length ∧ l.length < 32 →
      ∃ l', Invariant (s.next (.munmap addr length written)) l') := by
  obtain ⟨hbase, hal, hpos, htop⟩ := h.layout.placed_getElem hk
  have hround : l[k].addr = pgRoundUp addr.toNat := by
    rw [← hka, pgRoundUp_of_aligned hal (by omega)]
  have hcover : l[k].length ≤ pgRoundUp length.toNat := by
    rw [hlen]
    exact (le_pgRoundUp (by omega)).resolve_right (by omega)
  obtain ⟨frames, q, hqm, hqt, hrun⟩ := munmap_removes hk s.frames h.table.listed
    h.layout h.room hround hw hcover
  have hgood : k + 1 = l.length ∧ l.length < 32 →
      Invariant (s.next (.munmap addr length written)) l.dropLast := by
    rintro ⟨hlast, hl⟩
    obtain ⟨ht, hb⟩ := top_removed h.table h.blank hqm hqt hlast hl
    simp only [Session.next, hrun]
    refine ⟨ht, hb, ⟨fun m hm => h.layout.placed m (List.dropLast_subset l hm),
      h.layout.apart.sublist (List.dropLast_sublist l)⟩, h.filter_top hlast hka, ?_⟩
    rw [List.length_dropLast]
    omega
  refine ⟨⟨fun hex => ?_, fun hg => ?_⟩, fun hg => ⟨_, hgood hg⟩⟩
  · by_contra hbad
    obtain ⟨l', ht', _, _⟩ := hex.1
    have hphantom := phantom_left h.table h.layout hqm hqt hk h.room (by have := h.room; omega)
    simp only [Session.next, hrun] at ht'
    have htot : l'.length + 1 = l.length := by
      have h₁ := ht'.total
      have h₂ := h.table.total
      have hk32 : (k : ℤ) ≠ 32 := by have := h.room; omega
      simp only [shiftLeft_total, clearSlot, setSlot_total _ hk32, hqt] at h₁
      omega
    have hroom := h.room
    exact hphantom (ht'.rest (l.length - 1) (by omega) (by omega))
  · refine ⟨(hgood hg).tracks, ?_, ?_⟩
    · exact iff_of_true (munmap_accepts hk h hround hw)
        ⟨l[k], h.mem_live_iff.mpr (List.getElem_mem hk), hka⟩
    · intro hn
      exact absurd ⟨l[k], h.mem_live_iff.mpr (List.getElem_mem hk), hka⟩ hn

/-- One call is exact precisely when it is harmless, and then the invariant goes on. -/
theorem call_exact_iff (h : Invariant s l) {c : Call} (hc : Legal s c) :
    (Exact s c ↔ Harmless s c) ∧ (Harmless s c → ∃ l', Invariant (s.next c) l') := by
  cases c with
  | mmap f length offset flags protection =>
    obtain ⟨l', hl'⟩ := mmap_invariant h f length offset flags protection
    exact ⟨iff_of_true ⟨hl'.tracks, trivial⟩ trivial, fun _ => ⟨l', hl'⟩⟩
  | munmap addr length written =>
    by_cases hhit : ∃ m ∈ l, m.addr = pgRoundUp addr.toNat
    · obtain ⟨m, hm, hma⟩ := hhit
      obtain ⟨k, hk, rfl⟩ := List.getElem_of_mem hm
      have hharm : Harmless s (.munmap addr length written) ↔
          if writesBack l[k] ∧ written < 0 then addr.toNat % 4096 ≠ 0
          else addr.toNat % 4096 = 0 ∧ k + 1 = l.length ∧ l.length < 32 := by
        rw [← h.top_iff hk, h.perm.length_eq]
        constructor
        · intro hh
          exact hh l[k] (h.mem_live_iff.mpr hm) hma
        · intro hh n hn hna
          obtain ⟨j, hj, rfl⟩ := List.getElem_of_mem (h.mem_live_iff.mp hn)
          have hjk := (findSlot_hit hj h.table.listed h.layout h.room hna).symm.trans
            (findSlot_hit hk h.table.listed h.layout h.room hma)
          obtain rfl : j = k := by omega
          exact hh
      rw [hharm]
      by_cases hw : writesBack l[k] ∧ written < 0
      · rw [if_pos hw]
        have hrun : my_munmap s.frames s.proc addr length written = (s.frames, s.proc, -1) :=
          munmap_refused hk h hma hw
        by_cases ha : addr.toNat % 4096 = 0
        · refine ⟨iff_of_false (fun hex => ?_) (fun hne => hne ha), fun hne => absurd ha hne⟩
          have := hex.2.1.mpr (h.start_iff.mpr ⟨ha, l[k], hm, hma⟩)
          simp [hrun] at this
        · obtain ⟨hex, hinv⟩ := refused_exact h hrun fun hs => ha (h.start_iff.mp hs).1
          exact ⟨iff_of_true hex ha, fun _ => hinv⟩
      · rw [if_neg hw]
        by_cases ha : addr.toNat % 4096 = 0
        · have hka : l[k].addr = addr.toNat := hma.trans (pgRoundUp_of_aligned ha addr.isLt)
          have hlen := hc l[k] (h.mem_live_iff.mpr hm) hka
          obtain ⟨hiff, hinv⟩ := exact_removal_iff h hk hka hlen hw
          exact ⟨hiff.trans (by simp [ha]), fun hg => hinv hg.2⟩
        · refine ⟨iff_of_false (fun hex => ?_) (fun hg => ha hg.1), fun hg => absurd hg.1 ha⟩
          exact ha (h.start_iff.mp (hex.2.1.mp (munmap_accepts hk h hma hw))).1
    · have hmiss : ∀ m ∈ l, m.addr ≠ pgRoundUp addr.toNat := fun m hm hma => hhit ⟨m, hm, hma⟩
      have hrun : my_munmap s.frames s.proc addr length written = (s.frames, s.proc, -1) :=
        munmap_miss h hmiss
      obtain ⟨hex, hinv⟩ := refused_exact h hrun fun hs => hhit (h.start_iff.mp hs).2
      refine ⟨iff_of_true hex fun m hm hma => ?_, fun _ => hinv⟩
      exact absurd hma (hmiss m (h.mem_live_iff.mp hm))

end Exactness

/-- A process whose table has never been used; memory around the array is arbitrary. -/
def Unused (s : Session) : Prop :=
  s.live = [] ∧ s.proc.total_mmaps = 0 ∧ ∀ k : ℕ, k < 32 → s.proc.mmaps k = Mmp.zero

theorem unused_invariant {s : Session} (h : Unused s) : Invariant s [] := by
  obtain ⟨hl, ht, hz⟩ := h
  have hslot : ∀ k : ℕ, k < 32 → s.proc.slot k = Mmp.zero := fun k hk => by
    rw [← hz k hk]
    exact if_neg (by omega)
  refine ⟨⟨by simp [ht], by simp, ?_⟩, ?_, ⟨by simp, by simp⟩, by simp [hl], by simp⟩
  · intro k _ hk
    rw [hslot k hk]
    rfl
  · intro k _ hk
    rw [hslot k hk]
    rfl

theorem run_exact_iff {s : Session} {l : List Mapping} (h : Invariant s l) {cs : List Call}
    (hc : Along Legal s cs) : Along Exact s cs ↔ Along Harmless s cs := by
  induction cs generalizing s l with
  | nil => exact Iff.rfl
  | cons c cs ih =>
    obtain ⟨hlegal, hrest⟩ := Runs.along_total.mp hc
    obtain ⟨hiff, hinv⟩ := call_exact_iff h hlegal
    rw [Along, Along, Runs.along_total, Runs.along_total]
    constructor
    · rintro ⟨he, hr⟩
      obtain ⟨l', hl'⟩ := hinv (hiff.mp he)
      exact ⟨hiff.mp he, (ih hl' hrest).mp hr⟩
    · rintro ⟨hh, hr⟩
      obtain ⟨l', hl'⟩ := hinv hh
      exact ⟨hiff.mpr hh, (ih hl' hrest).mpr hr⟩

def unusedSession : Session :=
  ⟨⟨fun _ => false, false⟩, ⟨fun _ => Mmp.zero, 0, fun _ => none, false⟩, []⟩

theorem unusedSession_unused : Unused unusedSession := ⟨rfl, rfl, fun _ _ => rfl⟩

def anonymousPage : Call :=
  .mmap ⟨0, false, false⟩ 4096 0 (MAP_PRIVATE ||| MAP_ANONYMOUS) PROT_WRITE

def twoPages : Session := (unusedSession.next anonymousPage).next anonymousPage

theorem twoPages_live : twoPages.live.map (·.length) = [4096, 4096] := by
  decide +kernel

theorem twoPages_legal (addr : BitVec 32) :
    Along Legal unusedSession [anonymousPage, anonymousPage, .munmap addr 4096 0] := by
  simp only [Along, Runs.along_total]
  refine ⟨trivial, trivial, fun m hm _ => ?_, trivial⟩
  have hlen : m.length ∈ twoPages.live.map (·.length) := List.mem_map_of_mem hm
  rw [twoPages_live] at hlen
  have hpage : m.length = 4096 := by simpa using hlen
  exact hpage.symm

end MmapTracking
