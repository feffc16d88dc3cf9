import OsProjects.MmapTracking

/-! # Where a new mapping goes

The search for a place, with a hint or without, in a table whose mappings may have grown up
to the kernel and whose free slots may still hold old entries. Either nothing changes, or
the new mapping is inserted in order, or an old entry right behind the live ones is taken
for a live one and the new mapping ends up behind it.
-/
namespace MmapPlacement

open Word32 MmapTable MmapTracking

/-- `Placed` of a new mapping, up to the kernel: a fault can add a last page. -/
def Region (m : Mapping) : Prop :=
  MMAPBASE ≤ m.addr ∧ m.addr % 4096 = 0 ∧ 0 < m.length ∧ m.addr + m.length ≤ KERNBASE

structure Arranged (l : List Mapping) : Prop where
  region : ∀ m ∈ l, Region m
  apart : l.Pairwise fun a b => a.addr + a.length ≤ b.addr

/-- The slots behind the live mappings hold old entries or addresses in the first page. -/
structure Kept (p : Proc) (l : List Mapping) : Prop where
  total : p.total_mmaps = l.length
  entries : ∀ k (h : k < l.length), (p.slot k).toMapping = l[k]
  rest : ∀ k : ℕ, l.length ≤ k → k < 32 →
    (p.slot k).addr < 4096 ∨ Region (p.slot k).toMapping

theorem listed_kept {p : Proc} {l : List Mapping} (h : Listed p l) : Kept p l :=
  ⟨h.total, h.entries, fun k hk hk32 => .inl (h.rest k hk hk32)⟩

theorem Kept.listed {p : Proc} {l : List Mapping} (h : Kept p l)
    (hrest : ∀ k : ℕ, l.length ≤ k → k < 32 → (p.slot k).addr < 4096) : Listed p l :=
  ⟨h.total, h.entries, hrest⟩

def margin (m : Mapping) : ℕ := if has m.flags MAP_GROWSUP then PGSIZE else 0

/-- First fit behind mapping `m`, with the mappings above it. -/
def behind (length : ℕ) (m : Mapping) : List Mapping → ℕ
  | [] => endOf m
  | n :: l => if n.addr - endOf m > length + margin m then endOf m else behind length n l

/-- The address `my_mmap` looks for when it is given no hint. -/
def firstFit (length : ℕ) : List Mapping → ℕ
  | [] => MMAPBASE
  | m :: l => if m.addr - MMAPBASE > length then MMAPBASE else behind length m l

section Bounds

variable {p : Proc} {l : List Mapping} {m : Mapping} {k : ℕ}

theorem Region.bounds (h : Region m) : 1610612736 ≤ m.addr ∧ m.addr % 4096 = 0 ∧ 0 < m.length ∧
    m.addr + m.length ≤ 2147483648 := h

theorem Region.endOf_eq (h : Region m) :
    endOf m = (m.addr + m.length + 4095) / 4096 * 4096 := by
  obtain ⟨_, _, _, htop⟩ := h.bounds
  rw [endOf, wrap_add_of_lt (by omega), pgRoundUp, Nat.mod_eq_of_lt (by omega)]

theorem Arranged.bounds (h : Arranged l) (hk : k < l.length) :
    1610612736 ≤ l[k].addr ∧ l[k].addr % 4096 = 0 ∧ 0 < l[k].length ∧
      l[k].addr + l[k].length ≤ 2147483648 := h.region _ (List.getElem_mem hk)

theorem Arranged.apart_of_lt (hy : Arranged l) {n : Mapping} (hm : m ∈ l) (hn : n ∈ l)
    (hlt : m.addr < n.addr) : m.addr + m.length ≤ n.addr := by
  obtain ⟨i, hi, rfl⟩ := List.getElem_of_mem hm
  obtain ⟨j, hj, rfl⟩ := List.getElem_of_mem hn
  rcases lt_trichotomy i j with hij | rfl | hji
  · exact getElem_apart hy.apart hj hij
  · omega
  · have hapart := getElem_apart hy.apart hi hji
    omega

theorem Arranged.next_le (hy : Arranged l) {i : ℕ} (hi : i < l.length) (hm : m ∈ l)
    (hlt : l[i].addr < m.addr) : ∃ h : i + 1 < l.length, l[i + 1].addr ≤ m.addr := by
  obtain ⟨j, hj, rfl⟩ := List.getElem_of_mem hm
  have hij : i < j := by
    by_contra hle
    rcases Nat.eq_or_lt_of_le (Nat.not_lt.mp hle) with rfl | hji
    · omega
    · have hapart := getElem_apart hy.apart hi hji
      omega
  refine ⟨by omega, ?_⟩
  rcases Nat.eq_or_lt_of_le hij with rfl | hlt
  · exact le_rfl
  · exact (Nat.le_add_right _ _).trans (getElem_apart hy.apart hj hlt)

/-- Rounded up, the end of a mapping is still at most the start of the next one. -/
theorem Arranged.endOf_bounds (h : Arranged l) (hk : k < l.length) :
    l[k].addr + l[k].length ≤ endOf l[k] ∧ endOf l[k] % 4096 = 0 ∧ endOf l[k] ≤ 2147483648 ∧
      endOf l[k] < l[k].addr + l[k].length + 4096 ∧
      ∀ j (hj : j < l.length), k < j → endOf l[k] ≤ l[j].addr := by
  obtain ⟨_, _, _, htop⟩ := h.bounds hk
  rw [(h.region _ (List.getElem_mem hk)).endOf_eq]
  refine ⟨by omega, by omega, by omega, by omega, fun j hj hkj => ?_⟩
  have hapart := getElem_apart h.apart hj hkj
  have haligned := (h.bounds hj).2.1
  omega

theorem Kept.slot_addr (h : Kept p l) (hk : k < l.length) : (p.slot k).addr = l[k].addr ∧
    (p.slot k).length = l[k].length ∧ (p.slot k).flags = l[k].flags := by
  rw [← h.entries k hk]
  exact ⟨rfl, rfl, rfl⟩

theorem fits_region {pos : ℕ} (hf : Fits l pos m.addr m.length) : Region m :=
  ⟨hf.base, hf.aligned, hf.positive, hf.top.trans (by decide)⟩

theorem Arranged.insert (h : Arranged l) {pos : ℕ} (hf : Fits l pos m.addr m.length) :
    Arranged (l.insertIdx pos m) := by
  refine ⟨fun x hx => ?_, hf.pairwise_insert h.apart⟩
  rcases List.eq_or_mem_of_mem_insertIdx hx with rfl | hx
  · exact fits_region hf
  · exact h.region x hx

end Bounds

/-- A search for `length` bytes fails without a trace, or opens a slot for them at `a`. -/
def FoundAt (p : Proc) (l : List Mapping) (length : BitVec 32) (a : ℕ) (r : Proc × ℤ) : Prop :=
  r = (p, -1) ∨ ∃ (p' : Proc) (pos : ℕ), r = (p', (pos : ℤ)) ∧ Opened p p' l.length pos ∧
    (p'.slot pos).addr = a ∧ (p'.slot pos).length = length.toNat ∧ Fits l pos a length.toNat

section Search

variable {p : Proc} {l : List Mapping} {length : BitVec 32}

/-- A failing bound test is met only behind the last entry, where nothing has been shifted. -/
theorem mmp_insert_found (htot : p.total_mmaps = l.length) (hl : l.length < 32)
    (hy : Arranged l) (hpos : 0 < length.toNat) (hlen : length.toNat < 2147483648) (pos : ℕ)
    {a : ℕ} {i : ℤ} (hi : i + 1 = pos) (hle : pos ≤ l.length) (hbase : MMAPBASE ≤ a)
    (htop : a < KERNBASE) (haligned : a % 4096 = 0)
    (habove : ∀ k (h : k < l.length), k < pos → l[k].addr + l[k].length ≤ a)
    (hbelow : ∀ k (h : k < l.length), pos ≤ k → a + length.toNat ≤ l[k].addr) :
    FoundAt p l length a (mmp_insert p length i a) := by
  simp only [MMAPBASE, KERNBASE] at hbase htop
  have hw : wrap ((a : ℤ) + length.toNat) = a + length.toNat := wrap_add_of_lt (by omega)
  by_cases hbound : pgRoundUp (a + length.toNat) ≥ KERNBASE
  · have hlast : pos = l.length := by
      by_contra hne
      have hnext := hbelow pos (by omega) le_rfl
      obtain ⟨_, hal, hlp, hlt⟩ := hy.bounds (k := pos) (by omega)
      have hup := pgRoundUp_le hnext hal
      simp only [KERNBASE] at hbound
      omega
    left
    rw [mmp_insert]
    simp only [show (p.total_mmaps - (i + 1)).toNat = 0 by omega, shiftRight, hw, if_pos hbound]
  · obtain ⟨p', hins, ho, hpa, hpl⟩ := mmp_insert_spec htot hl length hle hi (a := a)
      (by rw [hw]; omega)
    refine .inr ⟨p', pos, hins, ho, hpa, hpl, hle, hbase, haligned, hpos, ?_, habove, hbelow⟩
    simp only [KERNBASE, pgRoundUp] at hbound ⊢
    omega

theorem checkGap_some {addr n i : ℕ} {j last : ℤ}
    (h : checkGap p addr length last n i = some j) : ∃ k : ℕ, j = k ∧ (k : ℤ) < last ∧
      addr ≥ pgRoundUp (wrap ((p.slot k).addr + (p.slot k).length)) ∧
      pgRoundUp (p.slot (k + 1)).addr ≥ wrap (addr + length.toNat) := by
  induction n generalizing i with
  | zero => simp [checkGap] at h
  | succ n ih =>
    rw [checkGap] at h
    dsimp only at h
    split_ifs at h with hi hgap
    · cases h
      exact ⟨i, rfl, hi, hgap⟩
    · exact ih (i := i + 1) (by exact_mod_cast h)

/-- With a hint the mapping goes where the hint says or nowhere. -/
theorem mmp_check_found (hk : Kept p l) (hl : l.length < 32) (hy : Arranged l)
    (hpos : 0 < length.toNat) (hlen : length.toNat < 2147483648) {addr : ℕ}
    (hbase : MMAPBASE ≤ addr) (htop : addr < KERNBASE) (haligned : addr % 4096 = 0) :
    FoundAt p l length addr (mmp_check p addr length) := by
  have htot := hk.total
  simp only [MMAPBASE, KERNBASE] at hbase htop
  unfold mmp_check
  dsimp only
  split_ifs with hlast
  · refine mmp_insert_found htot hl hy hpos hlen l.length (by omega) le_rfl hbase htop
      haligned (fun k hkl _ => ?_) (fun k hkl hle => absurd hkl (by omega))
    have hslot := hk.slot_addr (k := l.length - 1) (by omega)
    rw [show p.total_mmaps - 1 = ((l.length - 1 : ℕ) : ℤ) by omega, hslot.1, hslot.2.1,
      ← endOf] at hlast
    obtain ⟨hend, -, -, -, -⟩ := hy.endOf_bounds (k := l.length - 1) (by omega)
    rcases Nat.lt_or_ge k (l.length - 1) with hlt | hge
    · have hapart := getElem_apart hy.apart (j := l.length - 1) (by omega) hlt
      omega
    · obtain rfl : k = l.length - 1 := by omega
      omega
  · split
    next i hgap =>
      obtain ⟨k, rfl, hlt, habove, hbelow⟩ := checkGap_some (i := 0) (by exact_mod_cast hgap)
      have hk1 : k + 1 < l.length := by omega
      have hslot := hk.slot_addr (k := k) (by omega)
      have hnext := hk.slot_addr hk1
      obtain ⟨_, halk, _, htk⟩ := hy.bounds hk1
      push_cast at hnext
      rw [hslot.1, hslot.2.1, ← endOf] at habove
      rw [hnext.1, pgRoundUp_of_aligned halk (by omega), wrap_add_of_lt (by omega)] at hbelow
      refine mmp_insert_found htot hl hy hpos hlen (k + 1) (by push_cast; rfl) (by omega)
        hbase htop haligned (fun j hj hjk => ?_) (fun j hj hkj => ?_)
      · obtain ⟨hend, -, -, -, -⟩ := hy.endOf_bounds (k := k) (by omega)
        rcases Nat.lt_succ_iff_lt_or_eq.mp hjk with hjk | rfl
        · have hapart := getElem_apart hy.apart (j := k) (by omega) hjk
          omega
        · omega
      · rcases Nat.eq_or_lt_of_le hkj with rfl | hkj
        · exact hbelow
        · have hapart := getElem_apart hy.apart hj hkj
          omega
    next => exact .inl rfl

/-- An old entry right behind the live ones, too close above them for the new mapping. -/
structure Promoted (p : Proc) (l : List Mapping) : Prop where
  nonempty : 0 < l.length
  region : Region (p.slot l.length).toMapping
  above : ∀ h : l.length - 1 < l.length, endOf l[l.length - 1] ≤ (p.slot l.length).addr

theorem margin_le (m : Mapping) : margin m ≤ 4096 := by
  unfold margin
  split_ifs <;> simp

/-- The step of the search over entry `i`. -/
theorem anyGap_step (hk : Kept p l) (hlen : length.toNat < 2147483648)
    {n i : ℕ} (hi : i < l.length) : anyGap p length (n + 1) i =
      if (p.slot ((i : ℤ) + 1)).addr ≠ 0 ∧
        ¬ wrap ((pgRoundUp (p.slot ((i : ℤ) + 1)).addr : ℤ) - endOf l[i]) >
          length.toNat + margin l[i]
      then anyGap p length n (i + 1) else i := by
  have htot := hk.total
  have hmargin := margin_le l[i]
  obtain ⟨hsa, hsl, hsf⟩ := hk.slot_addr hi
  rw [anyGap]
  simp only [hsa, hsl, hsf]
  rw [← endOf, ← margin, wrap_add_of_lt (by omega)]
  by_cases hz : (p.slot ((i : ℤ) + 1)).addr ≠ 0
  · rw [if_pos ⟨by omega, hz⟩]
    by_cases hgap : wrap ((pgRoundUp (p.slot ((i : ℤ) + 1)).addr : ℤ) - endOf l[i]) >
        length.toNat + margin l[i]
    · rw [if_pos hgap, if_neg (by simp [hgap])]
    · rw [if_neg hgap, if_pos ⟨hz, hgap⟩]
  · rw [if_neg (by simp [hz]), if_neg (by simp [hz])]

/-- Behind the last live entry the search stops unless an old entry lies close above: the
distance down to a lower address wraps around and is always wide enough. -/
theorem anyGap_last (hk : Kept p l) (hl : l.length < 32) (hy : Arranged l)
    (hlen : length.toNat < 2147483648) {i : ℕ} (hi : i + 1 = l.length) :
    anyGap p length 1 i = i ∨ anyGap p length 1 i = l.length ∧ Promoted p l := by
  have hil : i < l.length := by omega
  have hmargin := margin_le l[i]
  have hbase := (hy.bounds hil).1
  obtain ⟨hend, -, htop, -, -⟩ := hy.endOf_bounds hil
  rw [anyGap_step hk hlen hil]
  split_ifs with hloop
  · obtain ⟨hz, hgap⟩ := hloop
    rw [show ((i : ℤ) + 1) = (l.length : ℕ) by omega] at hz hgap
    rcases hk.rest l.length le_rfl hl with hsmall | hregion
    · rw [show pgRoundUp (p.slot l.length).addr = 4096 by unfold pgRoundUp; omega] at hgap
      simp only [wrap] at hgap
      omega
    · obtain ⟨_, haligned, _, hrtop⟩ := hregion.bounds
      rw [pgRoundUp_of_aligned haligned (by omega)] at hgap
      have habove : endOf l[i] ≤ (p.slot l.length).addr := by
        simp only [wrap] at hgap
        omega
      refine .inr ⟨by rw [anyGap]; omega, by omega, hregion, fun h => ?_⟩
      have hlast : l[l.length - 1] = l[i] := by congr 1; omega
      rw [hlast]
      exact habove
  · exact .inl rfl

/-- The search stops at an entry with enough room behind it, the first of that kind, or runs
on into an old entry. -/
theorem anyGap_found (hk : Kept p l) (hl : l.length < 32) (hy : Arranged l)
    (hlen : length.toNat < 2147483648) {n i : ℕ} (hn : i + n = l.length) (hi : i < l.length) :
    (∃ (j : ℕ) (hj : j < l.length), anyGap p length n i = j ∧
      endOf l[j] = behind length.toNat l[i] (l.drop (i + 1)) ∧
      ∀ hj' : j + 1 < l.length, endOf l[j] + length.toNat < l[j + 1].addr) ∨
    anyGap p length n i = l.length ∧ Promoted p l := by
  induction n generalizing i with
  | zero => omega
  | succ n ih =>
    by_cases hlast : i + 1 = l.length
    · obtain rfl : n = 0 := by omega
      rcases anyGap_last hk hl hy hlen hlast with hstop | hrun
      · refine .inl ⟨i, hi, hstop, ?_, fun hj' => by omega⟩
        rw [List.drop_eq_nil_of_le (by omega), behind]
      · exact .inr hrun
    · have hi' : i + 1 < l.length := by omega
      obtain ⟨hna, -, -⟩ := hk.slot_addr hi'
      push_cast at hna
      obtain ⟨hb, ha, -, htop⟩ := hy.bounds hi'
      obtain ⟨-, -, -, -, hnext⟩ := hy.endOf_bounds hi
      have hup := hnext (i + 1) hi' (by omega)
      have hgap : wrap (((pgRoundUp l[i + 1].addr : ℕ) : ℤ) - (endOf l[i] : ℕ)) =
          l[i + 1].addr - endOf l[i] := by
        rw [pgRoundUp_of_aligned ha (by omega)]
        exact wrap_sub_of_le hup (by omega)
      rw [anyGap_step hk hlen hi, hna, hgap, List.drop_eq_getElem_cons hi', behind]
      by_cases hwide : l[i + 1].addr - endOf l[i] > length.toNat + margin l[i]
      · rw [if_neg (by simp [hwide]), if_pos hwide]
        exact .inl ⟨i, hi, rfl, rfl, fun hj' => by omega⟩
      · rw [if_pos ⟨by omega, hwide⟩, if_neg hwide]
        exact_mod_cast ih (i := i + 1) (by omega) hi'

theorem mmp_any_empty_found (hk : Kept p []) (hpos : 0 < length.toNat)
    (hlen : length.toNat < 2147483648) : FoundAt p [] length MMAPBASE (mmp_any p length) := by
  have htot : p.total_mmaps = 0 := hk.total
  have hbase : pgRoundUp MMAPBASE = MMAPBASE := by decide
  rw [mmp_any, if_pos htot]
  split_ifs with hb
  · exact .inl rfl
  refine .inr ⟨_, 0, rfl, ⟨by simp, by simp, ?_, ?_⟩, by simp [hbase], by simp, ?_⟩
  · intro k hk hkl
    exact absurd hk (by simpa using hkl)
  · intro k hk _
    rw [slot_setSlot_of_ne _ (by decide) (by simpa using Nat.ne_of_gt hk)]
  · refine ⟨le_rfl, le_rfl, by decide, hpos, ?_, by simp, by simp⟩
    simp only [wrap, MMAPBASE, KERNBASE, pgRoundUp, not_le] at hb ⊢
    omega

/-- Without a hint first fit decides, unless an old entry is in the way. -/
theorem mmp_any_found (hk : Kept p l) (hl : l.length < 32) (hy : Arranged l)
    (hpos : 0 < length.toNat) (hlen : length.toNat < 2147483648) :
    FoundAt p l length (firstFit length.toNat l) (mmp_any p length) ∨
    Promoted p l ∧ mmp_any p length =
      if wrap (endOf (p.slot l.length).toMapping + length.toNat) > KERNBASE then (p, -1)
      else mmp_insert p length l.length (endOf (p.slot l.length).toMapping) := by
  have htot := hk.total
  rcases Nat.eq_zero_or_pos l.length with hz | hne
  · obtain rfl := List.length_eq_zero_iff.mp hz
    exact .inl (mmp_any_empty_found hk hpos hlen)
  obtain ⟨hb0, ha0, hp0, htop0⟩ := hy.bounds hne
  have hs0 : (p.slot 0).addr = l[0].addr := (hk.slot_addr hne).1
  have hw0 : wrap (((p.slot 0).addr : ℤ) - ((MMAPBASE : ℕ) : ℤ)) = l[0].addr - MMAPBASE := by
    rw [hs0]
    exact wrap_sub_of_le hb0 (by omega)
  have hfirst : firstFit length.toNat l = if l[0].addr - MMAPBASE > length.toNat then MMAPBASE
      else behind length.toNat l[0] (l.drop 1) := by
    obtain ⟨m, l', rfl⟩ := List.exists_cons_of_length_pos hne
    rfl
  rw [mmp_any, if_neg (by omega : ¬ p.total_mmaps = 0), hw0, hfirst]
  by_cases hfront : l[0].addr - MMAPBASE > length.toNat
  · rw [if_pos hfront, if_pos hfront]
    left
    refine mmp_insert_found htot hl hy hpos hlen 0 (by simp) (Nat.zero_le _) le_rfl
      (by decide) (by decide) (fun k _ hk => by omega) (fun k hk _ => ?_)
    simp only [MMAPBASE] at hfront ⊢
    rcases Nat.eq_zero_or_pos k with rfl | hk0
    · omega
    · have hapart := getElem_apart hy.apart hk hk0
      omega
  rw [if_neg hfront, if_neg hfront]
  rw [show p.total_mmaps.toNat = l.length by omega]
  rcases anyGap_found hk hl hy hlen (n := l.length) (i := 0) (by omega) hne with
    ⟨j, hj, hrun, hbehind, hgap⟩ | ⟨hrun, hold⟩
  · left
    rw [← hbehind]
    obtain ⟨hsa, hsl, _⟩ := hk.slot_addr hj
    obtain ⟨hend, haligned, hmax, -, -⟩ := hy.endOf_bounds hj
    have hbase := (hy.bounds hj).1
    have hrun' : anyGap p length l.length 0 = (j : ℤ) := by exact_mod_cast hrun
    simp only [hrun', hsa, hsl]
    rw [← endOf, wrap_add_of_lt (by omega)]
    split_ifs with htop
    · exact .inl rfl
    refine mmp_insert_found htot hl hy hpos hlen (j + 1) (by push_cast; rfl) (by omega)
      (by simp only [MMAPBASE]; omega) (by simp only [KERNBASE] at htop ⊢; omega) haligned
      (fun k hk hkj => ?_) (fun k hk hjk => ?_)
    · rcases Nat.lt_succ_iff_lt_or_eq.mp hkj with hkj | rfl
      · have hapart := getElem_apart hy.apart hj hkj
        omega
      · exact hend
    · have hroom := hgap (by omega)
      rcases Nat.eq_or_lt_of_le hjk with rfl | hjk
      · omega
      · have hapart := getElem_apart hy.apart hk hjk
        omega
  · right
    have hrun' : anyGap p length l.length 0 = (l.length : ℤ) := by exact_mod_cast hrun
    refine ⟨hold, ?_⟩
    simp only [hrun']
    rw [← endOf]

end Search

/-- What a call of `my_mmap` can do to a table of mappings `l`. -/
inductive Outcome (p : Proc) (l : List Mapping) (addr : BitVec 32) (f : File)
    (length offset flags protection : BitVec 32) : Proc × Option ℕ → Prop where
  | refused : Outcome p l addr f length offset flags protection (p, none)
  | placed (p' : Proc) (pos : ℕ) (m : Mmp) (opened : Opened p p' l.length pos)
      (room : l.length < 32)
      (mapping : m.toMapping = newMapping f m.addr length offset flags protection)
      (fits : Fits l pos m.addr m.length)
      (place : m.addr = if addr = 0 then firstFit length.toNat l else addr.toNat) :
      Outcome p l addr f length offset flags protection (filled p' pos m, some m.addr)
  | promoted (m : Mmp) (old : Promoted p l) (hint : addr = 0) (room : l.length + 1 < 32)
      (mapping : m.toMapping = newMapping f m.addr length offset flags protection)
      (region : Region m.toMapping) :
      Outcome p l addr f length offset flags protection (filled p (l.length + 1) m, some m.addr)

/-- The new entry would be written over the counter behind the array. -/
def Overrun (p : Proc) (addr : BitVec 32) : Prop :=
  addr = 0 ∧ p.total_mmaps = 31 ∧ 4096 ≤ (p.slot 31).addr

section Calls

variable {p : Proc} {l : List Mapping} {addr : BitVec 32} {f : File}
  {length offset flags protection : BitVec 32}

/-- `my_mmap` once a search has answered. -/
def fill (r : Proc × ℤ) (addr : BitVec 32) (f : File) (offset flags protection : BitVec 32) :
    Proc × Option ℕ :=
  if r.2 = -1 then (r.1, none)
  else
    let m := r.1.slot r.2
    let a := if has flags MAP_FIXED then addr.toNat else m.addr
    let p := r.1.setSlot r.2 { m with
      flags := flags
      prot := if protection = PROT_NONE then 0 else PTE_U ||| protection
      offset := offset
      f := some f.ptr
      addr := a }
    ({ p with total_mmaps := p.total_mmaps + 1 }, some a)

theorem fill_outcome {r : Proc × ℤ} {a : ℕ} (h : FoundAt p l length a r) (hl : l.length < 32)
    (ha : a = if addr = 0 then firstFit length.toNat l else addr.toNat)
    (hfix : has flags MAP_FIXED = true → a = addr.toNat) :
    Outcome p l addr f length offset flags protection
      (fill r addr f offset flags protection) := by
  rcases h with rfl | ⟨p', pos, rfl, ho, hpa, hpl, hfit⟩
  · exact .refused
  have hp32 : (pos : ℤ) ≠ 32 := by have := hfit.inside; omega
  have haddr : (if has flags MAP_FIXED = true then addr.toNat else (p'.slot pos).addr) = a := by
    split_ifs with hflag
    · exact (hfix hflag).symm
    · exact hpa
  have hrun : Outcome p l addr f length offset flags protection _ :=
    .placed p' pos { p'.slot pos with
      flags := flags
      prot := if protection = PROT_NONE then 0 else PTE_U ||| protection
      offset := offset
      f := some f.ptr
      addr := a } ho hl (by simp [newMapping, hpl]) (by simpa [hpl] using hfit) ha
  simpa [fill, haddr, filled, hp32, show ¬ (pos : ℤ) = -1 by omega] using hrun

/-- The old entry becomes the last live one, the new entry stands behind the live ones. -/
theorem fill_promoted (hk : Kept p l) (hold : Promoted p l) (hl : l.length + 1 < 32)
    (hpos : 0 < length.toNat) (hlen : length.toNat < 2147483648)
    (hfix : ¬ has flags MAP_FIXED = true) :
    Outcome p l 0 f length offset flags protection (fill
      (if wrap (endOf (p.slot l.length).toMapping + length.toNat) > KERNBASE then (p, -1)
       else mmp_insert p length l.length (endOf (p.slot l.length).toMapping))
      0 f offset flags protection) := by
  have htot := hk.total
  obtain ⟨hbase, haligned, hlong, htop⟩ := hold.region.bounds
  have hend := hold.region.endOf_eq
  generalize endOf (p.slot l.length).toMapping = a at hend ⊢
  rw [wrap_add_of_lt (by omega)]
  split_ifs with hhigh
  · exact .refused
  have hw : wrap ((a : ℤ) + length.toNat) = a + length.toNat := wrap_add_of_lt (by omega)
  rw [mmp_insert]
  simp only [show (p.total_mmaps - ((l.length : ℤ) + 1)).toNat = 0 by omega, shiftRight, hw]
  split_ifs with hbound
  · exact .refused
  have hp32 : (l.length : ℤ) + 1 ≠ 32 := by omega
  have hrun : Outcome p l 0 f length offset flags protection _ :=
    .promoted { p.slot (l.length + 1) with
      addr := a
      length := length.toNat
      flags := flags
      prot := if protection = PROT_NONE then 0 else PTE_U ||| protection
      offset := offset
      f := some f.ptr } hold rfl hl (by simp [newMapping])
      ⟨by simp only [MMAPBASE]; omega, show a % 4096 = 0 by omega, hpos, by simpa using hhigh⟩
  simpa [fill, hfix, filled, hp32, Proc.setSlot, Proc.slot,
    show ¬ (l.length : ℤ) + 1 = -1 by omega] using hrun

def search (p : Proc) (addr length flags : BitVec 32) : Proc × ℤ :=
  if has flags MAP_FIXED then
    if addr ≠ 0 then mmp_check p addr.toNat length else (p, -1)
  else if addr ≠ 0 then mmp_check p addr.toNat length
  else mmp_any p length

theorem my_mmap_eq : my_mmap p addr f length offset flags protection =
    if badArgs f length offset flags protection then (p, none)
    else if p.total_mmaps = 32 then (p, none)
    else if addr ≠ 0 ∧ (addr.toInt < MMAPBASE ∨
        pgRoundUp (wrap (pgRoundUp addr.toNat + length.toNat)) > KERNBASE ∨
        addr.toNat % PGSIZE ≠ 0) then (p, none)
    else fill (search p addr length flags) addr f offset flags protection := rfl

theorem my_mmap_outcome (hk : Kept p l) (hy : Arranged l) (hroom : l.length ≤ 32)
    (hover : ¬ Overrun p addr) (f : File) (length offset flags protection : BitVec 32) :
    Outcome p l addr f length offset flags protection
      (my_mmap p addr f length offset flags protection) := by
  have htot := hk.total
  rw [my_mmap_eq]
  split_ifs with hbad hfull hhint
  · exact .refused
  · exact .refused
  · exact .refused
  obtain ⟨hpos, hlen⟩ := badArgs_length (Bool.eq_false_iff.mpr hbad)
  have hl : l.length < 32 := by omega
  rw [search]
  by_cases haddr : addr = 0
  · subst haddr
    by_cases hfix : has flags MAP_FIXED = true
    · simp only [hfix, if_true, ne_eq, not_true_eq_false, if_false]
      exact .refused
    · simp only [hfix, ne_eq, not_true_eq_false, if_false]
      rcases mmp_any_found hk hl hy hpos hlen with hfound | ⟨hold, hrun⟩
      · exact fill_outcome hfound hl rfl fun hflag => absurd hflag hfix
      · rw [hrun]
        have hnext : l.length + 1 < 32 := by
          by_contra hge
          have h31 : l.length = 31 := by omega
          have hbase := hold.region.bounds.1
          rw [h31] at hbase
          exact hover ⟨rfl, by omega, by push_cast at hbase; omega⟩
        exact fill_promoted hk hold hnext hpos hlen hfix
  · have hrange : MMAPBASE ≤ addr.toNat ∧ addr.toNat < KERNBASE ∧ addr.toNat % 4096 = 0 := by
      have hint := hhint
      simp only [not_and, not_or, not_lt, ne_eq, Decidable.not_not] at hint
      obtain ⟨hlow, -, haligned⟩ := hint haddr
      rw [BitVec.toInt_eq_toNat_cond] at hlow
      simp only [MMAPBASE, KERNBASE, PGSIZE] at hlow haligned ⊢
      split_ifs at hlow <;> omega
    simp only [ne_eq, haddr, not_false_eq_true, if_true, ite_self]
    have hfound := mmp_check_found hk hl hy hpos hlen hrange.1 hrange.2.1 hrange.2.2
    exact fill_outcome hfound hl (by rw [if_neg haddr]) fun _ => rfl

/-- After a placement the table holds one mapping more, in order. -/
theorem opened_kept {p' : Proc} {pos : ℕ} (ho : Opened p p' l.length pos) (hk : Kept p l)
    (hl : l.length < 32) (hpos : pos ≤ l.length) (m : Mmp) :
    Kept (filled p' pos m) (l.insertIdx pos m.toMapping) := by
  obtain ⟨htotal, hentries, hrest⟩ := ho.inserted hk.total hk.entries hl hpos m
  refine ⟨htotal, hentries, fun k hkl hk32 => ?_⟩
  rw [List.length_insertIdx_of_le_length hpos] at hkl
  rw [hrest k (by omega) hk32]
  exact hk.rest k (by omega) hk32

theorem Promoted.kept (hk : Kept p l) (hl : l.length + 1 < 32) {m : Mmp}
    (hm : Region m.toMapping) :
    Kept (filled p (l.length + 1) m) (l ++ [(p.slot l.length).toMapping]) := by
  have htot := hk.total
  have hslot {k : ℕ} (hk32 : k < 32) := @filled_slot p _ hl m _ hk32
  refine ⟨?_, fun k hkl => ?_, fun k hkl hk32 => ?_⟩
  · simp only [filled, List.length_append, List.length_singleton]
    have hp32 : ((l.length + 1 : ℕ) : ℤ) ≠ 32 := by omega
    push_cast
    omega
  · rw [List.length_append, List.length_singleton] at hkl
    rw [hslot (by omega), if_neg (by omega)]
    rcases Nat.lt_succ_iff_lt_or_eq.mp hkl with hlt | rfl
    · rw [hk.entries k hlt, List.getElem_append_left hlt]
    · simp
  · rw [List.length_append, List.length_singleton] at hkl
    rw [hslot hk32]
    split_ifs with hnew
    · exact .inr hm
    · exact hk.rest k (by omega) hk32

theorem Promoted.arranged (hold : Promoted p l) (hy : Arranged l) :
    Arranged (l ++ [(p.slot l.length).toMapping]) := by
  refine ⟨fun m hm => ?_, ?_⟩
  · rcases List.mem_append.mp hm with hm | hm
    · exact hy.region m hm
    · obtain rfl := List.mem_singleton.mp hm
      exact hold.region
  · rw [List.pairwise_append]
    refine ⟨hy.apart, List.pairwise_singleton _ _, fun a ha b hb => ?_⟩
    obtain rfl := List.mem_singleton.mp hb
    obtain ⟨i, hi, rfl⟩ := List.getElem_of_mem ha
    have hlast := hold.above (Nat.sub_lt hold.nonempty Nat.one_pos)
    obtain ⟨hend, -, -, -, -⟩ := hy.endOf_bounds (Nat.sub_lt hold.nonempty Nat.one_pos)
    rcases Nat.lt_or_ge i (l.length - 1) with hlt | hge
    · have hapart := getElem_apart hy.apart (j := l.length - 1) (by omega) hlt
      omega
    · obtain rfl : i = l.length - 1 := by omega
      omega

end Calls

/-- A call that does not write over the counter leaves the table in order. -/
theorem my_mmap_arranged {p : Proc} {l : List Mapping} (hk : Kept p l) (hy : Arranged l)
    (hroom : l.length ≤ 32) {addr : BitVec 32} (hover : ¬ Overrun p addr) (f : File)
    (length offset flags protection : BitVec 32) :
    ∃ l', l ⊆ l' ∧ Kept (my_mmap p addr f length offset flags protection).1 l' ∧ Arranged l' ∧
      l'.length ≤ 32 := by
  have hout := my_mmap_outcome hk hy hroom hover f length offset flags protection
  generalize my_mmap p addr f length offset flags protection = r at hout
  cases hout with
  | refused => exact ⟨l, List.Subset.refl l, hk, hy, hroom⟩
  | placed p' pos m opened room mapping fits place =>
    refine ⟨l.insertIdx pos m.toMapping, fun x hx => (List.mem_insertIdx fits.inside).mpr (.inr hx),
      opened_kept opened hk room fits.inside m, hy.insert fits, ?_⟩
    rw [List.length_insertIdx_of_le_length fits.inside]
    exact room
  | promoted m old hint room mapping region =>
    refine ⟨_, List.subset_append_left _ _, Promoted.kept hk room region, old.arranged hy, ?_⟩
    rw [List.length_append, List.length_singleton]
    omega

end MmapPlacement
