import OsProjects.MmapGuards
import OsProjects.MmapSafety

/-! # Pages that no mapping accounts for

One process maps, unmaps and faults. Every page table entry in the mmap area belongs to a
mapping in the table as long as the faults stay in the mappings or right behind growing
ones, and as long as `my_munmap` is called with a page address of a mapping in the table and
a length that is not negative.
-/
namespace MmapResidue

open Word32 MmapTable MmapFrames MmapPlacement MmapGuards Runs
open MmapTracking hiding Session Call Along

section Shift

variable {p : Proc}

/-- The left shift runs up to the first zero address and copies every slot down by one. -/
theorem shiftLeft_spec {n j : ℕ} (hn : 32 ≤ j + n) (hj : j ≤ 32) :
    ∃ e : ℕ, j ≤ e ∧ e ≤ 32 ∧ (e = 32 ∨ (p.slot ((e + 1 : ℕ) : ℤ)).addr = 0) ∧
      ∀ t : ℕ, t < 32 → ((shiftLeft n j p).slot t).toMapping =
        if j ≤ t ∧ t < e then (p.slot ((t + 1 : ℕ) : ℤ)).toMapping else (p.slot t).toMapping := by
  induction n generalizing j p with
  | zero => exact ⟨j, le_rfl, hj, .inl (by omega), fun t ht => by rw [if_neg (by omega)]; rfl⟩
  | succ n ih =>
    rw [shiftLeft]
    split_ifs with h
    · have hj32 : (j : ℤ) ≠ 32 := by omega
      have hcopy : ∀ t : ℕ, t ≠ j → (mmp_cpy p j (j + 1)).slot t = p.slot t := fun t ht => by
        rw [mmp_cpy, slot_setSlot_of_ne _ hj32 (by omega)]
      obtain ⟨e, hje, he, hstop, hslots⟩ := ih (j := j + 1) (p := mmp_cpy p j (j + 1)) (by omega)
        (by omega)
      refine ⟨e, by omega, he, ?_, fun t ht => ?_⟩
      · rwa [hcopy (e + 1) (by omega)] at hstop
      · push_cast at hslots
        rw [hslots t ht]
        rcases lt_trichotomy t j with hlt | rfl | hgt
        · rw [if_neg (by omega), if_neg (by omega), hcopy t (by omega)]
        · rw [if_neg (by omega), if_pos (by omega), mmp_cpy_slot hj32, if_pos rfl]
          push_cast
          rfl
        · by_cases hte : t < e
          · rw [if_pos (by omega), if_pos (by omega)]
            have := hcopy (t + 1) (by omega)
            push_cast at this ⊢
            rw [this]
          · rw [if_neg (by omega), if_neg (by omega), hcopy t (by omega)]
    · refine ⟨j, le_rfl, hj, ?_, fun t ht => by rw [if_neg (by omega)]⟩
      push_cast
      by_cases hj32 : j = 32
      · exact .inl hj32
      · right
        by_contra hz
        exact h ⟨by omega, hz⟩

variable {l : List Mapping} {j : ℕ}

/-- The table after the removal of entry `j`. -/
def removed (p : Proc) (j : ℕ) : Proc :=
  { shiftLeft 32 j (clearSlot p j) with
    total_mmaps := (shiftLeft 32 j (clearSlot p j)).total_mmaps - 1 }

theorem removed_slots (hk : Kept p l) (hy : Arranged l) (hroom : l.length ≤ 32)
    (hj : j < l.length) : ∃ e : ℕ, l.length ≤ e + 1 ∧ j ≤ e ∧ e ≤ 32 ∧ ∀ t : ℕ, t < 32 →
      ((removed p j).slot t).toMapping =
        if j ≤ t ∧ t < e then (p.slot ((t + 1 : ℕ) : ℤ)).toMapping
        else if t = j then Mmp.zero.toMapping else (p.slot t).toMapping := by
  have hj32 : (j : ℤ) ≠ 32 := by omega
  have hother : ∀ t : ℕ, t ≠ j → (clearSlot p j).slot t = p.slot t := fun t ht => by
    rw [clearSlot, slot_setSlot_of_ne _ hj32 (by omega)]
  obtain ⟨e, hje, he, hstop, hslots⟩ := shiftLeft_spec (p := clearSlot p j) (n := 32) (j := j)
    (by omega) (by omega)
  refine ⟨e, ?_, hje, he, fun t ht => ?_⟩
  · by_contra hlt
    rcases hstop with rfl | hzero
    · omega
    · rw [hother (e + 1) (by omega), (hk.slot_addr (by omega)).1] at hzero
      have hbase := (hy.bounds (k := e + 1) (by omega)).1
      omega
  · have ht32 : (t : ℤ) ≠ 32 := by omega
    have hsame : (removed p j).slot t = (shiftLeft 32 j (clearSlot p j)).slot t := by
      simp [removed, Proc.slot, ht32]
    rw [hsame, hslots t ht]
    by_cases hin : j ≤ t ∧ t < e
    · rw [if_pos hin, if_pos hin, hother (t + 1) (by omega)]
    · rw [if_neg hin, if_neg hin]
      split_ifs with htj
      · subst t
        rw [clearSlot, slot_setSlot_self _ hj32]
      · rw [hother t htj]

theorem removed_kept (hk : Kept p l) (hy : Arranged l) (hroom : l.length ≤ 32)
    (hj : j < l.length) : Kept (removed p j) (l.eraseIdx j) := by
  have htot := hk.total
  have hlen : (l.eraseIdx j).length = l.length - 1 := List.length_eraseIdx_of_lt hj
  obtain ⟨e, hle, hje, he, hslots⟩ := removed_slots hk hy hroom hj
  refine ⟨?_, fun k hkl => ?_, fun k hkl hk32 => ?_⟩
  · have hj32 : (j : ℤ) ≠ 32 := by omega
    rw [hlen]
    simp only [removed, shiftLeft_total, clearSlot, setSlot_total _ hj32]
    omega
  · rw [hlen] at hkl
    rw [hslots k (by omega), List.getElem_eraseIdx]
    by_cases hkj : k < j
    · rw [if_neg (by omega), if_neg (by omega), dif_pos hkj]
      exact hk.entries k (by omega)
    · rw [if_pos (by omega), dif_neg hkj]
      exact hk.entries (k + 1) (by omega)
  · rw [hlen] at hkl
    rw [hslots k hk32]
    split_ifs with hin hkj
    · rcases Nat.lt_or_ge (k + 1) 32 with hlt | hge
      · exact hk.rest (k + 1) (by omega) hlt
      · -- the word behind the array is the counter itself
        left
        obtain rfl : k = 31 := by omega
        simp only [Proc.slot, htot, wrap]
        norm_num
        omega
    · exact .inl (by decide)
    · rcases Nat.lt_or_ge k l.length with hlt | hge
      · right
        rw [hk.entries k hlt]
        exact hy.region _ (List.getElem_mem hlt)
      · exact hk.rest k hge hk32

theorem removed_pgdir (p : Proc) (j : ℕ) : (removed p j).pgdir = p.pgdir :=
  (MmapSafety.kept_pgdir MmapSafety.shiftLeft_kept).trans MmapSafety.setSlot_pgdir

theorem removed_arranged (hy : Arranged l) (j : ℕ) : Arranged (l.eraseIdx j) :=
  ⟨fun m hm => hy.region m (List.mem_of_mem_eraseIdx hm),
    hy.apart.sublist (List.eraseIdx_sublist l j)⟩

end Shift

section Release

variable {p : Proc} {k : Frames} {addr : BitVec 32}

/-- The release loop clears the entries it visits and no others. -/
theorem releasePages_cleared (hz : ∀ a, p.pgdir a ≠ some 0) (n c : ℕ) :
    (∀ a, (releasePages addr n c k p).2.pgdir a = p.pgdir a ∨
      (releasePages addr n c k p).2.pgdir a = none) ∧
    ∀ t, t < n → (releasePages addr n c k p).2.pgdir
      (wrap (addr.toNat + (c + PGSIZE * t : ℕ)) / PGSIZE) = none := by
  induction n generalizing c k p with
  | zero => exact ⟨fun a => .inl rfl, fun t ht => absurd ht (Nat.not_lt_zero t)⟩
  | succ n ih =>
    have hshift : ∀ t : ℕ, c + PGSIZE + PGSIZE * t = c + PGSIZE * (t + 1) := fun t => by ring
    rw [releasePages]
    split_ifs with hpa
    · obtain ⟨hkeep, hclear⟩ := ih (k := k) hz (c + PGSIZE)
      refine ⟨hkeep, fun t ht => ?_⟩
      cases t with
      | zero =>
        have hnone : p.pgdir (wrap (addr.toNat + c) / PGSIZE) = none := by
          cases hp : p.pgdir (wrap (addr.toNat + c) / PGSIZE) with
          | none => rfl
          | some f =>
            rw [get_physical_page, hp, Option.getD_some] at hpa
            subst hpa
            exact absurd hp (hz _)
        rcases hkeep (wrap (addr.toNat + c) / PGSIZE) with hsame | hgone
        · simpa [hnone] using hsame
        · simpa using hgone
      | succ t =>
        rw [← hshift]
        exact hclear t (by omega)
    · set a := wrap (addr.toNat + c) / PGSIZE with ha
      have hz' : ∀ b, (Function.update p.pgdir a none) b ≠ some 0 := by
        intro b
        by_cases hb : b = a
        · simp [hb]
        · simpa [hb] using hz b
      obtain ⟨hkeep, hclear⟩ := ih (k := kfree k (get_physical_page p (wrap (addr.toNat + c))))
        (p := { p with pgdir := Function.update p.pgdir a none }) hz' (c + PGSIZE)
      dsimp only at hkeep
      refine ⟨fun b => ?_, fun t ht => ?_⟩
      · rcases hkeep b with hsame | hgone
        · by_cases hb : b = a
          · right
            rw [hsame, hb, Function.update_self]
          · left
            rw [hsame, Function.update_of_ne hb]
        · exact .inr hgone
      · cases t with
        | zero =>
          rcases hkeep a with hsame | hgone
          · simpa [← ha, Function.update_self] using hsame
          · simpa [← ha] using hgone
        | succ t =>
          rw [← hshift]
          exact hclear t (by omega)

theorem released_kept {l : List Mapping} (hk : Kept p l) (addr : BitVec 32) (n c : ℕ)
    (k : Frames) : Kept (releasePages addr n c k p).2 l := by
  obtain ⟨hmaps, htot⟩ := releasePages_table addr n c k p
  refine ⟨htot.trans hk.total, fun t ht => ?_, fun t ht ht32 => ?_⟩
  · rw [slot_congr hmaps htot]
    exact hk.entries t ht
  · rw [slot_congr hmaps htot]
    exact hk.rest t ht ht32

end Release

section Unmap

variable {p : Proc} {l : List Mapping} {k : Frames} {addr length : BitVec 32} {written : ℤ} {j : ℕ}

theorem findSlot_kept (hk : Kept p l) (hy : Arranged l) (hroom : l.length ≤ 32)
    (hj : j < l.length) {a : ℕ} (hja : l[j].addr = a) : findSlot p a 32 0 = (j : ℤ) := by
  obtain ⟨i, hi, _, hi32, hbefore, hat⟩ := findSlot_spec (p := p) (a := a) (n := 32) (i := 0)
    (by omega)
  have hij : i ≤ j := by
    by_contra hlt
    exact hbefore j (by omega) (by omega) ((hk.slot_addr hj).1.trans hja)
  have heq : i = j := by
    by_contra hne
    have hil : i < l.length := by omega
    have hsame := (hk.slot_addr hil).1.symm.trans (hat (by omega))
    have hapart := getElem_apart hy.apart hj (by omega : i < j)
    have hlong := (hy.bounds hil).2.2.1
    omega
  subst heq
  exact_mod_cast hi

/-- Entry `j` without its first `n` bytes. -/
def shrink (m : Mapping) (n : ℕ) : Mapping := { m with addr := m.addr + n, length := m.length - n }

theorem shrink_region {m : Mapping} {n : ℕ} (h : Region m) (hn : n % 4096 = 0)
    (hlt : n < m.length) : Region (shrink m n) ∧ endOf (shrink m n) = endOf m := by
  obtain ⟨hbase, haligned, hlong, htop⟩ := h.bounds
  have hregion : Region (shrink m n) := by
    refine ⟨?_, ?_, ?_, ?_⟩ <;> simp only [shrink, MMAPBASE, KERNBASE] <;> omega
  refine ⟨hregion, ?_⟩
  rw [hregion.endOf_eq, h.endOf_eq]
  simp only [shrink]
  omega

theorem shrunk_kept (hk : Kept p l) (hy : Arranged l) (hroom : l.length ≤ 32) (hj : j < l.length)
    {n : ℕ} (hlt : n < l[j].length) :
    Kept (p.setSlot j { p.slot j with addr := wrap ((p.slot j).addr + n),
                                      length := wrap ((p.slot j).length - n) })
      (l.set j (shrink l[j] n)) := by
  have hj32 : (j : ℤ) ≠ 32 := by omega
  obtain ⟨_, _, _, htop⟩ := hy.bounds hj
  obtain ⟨hsa, hsl, _⟩ := hk.slot_addr hj
  rw [hsa, hsl, wrap_add_of_lt (by omega), wrap_sub_of_le hlt.le (by omega)]
  refine ⟨?_, fun t ht => ?_, fun t ht ht32 => ?_⟩
  · rw [setSlot_total _ hj32, hk.total, List.length_set]
  · rw [List.length_set] at ht
    rw [List.getElem_set]
    split_ifs with htj
    · subst htj
      rw [slot_setSlot_self _ hj32, shrink, ← hk.entries j ht]
    · rw [slot_setSlot_of_ne _ hj32 (by omega), hk.entries t ht]
  · rw [List.length_set] at ht
    rw [slot_setSlot_of_ne _ hj32 (by omega)]
    exact hk.rest t ht ht32

theorem shrunk_arranged (hy : Arranged l) (hj : j < l.length) {n : ℕ} (hn : n % 4096 = 0)
    (hlt : n < l[j].length) : Arranged (l.set j (shrink l[j] n)) := by
  have hshrink := shrink_region (hy.region _ (List.getElem_mem hj)) hn hlt
  refine ⟨fun m hm => ?_, List.pairwise_iff_getElem.mpr fun a b ha hb hab => ?_⟩
  · rcases List.mem_or_eq_of_mem_set hm with hm | rfl
    · exact hy.region m hm
    · exact hshrink.1
  · rw [List.length_set] at ha hb
    have hapart := getElem_apart hy.apart hb hab
    rw [List.getElem_set, List.getElem_set]
    split_ifs with hja hjb hjb
    · omega
    · subst hja
      simp only [shrink]
      omega
    · subst hjb
      simp only [shrink]
      omega
    · exact hapart

/-- `my_munmap` once the slot is known. -/
theorem my_munmap_eq {i : ℤ} (hi : findSlot p (pgRoundUp addr.toNat) 32 0 = i) :
    my_munmap k p addr length written =
      if i = 32 ∨ signed (p.slot i).length = 0 then (k, p, -1)
      else if writesBack (p.slot i).toMapping ∧ written < 0 then (k, p, -1)
      else
        let r := releasePages addr ((min (signed (pgRoundUp length.toNat))
          (signed (p.slot i).length) + 4095) / 4096).toNat 0 k p
        if (r.2.slot i).length ≤ pgRoundUp length.toNat then
          (r.1, { shiftLeft 32 i (clearSlot r.2 i) with
            total_mmaps := (shiftLeft 32 i (clearSlot r.2 i)).total_mmaps - 1 }, 0)
        else
          (r.1, r.2.setSlot i { r.2.slot i with
            addr := wrap ((r.2.slot i).addr + pgRoundUp length.toNat)
            length := wrap ((r.2.slot i).length - pgRoundUp length.toNat) }, 0) := by
  subst hi
  rfl

/-- `my_munmap` of an address at which mapping `j` starts. -/
theorem my_munmap_hit (hk : Kept p l) (hy : Arranged l) (hroom : l.length ≤ 32)
    (hj : j < l.length) (hja : l[j].addr = addr.toNat) (hlen : pgRoundUp length.toNat < 2147483648)
    (written : ℤ) :
    (my_munmap k p addr length written).2.1 = p ∨
    (l[j].length ≤ pgRoundUp length.toNat ∧ (my_munmap k p addr length written).2.1 =
      removed (releasePages addr ((l[j].length + 4095) / 4096) 0 k p).2 j) ∨
    (pgRoundUp length.toNat < l[j].length ∧ (my_munmap k p addr length written).2.1 =
      (releasePages addr (pgRoundUp length.toNat / 4096) 0 k p).2.setSlot j
        { p.slot j with addr := wrap ((p.slot j).addr + pgRoundUp length.toNat),
                        length := wrap ((p.slot j).length - pgRoundUp length.toNat) }) := by
  obtain ⟨hbase, haligned, hlong, htop⟩ := hy.bounds hj
  have hmain : pgRoundUp addr.toNat = addr.toNat :=
    pgRoundUp_of_aligned (hja ▸ haligned) addr.isLt
  have hul := pgRoundUp_aligned length.toNat
  have hsl := (hk.slot_addr hj).2.1
  have hfound : findSlot p (pgRoundUp addr.toNat) 32 0 = (j : ℤ) := by
    rw [hmain]
    exact findSlot_kept hk hy hroom hj hja
  rw [my_munmap_eq hfound, hsl, signed_of_lt hlen, signed_of_lt (show l[j].length < 2147483648 by omega)]
  generalize pgRoundUp length.toNat = ul at hlen hul ⊢
  rw [if_neg (by omega)]
  split_ifs with hback
  · exact .inl rfl
  dsimp only
  obtain ⟨hmaps, htot⟩ := releasePages_table addr
    ((min (ul : ℤ) (l[j].length : ℤ) + 4095) / 4096).toNat 0 k p
  rw [slot_congr hmaps htot, hsl]
  split_ifs with hwhole
  · refine .inr (.inl ⟨hwhole, ?_⟩)
    rw [show ((min (ul : ℤ) (l[j].length : ℤ) + 4095) / 4096).toNat =
      (l[j].length + 4095) / 4096 by omega]
    rfl
  · refine .inr (.inr ⟨by omega, ?_⟩)
    rw [show ((min (ul : ℤ) (l[j].length : ℤ) + 4095) / 4096).toNat = ul / 4096 by omega]

end Unmap

inductive Event where
  | call (c : Call)
  | munmap (addr length : BitVec 32) (written : ℤ)
  deriving DecidableEq, Repr

def next (s : Session) : Event → Option Session
  | .call c => MmapGuards.next s c
  | .munmap addr length written =>
    let (k, p, _) := my_munmap s.frames s.proc addr length written
    some ⟨k, p⟩

def Within (m : Mapping) (page : ℕ) : Prop := m.addr ≤ page * PGSIZE ∧ page * PGSIZE < endOf m

/-- Every page in the mmap area belongs to a mapping in the table. -/
def Covered (p : Proc) : Prop :=
  ∀ page, MMAPBASE ≤ page * PGSIZE → page * PGSIZE < KERNBASE → p.pgdir page ≠ none →
    ∃ m ∈ live p, Within m page

/-- A fault that some mapping answers, its end included, lies on a page of a mapping. -/
def Answered (p : Proc) (addr : ℕ) : Prop :=
  (∃ m ∈ live p, m.addr ≤ addr ∧ addr ≤ m.addr + m.length) → ∃ m ∈ live p, Within m (addr / PGSIZE)

/-- A fault that makes a mapping grow lies on its last page or on the page behind it. -/
def Adjacent (p : Proc) (addr : ℕ) : Prop :=
  ∀ m ∈ live p, GrowsUp m → m.addr + m.length < addr →
    (∀ n ∈ live p, m.addr < n.addr → addr < n.addr) → addr < endOf m + PGSIZE

/-- An address that is found in the table at all is a page address, it is found among the
mappings, and the length to unmap is not negative. -/
def Whole (p : Proc) (addr length : BitVec 32) : Prop :=
  (∃ k : ℕ, k < 32 ∧ (p.slot k).addr = pgRoundUp addr.toNat) →
    (∃ m ∈ live p, m.addr = addr.toNat) ∧ pgRoundUp length.toNat < 2147483648

def Harmless (s : Session) : Event → Prop
  | .call (.mmap addr _ _ _ _ _) => ¬ Overrun s.proc addr
  | .call (.fault addr _) => Answered s.proc addr.toNat ∧ Adjacent s.proc addr.toNat
  | .munmap addr length _ => Whole s.proc addr length

structure Invariant (p : Proc) (l : List Mapping) : Prop where
  kept : Kept p l
  arranged : Arranged l
  room : l.length ≤ 32
  covered : ∀ page, MMAPBASE ≤ page * PGSIZE → page * PGSIZE < KERNBASE →
    p.pgdir page ≠ none → ∃ m ∈ l, Within m page
  frames : ∀ page, p.pgdir page ≠ some 0

section Steps

variable {l : List Mapping} {p p' : Proc}

theorem mmap_invariant (h : Invariant p l) {addr : BitVec 32} (hover : ¬ Overrun p addr)
    (f : File) (length offset flags protection : BitVec 32) : 
    ∃ l', Invariant (my_mmap p addr f length offset flags protection).1 l' := by
  have hpages : (my_mmap p addr f length offset flags protection).1.pgdir = p.pgdir :=
    MmapSafety.kept_pgdir MmapSafety.my_mmap_kept
  obtain ⟨l', hsub, hk, hy, hroom⟩ := my_mmap_arranged h.kept h.arranged h.room hover f length offset
    flags protection
  refine ⟨l', hk, hy, hroom, fun page hlo hhi hp => ?_, fun page => ?_⟩
  · obtain ⟨m, hm, hw⟩ := h.covered page hlo hhi (hpages ▸ hp)
    exact ⟨m, hsub hm, hw⟩
  · rw [hpages]
    exact h.frames page

theorem Installed.frames {page : ℕ} (h : Installed p p' page)
    (hz : ∀ a, p.pgdir a ≠ some 0) (a : ℕ) : p'.pgdir a ≠ some 0 := by
  rcases h with heq | ⟨frame, hne, heq⟩
  · rw [heq]
    exact hz a
  · rw [heq]
    by_cases ha : a = page
    · simpa [ha] using hne
    · rw [Function.update_of_ne ha]
      exact hz a

/-- Pages other than the faulting one were there before. -/
theorem Installed.before {page a : ℕ} (h : Installed p p' page)
    (hp : p'.pgdir a ≠ none) : p.pgdir a ≠ none ∨ a = page ∧ p'.pgdir ≠ p.pgdir := by
  by_cases heq : p'.pgdir = p.pgdir
  · rw [heq] at hp
    exact .inl hp
  · rcases h with hsame | ⟨frame, hne, hup⟩
    · exact absurd hsame heq
    · by_cases ha : a = page
      · exact .inr ⟨ha, heq⟩
      · rw [hup, Function.update_of_ne ha] at hp
        exact .inl hp

theorem fault_invariant (h : Invariant p l) {addr : BitVec 32} {m m' : Memory}
    (hanswered : Answered p addr.toNat) (hadjacent : Adjacent p addr.toNat)
    (hs : handle_page_fault m p addr.toNat = some (m', p')) :
    ∃ l', Invariant p' l' := by
  simp only [Answered, Adjacent, live_eq h.kept] at hanswered hadjacent
  cases handle_page_fault_faulted h.kept h.arranged h.room addr.isLt hs with
  | filled reached filled =>
    refine ⟨l, filled.kept h.kept, h.arranged, h.room, fun page hlo hhi hp => ?_,
      Installed.frames filled.installed h.frames⟩
    rcases Installed.before filled.installed hp with hold | ⟨rfl, hnew⟩
    · exact h.covered page hlo hhi hold
    · exact hanswered (reached.resolve_left hnew)
  | grown i inside flag behind top next filled =>
    have hgrow := grow_arranged h.arranged inside behind top next
    have hpages : Installed p p' (addr.toNat / 4096) := by
      have hinst := filled.installed
      rwa [Installed, MmapSafety.setSlot_pgdir] at hinst
    refine ⟨grow l i inside, filled.kept (grow_kept h.kept h.room inside), hgrow,
      by rw [grow_length]; exact h.room, fun page hlo hhi hp => ?_,
      Installed.frames hpages h.frames⟩
    have hmem := List.mem_set inside { l[i] with length := l[i].length + 4096 }
    have hend := endOf_grown (h.arranged.region _ (List.getElem_mem inside))
      (hgrow.region _ hmem)
    rcases Installed.before hpages hp with hold | ⟨rfl, -⟩
    · obtain ⟨n, hn, hlow, hhigh⟩ := h.covered page hlo hhi hold
      obtain ⟨k, hk, rfl⟩ := List.getElem_of_mem hn
      by_cases hki : k = i
      · subst hki
        exact ⟨_, hmem, hlow, hhigh.trans_le (by rw [hend]; exact Nat.le_add_right _ _)⟩
      · exact ⟨_, mem_grow inside hk hki, hlow, hhigh⟩
    · have hnear := hadjacent _ (List.getElem_mem inside) flag behind fun n hn hlt => by
        obtain ⟨hsucc, hle⟩ := h.arranged.next_le inside hn hlt
        have hup := next_page_lt (next hsucc) (h.arranged.bounds hsucc).2.1
        exact (Nat.lt_of_le_of_lt (Nat.le_add_right _ _) hup).trans_le hle
      clear hlo hhi
      refine ⟨_, hmem, ?_, ?_⟩
      · have haligned := (h.arranged.bounds inside).2.1
        simp only [PGSIZE]
        omega
      · rw [hend]
        exact (Nat.div_mul_le_self _ _).trans_lt hnear

/-- A page of mapping `m` is one of the pages the release loop visits from `m.addr` on. -/
theorem released_page {m : Mapping} (hm : Region m) {addr : BitVec 32}
    (hma : m.addr = addr.toNat) {n page : ℕ} (hlo : m.addr ≤ page * PGSIZE)
    (hhi : page * PGSIZE < m.addr + 4096 * n) (htop : page * PGSIZE < KERNBASE) : ∃ t, t < n ∧
      wrap (addr.toNat + (0 + PGSIZE * t : ℕ)) / PGSIZE = page := by
  obtain ⟨_, haligned, _, _⟩ := hm.bounds
  simp only [PGSIZE, KERNBASE] at hlo hhi htop ⊢
  refine ⟨page - m.addr / 4096, by omega, ?_⟩
  rw [← hma, wrap_add_of_lt (by omega)]
  omega

/-- Unmapping removes the pages of what it takes out of the table. -/
theorem munmap_invariant (h : Invariant p l) {k : Frames} {addr length : BitVec 32} (written : ℤ)
    (hw : Whole p addr length) : ∃ l', Invariant (my_munmap k p addr length written).2.1 l' := by
  by_cases hfound : ∃ k : ℕ, k < 32 ∧ (p.slot k).addr = pgRoundUp addr.toNat
  · obtain ⟨⟨n, hn, hna⟩, hlen⟩ := hw hfound
    rw [live_eq h.kept] at hn
    obtain ⟨j, hj, rfl⟩ := List.getElem_of_mem hn
    have hregion := h.arranged.region _ hn
    have hreleased (n : ℕ) : Kept (releasePages addr n 0 k p).2 l := released_kept h.kept addr n 0 k
    have hleft {n page : ℕ} (htop : page * PGSIZE < KERNBASE)
        (hp : (releasePages addr n 0 k p).2.pgdir page ≠ none) : p.pgdir page ≠ none ∧
          (l[j].addr ≤ page * PGSIZE → l[j].addr + 4096 * n ≤ page * PGSIZE) := by
      obtain ⟨hkeep, hclear⟩ := @releasePages_cleared p k addr h.frames n 0
      refine ⟨fun hz => ?_, fun hlo => ?_⟩
      · rcases hkeep page with hsame | hgone
        · exact hp (hsame.trans hz)
        · exact hp hgone
      · by_contra hlt
        obtain ⟨t, ht, hpage⟩ := released_page hregion hna hlo (Nat.not_le.mp hlt) htop
        exact hp (hpage ▸ hclear t ht)
    have hframes (n page : ℕ) : (releasePages addr n 0 k p).2.pgdir page ≠ some 0 := by
      rcases (@releasePages_cleared p k addr h.frames n 0).1 page with hs | hs
      · rw [hs]
        exact h.frames page
      · simp [hs]
    rcases my_munmap_hit h.kept h.arranged h.room hj hna hlen written with
      hsame | ⟨hle, hgone⟩ | ⟨hlt, hpart⟩
    · rw [hsame]
      exact ⟨l, h⟩
    · rw [hgone]
      refine ⟨l.eraseIdx j, removed_kept (hreleased _) h.arranged h.room hj,
        removed_arranged h.arranged j, ?_, fun page hlo hhi hp => ?_, fun page => ?_⟩
      · exact (List.length_eraseIdx_le l j).trans h.room
      · rw [removed_pgdir] at hp
        obtain ⟨hold, hfar⟩ := hleft hhi hp
        obtain ⟨m, hm, hw⟩ := h.covered page hlo hhi hold
        obtain ⟨i, hi, rfl⟩ := List.getElem_of_mem hm
        refine ⟨l[i], List.mem_eraseIdx_iff_getElem.mpr ⟨i, hi, ?_, rfl⟩, hw⟩
        rintro rfl
        have hend := hregion.endOf_eq
        have haligned := hregion.bounds.2.1
        have hpast := hfar hw.1
        have hbelow := hw.2
        clear hlo hhi
        omega
      · rw [removed_pgdir]
        exact hframes _ page
    · have hul := pgRoundUp_aligned length.toNat
      have hslot : (releasePages addr (pgRoundUp length.toNat / 4096) 0 k p).2.slot j = p.slot j :=
        slot_congr (releasePages_table ..).1 (releasePages_table ..).2 j
      have hkept := shrunk_kept (hreleased (pgRoundUp length.toNat / 4096)) h.arranged h.room hj hlt
      rw [hslot] at hkept
      obtain ⟨-, hend⟩ := shrink_region hregion hul hlt
      rw [hpart]
      refine ⟨_, hkept, shrunk_arranged h.arranged hj hul hlt, ?_, fun page hlo hhi hp => ?_,
        fun page => ?_⟩
      · rw [List.length_set]
        exact h.room
      · rw [MmapSafety.setSlot_pgdir] at hp
        obtain ⟨hold, hfar⟩ := hleft hhi hp
        obtain ⟨m, hm, hw⟩ := h.covered page hlo hhi hold
        obtain ⟨i, hi, rfl⟩ := List.getElem_of_mem hm
        by_cases hij : i = j
        · subst hij
          refine ⟨shrink l[i] (pgRoundUp length.toNat), List.mem_set hi _, ?_,
            hw.2.trans_eq hend.symm⟩
          have hpast := hfar hw.1
          rwa [Nat.mul_div_cancel' (Nat.dvd_of_mod_eq_zero hul)] at hpast
        · refine ⟨l[i], List.mem_iff_getElem.mpr ⟨i, by rwa [List.length_set], ?_⟩, hw⟩
          exact List.getElem_set_ne (Ne.symm hij) _
      · rw [MmapSafety.setSlot_pgdir]
        exact hframes _ page
  · refine ⟨l, ?_⟩
    have hnone : findSlot p (pgRoundUp addr.toNat) 32 0 = 32 := by
      obtain ⟨i, hi, -, hi32, -, hat⟩ := findSlot_spec (p := p) (a := pgRoundUp addr.toNat)
        (n := 32) (i := 0) (by omega)
      rcases Nat.eq_or_lt_of_le hi32 with rfl | hlt
      · exact_mod_cast hi
      · exact absurd ⟨i, hlt, hat hlt⟩ hfound
    rw [my_munmap_eq hnone, if_pos (.inl rfl)]
    exact h

theorem step_invariant {s s' : Session} {e : Event} (h : ∃ l, Invariant s.proc l)
    (he : Harmless s e) (hs : next s e = some s') : ∃ l, Invariant s'.proc l := by
  obtain ⟨l, h⟩ := h
  cases e with
  | call c =>
    cases c with
    | mmap addr f length offset flags protection =>
      obtain rfl := Option.some.inj hs
      exact mmap_invariant h he f length offset flags protection
    | fault addr answers =>
      obtain ⟨⟨m, q⟩, hf, heq⟩ := Option.map_eq_some_iff.mp hs
      cases heq
      exact fault_invariant h he.1 he.2 hf
  | munmap addr length written =>
    obtain rfl := Option.some.inj hs
    exact munmap_invariant h written he

end Steps

/-- A process without mappings and without pages in the mmap area. -/
def Empty (s : Session) : Prop :=
  Unmapped s ∧ (∀ page, MMAPBASE ≤ page * PGSIZE → s.proc.pgdir page = none) ∧
    ∀ page, s.proc.pgdir page ≠ some 0

theorem empty_invariant {s : Session} (h : Empty s) : ∃ l, Invariant s.proc l := by
  obtain ⟨hu, hpages, hframes⟩ := h
  refine ⟨[], ⟨hu.1, fun k hk => absurd hk (Nat.not_lt_zero k), fun k _ hk => ?_⟩, ⟨by simp, .nil⟩,
    by simp, fun page hlo _ hp => absurd (hpages page hlo) hp, hframes⟩
  left
  rw [hu.2 k hk]
  decide

theorem no_residual_pages {s s' : Session} {es : List Event} (h : Empty s)
    (he : Along next Harmless s es) (hs : run next s es = some s') : Covered s'.proc := by
  obtain ⟨l, hinv⟩ := run_invariant (fun _ _ _ h he hs => step_invariant h he hs)
    (empty_invariant h) he hs
  intro page hlo hhi hp
  rw [live_eq hinv.kept]
  exact hinv.covered page hlo hhi hp

instance (m : Mapping) (page : ℕ) : Decidable (Within m page) :=
  inferInstanceAs (Decidable (_ ∧ _))

instance (s : Session) (e : Event) : Decidable (Harmless s e) :=
  match e with
  | .call (.mmap _ _ _ _ _ _) => inferInstanceAs (Decidable (¬ (_ ∧ _ ∧ _)))
  | .call (.fault _ _) => inferInstanceAs (Decidable
      (((∃ m ∈ _, _ ∧ _) → ∃ m ∈ _, Within m _) ∧
        ∀ m ∈ _, GrowsUp m → _ → (∀ n ∈ _, _ → _) → _ < _))
  | .munmap _ _ _ => inferInstanceAs (Decidable ((∃ k : ℕ, k < 32 ∧ _) → (∃ m ∈ _, _) ∧ _ < _))

theorem unmappedSession_empty : Empty unmappedSession :=
  ⟨unmappedSession_unmapped, fun _ _ => rfl, fun _ => by simp [unmappedSession]⟩

/-- A growing mapping gets a second page and is unmapped as a whole. -/
def growAndUnmap : List Event :=
  [.call (onePage 0 MAP_GROWSUP), .call (.fault 0x60000010 [⟨1, true⟩]),
    .call (.fault 0x60001004 [⟨2, true⟩]), .munmap 0x60000000 8192 0]

theorem grown_pages_removed :
    ∃ s, run next unmappedSession growAndUnmap = some s ∧ Covered s.proc := by
  have hsome : (run next unmappedSession growAndUnmap).isSome = true := by decide +kernel
  obtain ⟨s, hs⟩ := Option.isSome_iff_exists.mp hsome
  exact ⟨s, hs, no_residual_pages unmappedSession_empty (by decide +kernel) hs⟩

/-- A fault at the end of a mapping is answered with a page behind it. -/
def faultAtEnd : List Event := [.call (onePage 0 0), .call (.fault 0x60001000 [⟨1, true⟩])]

theorem fault_at_end_leaves_page : Empty unmappedSession ∧
    ∃ s, run next unmappedSession faultAtEnd = some s ∧ ¬ Covered s.proc := by
  refine ⟨unmappedSession_empty, ?_⟩
  have hsome : (run next unmappedSession faultAtEnd).any (fun s =>
      s.proc.pgdir 0x60001 ≠ none ∧ ¬ ∃ m ∈ live s.proc, Within m 0x60001) = true := by
    decide +kernel
  obtain ⟨s, hs, hpage⟩ := (Option.any_eq_true _ _).mp hsome
  obtain ⟨hpresent, hout⟩ := of_decide_eq_true hpage
  exact ⟨s, hs, fun hc => hout (hc 0x60001 (by decide) (by decide) hpresent)⟩

end MmapResidue
