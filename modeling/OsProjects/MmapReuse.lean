import OsProjects.MmapResidue
import Mathlib.Data.List.Find

/-! # A slot of the process table in new hands

`allocproc` resets `total_mmaps` and nothing else of the region table. What the last owner of
the slot has left there is compared with an empty table: as long as all addresses, lengths,
`ref` and `stored_length` of the 32 slots are 0, the new process cannot tell the difference
in any later run of the whole machine.
-/
namespace MmapReuse

open Word32 MmapTable
open MmapFrames hiding next run
open MmapFrames.Exec (Step next)
open MmapPlacement (fill search my_mmap_eq)

/-- What the process gets back from a call. -/
def answer (s : Machine) : Step → ℤ
  | .event (.mmap i addr f length offset flags protection) =>
    match (my_mmap (s.procs i) addr f length offset flags protection).2 with
    | some a => a
    | none => -1
  | .event (.munmap i addr length written) =>
    (my_munmap s.frames (s.procs i) addr length written).2.2
  | _ => 0

def answers (s : Machine) : List Step → List ℤ
  | [] => []
  | e :: es =>
    match next s e with
    | none => []
    | some s' => answer s e :: answers s' es

/-- Two records of a slot that holds no mapping. -/
structure Vacant (m m' : Mmp) : Prop where
  addr : m.addr = 0
  addr' : m'.addr = 0
  length : m.length = 0
  length' : m'.length = 0
  ref : m'.ref = m.ref
  stored : m'.stored_length = m.stored_length

/-- The processes differ at most in vacant slots of the array from `n` on. -/
structure Agree (n : ℤ) (p q : Proc) : Prop where
  total : q.total_mmaps = p.total_mmaps
  pgdir : q.pgdir = p.pgdir
  killed : q.killed = p.killed
  maps : ∀ k, q.mmaps k = p.mmaps k ∨ n ≤ k ∧ 0 ≤ k ∧ k < 32 ∧ Vacant (p.mmaps k) (q.mmaps k)

section Agreement

variable {n m k : ℤ} {p q : Proc}

theorem Agree.refl (n : ℤ) (p : Proc) : Agree n p p := ⟨rfl, rfl, rfl, fun _ => .inl rfl⟩

theorem Agree.slots (h : Agree n p q) (k : ℤ) :
    q.slot k = p.slot k ∨ n ≤ k ∧ 0 ≤ k ∧ k < 32 ∧ Vacant (p.slot k) (q.slot k) := by
  by_cases hk : k = 32
  · subst hk
    left
    have hmaps := (h.maps 32).resolve_right (by omega)
    simp only [Proc.slot, if_true, h.total, hmaps]
  · simpa only [Proc.slot, hk, if_false] using h.maps k

theorem Agree.addr (h : Agree n p q) (k : ℤ) : (q.slot k).addr = (p.slot k).addr := by
  rcases h.slots k with heq | ⟨-, -, -, hv⟩
  · rw [heq]
  · rw [hv.addr, hv.addr']

theorem Agree.length (h : Agree n p q) (k : ℤ) : (q.slot k).length = (p.slot k).length := by
  rcases h.slots k with heq | ⟨-, -, -, hv⟩
  · rw [heq]
  · rw [hv.length, hv.length']

theorem Agree.ref (h : Agree n p q) (k : ℤ) : (q.slot k).ref = (p.slot k).ref := by
  rcases h.slots k with heq | ⟨-, -, -, hv⟩
  · rw [heq]
  · exact hv.ref

theorem Agree.stored (h : Agree n p q) (k : ℤ) :
    (q.slot k).stored_length = (p.slot k).stored_length := by
  rcases h.slots k with heq | ⟨-, -, -, hv⟩
  · rw [heq]
  · exact hv.stored

/-- A slot that is in use is the same on both sides. -/
theorem Agree.full (h : Agree n p q)
    (hk : k < n ∨ (p.slot k).addr ≠ 0 ∨ (p.slot k).length ≠ 0) : q.slot k = p.slot k := by
  rcases h.slots k with heq | ⟨hle, -, -, hv⟩
  · exact heq
  · rcases hk with hlt | haddr | hlength
    · omega
    · exact absurd hv.addr haddr
    · exact absurd hv.length hlength

theorem Agree.mono (h : Agree n p q) (hm : m ≤ n ∨ m ≤ 0) : Agree m p q :=
  ⟨h.total, h.pgdir, h.killed, fun k => (h.maps k).imp_right fun ⟨hle, hk, hrest⟩ =>
    ⟨by omega, hk, hrest⟩⟩

/-- One more slot on which both sides agree. -/
theorem Agree.succ (h : Agree n p q) (hn : n + 1 ≤ 0 ∨ n = 32 ∨ q.slot n = p.slot n) :
    Agree (n + 1) p q := by
  refine ⟨h.total, h.pgdir, h.killed, fun k => ?_⟩
  rcases h.maps k with heq | ⟨hle, hk0, hk32, hv⟩
  · exact .inl heq
  · by_cases hkn : k = n
    · subst hkn
      have hsame := (hn.resolve_left (by omega)).resolve_left (by omega)
      simp only [Proc.slot, show k ≠ 32 by omega, if_false] at hsame
      exact .inl hsame
    · exact .inr ⟨by omega, hk0, hk32, hv⟩

theorem Agree.eq (h : Agree n p q) (hn : 32 ≤ n) : q = p := by
  have hmaps : q.mmaps = p.mmaps := funext fun k => (h.maps k).resolve_right (by omega)
  obtain ⟨htotal, hpgdir, hkilled, -⟩ := h
  cases p
  cases q
  simp_all

theorem Agree.setSlot (h : Agree n p q) (hk : k ≠ 32) (x : Mmp) :
    Agree n (p.setSlot k x) (q.setSlot k x) := by
  simp only [Proc.setSlot, hk, if_false]
  refine ⟨h.total, h.pgdir, h.killed, fun j => ?_⟩
  by_cases hj : j = k
  · left
    simp [hj]
  · simpa [hj] using h.maps j

/-- Both sides get the same record, whatever they had in the slot. -/
theorem Agree.setSlot_succ (h : Agree n p q) (x : Mmp) :
    Agree (n + 1) (p.setSlot n x) (q.setSlot n x) := by
  by_cases hn : n = 32
  · rw [h.eq (by omega)]
    exact .refl _ _
  · refine (h.setSlot hn x).succ (.inr (.inr ?_))
    rw [slot_setSlot_self _ hn, slot_setSlot_self _ hn]

theorem Agree.withTotal (h : Agree n p q) (t : ℤ) :
    Agree n { p with total_mmaps := t } { q with total_mmaps := t } :=
  ⟨rfl, h.pgdir, h.killed, h.maps⟩

/-- A record whose mapping is given depends on the slot by `ref` and `stored_length` only. -/
theorem Agree.record (h : Agree n p q) (k : ℤ) (x : Mapping) :
    ({ q.slot k with toMapping := x } : Mmp) = { p.slot k with toMapping := x } := by
  rw [Mmp.mk.injEq]
  exact ⟨rfl, h.ref k, h.stored k⟩

theorem Agree.mmp_cpy {dst src : ℤ} (h : Agree n p q) (hd : dst ≠ 32)
    (hs : q.slot src = p.slot src) : Agree n (mmp_cpy p dst src) (mmp_cpy q dst src) := by
  rw [MmapTable.mmp_cpy, MmapTable.mmp_cpy, hs, h.record]
  exact h.setSlot hd _

theorem Agree.mmp_cpy_succ {src : ℤ} (h : Agree n p q) (hs : q.slot src = p.slot src) :
    Agree (n + 1) (MmapTable.mmp_cpy p n src) (MmapTable.mmp_cpy q n src) := by
  rw [MmapTable.mmp_cpy, MmapTable.mmp_cpy, hs, h.record]
  exact h.setSlot_succ _

theorem Agree.shiftRight {e j : ℤ} {r : ℕ} (h : Agree n p q) (hj : j ≤ n) (hj32 : j < 32) :
    Agree n (shiftRight e r j p) (shiftRight e r j q) := by
  induction r generalizing p q j with
  | zero => exact h
  | succ r ih =>
    rw [MmapTable.shiftRight, MmapTable.shiftRight]
    split_ifs
    · exact ih (h.mmp_cpy (by omega) (h.full (.inl (by omega)))) (by omega) (by omega)
    · exact h

theorem Agree.shiftLeft {r : ℕ} {i : ℤ} (h : Agree n p q) :
    Agree n (shiftLeft r i p) (shiftLeft r i q) := by
  induction r generalizing p q i with
  | zero => exact h
  | succ r ih =>
    rw [MmapTable.shiftLeft, MmapTable.shiftLeft, h.addr (i + 1)]
    split_ifs with hi
    · exact ih (h.mmp_cpy (by omega) (h.full (.inr (.inl hi.2))))
    · exact h

theorem shiftRight_total {e j : ℤ} {r : ℕ} (hj : j < 32) :
    (shiftRight e r j p).total_mmaps = p.total_mmaps := by
  induction r generalizing p j with
  | zero => rfl
  | succ r ih =>
    rw [shiftRight]
    split_ifs
    · rw [ih (by omega), mmp_cpy, setSlot_total _ (by omega)]
    · rfl

end Agreement

/-- The answers of two searches for a place, in tables of `n` entries. -/
inductive Searched (n : ℤ) : Proc × ℤ → Proc × ℤ → Prop where
  | refused {p q : Proc} (agree : Agree n p q) (total : p.total_mmaps = n) :
      Searched n (p, -1) (q, -1)
  | found {p q : Proc} {pos : ℤ} (inside : pos ≠ 32) (agree : Agree n p q)
      (total : p.total_mmaps = n) (last : pos = n ∨ Agree (n + 1) p q) (addr length : ℕ) :
      Searched n (p.setSlot pos { p.slot pos with addr := addr, length := length }, pos)
        (q.setSlot pos { q.slot pos with addr := addr, length := length }, pos)

section Search

variable {p q : Proc} {length : BitVec 32} {i : ℤ}

theorem mmp_insert_searched (h : Agree p.total_mmaps p q) (ht : p.total_mmaps < 32)
    (hi32 : i + 1 ≠ 32) (a : ℕ)
    (hi : i + 1 ≤ p.total_mmaps ∨ p.total_mmaps < 0 ∨
      q.slot p.total_mmaps = p.slot p.total_mmaps) :
    Searched p.total_mmaps (mmp_insert p length i a) (mmp_insert q length i a) := by
  have hshift := h.shiftRight (e := i + 1) (r := (p.total_mmaps - (i + 1)).toNat) le_rfl ht
  have htotal := shiftRight_total (p := p) (e := i + 1) (r := (p.total_mmaps - (i + 1)).toNat) ht
  have hlast : i + 1 = p.total_mmaps ∨ Agree (p.total_mmaps + 1)
      (shiftRight (i + 1) (p.total_mmaps - (i + 1)).toNat p.total_mmaps p)
      (shiftRight (i + 1) (p.total_mmaps - (i + 1)).toNat p.total_mmaps q) := by
    rcases lt_trichotomy (i + 1) p.total_mmaps with hlt | heq | hgt
    · right
      obtain ⟨r, hr⟩ : ∃ r, (p.total_mmaps - (i + 1)).toNat = r + 1 :=
        ⟨(p.total_mmaps - (i + 1)).toNat - 1, by omega⟩
      rw [hr, shiftRight, shiftRight, if_pos hlt, if_pos hlt]
      exact (h.mmp_cpy_succ (h.full (.inl (by omega)))).shiftRight (by omega) (by omega)
    · exact .inl heq
    · right
      rw [show (p.total_mmaps - (i + 1)).toNat = 0 by omega]
      refine h.succ ?_
      rcases hi with hle | hneg | hsame
      · omega
      · exact .inl (by omega)
      · exact .inr (.inr hsame)
  unfold mmp_insert
  rw [h.total]
  dsimp only
  split_ifs
  · exact .refused hshift htotal
  · exact .found hi32 hshift htotal hlast a length.toNat

theorem checkGap_agree (h : Agree p.total_mmaps p q) (addr : ℕ) (last : ℤ) (r : ℕ) (i : ℤ) :
    checkGap q addr length last r i = checkGap p addr length last r i := by
  induction r generalizing i with
  | zero => rfl
  | succ r ih => rw [checkGap, checkGap, h.addr, h.addr, h.length, ih]

theorem mmp_check_searched (h : Agree p.total_mmaps p q) (ht : p.total_mmaps < 32) (addr : ℕ) :
    Searched p.total_mmaps (mmp_check p addr length) (mmp_check q addr length) := by
  unfold mmp_check
  rw [h.total]
  dsimp only
  rw [h.addr, h.length, checkGap_agree h]
  split_ifs
  · exact mmp_insert_searched h ht (by omega) addr (.inl (by omega))
  · split
    next i hgap =>
      obtain ⟨k, rfl, hlt, -, -⟩ := MmapPlacement.checkGap_some (i := 0) (by exact_mod_cast hgap)
      exact mmp_insert_searched h ht (by omega) addr (.inl (by omega))
    next => exact .refused h rfl

theorem anyGap_agree (h : Agree p.total_mmaps p q) (r : ℕ) (i : ℤ) :
    anyGap q length r i = anyGap p length r i := by
  induction r generalizing i with
  | zero => rfl
  | succ r ih =>
    rw [anyGap, anyGap, h.total, h.addr (i + 1)]
    by_cases hi : i < p.total_mmaps
    · rw [h.full (.inl hi), ih]
    · rw [if_neg (by omega), if_neg (by omega)]

/-- Behind the first entry the search stops only at addresses other than 0. -/
theorem anyGap_stop (r : ℕ) (i : ℤ) : anyGap p length r i = i ∨
    anyGap p length r i ≤ p.total_mmaps ∧ (p.slot (anyGap p length r i)).addr ≠ 0 := by
  induction r generalizing i with
  | zero => exact .inl rfl
  | succ r ih =>
    rw [anyGap]
    by_cases hloop : i < p.total_mmaps ∧ (p.slot (i + 1)).addr ≠ 0
    · have hrest : anyGap p length r (i + 1) = i ∨ anyGap p length r (i + 1) ≤ p.total_mmaps ∧
          (p.slot (anyGap p length r (i + 1))).addr ≠ 0 := by
        rcases ih (i + 1) with hstop | hrest
        · rw [hstop]
          exact .inr ⟨by omega, hloop.2⟩
        · exact .inr hrest
      rw [if_pos hloop]
      dsimp only
      split_ifs <;> first | exact .inl rfl | exact hrest
    · rw [if_neg hloop]
      exact .inl rfl

theorem mmp_any_searched (h : Agree p.total_mmaps p q) (hne : q ≠ p) :
    Searched p.total_mmaps (mmp_any p length) (mmp_any q length) := by
  have ht : p.total_mmaps < 32 := by
    by_contra hge
    exact hne (h.eq (by omega))
  unfold mmp_any
  rw [h.total, h.addr 0, anyGap_agree h]
  dsimp only
  by_cases hzero : p.total_mmaps = 0
  · rw [if_pos hzero, if_pos hzero]
    split_ifs
    · exact .refused h rfl
    · exact .found (by decide) h rfl (.inl hzero.symm) _ _
  rw [if_neg hzero, if_neg hzero]
  by_cases hfront : wrap ((p.slot 0).addr - MMAPBASE) > length.toNat
  · rw [if_pos hfront, if_pos hfront]
    exact mmp_insert_searched h ht (by decide) _ (by omega)
  rw [if_neg hfront, if_neg hfront]
  have hstop := @anyGap_stop p length p.total_mmaps.toNat 0
  generalize anyGap p length p.total_mmaps.toNat 0 = j at hstop
  rw [h.addr, h.length]
  split_ifs
  · exact .refused h rfl
  refine mmp_insert_searched h ht (fun hj => ?_) _ ?_
  · -- the write behind the array needs 32 slots in use, and then nothing is left to differ
    obtain ⟨hle, haddr⟩ := hstop.resolve_left (by omega)
    have h31 : p.total_mmaps = j := by omega
    have hagree := h.succ (.inr (.inr (by rw [h31]; exact h.full (.inr (.inl haddr)))))
    exact hne (hagree.eq (by omega))
  · rcases hstop with rfl | ⟨hle, haddr⟩
    · omega
    · rcases hle.lt_or_eq with hlt | rfl
      · exact .inl (by omega)
      · exact .inr (.inr (h.full (.inr (.inl haddr))))

theorem search_searched (h : Agree p.total_mmaps p q) (hne : q ≠ p) (addr flags : BitVec 32) :
    Searched p.total_mmaps (search p addr length flags) (search q addr length flags) := by
  have ht : p.total_mmaps < 32 := by
    by_contra hge
    exact hne (h.eq (by omega))
  unfold search
  split_ifs
  · exact mmp_check_searched h ht _
  · exact .refused h rfl
  · exact mmp_check_searched h ht _
  · exact mmp_any_searched h hne

theorem setSlot_setSlot {p : Proc} {k : ℤ} (hk : k ≠ 32) (x y : Mmp) :
    (p.setSlot k x).setSlot k y = p.setSlot k y := by
  simp [Proc.setSlot, hk]

/-- The entry that `my_mmap` leaves in the slot a search has opened. -/
theorem fill_found {p : Proc} {pos : ℤ} (h32 : pos ≠ 32) (hneg : pos ≠ -1) (a l : ℕ)
    (addr : BitVec 32) (f : File) (offset flags protection : BitVec 32) :
    fill (p.setSlot pos { p.slot pos with addr := a, length := l }, pos) addr f offset flags
      protection =
    ({ p.setSlot pos { p.slot pos with
        toMapping := ⟨if has flags MAP_FIXED then addr.toNat else a, l, flags,
          if protection = PROT_NONE then 0 else PTE_U ||| protection, some f.ptr, offset⟩ } with
        total_mmaps := p.total_mmaps + 1 },
      some (if has flags MAP_FIXED then addr.toNat else a)) := by
  unfold fill
  rw [if_neg hneg]
  dsimp only
  rw [slot_setSlot_self _ h32, setSlot_setSlot h32, setSlot_total _ h32]

theorem fill_agree {n : ℤ} {r r' : Proc × ℤ} (h : Searched n r r') (addr : BitVec 32) (f : File)
    (offset flags protection : BitVec 32) :
    (fill r' addr f offset flags protection).2 = (fill r addr f offset flags protection).2 ∧
      Agree (fill r addr f offset flags protection).1.total_mmaps
        (fill r addr f offset flags protection).1 (fill r' addr f offset flags protection).1 := by
  cases h with
  | refused agree total =>
    subst total
    exact ⟨rfl, agree⟩
  | @found p q pos inside agree total last a l =>
    subst total
    by_cases hneg : pos = -1
    · -- a table with a negative count takes the entry for a failure
      subst hneg
      have hsame := (agree.slots (-1)).resolve_right (by omega)
      rw [fill, fill, if_pos rfl, if_pos rfl, hsame]
      refine ⟨rfl, ?_⟩
      rw [setSlot_total _ inside]
      exact agree.setSlot inside _
    · rw [fill_found inside hneg, fill_found inside hneg, agree.record, agree.total]
      refine ⟨rfl, ?_⟩
      rcases last with rfl | hlast
      · exact (agree.setSlot_succ _).withTotal _
      · exact (hlast.setSlot inside _).withTotal _

theorem my_mmap_agree (h : Agree p.total_mmaps p q) (addr : BitVec 32) (f : File)
    (length offset flags protection : BitVec 32) :
    (my_mmap q addr f length offset flags protection).2 =
        (my_mmap p addr f length offset flags protection).2 ∧
      Agree (my_mmap p addr f length offset flags protection).1.total_mmaps
        (my_mmap p addr f length offset flags protection).1
        (my_mmap q addr f length offset flags protection).1 := by
  by_cases hne : q = p
  · rw [hne]
    exact ⟨rfl, .refl _ _⟩
  rw [my_mmap_eq, my_mmap_eq, h.total]
  split_ifs
  · exact ⟨rfl, h⟩
  · exact ⟨rfl, h⟩
  · exact ⟨rfl, h⟩
  · exact fill_agree (search_searched h hne addr flags) addr f offset flags protection

end Search

section Release

variable {n : ℤ} {p q : Proc}

theorem Agree.pages (h : Agree n p q) (d : ℕ → Option ℕ) :
    Agree n { p with pgdir := d } { q with pgdir := d } := ⟨h.total, rfl, h.killed, h.maps⟩

theorem releasePages_agree (h : Agree n p q) (addr : BitVec 32) (r c : ℕ) (k : Frames) :
    (releasePages addr r c k q).1 = (releasePages addr r c k p).1 ∧
      Agree n (releasePages addr r c k p).2 (releasePages addr r c k q).2 := by
  induction r generalizing p q c k with
  | zero => exact ⟨rfl, h⟩
  | succ r ih =>
    have hpage : ∀ a, get_physical_page q a = get_physical_page p a := fun a => by
      rw [get_physical_page, get_physical_page, h.pgdir]
    rw [releasePages, releasePages, hpage, h.pgdir]
    split_ifs
    · exact ih h _ _
    · exact ih (h.pages _) _ _

theorem findSlot_agree (h : Agree n p q) (a r : ℕ) (i : ℤ) :
    findSlot q a r i = findSlot p a r i := by
  induction r generalizing i with
  | zero => rfl
  | succ r ih => rw [findSlot, findSlot, h.addr, ih]

theorem my_munmap_agree (h : Agree p.total_mmaps p q) (k : Frames) (addr length : BitVec 32)
    (written : ℤ) :
    (my_munmap k q addr length written).1 = (my_munmap k p addr length written).1 ∧
      (my_munmap k q addr length written).2.2 = (my_munmap k p addr length written).2.2 ∧
      Agree (my_munmap k p addr length written).2.1.total_mmaps
        (my_munmap k p addr length written).2.1 (my_munmap k q addr length written).2.1 := by
  have hfind := findSlot_agree h (pgRoundUp addr.toNat) 32 0
  generalize hi : findSlot p (pgRoundUp addr.toNat) 32 0 = i at hfind
  rw [MmapResidue.my_munmap_eq hi, MmapResidue.my_munmap_eq hfind, h.length]
  by_cases hmiss : i = 32 ∨ signed (p.slot i).length = 0
  · rw [if_pos hmiss, if_pos hmiss]
    exact ⟨rfl, rfl, h⟩
  have hlength : (p.slot i).length ≠ 0 := fun hz => hmiss (.inr (by rw [hz]; rfl))
  have hi32 : i ≠ 32 := fun heq => hmiss (.inl heq)
  rw [if_neg hmiss, if_neg hmiss, h.full (.inr (.inr hlength))]
  split_ifs
  · exact ⟨rfl, rfl, h⟩
  dsimp only
  generalize ((min (signed (pgRoundUp length.toNat)) (signed (p.slot i).length) + 4095) /
    4096).toNat = c
  obtain ⟨hframes, hagree⟩ := releasePages_agree h addr c 0 k
  obtain ⟨hmaps, htotal⟩ := MmapTracking.releasePages_table addr c 0 k p
  have hslot := MmapTracking.slot_congr hmaps htotal i
  rw [hframes]
  generalize (releasePages addr c 0 k p).2 = p' at hagree htotal hslot
  generalize (releasePages addr c 0 k q).2 = q' at hagree
  rw [hagree.full (k := i) (.inr (.inr (by rw [hslot]; exact hlength)))]
  split_ifs
  · refine ⟨rfl, rfl, ?_⟩
    have hclear : Agree p.total_mmaps (clearSlot p' i) (clearSlot q' i) := by
      rw [clearSlot, clearSlot, hagree.ref]
      exact hagree.setSlot hi32 _
    have hshift := hclear.shiftLeft (r := 32) (i := i)
    have hcount : (shiftLeft 32 i (clearSlot p' i)).total_mmaps = p.total_mmaps := by
      rw [MmapTracking.shiftLeft_total, clearSlot, setSlot_total _ hi32, htotal]
    dsimp only
    rw [hshift.total, hcount]
    exact (hshift.mono (.inl (by omega))).withTotal _
  · refine ⟨rfl, rfl, ?_⟩
    dsimp only
    rw [setSlot_total _ hi32, htotal]
    exact hagree.setSlot hi32 _

end Release

/-- Two answers of a function that installs pages: the same memory and the same verdict, and
the tables agree from `n` on. -/
structure Stored (n t : ℤ) (a b : Memory × Proc × Bool) : Prop where
  memory : b.1 = a.1
  verdict : b.2.2 = a.2.2
  agree : Agree n a.2.1 b.2.1
  total : a.2.1.total_mmaps = t

section Faults

variable {n : ℤ} {p q : Proc} {m : Memory}

theorem mapFresh_agree (h : Agree n p q) (page : ℕ) :
    Option.Rel (Stored n p.total_mmaps) (mapFresh m p page) (mapFresh m q page) := by
  unfold mapFresh
  generalize m.pop = a
  obtain ⟨a, m⟩ := a
  dsimp only
  split
  next => exact .some ⟨rfl, rfl, h, rfl⟩
  next =>
    split_ifs
    · unfold mapPage
      rw [h.pgdir]
      split
      next => exact .none
      next => exact .some ⟨rfl, rfl, h.pages _, rfl⟩
    · exact .some ⟨rfl, rfl, h, rfl⟩

theorem storePages_agree (h : Agree n p q) (r page : ℕ) :
    Option.Rel (Stored n p.total_mmaps) (storePages r page m p) (storePages r page m q) := by
  induction r generalizing m p q page with
  | zero => exact .some ⟨rfl, rfl, h, rfl⟩
  | succ r ih =>
    have hfresh := mapFresh_agree (m := m) h page
    rw [storePages, storePages]
    generalize mapFresh m p page = x at hfresh
    generalize mapFresh m q page = y at hfresh
    cases hfresh with
    | none => exact .none
    | @some a b hab =>
      obtain ⟨m', p', ok⟩ := a
      obtain ⟨m'', q', ok'⟩ := b
      obtain ⟨hm, hok, hagree, htotal⟩ := hab
      dsimp only at hm hok hagree htotal
      subst hm hok
      cases ok' with
      | false => exact .some ⟨rfl, rfl, hagree, htotal⟩
      | true => exact htotal ▸ ih hagree _

/-- The process after a page fault or a system call, on both sides. -/
def Result (a b : Memory × Proc) : Prop := b.1 = a.1 ∧ Agree a.2.total_mmaps a.2 b.2

theorem faultIn_agree (h : Agree p.total_mmaps p q) {i : ℤ} (hi : i < p.total_mmaps) (h32 : i ≠ 32)
    (addr : ℕ) : Option.Rel Result (faultIn m p i addr) (faultIn m q i addr) := by
  have hpage : get_physical_page q (pgRoundDown addr) = get_physical_page p (pgRoundDown addr) := by
    rw [get_physical_page, get_physical_page, h.pgdir]
  unfold faultIn
  rw [hpage, h.full (.inl hi)]
  split_ifs
  · exact .some ⟨rfl, h.total, h.pgdir, rfl, h.maps⟩
  · refine Runs.rel_map (storePages_agree h _ _) ?_
    rintro ⟨m', p', ok⟩ ⟨m'', q', ok'⟩ ⟨hm, hok, hagree, htotal⟩
    dsimp only at hm hok hagree htotal
    subst hm hok
    have hkilled : Agree p.total_mmaps (if ok' then p' else { p' with killed := true })
        (if ok' then q' else { q' with killed := true }) := by
      split_ifs
      · exact hagree
      · exact ⟨hagree.total, hagree.pgdir, rfl, hagree.maps⟩
    have hcount : (if ok' then p' else { p' with killed := true }).total_mmaps =
        p.total_mmaps := by
      split_ifs <;> exact htotal
    refine ⟨rfl, ?_⟩
    dsimp only
    generalize (if ok' then p' else { p' with killed := true }) = u at hkilled hcount ⊢
    generalize (if ok' then q' else { q' with killed := true }) = v at hkilled ⊢
    rw [setSlot_total _ h32, hcount, hkilled.full (.inl hi)]
    exact hkilled.setSlot h32 _

theorem handle_page_fault_agree (h : Agree p.total_mmaps p q) (addr : ℕ) :
    Option.Rel Result (handle_page_fault m p addr) (handle_page_fault m q addr) := by
  by_cases hne : q = p
  · rw [hne]
    exact Runs.rel_refl (fun a => ⟨rfl, .refl _ _⟩) _
  have ht : p.total_mmaps < 32 := by
    by_contra hge
    exact hne (h.eq (by omega))
  have hinside {k : ℕ} (hk : k ∈ List.range p.total_mmaps.toNat) : (k : ℤ) < p.total_mmaps := by
    rw [List.mem_range] at hk
    omega
  have hcovers : covers q addr = covers p addr := funext fun k => by
    simp only [covers, h.addr, h.length]
  have hgrows (e : ℕ) : (List.range p.total_mmaps.toNat).find? (growsTo q addr e) =
      (List.range p.total_mmaps.toNat).find? (growsTo p addr e) := by
    refine List.find?_congr fun k hk => ?_
    simp only [growsTo, h.full (.inl (hinside hk)), h.addr, h.total]
  unfold handle_page_fault
  rw [h.total, hcovers]
  dsimp only
  rw [hgrows]
  split
  next i hi =>
    have hlt := hinside (List.mem_of_find?_eq_some hi)
    exact faultIn_agree h hlt (by omega) addr
  next =>
    split_ifs
    · exact .some ⟨rfl, h⟩
    split
    next i hi =>
      have hlt := hinside (List.mem_of_find?_eq_some hi)
      rw [h.full (.inl hlt)]
      have hset := h.setSlot (k := i) (by omega)
        { p.slot i with length := wrap ((p.slot i).length + PGSIZE) }
      have hcount := setSlot_total (p := p) (k := i)
        { p.slot i with length := wrap ((p.slot i).length + PGSIZE) } (by omega)
      rw [← hcount] at hset hlt
      exact faultIn_agree hset hlt (by omega) addr
    next => exact .some ⟨rfl, rfl, h.pgdir, rfl, h.maps⟩

end Faults

/-- A parent of `n` mappings: once the array is full there is nothing left to differ. -/
def Like (n : ℤ) (p q : Proc) : Prop :=
  32 ≤ n ∧ q = p ∨ n < 32 ∧ p.total_mmaps = n ∧ Agree n p q

/-- Two answers of the functions of `fork`: the children agree up to `c`. -/
structure Forked (n c : ℤ) (a b : Memory × Proc × Proc × Bool) : Prop where
  memory : b.1 = a.1
  verdict : b.2.2.2 = a.2.2.2
  parent : Like n a.2.1 b.2.1
  child : Agree c a.2.2.1 b.2.2.1

section Fork

variable {n c : ℤ} {p q u v : Proc} {m : Memory} {i : ℕ}

theorem Like.agree (h : Like n p q) : Agree p.total_mmaps p q := by
  rcases h with ⟨-, rfl⟩ | ⟨-, rfl, h⟩
  · exact .refl _ _
  · exact h

theorem Agree.like (h : Agree p.total_mmaps p q) : Like p.total_mmaps p q := by
  rcases lt_or_ge p.total_mmaps 32 with hlt | hge
  · exact .inr ⟨hlt, rfl, h⟩
  · exact .inl ⟨hge, h.eq hge⟩

theorem Like.page (h : Like n p q) (a : ℕ) : get_physical_page q a = get_physical_page p a := by
  rw [get_physical_page, get_physical_page, h.agree.pgdir]

theorem Like.slot (h : Like n p q) (hi : i < n) : q.slot i = p.slot i := by
  rcases h with ⟨-, rfl⟩ | ⟨-, -, h⟩
  · rfl
  · exact h.full (.inl hi)

theorem parentPage_like (h : Like n p q) (hi : i < n) (start : ℕ) :
    Option.Rel (fun a b => b.1 = a.1 ∧ b.2.2 = a.2.2 ∧ Like n a.2.1 b.2.1)
      (parentPage m p i start) (parentPage m q i start) := by
  have hpage := h.page start
  rcases h with ⟨hge, rfl⟩ | ⟨hlt, htotal, h⟩
  · exact Runs.rel_refl (fun a => ⟨rfl, rfl, .inl ⟨hge, rfl⟩⟩) _
  subst htotal
  have h32 : (i : ℤ) ≠ 32 := by omega
  unfold parentPage
  rw [h.full (.inl hi), hpage]
  dsimp only
  by_cases hnew : has (p.slot i).flags MAP_SHARED ∧ get_physical_page p start = 0
  · rw [if_pos hnew, if_pos hnew]
    refine Runs.rel_map (storePages_agree h _ _) ?_
    rintro ⟨m', p', ok⟩ ⟨m'', q', ok'⟩ ⟨hm, hok, hagree, htotal⟩
    dsimp only at hm hok hagree htotal
    subst hm hok
    refine ⟨rfl, rfl, .inr ?_⟩
    cases ok' with
    | false => exact ⟨hlt, htotal, hagree⟩
    | true =>
      dsimp only
      rw [if_pos rfl, if_pos rfl, hagree.full (.inl hi)]
      exact ⟨hlt, (setSlot_total _ h32).trans htotal, hagree.setSlot h32 _⟩
  · rw [if_neg hnew, if_neg hnew]
    exact .some ⟨rfl, rfl, .inr ⟨hlt, rfl, h⟩⟩

theorem childPage_agree (h : Like n p q) (hc : Agree c u v) (shared : Bool) (start : ℕ) :
    Option.Rel (Stored c u.total_mmaps) (childPage m p u shared start)
      (childPage m q v shared start) := by
  unfold childPage
  rw [h.page]
  cases shared with
  | false =>
    rw [if_neg Bool.false_ne_true, if_neg Bool.false_ne_true]
    split_ifs
    · exact .some ⟨rfl, rfl, hc, rfl⟩
    · exact mapFresh_agree hc _
  | true =>
    rw [if_pos rfl, if_pos rfl]
    generalize m.pop = a
    obtain ⟨a, m⟩ := a
    dsimp only
    split_ifs
    · unfold mapPage
      rw [hc.pgdir]
      split
      next => exact .none
      next => exact .some ⟨rfl, rfl, hc.pages _, rfl⟩
    · exact .some ⟨rfl, rfl, hc, rfl⟩

theorem copyPages_forked (h : Like n p q) (hc : Agree c u v) (hi : i < n) (shared : Bool)
    (r start : ℕ) : Option.Rel (Forked n c) (copyPages i shared r start m p u)
      (copyPages i shared r start m q v) := by
  induction r generalizing m p q u v start with
  | zero => exact .some ⟨rfl, rfl, h, hc⟩
  | succ r ih =>
    have hparent := parentPage_like (m := m) h hi start
    rw [copyPages, copyPages]
    generalize parentPage m p i start = x at hparent
    generalize parentPage m q i start = y at hparent
    cases hparent with
    | none => exact .none
    | @some a b hab =>
      obtain ⟨m', p', ok⟩ := a
      obtain ⟨m'', q', ok'⟩ := b
      obtain ⟨hm, hok, hlike⟩ := hab
      dsimp only at hm hok hlike
      subst hm hok
      cases ok' with
      | false => exact .some ⟨rfl, rfl, hlike, hc⟩
      | true =>
        have hchild := childPage_agree (m := m'') hlike hc shared start
        dsimp only
        generalize childPage m'' p' u shared start = x at hchild
        generalize childPage m'' q' v shared start = y at hchild
        cases hchild with
        | none => exact .none
        | @some a b hab =>
          obtain ⟨m₁, u', ok⟩ := a
          obtain ⟨m₂, v', ok'⟩ := b
          obtain ⟨hm, hok, hagree, -⟩ := hab
          dsimp only at hm hok hagree
          subst hm hok
          cases ok' with
          | false => exact .some ⟨rfl, rfl, hlike, hagree⟩
          | true => exact ih hlike hagree _

theorem copy_single_mmap_forked (h : Like n p q) (hc : Agree i u v) (hi : i < n) :
    Option.Rel (fun a b => Forked n i a b ∧ (a.2.2.2 = true → Forked n (i + 1) a b))
      (copy_single_mmap m p u i) (copy_single_mmap m q v i) := by
  unfold copy_single_mmap
  rw [h.slot hi]
  refine Runs.rel_map (copyPages_forked h hc hi _ _ _) ?_
  rintro ⟨m', p', u', ok⟩ ⟨m'', q', v', ok'⟩ ⟨hm, hok, hlike, hagree⟩
  dsimp only at hm hok hlike hagree
  subst hm hok
  cases ok' with
  | false => exact ⟨⟨rfl, rfl, hlike, hagree⟩, fun hfalse => absurd hfalse (by simp)⟩
  | true =>
    dsimp only
    rw [if_pos rfl, if_pos rfl, hlike.slot hi, hagree.record, hagree.stored]
    exact ⟨⟨rfl, rfl, hlike, (hagree.setSlot_succ _).mono (.inl (Int.le_add_one le_rfl))⟩,
      fun _ => ⟨rfl, rfl, hlike, hagree.setSlot_succ _⟩⟩

theorem copyAll_forked {r : ℕ} (h : Like n p q) (hc : Agree i u v)
    (hi : ∀ k : ℕ, k < i + r → (k : ℤ) < n) :
    Option.Rel (fun a b => Forked n 0 a b ∧ (a.2.2.2 = true → Forked n (i + r : ℕ) a b))
      (copyAll r i m p u) (copyAll r i m q v) := by
  induction r generalizing m p q u v i with
  | zero => exact .some ⟨⟨rfl, rfl, h, hc.mono (.inr le_rfl)⟩, fun _ => ⟨rfl, rfl, h, hc⟩⟩
  | succ r ih =>
    have hsingle := copy_single_mmap_forked (m := m) h hc (hi i (by omega))
    rw [copyAll, copyAll]
    generalize copy_single_mmap m p u i = x at hsingle
    generalize copy_single_mmap m q v i = y at hsingle
    cases hsingle with
    | none => exact .none
    | @some a b hab =>
      obtain ⟨m', p', u', ok⟩ := a
      obtain ⟨m'', q', v', ok'⟩ := b
      obtain ⟨⟨hm, hok, hlike, hagree⟩, hnext⟩ := hab
      dsimp only at hm hok hlike hagree hnext
      subst hm hok
      cases ok' with
      | false => exact .some ⟨⟨rfl, rfl, hlike, hagree.mono (.inr le_rfl)⟩,
          fun hfalse => absurd hfalse (by simp)⟩
      | true =>
        have hrest := ih (m := m'') (i := i + 1) hlike (by exact_mod_cast (hnext rfl).child)
          fun k hk => hi k (by omega)
        rwa [show i + 1 + r = i + (r + 1) by omega] at hrest

theorem copy_maps_forked (h : Agree p.total_mmaps p q) (hc : Agree 0 u v) :
    Option.Rel (fun a b => b.1 = a.1 ∧ b.2.2.2 = a.2.2.2 ∧
      Agree a.2.1.total_mmaps a.2.1 b.2.1 ∧ Agree 0 a.2.2.1 b.2.2.1 ∧
      (a.2.2.2 = true → Agree a.2.2.1.total_mmaps a.2.2.1 b.2.2.1))
      (copy_maps m p u) (copy_maps m q v) := by
  unfold copy_maps
  rw [h.total]
  refine Runs.rel_map (copyAll_forked (m := m) (r := p.total_mmaps.toNat) (i := 0) h.like hc
    fun k hk => by omega) ?_
  rintro ⟨m', p', u', ok⟩ ⟨m'', q', v', ok'⟩ ⟨⟨hm, hok, hlike, hagree⟩, hnext⟩
  dsimp only at hm hok hlike hagree hnext
  subst hm hok
  cases ok' with
  | false => exact ⟨rfl, rfl, hlike.agree, hagree, fun hfalse => absurd hfalse (by simp)⟩
  | true =>
    obtain ⟨-, -, -, hchild⟩ := hnext rfl
    dsimp only at hchild
    dsimp only
    rw [if_pos rfl, if_pos rfl, hlike.agree.total]
    refine ⟨rfl, rfl, hlike.agree, hagree.withTotal _, fun _ => ?_⟩
    rcases hlike with ⟨hge, -⟩ | ⟨hlt, htotal, -⟩
    · rw [hchild.eq (by omega)]
      exact .refl _ _
    · exact (hchild.mono (by dsimp only; omega)).withTotal _

end Fork

/-- Two machines that differ at most in what vacant slots hold; a process that is gone has
vacant slots only. -/
structure Alike (s t : Machine) : Prop where
  phase : t.phase = s.phase
  frames : t.frames = s.frames
  gone : ∀ i, Agree 0 (s.procs i) (t.procs i)
  used : ∀ i, s.phase i ≠ .unused → Agree (s.procs i).total_mmaps (s.procs i) (t.procs i)

section Machines

variable {s t : Machine} {i : ℕ}

theorem Alike.refl (s : Machine) : Alike s s :=
  ⟨rfl, rfl, fun _ => .refl _ _, fun _ _ => .refl _ _⟩

theorem Alike.set_gone (h : Alike s t) {p q : Proc} (hpq : Agree 0 p q) (k : Frames)
    (hi : s.phase i ≠ .unused → Agree p.total_mmaps p q) :
    Alike (s.set i p k) (t.set i q k) := by
  refine ⟨h.phase, rfl, fun j => ?_, fun j hj => ?_⟩
  · simp only [Machine.set]
    by_cases hji : j = i
    · subst hji
      rw [Function.update_self, Function.update_self]
      exact hpq
    · rw [Function.update_of_ne hji, Function.update_of_ne hji]
      exact h.gone j
  · simp only [Machine.set]
    by_cases hji : j = i
    · subst hji
      rw [Function.update_self, Function.update_self]
      exact hi hj
    · rw [Function.update_of_ne hji, Function.update_of_ne hji]
      exact h.used j hj

theorem Alike.set (h : Alike s t) {p q : Proc} (hpq : Agree p.total_mmaps p q) (k : Frames) :
    Alike (s.set i p k) (t.set i q k) :=
  h.set_gone (hpq.mono (.inr le_rfl)) k fun _ => hpq

theorem Alike.setPhase (h : Alike s t) (f : Phase)
    (hi : f ≠ .unused → Agree (s.procs i).total_mmaps (s.procs i) (t.procs i)) :
    Alike (s.setPhase i f) (t.setPhase i f) := by
  refine ⟨by simp only [Machine.setPhase, h.phase], h.frames, h.gone, fun j hj => ?_⟩
  simp only [Machine.setPhase] at hj ⊢
  by_cases hji : j = i
  · subst hji
    rw [Function.update_self] at hj
    exact hi hj
  · rw [Function.update_of_ne hji] at hj
    exact h.used j hj

theorem doMunmap_alike (h : Alike s t) (hi : s.phase i ≠ .unused) (addr length : BitVec 32)
    (written : ℤ) : Alike (doMunmap s i addr length written) (doMunmap t i addr length written) := by
  obtain ⟨hframes, -, hagree⟩ := my_munmap_agree (h.used i hi) s.frames addr length written
  unfold doMunmap
  rw [h.frames]
  dsimp only
  rw [hframes]
  exact h.set hagree _

theorem exitArgs_alike (h : Alike s t) (hi : s.phase i ≠ .unused) (n : ℕ) :
    exitArgs (t.procs i) n = exitArgs (s.procs i) n := by
  have hagree := h.used i hi
  rw [exitArgs, exitArgs, hagree.total, hagree.ref, hagree.addr, hagree.length]

theorem fork_alike (h : Alike s t) {j : ℕ} (hi : s.phase i = .live) (hj : s.phase j = .unused)
    (answers : List Answer) : Option.Rel Alike (fork s i j answers) (fork t i j answers) := by
  have hlive : s.phase i ≠ .unused := by simp [hi]
  have hchild := h.gone j
  unfold fork
  dsimp only
  rw [h.frames]
  refine Runs.rel_map (copy_maps_forked (m := ⟨s.frames, answers⟩) (h.used i hlive)
    (u := { s.procs j with pgdir := fun _ => none, total_mmaps := 0, killed := false })
    (v := { t.procs j with pgdir := fun _ => none, total_mmaps := 0, killed := false })
    ⟨rfl, rfl, rfl, hchild.maps⟩) ?_
  rintro ⟨m', p', u', ok⟩ ⟨m'', q', v', ok'⟩ ⟨hm, hok, hparent, hgone, hused⟩
  dsimp only at hm hok hparent hgone hused
  subst hm hok
  have hset := (h.set (i := i) hparent m''.frames).set_gone (i := j) hgone m''.frames
    fun hne => absurd hj hne
  dsimp only
  split_ifs with hok
  · refine hset.setPhase .live fun _ => ?_
    simp only [Machine.set, Function.update_self]
    exact hused hok
  · exact hset

theorem event_alike (h : Alike s t) (e : Event) :
    Option.Rel Alike (MmapFrames.next s e) (MmapFrames.next t e) := by
  cases e with
  | mmap i addr f length offset flags protection =>
    rw [MmapFrames.next, MmapFrames.next, h.phase, h.frames]
    split_ifs with hi
    · exact .some (h.set (my_mmap_agree (h.used i (by simp [hi])) addr f length offset flags
        protection).2 _)
    · exact .none
  | fault i addr answers =>
    rw [MmapFrames.next, MmapFrames.next, h.phase, h.frames]
    split_ifs with hi
    · refine Runs.rel_map (handle_page_fault_agree (h.used i (by simp [hi])) _) ?_
      rintro ⟨m', p'⟩ ⟨m'', q'⟩ ⟨hm, hagree⟩
      dsimp only at hm hagree
      subst hm
      exact h.set hagree _
    · exact .none
  | fork i j answers =>
    rw [MmapFrames.next, MmapFrames.next, h.phase]
    split_ifs with hij
    · exact fork_alike h hij.1 hij.2 answers
    · exact .none
  | munmap i addr length written =>
    rw [MmapFrames.next, MmapFrames.next, h.phase]
    split_ifs with hi
    · exact .some (doMunmap_alike h (by simp [hi]) addr length written)
    · exact .none
  | exitBegin i =>
    rw [MmapFrames.next, MmapFrames.next, h.phase]
    split_ifs with hi
    · have hagree := h.used i (by simp [hi])
      rw [hagree.total]
      exact .some (h.setPhase _ fun _ => hagree)
    · exact .none
  | exitStep i written =>
    rw [MmapFrames.next, MmapFrames.next, h.phase]
    split
    next n hi =>
      have hne : s.phase i ≠ .unused := by simp [hi]
      dsimp only
      rw [exitArgs_alike h hne]
      cases exitArgs (s.procs i) n with
      | none => exact .some (h.setPhase _ fun _ => h.used i hne)
      | some a =>
        have hunmap := doMunmap_alike h hne a.1 a.2 written
        exact .some (hunmap.setPhase _ fun _ => hunmap.used i hne)
    next => exact .none
  | exitEnd i =>
    rw [MmapFrames.next, MmapFrames.next, h.phase, h.frames]
    split_ifs with hi
    · have hzero := (h.gone i).withTotal 0
      have hset := h.set_gone (i := i) hzero s.frames fun _ => hzero
      exact .some (hset.setPhase _ fun _ => hset.used i (by simp [Machine.set, hi]))
    · exact .none
  | reap i =>
    rw [MmapFrames.next, MmapFrames.next, h.phase]
    split_ifs with hi
    · exact .some (h.setPhase _ fun hne => absurd rfl hne)
    · exact .none

theorem step_alike (h : Alike s t) (e : Step) : Option.Rel Alike (next s e) (next t e) := by
  cases e with
  | event e => exact event_alike h e
  | exec i =>
    rw [next, next, h.phase, h.frames]
    split_ifs with hi
    · have hzero := ((h.gone i).withTotal 0).pages fun _ => none
      have hset := h.set_gone (i := i) hzero s.frames fun _ => hzero
      exact .some (hset.setPhase _ fun _ => hset.used i (by simp [Machine.set, hi]))
    · exact .none

theorem answer_alike {e : Step} {s' : Machine} (h : Alike s t) (hs : next s e = some s') :
    answer t e = answer s e := by
  unfold answer
  split
  next i addr f length offset flags protection =>
    rw [next, MmapFrames.next] at hs
    split_ifs at hs with hi
    rw [(my_mmap_agree (h.used i (by simp [hi])) addr f length offset flags protection).1]
  next i addr length written =>
    rw [next, MmapFrames.next] at hs
    split_ifs at hs with hi
    rw [h.frames, (my_munmap_agree (h.used i (by simp [hi])) _ addr length written).2.1]
  next => rfl

theorem answers_alike (h : Alike s t) (es : List Step) : answers t es = answers s es := by
  induction es generalizing s t with
  | nil => rfl
  | cons e es ih =>
    have hstep := step_alike h e
    rw [answers, answers]
    cases hs : next s e with
    | none =>
      rw [hs] at hstep
      generalize next t e = y at hstep
      cases hstep
      rfl
    | some s' =>
      rw [hs] at hstep
      generalize next t e = y at hstep
      cases hstep with
      | some hnext => simp only [answer_alike h hs, ih hnext]

end Machines

/-- Nothing is left in the slots that a new process could come across. -/
def Blank (p : Proc) : Prop := ∀ k : ℕ, k < 32 → (p.mmaps k).addr = 0 ∧ (p.mmaps k).length = 0 ∧
  (p.mmaps k).ref = 0 ∧ (p.mmaps k).stored_length = 0

/-- The region table as it was when the machine was switched on. -/
def wiped (s : Machine) (j : ℕ) : Machine :=
  { s with procs := Function.update s.procs j { s.procs j with
      mmaps := fun k => if 0 ≤ k ∧ k < 32 then Mmp.zero else (s.procs j).mmaps k } }

/-- The process in slot `j` maps something, or the slot changes hands. -/
def Concerns (j : ℕ) : Step → Prop
  | .event (.mmap i ..) => i = j
  | .event (.reap i) => i = j
  | _ => False

/-- No mapping can be taken out of the table, and the first one put in starts from zero. -/
def Unmapped (k : Frames) (p : Proc) : Prop :=
  (∀ addr length written, (my_munmap k p addr length written).2.2 = -1) ∧
    ∀ addr f length offset flags protection p' a,
      my_mmap p addr f length offset flags protection = (p', some a) →
        p'.total_mmaps = 1 ∧ (p'.slot 0).addr = a ∧ (p'.slot 0).ref = 0 ∧
          (p'.slot 0).stored_length = 0

/-- What a child of a parent without mappings can expect: its table is empty until it maps
something itself, and no run of the machine from its `fork` on goes differently than with a
table that was never used. -/
def NewProcess (s : Machine) : Step → Prop
  | .event (.fork i j answers) =>
    (s.procs i).total_mmaps = 0 → ∀ s', next s (.event (.fork i j answers)) = some s' →
      (∀ es s'', (∀ e ∈ es, ¬ Concerns j e) → Runs.run next s' es = some s'' →
        Unmapped s''.frames (s''.procs j)) ∧
      ∀ es, MmapReuse.answers (wiped s j) (.event (.fork i j answers) :: es) =
          MmapReuse.answers s (.event (.fork i j answers) :: es) ∧
        Option.Rel Alike (Runs.run next s (.event (.fork i j answers) :: es))
          (Runs.run next (wiped s j) (.event (.fork i j answers) :: es))
  | _ => True

/-- A child that inherits no mapping gets a slot without leftovers. -/
def Harmless (s : Machine) : Step → Prop
  | .event (.fork i j _) => s.phase i = .live → s.phase j = .unused →
      (s.procs i).total_mmaps = 0 → Blank (s.procs j)
  | _ => True

section Empty

variable {s t : Machine} {p : Proc} {i j : ℕ}

theorem Blank.slot (h : Blank p) {k : ℕ} (hk : k < 32) : (p.slot k).addr = 0 ∧
    (p.slot k).length = 0 ∧ (p.slot k).ref = 0 ∧ (p.slot k).stored_length = 0 := by
  have h32 : (k : ℤ) ≠ 32 := by omega
  simpa only [Proc.slot, h32, if_false] using h k hk

theorem my_munmap_blank (h : Blank p) (k : Frames) (addr length : BitVec 32) (written : ℤ) :
    my_munmap k p addr length written = (k, p, -1) := by
  obtain ⟨n, hn, -, hn32, -, -⟩ := MmapTracking.findSlot_spec (p := p)
    (a := pgRoundUp addr.toNat) (n := 32) (i := 0) (by omega)
  have hfind : findSlot p (pgRoundUp addr.toNat) 32 0 = (n : ℤ) := by exact_mod_cast hn
  rw [MmapResidue.my_munmap_eq hfind, if_pos]
  rcases Nat.lt_or_ge n 32 with hlt | hge
  · right
    rw [(h.slot hlt).2.1]
    rfl
  · exact .inl (by omega)

/-- The first mapping goes into slot 0. -/
theorem search_first (htotal : p.total_mmaps = 0) (addr length flags : BitVec 32) :
    search p addr length flags = (p, -1) ∨ ∃ a l : ℕ, search p addr length flags =
      (p.setSlot 0 { p.slot 0 with addr := a, length := l }, 0) := by
  have hinsert (a : ℕ) : mmp_insert p length (-1) a = (p, -1) ∨ ∃ a' l : ℕ,
      mmp_insert p length (-1) a =
        (p.setSlot 0 { p.slot 0 with addr := a', length := l }, 0) := by
    unfold mmp_insert
    rw [htotal]
    dsimp only
    split_ifs
    · exact .inl rfl
    · exact .inr ⟨_, _, rfl⟩
  have hcheck (a : ℕ) : mmp_check p a length = (p, -1) ∨ ∃ a' l : ℕ, mmp_check p a length =
      (p.setSlot 0 { p.slot 0 with addr := a', length := l }, 0) := by
    unfold mmp_check
    rw [htotal]
    dsimp only
    split_ifs
    · exact hinsert a
    · exact .inl rfl
  have hany : mmp_any p length = (p, -1) ∨ ∃ a l : ℕ, mmp_any p length =
      (p.setSlot 0 { p.slot 0 with addr := a, length := l }, 0) := by
    unfold mmp_any
    rw [if_pos htotal]
    split_ifs
    · exact .inl rfl
    · exact .inr ⟨_, _, rfl⟩
  unfold search
  split_ifs
  · exact hcheck _
  · exact .inl rfl
  · exact hcheck _
  · exact hany

theorem my_mmap_blank (h : Blank p) (htotal : p.total_mmaps = 0) {addr : BitVec 32} {f : File}
    {length offset flags protection : BitVec 32} {p' : Proc} {a : ℕ}
    (hm : my_mmap p addr f length offset flags protection = (p', some a)) :
    p'.total_mmaps = 1 ∧ (p'.slot 0).addr = a ∧ (p'.slot 0).ref = 0 ∧
      (p'.slot 0).stored_length = 0 := by
  obtain ⟨-, -, href, hstored⟩ := h.slot (k := 0) (by decide)
  rw [my_mmap_eq] at hm
  split_ifs at hm
  · cases hm
  · cases hm
  · cases hm
  · rcases search_first htotal addr length flags with hfail | ⟨b, l, hfound⟩
    · rw [hfail, fill, if_pos rfl] at hm
      cases hm
    · rw [hfound, fill_found (by decide) (by decide)] at hm
      obtain ⟨rfl, ha⟩ := Prod.mk.inj hm
      refine ⟨by dsimp only; omega, ?_⟩
      simpa [Proc.slot, Proc.setSlot] using ⟨Option.some.inj ha, href, hstored⟩

theorem unmapped_blank (h : Blank p) (htotal : p.total_mmaps = 0) (k : Frames) : Unmapped k p :=
  ⟨fun addr length written => by rw [my_munmap_blank h],
    fun _ _ _ _ _ _ _ _ hm => my_mmap_blank h htotal hm⟩

/-- A process that has not mapped anything yet. -/
structure Bare (s : Machine) (j : ℕ) : Prop where
  used : s.phase j ≠ .unused
  total : (s.procs j).total_mmaps = 0
  blank : Blank (s.procs j)

theorem handle_page_fault_bare {m m' : Memory} {p' : Proc} {addr : ℕ} (htotal : p.total_mmaps = 0)
    (hf : handle_page_fault m p addr = some (m', p')) :
    p'.total_mmaps = 0 ∧ p'.mmaps = p.mmaps := by
  have hrange : List.range p.total_mmaps.toNat = [] := by rw [htotal]; rfl
  unfold handle_page_fault at hf
  simp only [hrange, List.find?_nil] at hf
  split_ifs at hf <;> cases hf <;> exact ⟨htotal, rfl⟩

theorem Bare.set (h : Bare s j) {q : Proc} (k : Frames)
    (hq : i = j → q.total_mmaps = 0 ∧ q.mmaps = (s.procs j).mmaps) : Bare (s.set i q k) j := by
  refine ⟨h.used, ?_, ?_⟩
  · simp only [Machine.set]
    by_cases hji : j = i
    · rw [hji, Function.update_self]
      exact (hq hji.symm).1
    · rw [Function.update_of_ne hji]
      exact h.total
  · simp only [Machine.set, Blank]
    by_cases hji : j = i
    · rw [hji, Function.update_self, (hq hji.symm).2]
      exact h.blank
    · rw [Function.update_of_ne hji]
      exact h.blank

theorem Bare.setPhase (h : Bare s j) {f : Phase} (hf : i = j → f ≠ .unused) :
    Bare (s.setPhase i f) j := by
  refine ⟨?_, h.total, h.blank⟩
  simp only [Machine.setPhase]
  by_cases hji : j = i
  · rw [hji, Function.update_self]
    exact hf hji.symm
  · rw [Function.update_of_ne hji]
    exact h.used

theorem doMunmap_bare (h : Bare s j) (addr length : BitVec 32) (written : ℤ) :
    Bare (doMunmap s i addr length written) j := by
  unfold doMunmap
  by_cases hij : i = j
  · subst hij
    rw [my_munmap_blank h.blank]
    exact h.set _ fun _ => ⟨h.total, rfl⟩
  · exact h.set _ fun heq => absurd heq hij

theorem fork_bare (h : Bare s j) {k : ℕ} (hk : s.phase k = .unused) {answers : List Answer}
    {s' : Machine} (hs : fork s i k answers = some s') : Bare s' j := by
  have hkj : k ≠ j := fun heq => h.used (heq ▸ hk)
  obtain ⟨⟨m, p', c', ok⟩, hcopy, rfl⟩ := Option.map_eq_some_iff.mp hs
  have hset : Bare ((s.set i p' m.frames).set k c' m.frames) j := by
    refine (h.set m.frames fun hij => ?_).set m.frames fun heq => absurd heq hkj
    subst hij
    obtain ⟨⟨m', p₀, c₀, ok'⟩, hall, hend⟩ := Option.map_eq_some_iff.mp hcopy
    rw [h.total] at hall
    cases hall
    cases hend
    exact ⟨h.total, rfl⟩
  dsimp only
  split_ifs
  · exact hset.setPhase fun heq => absurd heq hkj
  · exact hset

theorem event_bare (h : Bare s j) {e : Event} (he : ¬ Concerns j (.event e)) {s' : Machine}
    (hs : MmapFrames.next s e = some s') : Bare s' j := by
  cases MmapFrames.next_moved hs with
  | mmap live => exact h.set _ fun hij => absurd hij he
  | fault live served =>
    refine h.set _ fun hij => ?_
    subst hij
    exact handle_page_fault_bare h.total served
  | fork live unused forked => exact fork_bare h unused forked
  | munmap live => exact doMunmap_bare h _ _ _
  | exitBegin live => exact h.setPhase fun _ => by simp
  | skipped inside ref => exact h.setPhase fun _ => by simp
  | round inside args => exact (doMunmap_bare h _ _ _).setPhase fun _ => by simp
  | exitEnd done => exact (h.set _ fun hij => ⟨rfl, by rw [hij]⟩).setPhase fun _ => by simp
  | reap zombie => exact h.setPhase fun hij => absurd hij he

theorem step_bare (h : Bare s j) {e : Step} (he : ¬ Concerns j e) {s' : Machine}
    (hs : next s e = some s') : Bare s' j := by
  cases e with
  | event e => exact event_bare h he hs
  | exec i =>
    rw [next] at hs
    split_ifs at hs
    cases hs
    exact (h.set _ fun hij => ⟨rfl, by rw [hij]⟩).setPhase fun _ => by simp

theorem run_bare (h : Bare s j) {es : List Step} (he : ∀ e ∈ es, ¬ Concerns j e) {s' : Machine}
    (hs : Runs.run next s es = some s') : Bare s' j := by
  induction es generalizing s with
  | nil =>
    obtain rfl := Option.some.inj hs
    exact h
  | cons e es ih =>
    obtain ⟨u, hu, hrest⟩ := Option.bind_eq_some_iff.mp hs
    exact ih (step_bare h (he e List.mem_cons_self) hu)
      (fun e' he' => he e' (List.mem_cons_of_mem _ he')) hrest

/-- The child of a parent without mappings has the leftovers of its slot for a table. -/
theorem fork_starts_bare (htotal : (s.procs i).total_mmaps = 0) (hb : Blank (s.procs j))
    {answers : List Answer} {s' : Machine} (hs : fork s i j answers = some s') : Bare s' j := by
  obtain ⟨⟨m, p', c', ok⟩, hcopy, rfl⟩ := Option.map_eq_some_iff.mp hs
  obtain ⟨⟨m', p₀, c₀, ok'⟩, hall, hend⟩ := Option.map_eq_some_iff.mp hcopy
  rw [htotal] at hall
  cases hall
  cases hend
  refine ⟨?_, ?_, ?_⟩
  · simp [Machine.setPhase]
  · simpa [Machine.setPhase, Machine.set] using htotal
  · simpa [Machine.setPhase, Machine.set, Blank] using hb

theorem wiped_alike (hj : s.phase j = .unused) (hb : Blank (s.procs j)) :
    Alike s (wiped s j) := by
  have hagree : Agree 0 (s.procs j) ((wiped s j).procs j) := by
    simp only [wiped, Function.update_self]
    refine ⟨rfl, rfl, rfl, fun k => ?_⟩
    dsimp only
    split_ifs with hk
    · obtain ⟨n, rfl⟩ := Int.eq_ofNat_of_zero_le hk.1
      obtain ⟨haddr, hlength, href, hstored⟩ := hb n (by omega)
      exact .inr ⟨hk.1, hk.1, hk.2, haddr, rfl, hlength, rfl, href.symm, hstored.symm⟩
    · exact .inl rfl
  have hother {i : ℕ} (hi : i ≠ j) : (wiped s j).procs i = s.procs i := Function.update_of_ne hi _ _
  refine ⟨rfl, rfl, fun i => ?_, fun i hi => ?_⟩
  · by_cases hij : i = j
    · subst hij
      exact hagree
    · rw [hother hij]
      exact .refl _ _
  · have hij : i ≠ j := fun heq => hi (by rw [heq]; exact hj)
    rw [hother hij]
    exact .refl _ _

theorem fork_new {answers : List Answer} (h : Harmless s (.event (.fork i j answers))) :
    NewProcess s (.event (.fork i j answers)) := by
  intro htotal s' hs
  have hfork : s.phase i = .live ∧ s.phase j = .unused := by
    by_contra hno
    rw [next, MmapFrames.next, if_neg hno] at hs
    cases hs
  have hblank := h hfork.1 hfork.2 htotal
  have halike := wiped_alike hfork.2 hblank
  refine ⟨fun es s'' he hr => ?_, fun es => ⟨answers_alike halike _,
    Runs.run_rel (fun _ _ e ha => step_alike ha e) halike _⟩⟩
  rw [next, MmapFrames.next, if_pos hfork] at hs
  have hbare := run_bare (fork_starts_bare htotal hblank hs) he hr
  exact unmapped_blank hbare.blank hbare.total _

end Empty

theorem new_process_empty {s : Machine} {es : List Step} (h : Runs.Along next Harmless s es) :
    Runs.Along next NewProcess s es := by
  induction es generalizing s with
  | nil => trivial
  | cons e es ih =>
    refine ⟨?_, fun s' hs => ih (h.2 s' hs)⟩
    unfold NewProcess
    split
    next i j answers => exact fork_new h.1
    next => trivial

instance (p : Proc) : Decidable (Blank p) :=
  inferInstanceAs (Decidable (∀ k : ℕ, k < 32 → _ ∧ _ ∧ _ ∧ _))

instance (s : Machine) (e : Step) : Decidable (Harmless s e) :=
  match e with
  | .event (.fork i j _) => inferInstanceAs (Decidable (s.phase i = .live → s.phase j = .unused →
      (s.procs i).total_mmaps = 0 → Blank (s.procs j)))
  | .event (.mmap ..) => inferInstanceAs (Decidable True)
  | .event (.fault ..) => inferInstanceAs (Decidable True)
  | .event (.munmap ..) => inferInstanceAs (Decidable True)
  | .event (.exitBegin _) => inferInstanceAs (Decidable True)
  | .event (.exitStep ..) => inferInstanceAs (Decidable True)
  | .event (.exitEnd _) => inferInstanceAs (Decidable True)
  | .event (.reap _) => inferInstanceAs (Decidable True)
  | .exec _ => inferInstanceAs (Decidable True)

/-- An anonymous private page of process 1. -/
def page : Step := .event (.mmap 1 0 ⟨0, true, true⟩ 4096 0 5 3)

/-- Process 1 exits with `n` mappings and is reaped. -/
def leave (n : ℕ) : List Step :=
  .event (.exitBegin 1) :: List.replicate n (.event (.exitStep 1 0)) ++
    [.event (.exitEnd 1), .event (.reap 1)]

def firstOwner : List Step := [.event (.fork 0 1 []), page, page]

/-- Unmapped from the top down two pages leave nothing behind. -/
theorem clean_slot_reused :
    (Runs.run next MmapSafety.firstProcess
      (firstOwner ++ leave 2 ++ [.event (.fork 0 1 [])])).isSome = true ∧
    Runs.Along next NewProcess MmapSafety.firstProcess
      (firstOwner ++ leave 2 ++ [.event (.fork 0 1 [])]) :=
  ⟨by decide +kernel, new_process_empty (by decide +kernel)⟩

/-- The owner unmaps the lower of two pages, which leaves a second copy of the upper one in
the table; the next owner can unmap that. -/
theorem leftover_unmapped :
    ¬ Runs.Along next NewProcess MmapSafety.firstProcess
      (firstOwner ++ [.event (.munmap 1 0x60000000 4096 0)] ++ leave 1 ++
        [.event (.fork 0 1 [])]) := by
  intro h
  have hsome : (Runs.run next MmapSafety.firstProcess (firstOwner ++
      [.event (.munmap 1 0x60000000 4096 0)] ++ leave 1)).any (fun s =>
        (s.procs 0).total_mmaps = 0 ∧ (next s (.event (.fork 0 1 []))).any fun s =>
          (my_munmap s.frames (s.procs 1) 0x60001000 4096 0).2.2 = 0) = true := by
    decide +kernel
  obtain ⟨s, hs, hst⟩ := (Option.any_eq_true _ _).mp hsome
  obtain ⟨htotal, hfork⟩ := of_decide_eq_true hst
  obtain ⟨s', hs', hzero⟩ := (Option.any_eq_true _ _).mp hfork
  have hnew := (Runs.Along.at h hs htotal s' hs').1 [] s' (by simp) rfl
  have hrefused := hnew.1 0x60001000 4096 0
  rw [of_decide_eq_true hzero] at hrefused
  exact absurd hrefused (by decide)

end MmapReuse
