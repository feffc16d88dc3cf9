import OsProjects.MmapReuse

/-! # What a process gives back when it leaves

`delete_mmaps` goes through the table from the top. In each round it takes the next entry
below, but the `ref` it looks at is that of the last slot in use. The two are the same slot
until an entry stays in the table; after that every round looks above the entry it is about.
-/
namespace MmapExit

open Word32 MmapTable MmapPlacement
open MmapFrames hiding next run
open MmapFrames.Exec (Step next)
open MmapResidue (Within removed)

/-- The rounds of `delete_mmaps` from `total_maps = n` down; `written` is the answer of
`filewrite` in each of them. -/
def unmapRounds (written : ℕ → ℤ) : ℕ → Frames → Proc → Frames × Proc
  | 0, k, p => (k, p)
  | n + 1, k, p =>
    match exitArgs p n with
    | some (addr, length) =>
      let (k, p, _) := my_munmap k p addr length (written n)
      unmapRounds written n k p
    | none => unmapRounds written n k p

def delete_mmaps (written : ℕ → ℤ) (k : Frames) (p : Proc) : Frames × Proc :=
  let (k, p) := unmapRounds written p.total_mmaps.toNat k p
  (k, { p with total_mmaps := 0 })

section Rounds

variable {s : Machine} {i n : ℕ} {written : ℕ → ℤ}

/-- The rounds of process `i` as steps of the machine. -/
def rounds (i : ℕ) (written : ℕ → ℤ) : ℕ → List Step
  | 0 => []
  | n + 1 => .event (.exitStep i (written n)) :: rounds i written n

/-- While nobody else runs, the rounds of the machine are those of the loop. -/
theorem rounds_run (hi : s.phase i = .exiting n) : Runs.run next s (rounds i written n) =
    some ((s.set i (unmapRounds written n s.frames (s.procs i)).2
      (unmapRounds written n s.frames (s.procs i)).1).setPhase i (.exiting 0)) := by
  induction n generalizing s with
  | zero =>
    have hself : (s.set i (s.procs i) s.frames).setPhase i (.exiting 0) = s := by
      simp only [Machine.set, Machine.setPhase, Function.update_eq_self, ← hi]
    rw [unmapRounds, hself]
    rfl
  | succ n ih =>
    rw [rounds, Runs.run, next, MmapFrames.next, hi]
    dsimp only
    rw [Option.bind_some, unmapRounds]
    cases exitArgs (s.procs i) n with
    | none =>
      rw [ih (by simp [Machine.setPhase])]
      simp [Machine.set, Machine.setPhase]
    | some args =>
      rw [ih (by simp [Machine.setPhase])]
      simp [doMunmap, Machine.set, Machine.setPhase]

/-- `exit` and `exec`, once they leave the old mappings, leave what `delete_mmaps` does. -/
theorem exit_run (hi : s.phase i = .live) :
    Runs.run next s (.event (.exitBegin i) :: rounds i written (s.procs i).total_mmaps.toNat ++
      [.event (.exitEnd i)]) =
    some ((s.set i (delete_mmaps written s.frames (s.procs i)).2
      (delete_mmaps written s.frames (s.procs i)).1).setPhase i .zombie) := by
  rw [List.cons_append, Runs.run, next, MmapFrames.next, if_pos hi, Option.bind_some,
    Runs.run_append, rounds_run (by simp [Machine.setPhase])]
  simp [Runs.run, next, MmapFrames.next, delete_mmaps, Machine.set, Machine.setPhase]

theorem exec_run (hi : s.phase i = .live) :
    Runs.run next s (.event (.exitBegin i) :: rounds i written (s.procs i).total_mmaps.toNat ++
      [.exec i]) =
    some ((s.set i { (delete_mmaps written s.frames (s.procs i)).2 with pgdir := fun _ => none }
      (delete_mmaps written s.frames (s.procs i)).1).setPhase i .live) := by
  rw [List.cons_append, Runs.run, next, MmapFrames.next, if_pos hi, Option.bind_some,
    Runs.run_append, rounds_run (by simp [Machine.setPhase])]
  simp [Runs.run, next, delete_mmaps, Machine.set, Machine.setPhase]

end Rounds

/-- The write-back of entry `j` fails. -/
def fails (p : Proc) (written : ℕ → ℤ) (j : ℕ) : Bool :=
  writesBack (p.slot j).toMapping && decide (written j < 0)

/-- How many of the entries above `m`, up to the `n`th, cannot be written back. -/
def failures (p : Proc) (written : ℕ → ℤ) (n m : ℕ) : ℕ :=
  (List.range n).countP fun j => decide (m < j) && fails p written j

/-- Entry `m` is unmapped by the rounds from `n` down, with `d` entries left behind before
them. Each entry that cannot be written back moves the slot whose `ref` counts up by one. -/
structure Unmaps (p : Proc) (written : ℕ → ℤ) (n d m : ℕ) : Prop where
  back : fails p written m = false
  refs : ∀ j, m ≤ j → j < n → (p.slot ((d + j + failures p written n j : ℕ) : ℤ)).ref = 0

section Failures

variable {p q : Proc} {written : ℕ → ℤ} {n m : ℕ}

theorem failures_succ : failures p written (n + 1) m =
    failures p written n m + if m < n ∧ fails p written n = true then 1 else 0 := by
  unfold failures
  rw [List.range_succ, List.countP_append, List.countP_singleton]
  simp only [Bool.and_eq_true, decide_eq_true_eq]

theorem failures_last : failures p written (n + 1) n = 0 := by
  refine List.countP_eq_zero.mpr fun j hj => ?_
  rw [List.mem_range] at hj
  simp [show ¬ n < j by omega]

theorem failures_le (h : m < n) : m + failures p written n m < n := by
  induction n with
  | zero => omega
  | succ n ih =>
    rcases Nat.lt_succ_iff_lt_or_eq.mp h with hlt | rfl
    · have hbelow := ih hlt
      rw [failures_succ]
      split_ifs <;> omega
    · rw [failures_last]
      exact h

theorem unmaps_succ {d : ℕ} (hm : m < n) (hd : (p.slot ((d + n : ℕ) : ℤ)).ref = 0) :
    Unmaps p written (n + 1) d m ↔
      Unmaps p written n (d + if fails p written n = true then 1 else 0) m := by
  have hcount : ∀ j, j < n → d + j + failures p written (n + 1) j =
      (d + if fails p written n = true then 1 else 0) + j + failures p written n j := by
    intro j hj
    rw [failures_succ]
    simp only [hj, true_and]
    omega
  constructor
  · intro h
    refine ⟨h.back, fun j hmj hj => ?_⟩
    rw [← hcount j hj]
    exact h.refs j hmj (by omega)
  · intro h
    refine ⟨h.back, fun j hmj hj => ?_⟩
    rcases Nat.lt_succ_iff_lt_or_eq.mp hj with hlt | rfl
    · rw [hcount j hlt]
      exact h.refs j hmj hlt
    · rw [failures_last]
      exact hd

theorem failures_congr (h : ∀ j, j < n → fails q written j = fails p written j) :
    failures q written n m = failures p written n m := by
  refine List.countP_congr fun j hj => ?_
  rw [h j (List.mem_range.mp hj)]

/-- Only the entries below `n` and the `ref`s of the array matter. -/
theorem unmaps_congr {d : ℕ} (hmap : ∀ t : ℕ, t < n → (q.slot t).toMapping = (p.slot t).toMapping)
    (href : ∀ t : ℕ, t < 32 → (q.slot t).ref = (p.slot t).ref) (hd : d + n ≤ 32) (hm : m < n) :
    Unmaps q written n d m ↔ Unmaps p written n d m := by
  have hfails : ∀ j, j < n → fails q written j = fails p written j := fun j hj => by
    rw [fails, fails, hmap j hj]
  have hslot : ∀ j, j < n →
      (q.slot ((d + j + failures q written n j : ℕ) : ℤ)).ref =
        (p.slot ((d + j + failures p written n j : ℕ) : ℤ)).ref := by
    intro j hj
    rw [failures_congr hfails]
    have hle := @failures_le p written n j hj
    exact href _ (by omega)
  constructor
  · intro h
    exact ⟨hfails m hm ▸ h.back, fun j hmj hj => hslot j hj ▸ h.refs j hmj hj⟩
  · intro h
    exact ⟨(hfails m hm).trans h.back, fun j hmj hj => (hslot j hj).trans (h.refs j hmj hj)⟩

end Failures

section Release

variable {p : Proc} {k : Frames} {addr : BitVec 32} {f : ℕ}

/-- The release loop frees the frames it finds and no others. -/
theorem releasePages_free_iff (hf : f ≠ 0) (n c : ℕ) :
    (releasePages addr n c k p).1.free f = true ↔ k.free f = true ∨
      ∃ t, t < n ∧ p.pgdir (wrap (addr.toNat + (c + PGSIZE * t : ℕ)) / PGSIZE) = some f := by
  constructor
  · intro h
    induction n generalizing c k p with
    | zero => exact .inl h
    | succ n ih =>
      have hshift : ∀ t : ℕ, c + PGSIZE + PGSIZE * t = c + PGSIZE * (t + 1) := fun t => by ring
      rw [releasePages] at h
      split_ifs at h with hpa
      · rcases ih _ h with hfree | ⟨t, ht, hpage⟩
        · exact .inl hfree
        · rw [hshift] at hpage
          exact .inr ⟨t + 1, by omega, hpage⟩
      · rcases ih _ h with hfree | ⟨t, ht, hpage⟩
        · by_cases hfpa : f = get_physical_page p (wrap (addr.toNat + c))
          · right
            refine ⟨0, by omega, ?_⟩
            rw [Nat.mul_zero, Nat.add_zero]
            rw [get_physical_page] at hfpa hpa
            cases hp : p.pgdir (wrap (addr.toNat + c) / PGSIZE) with
            | none =>
              rw [hp] at hpa
              exact absurd rfl hpa
            | some g =>
              rw [hp] at hfpa
              rw [hfpa]
              rfl
          · left
            simpa [kfree, hfpa] using hfree
        · rw [hshift] at hpage
          dsimp only at hpage
          refine .inr ⟨t + 1, by omega, ?_⟩
          by_cases ha : wrap (addr.toNat + (c + PGSIZE * (t + 1) : ℕ)) / PGSIZE =
              wrap (addr.toNat + c) / PGSIZE
          · rw [ha, Function.update_self] at hpage
            cases hpage
          · rwa [Function.update_of_ne ha] at hpage
  · rintro (hfree | ⟨t, ht, hpage⟩)
    · exact MmapSafety.releasePages_stays_free hfree
    · exact MmapSafety.releasePages_frees ht hpage hf

theorem releasePages_outside {a : ℕ} (n c : ℕ)
    (ha : ∀ t, t < n → wrap (addr.toNat + (c + PGSIZE * t : ℕ)) / PGSIZE ≠ a) :
    (releasePages addr n c k p).2.pgdir a = p.pgdir a := by
  induction n generalizing c k p with
  | zero => rfl
  | succ n ih =>
    have hrest : ∀ t, t < n → wrap (addr.toNat + (c + PGSIZE + PGSIZE * t : ℕ)) / PGSIZE ≠ a := by
      intro t ht
      rw [show c + PGSIZE + PGSIZE * t = c + PGSIZE * (t + 1) by ring]
      exact ha (t + 1) (by omega)
    rw [releasePages]
    split_ifs
    · exact ih _ hrest
    · rw [ih _ hrest]
      have hne := ha 0 (by omega)
      rw [Nat.mul_zero, Nat.add_zero] at hne
      exact Function.update_of_ne (Ne.symm hne) _ _

theorem released_slot (p : Proc) (addr : BitVec 32) (n c : ℕ) (k : Frames) (t : ℤ) :
    (releasePages addr n c k p).2.slot t = p.slot t :=
  MmapTracking.slot_congr (MmapTracking.releasePages_table addr n c k p).1
    (MmapTracking.releasePages_table addr n c k p).2 t

/-- The pages of a mapping are the pages its release visits. -/
theorem visited_iff {m : Mapping} (hm : Region m) (hma : m.addr = addr.toNat) {a : ℕ} :
    (∃ t, t < (m.length + 4095) / 4096 ∧
      wrap (addr.toNat + (0 + PGSIZE * t : ℕ)) / PGSIZE = a) ↔ Within m a := by
  obtain ⟨hbase, haligned, hlong, htop⟩ := hm.bounds
  have hend := hm.endOf_eq
  constructor
  · rintro ⟨t, ht, rfl⟩
    rw [← hma, wrap_add_of_lt (by simp only [PGSIZE]; omega)]
    simp only [Within, PGSIZE]
    omega
  · rintro ⟨hlo, hhi⟩
    refine MmapResidue.released_page hm hma hlo ?_ ?_
    · omega
    · simp only [KERNBASE]
      omega

theorem released_free_iff {m : Mapping} (hm : Region m) (hma : m.addr = addr.toNat) (hf : f ≠ 0) :
    (releasePages addr ((m.length + 4095) / 4096) 0 k p).1.free f = true ↔
      k.free f = true ∨ ∃ a, Within m a ∧ p.pgdir a = some f := by
  rw [releasePages_free_iff hf]
  refine or_congr_right ⟨?_, ?_⟩
  · rintro ⟨t, ht, hpage⟩
    exact ⟨_, (visited_iff hm hma).mp ⟨t, ht, rfl⟩, hpage⟩
  · rintro ⟨a, ha, hpage⟩
    obtain ⟨t, ht, rfl⟩ := (visited_iff hm hma).mpr ha
    exact ⟨t, ht, hpage⟩

theorem released_pgdir {m : Mapping} (hm : Region m) (hma : m.addr = addr.toNat) {a : ℕ}
    (ha : ¬ Within m a) :
    (releasePages addr ((m.length + 4095) / 4096) 0 k p).2.pgdir a = p.pgdir a :=
  releasePages_outside _ _ fun t ht hta => ha ((visited_iff hm hma).mp ⟨t, ht, hta⟩)

end Release

section Removal

variable {p : Proc} {l : List Mapping} {k : Frames} {j n f : ℕ} {written : ℕ → ℤ}

/-- `my_munmap` of an entry by its own address and length. -/
theorem my_munmap_own (hk : Kept p l) (hy : Arranged l) (hroom : l.length ≤ 32)
    (hj : j < l.length) (k : Frames) :
    my_munmap k p (BitVec.ofNat 32 (p.slot j).addr) (BitVec.ofNat 32 (p.slot j).length)
        (written j) =
      if fails p written j then (k, p, -1)
      else
        let r := releasePages (BitVec.ofNat 32 l[j].addr) ((l[j].length + 4095) / 4096) 0 k p
        (r.1, removed r.2 j, 0) := by
  obtain ⟨hbase, haligned, hlong, htop⟩ := hy.bounds hj
  obtain ⟨hsa, hsl, -⟩ := hk.slot_addr hj
  have haddr : (BitVec.ofNat 32 l[j].addr).toNat = l[j].addr := by
    rw [BitVec.toNat_ofNat]
    omega
  have hlength : (BitVec.ofNat 32 l[j].length).toNat = l[j].length := by
    rw [BitVec.toNat_ofNat]
    omega
  have hfound : findSlot p (pgRoundUp (BitVec.ofNat 32 l[j].addr).toNat) 32 0 = (j : ℤ) := by
    rw [haddr, pgRoundUp_of_aligned haligned (by omega)]
    exact MmapResidue.findSlot_kept hk hy hroom hj rfl
  have hup : l[j].length ≤ pgRoundUp l[j].length := (le_pgRoundUp (by omega)).resolve_right
    (by omega)
  have hlow : pgRoundUp l[j].length < 2147483648 := by
    unfold pgRoundUp
    omega
  rw [hsa, hsl, MmapResidue.my_munmap_eq hfound, hlength, hsl, signed_of_lt hlow,
    signed_of_lt (show l[j].length < 2147483648 by omega), if_neg (by omega)]
  have hpages : ((min (pgRoundUp l[j].length : ℤ) (l[j].length : ℤ) + 4095) / 4096).toNat =
      (l[j].length + 4095) / 4096 := by omega
  simp only [fails, Bool.and_eq_true, decide_eq_true_eq, hpages, released_slot, hsl, hup, if_true]
  rfl

/-- Removing an entry leaves every `ref` in its slot. -/
theorem removed_ref (p : Proc) {t : ℕ} (ht : t < 32) :
    ((removed p j).slot t).ref = (p.slot t).ref := by
  have hclear : MmapSafety.kept (clearSlot p j) = MmapSafety.kept p := MmapSafety.setSlot_kept rfl
  have hshift : MmapSafety.kept (removed p j) = MmapSafety.kept (clearSlot p j) :=
    MmapSafety.shiftLeft_kept
  exact MmapSafety.kept_ref (hshift.trans hclear) ht

/-- Below the removed entry nothing moves. -/
theorem removed_below (hk : Kept p l) (hy : Arranged l) (hroom : l.length ≤ 32)
    (hj : j < l.length) {t : ℕ} (ht : t < j) :
    ((removed p j).slot t).toMapping = (p.slot t).toMapping := by
  obtain ⟨e, -, -, -, hslots⟩ := MmapResidue.removed_slots hk hy hroom hj
  rw [hslots t (by omega), if_neg (by omega), if_neg (by omega)]

/-- Once the last slot in use has a `ref`, all rounds that are left do nothing. -/
theorem rounds_skip (h : (p.slot (p.total_mmaps - 1)).ref ≠ 0) (n : ℕ) :
    unmapRounds written n k p = (k, p) := by
  induction n with
  | zero => rfl
  | succ n ih =>
    rw [unmapRounds, exitArgs, if_neg h]
    exact ih

/-- Two mappings of the table have no page in common. -/
theorem within_unique (hy : Arranged l) {i a : ℕ} (hi : i < l.length) (hj : j < l.length)
    (hij : i < j) (ha : Within l[i] a) : ¬ Within l[j] a := by
  obtain ⟨-, -, -, -, hbelow⟩ := hy.endOf_bounds hi
  have hle := hbelow j hj hij
  rintro ⟨hlow, -⟩
  have hhigh := ha.2
  omega

/-- The frames that the rounds from `n` down free are those of the entries they unmap. -/
theorem rounds_free_iff (hk : Kept p l) (hy : Arranged l) (hroom : l.length ≤ 32)
    (hn : n ≤ l.length) (hf : f ≠ 0) :
    (unmapRounds written n k p).1.free f = true ↔ k.free f = true ∨
      ∃ m, m < n ∧ Unmaps p written n (l.length - n) m ∧
        ∃ a, Within (p.slot m).toMapping a ∧ p.pgdir a = some f := by
  induction n generalizing l k p with
  | zero => exact ⟨.inl, fun h => h.elim id fun ⟨m, hm, _⟩ => absurd hm (Nat.not_lt_zero m)⟩
  | succ n ih =>
    have htot := hk.total
    obtain ⟨d, hd⟩ : ∃ d, l.length - (n + 1) = d := ⟨_, rfl⟩
    have hlast : p.total_mmaps - 1 = ((d + n : ℕ) : ℤ) := by omega
    rw [hd]
    by_cases href : (p.slot ((d + n : ℕ) : ℤ)).ref = 0
    · have hargs : exitArgs p n =
          some (BitVec.ofNat 32 (p.slot n).addr, BitVec.ofNat 32 (p.slot n).length) := by
        rw [exitArgs, hlast, if_pos href]
      rw [unmapRounds, hargs]
      dsimp only
      rw [my_munmap_own hk hy hroom hn]
      by_cases hfail : fails p written n = true
      · rw [if_pos hfail]
        dsimp only
        rw [ih hk hy hroom (by omega), show l.length - n = d + 1 by omega]
        refine or_congr_right ⟨?_, ?_⟩
        · rintro ⟨m, hm, hu, ha⟩
          refine ⟨m, by omega, (unmaps_succ hm href).mpr ?_, ha⟩
          rwa [if_pos hfail]
        · rintro ⟨m, hm, hu, ha⟩
          rcases Nat.lt_succ_iff_lt_or_eq.mp hm with hlt | rfl
          · have hu' := (unmaps_succ hlt href).mp hu
            rw [if_pos hfail] at hu'
            exact ⟨m, hlt, hu', ha⟩
          · rw [hu.back] at hfail
            cases hfail
      · rw [if_neg hfail]
        dsimp only
        have hregion := hy.region _ (List.getElem_mem hn)
        have haddr : l[n].addr = (BitVec.ofNat 32 l[n].addr).toNat := by
          have htop := (hy.bounds hn).2.2.2
          rw [BitVec.toNat_ofNat]
          omega
        generalize BitVec.ofNat 32 l[n].addr = addr at haddr
        have hkr := MmapResidue.released_kept hk addr ((l[n].length + 4095) / 4096) 0 k
        have hlen : (l.eraseIdx n).length = l.length - 1 := List.length_eraseIdx_of_lt hn
        rw [ih (MmapResidue.removed_kept hkr hy hroom hn) (MmapResidue.removed_arranged hy n)
          (by omega) (by omega), released_free_iff hregion haddr hf, or_assoc, hlen,
          show l.length - 1 - n = d by omega]
        have hbelow {t : ℕ} (ht : t < n) := removed_below hkr hy hroom hn ht
        have hunmaps {m : ℕ} (hm : m < n) : Unmaps (removed (releasePages addr
            ((l[n].length + 4095) / 4096) 0 k p).2 n) written n d m ↔
              Unmaps p written (n + 1) d m := by
          rw [unmaps_succ hm href, if_neg hfail, Nat.add_zero]
          refine unmaps_congr (fun t ht => ?_) (fun t ht => ?_) (by omega) hm
          · rw [hbelow ht, released_slot]
          · rw [removed_ref _ ht, released_slot]
        have hpages {m a : ℕ} (hm : m < n) (ha : Within (p.slot m).toMapping a) :
            (releasePages addr ((l[n].length + 4095) / 4096) 0 k p).2.pgdir a = p.pgdir a := by
          rw [hk.entries m (by omega)] at ha
          exact released_pgdir hregion haddr (within_unique hy (by omega) hn hm ha)
        refine or_congr_right ⟨?_, ?_⟩
        · rintro (⟨a, ha, hpage⟩ | ⟨m, hm, hu, a, ha, hpage⟩)
          · refine ⟨n, by omega, ⟨Bool.eq_false_iff.mpr hfail, fun j hnj hj => ?_⟩, a, ?_, hpage⟩
            · obtain rfl : j = n := by omega
              rw [failures_last]
              exact href
            · rwa [hk.entries n hn]
          · rw [hbelow hm, released_slot] at ha
            rw [MmapResidue.removed_pgdir, hpages hm ha] at hpage
            exact ⟨m, by omega, (hunmaps hm).mp hu, a, ha, hpage⟩
        · rintro ⟨m, hm, hu, a, ha, hpage⟩
          rcases Nat.lt_succ_iff_lt_or_eq.mp hm with hlt | rfl
          · refine .inr ⟨m, hlt, (hunmaps hlt).mpr hu, a, ?_, ?_⟩
            · rwa [hbelow hlt, released_slot]
            · rwa [MmapResidue.removed_pgdir, hpages hlt ha]
          · rw [hk.entries m hn] at ha
            exact .inl ⟨a, ha, hpage⟩
    · rw [rounds_skip (by rwa [hlast])]
      refine ⟨.inl, fun h => h.elim id ?_⟩
      rintro ⟨m, hm, hu, -⟩
      have hzero := hu.refs n (by omega) (by omega)
      rw [failures_last] at hzero
      exact absurd hzero href

end Removal

/-- The entries in use are mappings in order, the others old ones or nearly zero. -/
def Orderly (p : Proc) : Prop := ∃ l, Kept p l ∧ Arranged l ∧ l.length ≤ 32

/-- `f` is mapped in the mmap area of process `i` and by no other process. -/
def Alone (s : Machine) (i f : ℕ) : Prop :=
  f ≠ 0 ∧ (∃ a, MMAPBASE ≤ a * PGSIZE ∧ (s.procs i).pgdir a = some f) ∧
    ∀ j, j ≠ i → s.phase j ≠ .unused → ∀ a, (s.procs j).pgdir a ≠ some f

/-- After `delete_mmaps` nothing that only process `i` has mapped is still allocated. -/
def Returned (s : Machine) (i : ℕ) (written : ℕ → ℤ) : Prop :=
  let r := delete_mmaps written s.frames (s.procs i)
  (∀ f, Alone s i f → r.1.free f = true) ∧ r.2.total_mmaps = 0

/-- Every frame that is still allocated and mapped by process `i` alone lies in an entry that
can be written back, and from the top down to that entry the slots that the rounds look at
have no `ref`. -/
def Cleared (s : Machine) (i : ℕ) (written : ℕ → ℤ) : Prop :=
  let p := s.procs i
  let n := p.total_mmaps.toNat
  ∀ f, Alone s i f → s.frames.free f = false →
    ∃ m, m < n ∧ Unmaps p written n 0 m ∧ ∃ a, Within (p.slot m).toMapping a ∧ p.pgdir a = some f

theorem returned_iff_cleared {s : Machine} {i : ℕ} (h : Orderly (s.procs i)) (written : ℕ → ℤ) :
    Returned s i written ↔ Cleared s i written := by
  obtain ⟨l, hk, hy, hroom⟩ := h
  have hn : (s.procs i).total_mmaps.toNat = l.length := by
    rw [hk.total, Int.toNat_natCast]
  have hfree {f : ℕ} (hf : f ≠ 0) :
      (delete_mmaps written s.frames (s.procs i)).1.free f = true ↔ s.frames.free f = true ∨
        ∃ m, m < (s.procs i).total_mmaps.toNat ∧
          Unmaps (s.procs i) written (s.procs i).total_mmaps.toNat 0 m ∧
          ∃ a, Within ((s.procs i).slot m).toMapping a ∧ (s.procs i).pgdir a = some f := by
    have hrounds := @rounds_free_iff _ _ s.frames _ f written hk hy hroom hn.le hf
    rwa [hn, Nat.sub_self, ← hn] at hrounds
  constructor
  · rintro ⟨hall, -⟩ f ha hheld
    exact ((hfree ha.1).mp (hall f ha)).resolve_left fun hfree => by
      rw [hheld] at hfree
      cases hfree
  · refine fun hall => ⟨fun f ha => (hfree ha.1).mpr ?_, rfl⟩
    cases hheld : s.frames.free f with
    | true => exact .inl rfl
    | false => exact .inr (hall f ha hheld)

/-- The history of `my_mmap`, page faults, forks, exits and execs; no call writes over the
counter behind the array. -/
def Regular (s : Machine) : Step → Prop
  | .event (.mmap i addr _ _ _ _ _) => ¬ Overrun (s.procs i) addr
  | .event (.munmap _ _ _ _) => False
  | _ => True

/-- The machine when the first process starts: the process table is still zero. -/
def Booted (s : Machine) : Prop :=
  Fresh s ∧ ∀ i, (s.procs i).total_mmaps = 0 ∧ ∀ k : ℕ, k < 32 → (s.procs i).mmaps k = Mmp.zero

/-- Every table is orderly, and a process that is leaving has the entries it is still going
to look at. -/
structure Invariant (s : Machine) : Prop where
  tables : ∀ i, Orderly (s.procs i)
  rounds : ∀ i n, s.phase i = .exiting n → (n : ℤ) ≤ (s.procs i).total_mmaps

section Tables

variable {p q c c' : Proc} {l : List Mapping} {m m' : Memory} {ok : Bool}

/-- Every slot of the array is an old mapping or has an address in the first page. -/
def Leftover (p : Proc) : Prop :=
  ∀ k : ℕ, k < 32 → (p.slot k).addr < 4096 ∨ Region (p.slot k).toMapping

theorem Orderly.leftover (h : Orderly p) : Leftover p := by
  obtain ⟨l, hk, hy, -⟩ := h
  intro k hk32
  rcases Nat.lt_or_ge k l.length with hlt | hge
  · right
    rw [hk.entries k hlt]
    exact hy.region _ (List.getElem_mem hlt)
  · exact hk.rest k hge hk32

theorem Leftover.empty (h : Leftover p) (htotal : p.total_mmaps = 0) : Orderly p :=
  ⟨[], ⟨htotal, fun k hk => absurd hk (Nat.not_lt_zero k), fun k _ hk => h k hk⟩, ⟨by simp, .nil⟩,
    by simp⟩

/-- The slots of the array do not depend on the counter behind it. -/
theorem slot_of_maps (hm : q.mmaps = p.mmaps) {k : ℕ} (hk : k < 32) : q.slot k = p.slot k := by
  have h32 : (k : ℤ) ≠ 32 := by omega
  simp only [Proc.slot, h32, if_false, hm]

theorem Leftover.of_maps (h : Leftover p) (hm : q.mmaps = p.mmaps) : Leftover q := by
  intro k hk
  rw [slot_of_maps hm hk]
  exact h k hk

theorem Orderly.emptied (h : Orderly p) (hm : q.mmaps = p.mmaps) (htotal : q.total_mmaps = 0) :
    Orderly q := (h.leftover.of_maps hm).empty htotal

/-- The same mappings in the same slots. -/
structure SameTable (p q : Proc) : Prop where
  total : q.total_mmaps = p.total_mmaps
  mappings : ∀ k, (q.slot k).toMapping = (p.slot k).toMapping

theorem SameTable.refl (p : Proc) : SameTable p p := ⟨rfl, fun _ => rfl⟩

theorem SameTable.trans {r : Proc} (h : SameTable p q) (h' : SameTable q r) : SameTable p r :=
  ⟨h'.total.trans h.total, fun k => (h'.mappings k).trans (h.mappings k)⟩

theorem SameTable.of_maps (hm : q.mmaps = p.mmaps) (ht : q.total_mmaps = p.total_mmaps) :
    SameTable p q := ⟨ht, fun k => by rw [MmapTracking.slot_congr hm ht]⟩

theorem SameTable.kept (h : SameTable p q) (hk : Kept p l) : Kept q l := by
  refine ⟨h.total.trans hk.total, fun k hkl => ?_, fun k hkl hk32 => ?_⟩
  · rw [h.mappings, hk.entries k hkl]
  · rw [h.mappings]
    exact hk.rest k hkl hk32

theorem storePages_same {n page : ℕ} (h : storePages n page m p = some (m', q, ok)) :
    SameTable p q := by
  induction n generalizing page m p with
  | zero =>
    cases h
    exact .refl _
  | succ n ih =>
    rw [storePages] at h
    split at h
    next => cases h
    next hf =>
      cases h
      obtain ⟨hmaps, htotal, -⟩ := MmapGuards.mapFresh_table hf
      exact .of_maps hmaps htotal
    next hf =>
      obtain ⟨hmaps, htotal, -⟩ := MmapGuards.mapFresh_table hf
      exact (SameTable.of_maps hmaps htotal).trans (ih h)

theorem parentPage_same {i : ℤ} {start : ℕ} (hi : i ≠ 32)
    (h : parentPage m p i start = some (m', q, ok)) : SameTable p q := by
  unfold parentPage at h
  dsimp only at h
  by_cases hc : has (p.slot i).flags MAP_SHARED = true ∧ get_physical_page p start = 0
  · rw [if_pos hc] at h
    obtain ⟨⟨m₁, p₁, ok₁⟩, hs, he⟩ := Option.map_eq_some_iff.mp h
    cases he
    refine (storePages_same hs).trans ?_
    dsimp only
    by_cases hok : ok₁ = true
    · rw [if_pos hok]
      refine ⟨setSlot_total _ hi, fun k => ?_⟩
      by_cases hk : k = i
      · subst hk
        rw [slot_setSlot_self _ hi]
      · rw [slot_setSlot_of_ne _ hi hk]
    · rw [if_neg hok]
      exact .refl _
  · rw [if_neg hc] at h
    cases h
    exact .refl p

theorem childPage_same {shared : Bool} {start : ℕ}
    (h : childPage m p c shared start = some (m', c', ok)) : SameTable c c' := by
  unfold childPage at h
  dsimp only at h
  by_cases hs : shared = true
  · rw [if_pos hs] at h
    generalize m.pop = a at h
    obtain ⟨a, m₀⟩ := a
    dsimp only at h
    split_ifs at h
    · obtain ⟨c₁, hc, he⟩ := Option.map_eq_some_iff.mp h
      cases he
      unfold mapPage at hc
      split at hc <;> cases hc
      exact .of_maps rfl rfl
    · cases h
      exact .refl c
  · rw [if_neg hs] at h
    split_ifs at h
    · cases h
      exact .refl c
    · obtain ⟨hmaps, htotal, -⟩ := MmapGuards.mapFresh_table h
      exact .of_maps hmaps htotal

theorem copyPages_same {i : ℤ} {shared : Bool} {n start : ℕ} (hi : i ≠ 32)
    (h : copyPages i shared n start m p c = some (m', q, c', ok)) :
    SameTable p q ∧ SameTable c c' := by
  induction n generalizing start m p c with
  | zero =>
    cases h
    exact ⟨.refl _, .refl _⟩
  | succ n ih =>
    rw [copyPages] at h
    split at h
    next => cases h
    next hp =>
      cases h
      exact ⟨parentPage_same hi hp, .refl _⟩
    next hp =>
      have hparent := parentPage_same hi hp
      split at h
      next => cases h
      next hc =>
        cases h
        exact ⟨hparent, childPage_same hc⟩
      next hc =>
        obtain ⟨hparent', hchild⟩ := ih h
        exact ⟨hparent.trans hparent', (childPage_same hc).trans hchild⟩

theorem copy_single_mmap_same {i : ℤ} (hi : i ≠ 32)
    (h : copy_single_mmap m p c i = some (m', q, c', ok)) :
    SameTable p q ∧ c'.total_mmaps = c.total_mmaps ∧ ∀ k, (c'.slot k).toMapping =
      if k = i ∧ ok = true then (p.slot k).toMapping else (c.slot k).toMapping := by
  unfold copy_single_mmap at h
  obtain ⟨⟨m₁, q₁, c₁, ok₁⟩, hs, he⟩ := Option.map_eq_some_iff.mp h
  obtain ⟨hparent, hchild⟩ := copyPages_same hi hs
  dsimp only at he
  cases ok₁ with
  | false =>
    cases he
    exact ⟨hparent, hchild.total, fun k => by rw [if_neg (by simp), hchild.mappings]⟩
  | true =>
    rw [if_pos rfl] at he
    cases he
    refine ⟨hparent, by rw [setSlot_total _ hi, hchild.total], fun k => ?_⟩
    by_cases hk : k = i
    · subst hk
      rw [slot_setSlot_self _ hi, ← hparent.mappings]
      simp only [and_self, if_true]
      split_ifs <;> rfl
    · rw [slot_setSlot_of_ne _ hi hk, if_neg fun hki => hk hki.1, hchild.mappings]

/-- The child's slots up to the one where the copy stops are the parent's. -/
theorem copyAll_same {n i : ℕ} (hin : i + n ≤ 32)
    (h : copyAll n i m p c = some (m', q, c', ok)) :
    SameTable p q ∧ c'.total_mmaps = c.total_mmaps ∧ ∃ e : ℕ, i ≤ e ∧ e ≤ i + n ∧
      (ok = true → e = i + n) ∧ ∀ k : ℕ, (c'.slot k).toMapping =
        if i ≤ k ∧ k < e then (p.slot k).toMapping else (c.slot k).toMapping := by
  induction n generalizing i m p c with
  | zero =>
    cases h
    exact ⟨.refl _, rfl, i, le_rfl, le_rfl, fun _ => rfl, fun k => by rw [if_neg (by omega)]⟩
  | succ n ih =>
    rw [copyAll] at h
    split at h
    next => cases h
    next hs =>
      cases h
      obtain ⟨hparent, htotal, hslots⟩ := copy_single_mmap_same (by omega) hs
      refine ⟨hparent, htotal, i, le_rfl, by omega, fun hok => absurd hok Bool.false_ne_true, fun k => ?_⟩
      rw [hslots, if_neg (by simp), if_neg (by omega)]
    next m₁ p₁ c₁ hs =>
      obtain ⟨hparent, htotal, hslots⟩ := copy_single_mmap_same (by omega) hs
      obtain ⟨hparent', htotal', e, hie, hen, hok, hslots'⟩ := ih (by omega) h
      refine ⟨hparent.trans hparent', htotal'.trans htotal, e, by omega, by omega,
        fun ho => by rw [hok ho]; omega, fun k => ?_⟩
      rw [hslots', hslots, hparent.mappings]
      by_cases hk : k = i
      · subst hk
        rw [if_neg (by omega), if_pos ⟨rfl, rfl⟩, if_pos (by omega)]
      · rw [if_neg (fun hki : (k : ℤ) = i ∧ _ => hk (by omega))]
        by_cases hin : i + 1 ≤ k ∧ k < e
        · rw [if_pos hin, if_pos (by omega)]
        · rw [if_neg hin, if_neg (by omega)]

theorem copy_maps_orderly (hp : Orderly p) (hc : Leftover c) (hzero : c.total_mmaps = 0)
    (h : copy_maps m p c = some (m', q, c', ok)) : Orderly q ∧ Orderly c' := by
  obtain ⟨l, hk, hy, hroom⟩ := hp
  have hn : p.total_mmaps.toNat = l.length := by rw [hk.total, Int.toNat_natCast]
  obtain ⟨⟨m₁, q₁, c₁, ok₁⟩, hs, he⟩ := Option.map_eq_some_iff.mp h
  rw [hn] at hs
  obtain ⟨hparent, htotal, e, -, hel, hok, hslots⟩ := copyAll_same (by omega) hs
  rw [Nat.zero_add] at hel hok
  have hold (k : ℕ) (hk32 : k < 32) : (c₁.slot k).addr < 4096 ∨ Region (c₁.slot k).toMapping := by
    rw [hslots]
    split_ifs with hin
    · right
      rw [hk.entries k (by omega)]
      exact hy.region _ (List.getElem_mem (by omega))
    · exact hc k hk32
  cases he
  refine ⟨⟨l, hparent.kept hk, hy, hroom⟩, ?_⟩
  cases ok with
  | false => exact Leftover.empty hold (htotal.trans hzero)
  | true =>
    have hsame (k : ℕ) (hk32 : k < 32) :
        ({ c₁ with total_mmaps := q.total_mmaps } : Proc).slot k = c₁.slot k :=
      slot_of_maps (p := c₁) (q := { c₁ with total_mmaps := q.total_mmaps }) rfl hk32
    refine ⟨l, ⟨hparent.total.trans hk.total, fun k hkl => ?_, fun k hkl hk32 => ?_⟩, hy, hroom⟩
    · rw [if_pos rfl, hsame k (by omega), hslots,
        if_pos ⟨Nat.zero_le k, by rwa [hok rfl]⟩, hk.entries k hkl]
    · rw [if_pos rfl, hsame k hk32]
      exact hold k hk32

theorem my_mmap_orderly (h : Orderly p) {addr : BitVec 32} (hover : ¬ Overrun p addr) (f : File)
    (length offset flags protection : BitVec 32) :
    Orderly (my_mmap p addr f length offset flags protection).1 := by
  obtain ⟨l, hk, hy, hroom⟩ := h
  obtain ⟨l', -, hk', hy', hroom'⟩ := MmapPlacement.my_mmap_arranged hk hy hroom hover f length
    offset flags protection
  exact ⟨l', hk', hy', hroom'⟩

theorem handle_page_fault_orderly (h : Orderly p) (addr : BitVec 32)
    (hs : handle_page_fault m p addr.toNat = some (m', q)) : Orderly q := by
  obtain ⟨l, hk, hy, hroom⟩ := h
  cases MmapGuards.handle_page_fault_faulted hk hy hroom addr.isLt hs with
  | filled reached filled => exact ⟨l, filled.kept hk, hy, hroom⟩
  | grown i inside flag behind top next filled =>
    exact ⟨_, filled.kept (MmapGuards.grow_kept hk hroom inside),
      MmapGuards.grow_arranged hy inside behind top next, by rwa [MmapGuards.grow_length]⟩

/-- One round takes at most one entry off. -/
theorem round_orderly (h : Orderly p) {n : ℕ} (hn : ((n + 1 : ℕ) : ℤ) ≤ p.total_mmaps) (k : Frames)
    (written : ℕ → ℤ) :
    Orderly (my_munmap k p (BitVec.ofNat 32 (p.slot n).addr) (BitVec.ofNat 32 (p.slot n).length)
        (written n)).2.1 ∧
      n ≤ (my_munmap k p (BitVec.ofNat 32 (p.slot n).addr) (BitVec.ofNat 32 (p.slot n).length)
        (written n)).2.1.total_mmaps := by
  obtain ⟨l, hk, hy, hroom⟩ := h
  have htot := hk.total
  have hj : n < l.length := by omega
  rw [my_munmap_own hk hy hroom hj]
  split_ifs
  · exact ⟨⟨l, hk, hy, hroom⟩, by dsimp only; omega⟩
  · have hlen : (l.eraseIdx n).length = l.length - 1 := List.length_eraseIdx_of_lt hj
    have hkr := MmapResidue.removed_kept
      (MmapResidue.released_kept hk (BitVec.ofNat 32 l[n].addr) ((l[n].length + 4095) / 4096) 0 k)
      hy hroom hj
    refine ⟨⟨_, hkr, MmapResidue.removed_arranged hy n, by omega⟩, ?_⟩
    have htotal := hkr.total
    dsimp only
    omega

end Tables

section Steps

variable {s s' : Machine} {i : ℕ} {q : Proc}

theorem Invariant.enter (h : Invariant s) {k : Frames} {f : Phase} (hq : Orderly q)
    (hf : ∀ n, f = .exiting n → (n : ℤ) ≤ q.total_mmaps) :
    Invariant ((s.set i q k).setPhase i f) := by
  refine ⟨fun j => ?_, fun j n hj => ?_⟩
  · by_cases hji : j = i
    · simpa [Machine.set, Machine.setPhase, hji] using hq
    · simpa [Machine.set, Machine.setPhase, hji] using h.tables j
  · by_cases hji : j = i
    · simp only [Machine.set, Machine.setPhase, hji, Function.update_self] at hj ⊢
      exact hf n hj
    · simp only [Machine.set, Machine.setPhase, Function.update_of_ne hji] at hj ⊢
      exact h.rounds j n hj

/-- A process that is not leaving changes its table. -/
theorem Invariant.set (h : Invariant s) {k : Frames} (hq : Orderly q)
    (hi : ∀ n, s.phase i ≠ .exiting n) : Invariant (s.set i q k) := by
  have hself : (s.set i q k).setPhase i (s.phase i) = s.set i q k := by
    simp [Machine.set, Machine.setPhase]
  rw [← hself]
  exact h.enter hq fun n hn => absurd hn (hi n)

theorem Invariant.setPhase (h : Invariant s) {f : Phase}
    (hf : ∀ n, f = .exiting n → (n : ℤ) ≤ (s.procs i).total_mmaps) : Invariant (s.setPhase i f) := by
  have hself : (s.set i (s.procs i) s.frames).setPhase i f = s.setPhase i f := by
    simp [Machine.set, Machine.setPhase]
  rw [← hself]
  exact h.enter (h.tables i) hf

theorem fork_invariant (h : Invariant s) {j : ℕ} {answers : List Answer}
    (hi : s.phase i = .live) (hj : s.phase j = .unused) (hs : fork s i j answers = some s') :
    Invariant s' := by
  obtain ⟨⟨m, p', c', ok⟩, hcopy, rfl⟩ := Option.map_eq_some_iff.mp hs
  have hchild : Leftover { s.procs j with
      pgdir := fun _ => none, total_mmaps := 0, killed := false } :=
    Leftover.of_maps (p := s.procs j) (h.tables j).leftover rfl
  obtain ⟨hp, hc⟩ := copy_maps_orderly (h.tables i) hchild rfl hcopy
  have hset : Invariant ((s.set i p' m.frames).set j c' m.frames) :=
    (h.set hp (by simp [hi])).set hc (by simp [Machine.set, hj])
  dsimp only
  split_ifs
  · exact hset.setPhase (by simp)
  · exact hset

theorem event_invariant {e : Event} (h : Invariant s) (he : Regular s (.event e))
    (hs : MmapFrames.next s e = some s') : Invariant s' := by
  cases MmapFrames.next_moved hs with
  | @mmap i addr f length offset flags protection live =>
    exact h.set (my_mmap_orderly (h.tables i) he f length offset flags protection) (by simp [live])
  | @fault i addr answers m p live served =>
    exact h.set (handle_page_fault_orderly (h.tables i) addr served) (by simp [live])
  | fork live unused forked => exact fork_invariant h live unused forked
  | munmap live => exact absurd he id
  | @exitBegin i live =>
    obtain ⟨l, hk, -⟩ := h.tables i
    have htotal := hk.total
    refine h.setPhase fun n hn => ?_
    cases hn
    omega
  | @skipped i n written inside ref =>
    have hn := h.rounds i (n + 1) inside
    refine h.setPhase fun m hm => ?_
    cases hm
    omega
  | @round i n written addr length inside args =>
    unfold exitArgs at args
    split_ifs at args
    cases args
    obtain ⟨horderly, hle⟩ :=
      round_orderly (h.tables i) (h.rounds i (n + 1) inside) s.frames fun _ => written
    refine h.enter horderly fun m hm => ?_
    cases hm
    exact hle
  | @exitEnd i done => exact h.enter ((h.tables i).emptied rfl rfl) (by simp)
  | reap zombie => exact h.setPhase (by simp)

theorem step_invariant {e : Step} (h : Invariant s) (he : Regular s e) (hs : next s e = some s') :
    Invariant s' := by
  cases e with
  | event e => exact event_invariant h he hs
  | exec i =>
    obtain ⟨-, hs⟩ := Option.ite_none_right_eq_some.mp hs
    cases hs
    exact h.enter ((h.tables i).emptied rfl rfl) (by simp)

theorem booted_invariant (h : Booted s) : Invariant s := by
  obtain ⟨⟨-, -, hlive, hunused⟩, hzero⟩ := h
  refine ⟨fun i => Leftover.empty (fun k hk => ?_) (hzero i).1, fun i n hi => ?_⟩
  · left
    have h32 : (k : ℤ) ≠ 32 := by omega
    simp only [Proc.slot, h32, if_false, (hzero i).2 k hk]
    decide
  · by_cases hi0 : i = 0
    · rw [hi0, hlive] at hi
      cases hi
    · rw [hunused i hi0] at hi
      cases hi

end Steps

instance (p : Proc) (written : ℕ → ℤ) (n d m : ℕ) : Decidable (Unmaps p written n d m) :=
  decidable_of_iff (fails p written m = false ∧ ∀ j, m ≤ j → j < n →
    (p.slot ((d + j + failures p written n j : ℕ) : ℤ)).ref = 0)
    ⟨fun h => ⟨h.1, h.2⟩, fun h => ⟨h.back, h.refs⟩⟩

instance (s : Machine) (e : Step) : Decidable (Regular s e) :=
  match e with
  | .event (.mmap ..) => inferInstanceAs (Decidable (¬ (_ ∧ _ ∧ _)))
  | .event (.munmap ..) => inferInstanceAs (Decidable False)
  | .event (.fault ..) => inferInstanceAs (Decidable True)
  | .event (.fork ..) => inferInstanceAs (Decidable True)
  | .event (.exitBegin _) => inferInstanceAs (Decidable True)
  | .event (.exitStep ..) => inferInstanceAs (Decidable True)
  | .event (.exitEnd _) => inferInstanceAs (Decidable True)
  | .event (.reap _) => inferInstanceAs (Decidable True)
  | .exec _ => inferInstanceAs (Decidable True)

theorem firstProcess_booted : Booted MmapSafety.firstProcess :=
  ⟨MmapSafety.firstProcess_fresh, fun _ => ⟨rfl, fun _ _ => rfl⟩⟩

/-- Process 0 touches a private page and a shared one above it, then forks. -/
def inherit : List Step :=
  [.event (.mmap 0 0 ⟨0, true, true⟩ 4096 0 (MAP_PRIVATE ||| MAP_ANONYMOUS) PROT_WRITE),
    .event (.mmap 0 0 ⟨0, true, true⟩ 4096 0 (MAP_SHARED ||| MAP_ANONYMOUS) PROT_WRITE),
    .event (.fault 0 0x60000000 [⟨1, true⟩]), .event (.fault 0 0x60001010 [⟨2, true⟩]),
    .event (.fork 0 1 [⟨3, true⟩, ⟨0, true⟩])]

/-- A page table with two entries. -/
def pair (f g : ℕ) : ℕ → Option ℕ :=
  Function.update (Function.update (fun _ => none) 0x60000 (some f)) 0x60001 (some g)

theorem pair_some {f g a b : ℕ} (h : pair f g a = some b) :
    a = 0x60001 ∧ b = g ∨ a = 0x60000 ∧ b = f := by
  unfold pair at h
  by_cases h₁ : a = 0x60001
  · rw [h₁, Function.update_self] at h
    exact .inl ⟨h₁, (Option.some.inj h).symm⟩
  · rw [Function.update_of_ne h₁] at h
    by_cases h₀ : a = 0x60000
    · rw [h₀, Function.update_self] at h
      exact .inr ⟨h₀, (Option.some.inj h).symm⟩
    · rw [Function.update_of_ne h₀] at h
      cases h

/-- The pages of both processes after the fork. -/
theorem inherit_pages {s : Machine} (hs : Runs.run next MmapSafety.firstProcess inherit = some s) :
    (s.procs 0).pgdir = pair 1 2 ∧ (s.procs 1).pgdir = pair 3 2 ∧
      ∀ j, j ≠ 1 → j ≠ 0 → s.phase j = .unused := by
  have hpages : (Runs.run next MmapSafety.firstProcess inherit).map (fun s =>
      ((s.procs 0).pgdir, (s.procs 1).pgdir, s.phase)) = some (pair 1 2, pair 3 2,
        Function.update MmapSafety.firstProcess.phase 1 .live) := rfl
  rw [hs, Option.map_some, Option.some.injEq, Prod.mk.injEq, Prod.mk.injEq] at hpages
  obtain ⟨h₀, h₁, hphase⟩ := hpages
  refine ⟨h₀, h₁, fun j hj hj0 => ?_⟩
  rw [hphase, Function.update_of_ne hj]
  exact if_neg hj0

end MmapExit
