import OsProjects.MmapFaults

/-! # Faults that change nothing

`handle_page_fault` returns without a word for addresses from the last page below `KERNBASE`
on that no mapping reaches, and after a store of nothing. The faulting instruction then runs
into the same fault again.
-/
namespace MmapProgress

open Word32 MmapTable MmapMemory MmapFaults
open MmapFrames (kalloc)

section Store

variable {fs : Files} {r r' : Ram} {p p' : Space} {i a page : ℕ} {perm : BitVec 32} {ok : Bool}
  {fill : Ram → ℕ → Option Ram}

/-- The two ways in which the store of a page returns. `mappages` panics on a page that is
there. -/
theorem mapFresh_cases (hr : mapFresh fill r p page perm = some (r', p', ok)) :
    (Available r ∧ p.proc.pgdir page = none ∧ ok = true ∧
      p' = mapped p page r.memory.pop.1.frame perm) ∨
    (¬ Available r ∧ ok = false ∧ p' = p) := by
  by_cases havail : Available r
  · refine .inl ⟨havail, ?_⟩
    rcases hpage : p.proc.pgdir page with _ | frame
    · rw [mapFresh_available havail hpage] at hr
      obtain ⟨r₁, -, heq⟩ := Option.map_eq_some_iff.mp hr
      cases heq
      exact ⟨rfl, rfl, rfl⟩
    · obtain ⟨hmapped, hframe, hfree⟩ := havail
      have halloc : kalloc r.memory.pop.2.frames r.memory.pop.1.frame ≠ none := by
        rw [kalloc, if_pos ⟨hframe, by rw [pop_frames]; exact hfree⟩]
        exact Option.some_ne_none _
      simp only [mapFresh] at hr
      split at hr
      next hnone => exact absurd hnone halloc
      next k _ =>
        obtain ⟨r₁, -, hr⟩ := Option.bind_eq_some_iff.mp hr
        simp [hmapped, mapPage, hpage] at hr
  · obtain ⟨hp, hok⟩ := mapFresh_unavailable havail hr
    exact .inr ⟨havail, hok, hp⟩

/-- By `stored_length` the mapping has something left to load. -/
def Left (q : Proc) (i : ℕ) : Prop :=
  wrap ((q.slot i).length - (q.slot i).stored_length) ≠ 0

instance (q : Proc) (i : ℕ) : Decidable (Left q i) := inferInstanceAs (Decidable (_ ≠ _))

/-- What the handler does once it has found the mapping. -/
theorem faultIn_cases (hr : faultIn fs r p i a = some (r', p')) :
    (get_physical_page p.proc (pgRoundDown a) ≠ 0 ∧ p' = p.kill) ∨
    (get_physical_page p.proc (pgRoundDown a) = 0 ∧
      ((¬ Left p.proc i ∧ p' = counted p i) ∨
        (Left p.proc i ∧ Available r ∧ p.proc.pgdir (a / PGSIZE) = none ∧
          p' = counted (installed r p i a) i) ∨
        (Left p.proc i ∧ ¬ Available r ∧ p' = counted p.kill i))) := by
  unfold faultIn at hr
  split_ifs at hr with hpresent
  · cases hr
    exact .inl ⟨hpresent, rfl⟩
  refine .inr ⟨not_not.mp hpresent, ?_⟩
  obtain ⟨⟨r₁, p₁, ok⟩, hstore, heq⟩ := Option.map_eq_some_iff.mp hr
  have hp' : p' = counted (if ok then p₁ else p₁.kill) i := (congrArg Prod.snd heq).symm
  by_cases hleft : Left p.proc i
  · have hpages : (faultCall p.proc i a).pages = 1 := by rw [fault_pages, if_neg hleft]
    have hat : (faultCall p.proc i a).addr / PGSIZE = a / PGSIZE := pgRoundDown_div a
    rw [store_one hpages (store_has_file hstore), hat] at hstore
    rcases mapFresh_cases hstore with ⟨havail, hpage, rfl, rfl⟩ | ⟨havail, rfl, rfl⟩
    · exact .inr (.inl ⟨hleft, havail, hpage, hp'⟩)
    · exact .inr (.inr ⟨hleft, havail, hp'⟩)
  · obtain ⟨rfl, rfl⟩ := store_none (by rw [fault_pages, if_pos (not_not.mp hleft)]) hstore
    exact .inl ⟨hleft, hp'⟩

end Store

/-- The page of `a` has a present entry that the user may use. -/
def UserPage (p : Space) (a : ℕ) : Prop :=
  (p.proc.pgdir (a / PGSIZE)).isSome = true ∧ has (p.perm (a / PGSIZE)) PTE_U = true

/-- The access at `a` can be tried again, or the process is killed. -/
def Progress (p : Space) (a : ℕ) : Prop := UserPage p a ∨ p.proc.killed = true

/-- For entry `i` of the table `q`: the page is there already, for which the process is killed,
or something is left to load, and either there is no memory for it or the mapping can be
used. -/
def Resolves (r : Ram) (q : Proc) (i a : ℕ) : Prop :=
  get_physical_page q (pgRoundDown a) ≠ 0 ∨
    Left q i ∧ (Available r → has (q.slot i).prot PTE_U = true)

/-- The access goes on already, or the fault ends in one of the two ways. -/
def Unstalled (r : Ram) (p : Space) (a : ℕ) : Prop :=
  Progress p a ∨
    match planFault p.proc a with
    | .segfault => True
    | .ignore => False
    | .store i => Resolves r p.proc i a
    | .grow i => Resolves r (grown p.proc i) i a

section Stalls

variable {fs : Files} {r r' : Ram} {p p' : Space} {i a : ℕ}

theorem kill_progress (p : Space) (a : ℕ) : Progress p.kill a := .inr rfl

theorem counted_progress (hi : i < 32) : Progress (counted p i) a ↔ Progress p a := by
  rw [Progress, UserPage, counted_pgdir hi, counted_killed hi]
  rfl

theorem grown_progress (hi : i < 32) :
    Progress { p with proc := grown p.proc i } a ↔ Progress p a := by
  have hkilled : (grown p.proc i).killed = p.proc.killed := by
    have : (i : ℤ) ≠ 32 := by omega
    simp [grown, Proc.setSlot, this]
  rw [Progress, UserPage, grown_pgdir hi, hkilled]
  rfl

/-- A page that was stored counts if its mapping can be used. -/
theorem installed_progress (hnot : ¬ Progress p a) :
    Progress (installed r p i a) a ↔ has (p.proc.slot i).prot PTE_U = true := by
  have halive : ¬ p.proc.killed = true := fun h => hnot (.inr h)
  simp [Progress, UserPage, installed, mapped, halive]

theorem faultIn_progress (hi : i < 32) (hr : faultIn fs r p i a = some (r', p')) :
    Progress p' a ↔ Progress p a ∨ Resolves r p.proc i a := by
  rcases faultIn_cases hr with ⟨hpresent, rfl⟩ | ⟨hpresent, hcases⟩
  · exact iff_of_true (kill_progress p a) (.inr (.inl hpresent))
  rw [Resolves, or_iff_right (not_not.mpr hpresent)]
  rcases hcases with ⟨hleft, rfl⟩ | ⟨hleft, havail, hpage, rfl⟩ | ⟨hleft, havail, rfl⟩
  · rw [counted_progress hi, or_iff_left fun h => hleft h.1]
  · rw [counted_progress hi, and_iff_right hleft, forall_prop_of_true havail]
    by_cases hbefore : Progress p a
    · -- The page is new, so the process was killed before.
      refine iff_of_true (hbefore.imp (fun h => ?_) id) (.inl hbefore)
      rw [UserPage, hpage] at h
      exact absurd h.1 (by decide)
    · rw [or_iff_right hbefore, installed_progress hbefore]
  · rw [counted_progress hi, and_iff_right hleft]
    exact iff_of_true (kill_progress p a) (.inr fun h => absurd h havail)

/-- After a fault the page can be used or the process is killed, exactly when the fault is
not one of those that change nothing. -/
theorem fault_progress_iff (h : WellFormed p.proc)
    (hr : handle_page_fault fs r p a = some (r', p')) : Progress p' a ↔ Unstalled r p a := by
  have hslot {i : ℕ} (hi : i < p.proc.total_mmaps.toNat) : i < 32 := by
    have := h.count
    omega
  unfold handle_page_fault at hr
  unfold Unstalled
  rcases hplan : planFault p.proc a with _ | _ | i | i
  · rw [hplan] at hr
    cases hr
    exact iff_of_true (kill_progress p a) (.inr trivial)
  · rw [hplan] at hr
    cases hr
    exact (or_iff_left not_false).symm
  · rw [hplan] at hr
    exact faultIn_progress (hslot (plan_lt (.inl hplan))) hr
  · rw [hplan] at hr
    have hi := hslot (plan_lt (.inr hplan))
    rw [faultIn_progress hi hr, grown_progress hi]

end Stalls

/-- A growing mapping gets the page above it. -/
theorem growing_progress : ∃ r' p',
    handle_page_fault noFiles oneFrame growing (MMAPBASE + 8192 + 8) = some (r', p') ∧
      (p'.proc.slot 1).length = 8192 ∧ p'.proc.killed = false ∧
      Progress p' (MMAPBASE + 8192 + 8) := by
  have hr : ((handle_page_fault noFiles oneFrame growing (MMAPBASE + 8192 + 8)).any fun s =>
      decide ((s.2.proc.slot 1).length = 8192 ∧ s.2.proc.killed = false)) = true := by decide
  obtain ⟨⟨r', p'⟩, hr, hgrown⟩ := (Option.any_eq_true _ _).mp hr
  obtain ⟨hlength, halive⟩ := of_decide_eq_true hgrown
  refine ⟨r', p', hr, hlength, halive, (fault_progress_iff growing_wellFormed hr).mpr (.inr ?_)⟩
  have hplan : planFault growing.proc (MMAPBASE + 8192 + 8) = .grow 1 := by decide
  rw [hplan]
  exact .inr ⟨by decide, fun _ => by decide⟩

/-- The last page below `KERNBASE`, without any mapping: nothing happens. -/
theorem last_page_stalls : WellFormed (neighbours 0).proc ∧
    handle_page_fault noFiles oneFrame (neighbours 0) 0x7ffff000 = some (oneFrame, neighbours 0) ∧
    ¬ Progress (neighbours 0) 0x7ffff000 := by
  refine ⟨neighbours_wellFormed 0 (by decide), rfl, fun h => ?_⟩
  rcases h with ⟨hpresent, -⟩ | hkilled
  · exact absurd hpresent (by decide)
  · exact absurd hkilled (by decide)

end MmapProgress
