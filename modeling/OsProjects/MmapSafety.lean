import OsProjects.MmapFrames
import OsProjects.FrameLedger

/-! # When no frame is freed while it is mapped

A process frees the frames of what it unmaps without asking who else maps them. Over any
interleaving of parent and children this is safe exactly as long as every frame released
by `my_munmap`, called directly or from `exit`, is mapped by no other process.
-/
namespace MmapSafety

open Word32 MmapTable MmapFrames FrameLedger

/-- The page tables of the processes that have not been reaped. -/
def tables (s : Machine) : Tables ℕ ℕ ℕ :=
  fun i a => if s.phase i = .unused then none else (s.procs i).pgdir a

/-- No frame was freed twice in a row, and no present entry leads to a freed frame. -/
def Safe (s : Machine) : Prop :=
  s.frames.doubleFree = false ∧ ∀ i, s.phase i ≠ .unused → ∀ a f,
    (s.procs i).pgdir a = some f → f ≠ 0 → s.frames.free f = false

def SafeAfter (s : Machine) (e : Event) : Prop := ∀ s', next s e = some s' → Safe s'

/-- How many pages the release loop of `my_munmap` visits. -/
def releaseCount (p : Proc) (addr length : BitVec 32) (written : ℤ) : ℕ :=
  let i := findSlot p (pgRoundUp addr.toNat) 32 0
  let total_length := signed (p.slot i).length
  if i = 32 ∨ total_length = 0 then 0
  else if writesBack (p.slot i).toMapping ∧ written < 0 then 0
  else ((min (signed (pgRoundUp length.toNat)) total_length + 4095) / 4096).toNat

/-- The frames of the released range are mapped by no other process. -/
def Exclusive (s : Machine) (i : ℕ) (addr length : BitVec 32) (written : ℤ) : Prop :=
  ∀ t, t < releaseCount (s.procs i) addr length written → ∀ f,
    (s.procs i).pgdir (wrap (addr.toNat + (PGSIZE * t : ℕ)) / PGSIZE) = some f → f ≠ 0 →
    ∀ j, j ≠ i → s.phase j ≠ .unused → ∀ b, (s.procs j).pgdir b ≠ some f

def Harmless (s : Machine) : Event → Prop
  | .munmap i addr length written => s.phase i = .live → Exclusive s i addr length written
  | .exitStep i written => ∀ n, s.phase i = .exiting (n + 1) → ∀ addr length,
      exitArgs (s.procs i) n = some (addr, length) → Exclusive s i addr length written
  | _ => True

abbrev Along (P : Machine → Event → Prop) (s : Machine) (es : List Event) : Prop :=
  Runs.Along next P s es

def Good (k : Frames) (T : Tables ℕ ℕ ℕ) : Prop := k.doubleFree = false ∧ Sound 0 k.free T

def Invariant (s : Machine) : Prop := Good s.frames (tables s)

section Tables

variable {s : Machine} {i j : ℕ} {p : Proc} {k : Frames}

theorem tables_of_used (h : s.phase i ≠ .unused) : tables s i = (s.procs i).pgdir := by
  funext a
  exact if_neg h

theorem tables_of_unused (h : s.phase i = .unused) : tables s i = fun _ => none := by
  funext a
  exact if_pos h

theorem tables_set (h : s.phase i ≠ .unused) :
    tables (s.set i p k) = Function.update (tables s) i p.pgdir := by
  funext j a
  rcases eq_or_ne j i with rfl | hj
  · simp [tables, Machine.set, h]
  · simp [tables, Machine.set, hj]

theorem update_tables_self (h : s.phase i ≠ .unused) :
    Function.update (tables s) i (s.procs i).pgdir = tables s := by
  rw [← tables_of_used h, Function.update_eq_self]

theorem tables_setPhase {f : Phase} (h : s.phase i ≠ .unused) (hf : f ≠ .unused) :
    tables (s.setPhase i f) = tables s := by
  funext j a
  rcases eq_or_ne j i with rfl | hj
  · rw [tables_of_used h, tables_of_used (by simpa [Machine.setPhase] using hf)]
    rfl
  · simp [tables, Machine.setPhase, hj]

theorem Invariant.safe (h : Invariant s) : Safe s := by
  refine ⟨h.1, fun i hi a f hf hn => h.2.held (i := i) (a := a) ?_ hn⟩
  rw [tables_of_used hi, hf]

end Tables

section Pages

variable {T : Tables ℕ ℕ ℕ} {i : ℕ} {m m' : Memory} {p p' : Proc} {ok : Bool}

theorem pop_frames (m : Memory) : m.pop.2.frames = m.frames := by
  unfold Memory.pop
  split <;> rfl

theorem kalloc_some {k k' : Frames} {f : ℕ} (h : kalloc k f = some k') :
    f ≠ 0 ∧ k.free f = true ∧ k' = { k with free := Function.update k.free f false } := by
  unfold kalloc at h
  split_ifs at h with hf
  cases h
  exact ⟨hf.1, hf.2, rfl⟩

theorem mapPage_some {page f : ℕ} (h : mapPage p page f = some p') :
    p'.pgdir = Function.update p.pgdir page (some f) := by
  unfold mapPage at h
  split at h <;> cases h
  rfl

theorem update_setEntry {page : ℕ} {e : Option ℕ} :
    Function.update T i (Function.update p.pgdir page e) =
      setEntry (Function.update T i p.pgdir) i page e := by
  unfold setEntry
  rw [Function.update_self, Function.update_idem]

theorem mapFresh_good {page : ℕ} (hr : mapFresh m p page = some (m', p', ok))
    (h : Good m.frames (Function.update T i p.pgdir)) :
    Good m'.frames (Function.update T i p'.pgdir) := by
  unfold mapFresh at hr
  rw [← pop_frames m] at h
  generalize m.pop = q at hr h
  obtain ⟨a, m₀⟩ := q
  dsimp only at hr h
  split at hr
  next =>
    cases hr
    exact h
  next k hk =>
    obtain ⟨hn, hfree, rfl⟩ := kalloc_some hk
    split_ifs at hr
    · obtain ⟨p₁, hp₁, he⟩ := Option.map_eq_some_iff.mp hr
      cases he
      refine ⟨h.1, ?_⟩
      rw [mapPage_some hp₁, update_setEntry]
      exact h.2.mapFresh hfree hn
    · cases hr
      refine ⟨?_, ?_⟩
      · simp only [kfree, Function.update_self, Bool.or_false]
        exact h.1
      · have hback : (kfree { m₀.frames with free := Function.update m₀.frames.free a.frame false }
            a.frame).free = m₀.frames.free := by
          simp only [kfree, Function.update_idem]
          rw [← hfree, Function.update_eq_self]
        rw [hback]
        exact h.2

theorem storePages_good {n page : ℕ} (hr : storePages n page m p = some (m', p', ok))
    (h : Good m.frames (Function.update T i p.pgdir)) :
    Good m'.frames (Function.update T i p'.pgdir) := by
  induction n generalizing page m p with
  | zero =>
    cases hr
    exact h
  | succ n ih =>
    rw [storePages] at hr
    split at hr
    next => cases hr
    next m₁ p₁ hf =>
      cases hr
      exact mapFresh_good hf h
    next m₁ p₁ hf => exact ih hr (mapFresh_good hf h)

theorem setSlot_pgdir {c : ℤ} {r : Mmp} : (p.setSlot c r).pgdir = p.pgdir := by
  unfold Proc.setSlot
  split_ifs <;> rfl

theorem faultIn_good {c : ℤ} {addr : ℕ} (hr : faultIn m p c addr = some (m', p'))
    (h : Good m.frames (Function.update T i p.pgdir)) :
    Good m'.frames (Function.update T i p'.pgdir) := by
  unfold faultIn at hr
  split_ifs at hr
  · cases hr
    exact h
  · obtain ⟨⟨m₁, p₁, ok₁⟩, hs, he⟩ := Option.map_eq_some_iff.mp hr
    cases he
    have hg := storePages_good hs h
    rw [setSlot_pgdir]
    split_ifs
    · exact hg
    · exact hg

theorem handle_page_fault_good {addr : ℕ} (hr : handle_page_fault m p addr = some (m', p'))
    (h : Good m.frames (Function.update T i p.pgdir)) :
    Good m'.frames (Function.update T i p'.pgdir) := by
  unfold handle_page_fault at hr
  split at hr
  next => exact faultIn_good hr h
  next =>
    dsimp only at hr
    split_ifs at hr
    · cases hr
      exact h
    · split at hr
      next => exact faultIn_good hr (by rwa [setSlot_pgdir])
      next =>
        cases hr
        exact h

theorem parentPage_good {c : ℤ} {start : ℕ} (hr : parentPage m p c start = some (m', p', ok))
    (h : Good m.frames (Function.update T i p.pgdir)) :
    Good m'.frames (Function.update T i p'.pgdir) := by
  unfold parentPage at hr
  dsimp only at hr
  by_cases hc : has (p.slot c).flags MAP_SHARED ∧ get_physical_page p start = 0
  · rw [if_pos hc] at hr
    obtain ⟨⟨m₁, p₁, ok₁⟩, hs, he⟩ := Option.map_eq_some_iff.mp hr
    cases he
    have hg := storePages_good hs h
    by_cases hok : ok₁ = true
    · rwa [if_pos hok, setSlot_pgdir]
    · rwa [if_neg hok]
  · rw [if_neg hc] at hr
    cases hr
    exact h

end Pages

section Fork

variable {T : Tables ℕ ℕ ℕ} {i j : ℕ} {m m' : Memory} {parent parent' child child' : Proc}
  {ok : Bool}

/-- The tables with the parent's and the child's in progress. -/
def pair (T : Tables ℕ ℕ ℕ) (i j : ℕ) (parent child : Proc) : Tables ℕ ℕ ℕ :=
  Function.update (Function.update T i parent.pgdir) j child.pgdir

theorem pair_comm (hij : i ≠ j) :
    pair T i j parent child =
      Function.update (Function.update T j child.pgdir) i parent.pgdir := by
  rw [pair, Function.update_comm hij]

theorem childPage_good {shared : Bool} {start : ℕ} (hij : i ≠ j)
    (hr : childPage m parent child shared start = some (m', child', ok))
    (h : Good m.frames (pair T i j parent child)) :
    Good m'.frames (pair T i j parent child') := by
  unfold childPage at hr
  dsimp only at hr
  by_cases hs : shared = true
  · rw [if_pos hs] at hr
    rw [← pop_frames m] at h
    generalize m.pop = q at hr h
    obtain ⟨a, m₀⟩ := q
    dsimp only at hr h
    by_cases ha : a.mapped = true
    · rw [if_pos ha] at hr
      obtain ⟨c, hc, he⟩ := Option.map_eq_some_iff.mp hr
      cases he
      refine ⟨h.1, ?_⟩
      rw [pair, mapPage_some hc, update_setEntry]
      refine h.2.mapShared (j := i) fun hne => ?_
      rw [pair, Function.update_of_ne hij, Function.update_self]
      rw [get_physical_page] at hne ⊢
      cases hp : parent.pgdir (start / PGSIZE) with
      | none => rw [hp] at hne; exact absurd rfl hne
      | some f => rfl
    · rw [if_neg ha] at hr
      cases hr
      exact h
  · rw [if_neg hs] at hr
    split_ifs at hr
    · cases hr
      exact h
    · exact mapFresh_good hr h

theorem copyPages_good {c : ℤ} {shared : Bool} {n start : ℕ} (hij : i ≠ j)
    (hr : copyPages c shared n start m parent child = some (m', parent', child', ok))
    (h : Good m.frames (pair T i j parent child)) :
    Good m'.frames (pair T i j parent' child') := by
  induction n generalizing start m parent child with
  | zero =>
    cases hr
    exact h
  | succ n ih =>
    rw [copyPages] at hr
    have hparent : ∀ {m₁ p₁ ok₁}, parentPage m parent c start = some (m₁, p₁, ok₁) →
        Good m₁.frames (pair T i j p₁ child) := fun hp => by
      rw [pair_comm hij] at h ⊢
      exact parentPage_good hp h
    split at hr
    next => cases hr
    next m₁ p₁ hp =>
      cases hr
      exact hparent hp
    next m₁ p₁ hp =>
      split at hr
      next => cases hr
      next m₂ c₂ hc =>
        cases hr
        exact childPage_good hij hc (hparent hp)
      next m₂ c₂ hc => exact ih hr (childPage_good hij hc (hparent hp))

theorem copy_single_mmap_good {c : ℤ} (hij : i ≠ j)
    (hr : copy_single_mmap m parent child c = some (m', parent', child', ok))
    (h : Good m.frames (pair T i j parent child)) :
    Good m'.frames (pair T i j parent' child') := by
  unfold copy_single_mmap at hr
  obtain ⟨⟨m₁, p₁, c₁, ok₁⟩, hs, he⟩ := Option.map_eq_some_iff.mp hr
  have hg := copyPages_good hij hs h
  dsimp only at he
  split_ifs at he <;> cases he
  · rwa [pair, setSlot_pgdir]
  · rwa [pair, setSlot_pgdir]
  · exact hg

theorem copyAll_good {n c : ℕ} (hij : i ≠ j)
    (hr : copyAll n c m parent child = some (m', parent', child', ok))
    (h : Good m.frames (pair T i j parent child)) :
    Good m'.frames (pair T i j parent' child') := by
  induction n generalizing c m parent child with
  | zero =>
    cases hr
    exact h
  | succ n ih =>
    rw [copyAll] at hr
    split at hr
    next => cases hr
    next hs =>
      cases hr
      exact copy_single_mmap_good hij hs h
    next hs => exact ih hr (copy_single_mmap_good hij hs h)

theorem fork_invariant {s s' : Machine} {answers : List Answer} (h : Invariant s)
    (hi : s.phase i ≠ .unused) (hj : s.phase j = .unused)
    (hr : fork s i j answers = some s') : Invariant s' := by
  have hij : i ≠ j := fun he => hi (he ▸ hj)
  unfold fork copy_maps at hr
  simp only [Option.map_map, Option.map_eq_some_iff, Function.comp_apply] at hr
  obtain ⟨⟨m, parent, child, ok⟩, hc, he⟩ := hr
  dsimp only at he
  have hstart : pair (tables s) i j (s.procs i)
      { s.procs j with pgdir := fun _ => none, total_mmaps := 0, killed := false } = tables s := by
    rw [pair, update_tables_self hi]
    dsimp only
    rw [← tables_of_unused hj, Function.update_eq_self]
  have hg : Good m.frames (pair (tables s) i j parent child) := by
    refine copyAll_good hij hc ?_
    rw [hstart]
    exact h
  cases ok with
  | true =>
    rw [if_pos rfl] at he
    cases he
    have htables : tables (((s.set i parent m.frames).set j
        { child with total_mmaps := parent.total_mmaps } m.frames).setPhase j .live) =
          pair (tables s) i j parent child := by
      funext a b
      rcases eq_or_ne a j with rfl | haj
      · simp [tables, Machine.set, Machine.setPhase, pair]
      · rcases eq_or_ne a i with rfl | hai
        · simp [tables, Machine.set, Machine.setPhase, pair, haj, hi]
        · simp [tables, Machine.set, Machine.setPhase, pair, haj, hai]
    unfold Invariant
    rw [if_pos rfl, htables]
    exact hg
  | false =>
    rw [if_neg Bool.false_ne_true] at he
    cases he
    refine ⟨hg.1, hg.2.restrict fun a b => ?_⟩
    rcases eq_or_ne a j with rfl | haj
    · exact Or.inr (by simp [tables, Machine.set, hj])
    · left
      rcases eq_or_ne a i with rfl | hai
      · simp [tables, Machine.set, pair, haj, hi]
      · simp [tables, Machine.set, pair, haj, hai]

end Fork

section Mmap

variable {p : Proc}

/-- What the table functions leave alone: the page table and the `ref` of every slot. -/
def kept (p : Proc) : (ℕ → Option ℕ) × (ℤ → ℤ) := (p.pgdir, fun k => (p.mmaps k).ref)

theorem setSlot_kept {c : ℤ} {m : Mmp} (h : m.ref = (p.slot c).ref) :
    kept (p.setSlot c m) = kept p := by
  refine Prod.ext setSlot_pgdir (funext fun k => ?_)
  have hread : (p.slot c).ref = (p.mmaps c).ref := by
    unfold Proc.slot
    split_ifs with hc
    · rw [hc]
    · rfl
  unfold Proc.setSlot
  rcases eq_or_ne k c with rfl | hk
  · split_ifs with hc
    · subst hc
      simp [kept, h, hread]
    · simp [kept, h, hread]
  · split_ifs with hc
    · subst hc
      simp [kept, hk]
    · simp [kept, hk]

theorem kept_pgdir {q : Proc} (h : kept q = kept p) : q.pgdir = p.pgdir := congrArg Prod.fst h

theorem kept_ref {q : Proc} (h : kept q = kept p) {k : ℕ} (hk : k < 32) :
    (q.slot k).ref = (p.slot k).ref := by
  have : (k : ℤ) ≠ 32 := by omega
  simpa [Proc.slot, this, kept] using congrFun (congrArg Prod.snd h) k

theorem kept_total (p : Proc) (n : ℤ) : kept { p with total_mmaps := n } = kept p := rfl

theorem shiftRight_kept {e : ℤ} {n : ℕ} {c : ℤ} : kept (shiftRight e n c p) = kept p := by
  induction n generalizing c p with
  | zero => rfl
  | succ n ih =>
    rw [shiftRight]
    split_ifs
    · exact ih.trans (setSlot_kept rfl)
    · rfl

theorem shiftLeft_kept {n : ℕ} {c : ℤ} : kept (shiftLeft n c p) = kept p := by
  induction n generalizing c p with
  | zero => rfl
  | succ n ih =>
    rw [shiftLeft]
    split_ifs
    · exact ih.trans (setSlot_kept rfl)
    · rfl

theorem mmp_insert_kept {length : BitVec 32} {c : ℤ} {a : ℕ} :
    kept (mmp_insert p length c a).1 = kept p := by
  unfold mmp_insert
  dsimp only
  split_ifs
  · exact shiftRight_kept
  · refine (setSlot_kept ?_).trans shiftRight_kept
    rfl

theorem mmp_check_kept {length : BitVec 32} {a : ℕ} :
    kept (mmp_check p a length).1 = kept p := by
  unfold mmp_check
  dsimp only
  split_ifs
  · exact mmp_insert_kept
  · split
    · exact mmp_insert_kept
    · rfl

theorem mmp_any_kept {length : BitVec 32} : kept (mmp_any p length).1 = kept p := by
  unfold mmp_any
  dsimp only
  split_ifs
  · rfl
  · exact setSlot_kept rfl
  · exact mmp_insert_kept
  · rfl
  · exact mmp_insert_kept

/-- Which slot is used does not matter here: no search touches a page table. -/
theorem my_mmap_kept {addr : BitVec 32} {f : File} {length offset flags protection : BitVec 32} :
    kept (my_mmap p addr f length offset flags protection).1 = kept p := by
  unfold my_mmap
  by_cases h₁ : badArgs f length offset flags protection = true
  · rw [if_pos h₁]
  rw [if_neg h₁]
  by_cases h₂ : p.total_mmaps = 32
  · rw [if_pos h₂]
  rw [if_neg h₂]
  have hsearch : kept (if has flags MAP_FIXED then
        if addr ≠ 0 then mmp_check p addr.toNat length else (p, -1)
      else if addr ≠ 0 then mmp_check p addr.toNat length
      else mmp_any p length).1 = kept p := by
    split_ifs
    · exact mmp_check_kept
    · rfl
    · exact mmp_check_kept
    · exact mmp_any_kept
  split
  · rfl
  generalize (if has flags MAP_FIXED then
        if addr ≠ 0 then mmp_check p addr.toNat length else (p, -1)
      else if addr ≠ 0 then mmp_check p addr.toNat length
      else mmp_any p length) = r at hsearch ⊢
  dsimp only
  split
  · exact hsearch
  · refine (kept_total _ _).trans ((setSlot_kept ?_).trans hsearch)
    rfl

end Mmap

section Munmap

variable {T : Tables ℕ ℕ ℕ} {i : ℕ} {k : Frames} {p : Proc} {addr length : BitVec 32}
  {written : ℤ}

theorem releasePages_good {n c : ℕ} (h : Good k (Function.update T i p.pgdir))
    (hx : ∀ t, t < n → ∀ f, p.pgdir (wrap (addr.toNat + (c + PGSIZE * t : ℕ)) / PGSIZE) = some f →
      f ≠ 0 → ∀ j, j ≠ i → ∀ b, T j b ≠ some f) :
    Good (releasePages addr n c k p).1
      (Function.update T i (releasePages addr n c k p).2.pgdir) := by
  induction n generalizing c k p with
  | zero => exact h
  | succ n ih =>
    have hshift : ∀ t : ℕ, c + PGSIZE + PGSIZE * t = c + PGSIZE * (t + 1) := fun t => by ring
    rw [releasePages]
    by_cases hpa : get_physical_page p (wrap (addr.toNat + c)) = 0
    · rw [if_pos hpa]
      refine ih h fun t ht f hf => ?_
      rw [hshift] at hf
      exact hx (t + 1) (by omega) f hf
    · rw [if_neg hpa]
      set a := wrap (addr.toNat + c) / PGSIZE with ha
      obtain ⟨f, hf⟩ : ∃ f, p.pgdir a = some f := by
        cases he : p.pgdir a with
        | none => exact absurd (by rw [get_physical_page, ← ha, he]; rfl) hpa
        | some f => exact ⟨f, rfl⟩
      have hpage : get_physical_page p (wrap (addr.toNat + c)) = f := by
        rw [get_physical_page, ← ha, hf]
        rfl
      rw [hpage] at hpa ⊢
      have hentry : Function.update T i p.pgdir i a = some f := by rw [Function.update_self, hf]
      refine ih (p := { p with pgdir := Function.update p.pgdir a none }) ⟨?_, ?_⟩ ?_
      · simp only [kfree, h.2.held hentry hpa, Bool.or_false]
        exact h.1
      · rw [update_setEntry]
        refine h.2.release hentry hpa fun j hj => ?_
        rw [Function.update_of_ne hj]
        exact hx 0 (by omega) f (by simpa [ha] using hf) hpa j hj a
      · intro t ht g hg
        refine hx (t + 1) (by omega) g ?_
        rw [hshift] at hg
        dsimp only at hg
        by_cases he : wrap (addr.toNat + (c + PGSIZE * (t + 1) : ℕ)) / PGSIZE = a
        · rw [he, Function.update_self] at hg
          cases hg
        · rwa [Function.update_of_ne he] at hg

theorem releasePages_stays_free {n c f : ℕ} (h : k.free f = true) :
    (releasePages addr n c k p).1.free f = true := by
  induction n generalizing c k p with
  | zero => exact h
  | succ n ih =>
    rw [releasePages]
    split_ifs
    · exact ih h
    · apply ih
      simp only [kfree]
      rcases eq_or_ne f (get_physical_page p (wrap (addr.toNat + c))) with rfl | hne
      · exact Function.update_self ..
      · rwa [Function.update_of_ne hne]

/-- Every frame found in the range ends up free. -/
theorem releasePages_frees {n c t f : ℕ} (ht : t < n)
    (hf : p.pgdir (wrap (addr.toNat + (c + PGSIZE * t : ℕ)) / PGSIZE) = some f) (hn : f ≠ 0) :
    (releasePages addr n c k p).1.free f = true := by
  induction n generalizing c k p t with
  | zero => omega
  | succ n ih =>
    rw [releasePages]
    by_cases he : wrap (addr.toNat + (c + PGSIZE * t : ℕ)) / PGSIZE = wrap (addr.toNat + c) / PGSIZE
    · have hpage : get_physical_page p (wrap (addr.toNat + c)) = f := by
        rw [get_physical_page, ← he, hf]
        rfl
      rw [hpage, if_neg hn]
      exact releasePages_stays_free (Function.update_self ..)
    · have ht0 : t ≠ 0 := by
        rintro rfl
        exact he rfl
      obtain ⟨t, rfl⟩ := Nat.exists_eq_succ_of_ne_zero ht0
      have hshift : c + PGSIZE * (t + 1) = c + PGSIZE + PGSIZE * t := by ring
      rw [Nat.succ_eq_add_one, hshift] at hf he
      split_ifs
      · exact ih (by omega) hf
      · refine ih (t := t) (by omega) ?_
        dsimp only
        rwa [Function.update_of_ne he]

/-- `my_munmap` frees what its release loop frees; the table work behind it moves no page. -/
theorem my_munmap_effect (k : Frames) (p : Proc) (addr length : BitVec 32) (written : ℤ) :
    (my_munmap k p addr length written).1 =
        (releasePages addr (releaseCount p addr length written) 0 k p).1 ∧
      (my_munmap k p addr length written).2.1.pgdir =
        (releasePages addr (releaseCount p addr length written) 0 k p).2.pgdir := by
  unfold my_munmap releaseCount
  dsimp only
  split_ifs
  · exact ⟨rfl, rfl⟩
  · exact ⟨rfl, rfl⟩
  · exact ⟨rfl, (kept_pgdir shiftLeft_kept).trans setSlot_pgdir⟩
  · exact ⟨rfl, setSlot_pgdir⟩

end Munmap

section Steps

variable {s s' : Machine} {i : ℕ}

theorem Invariant.set_good {p : Proc} {k : Frames} (hi : s.phase i ≠ .unused)
    (h : Good k (Function.update (tables s) i p.pgdir)) : Invariant (s.set i p k) := by
  rw [Invariant, tables_set hi]
  exact h

theorem Invariant.update_self (h : Invariant s) (hi : s.phase i ≠ .unused) :
    Good s.frames (Function.update (tables s) i (s.procs i).pgdir) := by
  rw [update_tables_self hi]
  exact h

theorem Invariant.setPhase {f : Phase} (h : Invariant s) (hi : s.phase i ≠ .unused)
    (hf : f ≠ .unused) : Invariant (s.setPhase i f) := by
  rw [Invariant, tables_setPhase hi hf]
  exact h

theorem Invariant.reap (h : Invariant s) : Invariant (s.setPhase i .unused) := by
  refine ⟨h.1, h.2.restrict fun j a => ?_⟩
  rcases eq_or_ne j i with rfl | hj
  · exact Or.inr (by simp [tables, Machine.setPhase])
  · exact Or.inl (by simp [tables, Machine.setPhase, hj])

theorem mmap_step_invariant {addr : BitVec 32} {f : File}
    {length offset flags protection : BitVec 32} (h : Invariant s) (hi : s.phase i ≠ .unused) :
    Invariant (s.set i (my_mmap (s.procs i) addr f length offset flags protection).1 s.frames) := by
  refine Invariant.set_good hi ?_
  rw [kept_pgdir my_mmap_kept]
  exact h.update_self hi

/-- One call of `my_munmap` leaves a safe state exactly when what it frees is exclusive. -/
theorem doMunmap_iff (addr length : BitVec 32) (written : ℤ) (h : Invariant s)
    (hi : s.phase i ≠ .unused) :
    (Safe (doMunmap s i addr length written) ↔ Exclusive s i addr length written) ∧
      (Exclusive s i addr length written → Invariant (doMunmap s i addr length written)) := by
  obtain ⟨hk, hp⟩ := my_munmap_effect s.frames (s.procs i) addr length written
  have hinv : Exclusive s i addr length written →
      Invariant (doMunmap s i addr length written) := by
    intro hx
    have hdo : doMunmap s i addr length written =
        s.set i (my_munmap s.frames (s.procs i) addr length written).2.1
          (my_munmap s.frames (s.procs i) addr length written).1 := rfl
    rw [hdo]
    refine Invariant.set_good hi ?_
    rw [hk, hp]
    refine releasePages_good (h.update_self hi) fun t ht f hf hn j hj b => ?_
    rw [Nat.zero_add] at hf
    by_cases hu : s.phase j = .unused
    · rw [tables_of_unused hu]
      exact fun he => by cases he
    · rw [tables_of_used hu]
      exact hx t ht f hf hn j hj hu b
  refine ⟨⟨fun hsafe t ht f hf hn j hj hu b hb => ?_, fun hx => (hinv hx).safe⟩, hinv⟩
  have hfree : (doMunmap s i addr length written).frames.free f = true := by
    show (my_munmap s.frames (s.procs i) addr length written).1.free f = true
    rw [hk]
    exact releasePages_frees ht (by rwa [Nat.zero_add]) hn
  have hkept : ((doMunmap s i addr length written).procs j).pgdir b = some f := by
    simpa [doMunmap, Machine.set, hj] using hb
  have hheld := hsafe.2 j hu b f hkept hn
  rw [hfree] at hheld
  cases hheld

theorem Safe.setPhase_iff {f : Phase} (hi : s.phase i ≠ .unused) (hf : f ≠ .unused) :
    Safe (s.setPhase i f) ↔ Safe s := by
  have hphase : ∀ j, (s.setPhase i f).phase j ≠ .unused ↔ s.phase j ≠ .unused := by
    intro j
    rcases eq_or_ne j i with rfl | hj
    · simp [Machine.setPhase, hi, hf]
    · simp [Machine.setPhase, hj]
  constructor
  · exact fun h => ⟨h.1, fun j hj => h.2 j ((hphase j).mpr hj)⟩
  · exact fun h => ⟨h.1, fun j hj => h.2 j ((hphase j).mp hj)⟩

theorem exitStep_iff (h : Invariant s) (written : ℤ) :
    (SafeAfter s (.exitStep i written) ↔ Harmless s (.exitStep i written)) ∧
      (Harmless s (.exitStep i written) →
        ∀ s', next s (.exitStep i written) = some s' → Invariant s') := by
  unfold SafeAfter Harmless
  simp only [next]
  cases hph : s.phase i with
  | exiting n =>
    have hi : s.phase i ≠ .unused := by simp [hph]
    cases n with
    | zero => simp
    | succ n =>
      cases ha : exitArgs (s.procs i) n with
      | none =>
        have hstep : Invariant (s.setPhase i (.exiting n)) := h.setPhase hi (by simp)
        simp [ha, hstep, hstep.safe]
      | some args =>
        obtain ⟨addr, length⟩ := args
        obtain ⟨hiff, hinv⟩ := doMunmap_iff addr length written h hi
        have hi' : (doMunmap s i addr length written).phase i ≠ .unused := hi
        simp only [Option.some.injEq, forall_eq', Phase.exiting.injEq, Nat.add_right_cancel_iff,
          ha, Prod.mk.injEq, and_imp]
        rw [Safe.setPhase_iff hi' (by simp), hiff]
        constructor
        · constructor
          · rintro hx _ _ rfl rfl
            exact hx
          · exact fun hx => hx addr length rfl rfl
        · exact fun hx => (hinv (hx addr length rfl rfl)).setPhase hi' (by simp)
  | unused => simp
  | live => simp
  | zombie => simp

/-- Steps that free nothing keep the invariant unconditionally. -/
theorem quiet_step_iff {e : Event} (hh : Harmless s e)
    (hstep : ∀ s', next s e = some s' → Invariant s') :
    (SafeAfter s e ↔ Harmless s e) ∧ (Harmless s e → ∀ s', next s e = some s' → Invariant s') :=
  ⟨iff_of_true (fun s' hs => (hstep s' hs).safe) hh, fun _ => hstep⟩

theorem step_safe_iff (h : Invariant s) (e : Event) :
    (SafeAfter s e ↔ Harmless s e) ∧ (Harmless s e → ∀ s', next s e = some s' → Invariant s') := by
  cases e with
  | mmap i addr f length offset flags protection =>
    refine quiet_step_iff trivial fun s' hs => ?_
    simp only [next, Option.ite_none_right_eq_some, Option.some.injEq] at hs
    obtain ⟨hi, rfl⟩ := hs
    exact mmap_step_invariant h (by simp [hi])
  | fault i addr answers =>
    refine quiet_step_iff trivial fun s' hs => ?_
    simp only [next, Option.ite_none_right_eq_some, Option.map_eq_some_iff] at hs
    obtain ⟨hi, ⟨m, p⟩, hf, rfl⟩ := hs
    have hu : s.phase i ≠ .unused := by simp [hi]
    exact Invariant.set_good hu (handle_page_fault_good hf (h.update_self hu))
  | fork i j answers =>
    refine quiet_step_iff trivial fun s' hs => ?_
    simp only [next, Option.ite_none_right_eq_some] at hs
    obtain ⟨⟨hi, hj⟩, hf⟩ := hs
    exact fork_invariant h (by simp [hi]) hj hf
  | munmap i addr length written =>
    unfold SafeAfter Harmless
    by_cases hi : s.phase i = .live
    · obtain ⟨hiff, hinv⟩ := doMunmap_iff addr length written h (by simp [hi] : s.phase i ≠ .unused)
      simp only [next, hi, if_true, Option.some.injEq, forall_eq', true_implies]
      exact ⟨hiff, hinv⟩
    · simp [next, hi]
  | exitBegin i =>
    refine quiet_step_iff trivial fun s' hs => ?_
    simp only [next, Option.ite_none_right_eq_some, Option.some.injEq] at hs
    obtain ⟨hi, rfl⟩ := hs
    exact h.setPhase (by simp [hi]) (by simp)
  | exitStep i written => exact exitStep_iff h written
  | exitEnd i =>
    refine quiet_step_iff trivial fun s' hs => ?_
    simp only [next, Option.ite_none_right_eq_some, Option.some.injEq] at hs
    obtain ⟨hi, rfl⟩ := hs
    have hu : s.phase i ≠ .unused := by simp [hi]
    have hset : Invariant (s.set i { s.procs i with total_mmaps := 0 } s.frames) :=
      Invariant.set_good hu (h.update_self hu)
    exact hset.setPhase hu (by simp)
  | reap i =>
    refine quiet_step_iff trivial fun s' hs => ?_
    simp only [next, Option.ite_none_right_eq_some, Option.some.injEq] at hs
    obtain ⟨_, rfl⟩ := hs
    exact h.reap

end Steps

theorem run_safe_iff {s : Machine} (h : Invariant s) (es : List Event) :
    Along SafeAfter s es ↔ Along Harmless s es :=
  Runs.along_iff (fun _ e h => (step_safe_iff h e).1)
    (fun _ e s' h hharmless hn => (step_safe_iff h e).2 hharmless s' hn) h

theorem fresh_invariant {s : Machine} (h : Fresh s) : Invariant s := by
  obtain ⟨hd, hp, _, hu⟩ := h
  have hnone : ∀ i a, tables s i a = none := by
    intro i a
    rcases eq_or_ne i 0 with rfl | hi
    · simp [tables, hp a]
    · simp [tables, hu i hi]
  refine ⟨hd, fun {i a f} hf => ?_, fun {i j a b f} hf => ?_⟩
  · rw [hnone] at hf
    cases hf
  · rw [hnone] at hf
    cases hf

def firstProcess : Machine :=
  { procs := fun _ => ⟨fun _ => Mmp.zero, 0, fun _ => none, false⟩
    phase := fun i => if i = 0 then .live else .unused
    frames := ⟨fun _ => true, false⟩ }

theorem firstProcess_fresh : Fresh firstProcess :=
  ⟨rfl, fun _ => rfl, rfl, fun _ hi => if_neg hi⟩

/-- One shared anonymous page, mapped and touched by the first process. -/
def touchShared : List Event :=
  [.mmap 0 0 ⟨0, true, true⟩ 4096 0 (MAP_SHARED ||| MAP_ANONYMOUS) PROT_WRITE,
    .fault 0 0x60000000 [⟨1, true⟩]]

end MmapSafety
