import OsProjects.WfsRuns
import OsProjects.WfsDentries

/-! # Names in a directory

The existence test of `wfs_mknod` and `wfs_mkdir` asks whether the path found is deleted,
which lookup has already excluded, and the name is stored cut to 31 bytes. Names stay
distinct as long as no creation runs into either.
-/
namespace WfsNames

open ByteMemory WfsLookup WfsHandlers WfsLog WfsAppend WfsChange WfsDentries WfsRuns

/-- The names of the directory entry at `a`. -/
def dirNames (m : Mem) (a : ℕ) : List (List UInt8) :=
  (List.range (loadWord m (a + 24) / 40)).map fun k => cstring m 32 (a + 44 + 40 * k)

/-- The last entry of every live directory has distinct names. -/
def DistinctNames (s : Wfs) : Prop :=
  ∀ n s' a, get_number_inode s n = .ok (s', some a) → isDir s.data a = true →
    (dirNames s.data a).Nodup

/-- A creation on a path that resolves is refused. -/
def ExistingRefused (s : Wfs) (e : Event) : Prop :=
  ∀ path mode a s' r, creates e.call = some (path, mode) → located s path = some a →
    handle e.env s e.call = .ok (s', r) →
    r.ret = -EEXIST ∧ s'.head = s.head ∧ ∀ x < s.head, s'.data x = s.data x

def NamesKept (s : Wfs) (e : Event) : Prop :=
  ExistingRefused s e ∧ ∀ s', next s e = some s' → DistinctNames s'

/-- A creation is asked for a path that does not resolve, and its name, cut to 31 bytes, is
not yet in the parent. -/
def FreshName (s : Wfs) (e : Event) : Prop :=
  Roomy s e.call ∧ ∀ path mode, creates e.call = some (path, mode) →
    located s path = none ∧
    ∀ r dir name, get_path_inode s path = .ok r → parentDir s path = some (dir, name) →
      s.head + 44 ≤ s.total_size → name.take 31 ∉ dirNames s.data dir

/-- Every directory of the log, obsolete ones included, is a list of dentries with distinct
names. -/
def WellNamed (L : List Entry) : Prop :=
  ∀ e ∈ L, e.isDir → ∃ ds, e.bytes = contents ds ∧ (ds.map Dentry.name).Nodup

section Names

variable {s : Wfs} {L : List Entry} {m : Mem} {a : ℕ} {ds : List Dentry} {e : Entry}

theorem names_dentries (h : DentriesAt m a ds) :
    (List.range ds.length).map (fun k => cstring m 32 (a + 40 * k)) = ds.map Dentry.name := by
  induction ds generalizing a with
  | nil => rfl
  | cons d ds ih =>
    have hshort := d.short
    rw [List.length_cons, List.range_succ_eq_map, List.map_cons, List.map_map, List.map_cons,
      ← ih h.2]
    refine congrArg₂ _ ?_ (List.map_congr_left fun k _ => ?_)
    · rw [Nat.mul_zero, Nat.add_zero, cstring_dentry h.1 (by omega)]
    · rw [Function.comp_apply]
      congr 1
      omega

theorem dirNames_eq (he : EntryAt m a e) (hds : e.bytes = contents ds) :
    dirNames m a = ds.map Dentry.name := by
  have hbytes := he.bytes
  rw [hds, contents_length] at hbytes
  rw [dirNames, he.size_eq, hds, contents_length, Nat.mul_div_cancel_left _ (by omega)]
  exact names_dentries (dentriesAt_iff.mpr hbytes)

theorem distinctNames_of_wellNamed (h : Rep s L) (hw : WellNamed L) : DistinctNames s := by
  intro n s' a hget hdir
  rw [get_number_inode_rep h] at hget
  cases hl : lastAt L 8 n with
  | none =>
    rw [hl] at hget
    cases hget
  | some r =>
    obtain ⟨b, e⟩ := r
    rw [hl] at hget
    simp only [Except.ok.injEq, Prod.mk.injEq] at hget
    split_ifs at hget with hdel
    · cases hget.2
    · cases hget.2
      have he := (h.tiled.lastAt hl).1
      obtain ⟨_, pre, post, rfl, _, _⟩ := lastAt_some hl
      obtain ⟨ds, hds, hnodup⟩ := hw e (by simp) (he.isDir_eq ▸ hdir)
      rw [dirNames_eq he hds]
      exact hnodup

end Names

section Step

variable {env : Env} {s s' : Wfs} {L L' : List Entry} {call : Call} {ret : ℤ}

theorem wellNamed_append {es : List Entry} (h : WellNamed L)
    (hes : ∀ e ∈ es, e.isDir → ∃ ds, e.bytes = contents ds ∧ (ds.map Dentry.name).Nodup) :
    WellNamed (L ++ es) := by
  intro e he
  rcases List.mem_append.mp he with he | he
  · exact h e he
  · exact hes e he

theorem wellNamed_modifyAt {f : Inode → Inode} {b : ℕ} (h : WellNamed L)
    (hmode : ∀ i, (f i).mode = i.mode) : WellNamed (modifyAt f b L 8) := by
  intro e he hdir
  obtain ⟨d, hd, hed⟩ := mem_modifyAt he
  rcases hed with rfl | rfl
  · exact h _ hd hdir
  · rw [Entry.isDir, hmode] at hdir
    exact h d hd hdir

/-- A stored name does not change when it is cut again. -/
theorem nameField_take (name : List UInt8) : nameField (name.take 31) = nameField name := by
  rw [nameField, nameField, List.take_take, Nat.min_self]

theorem change_wellNamed (hc : Change env s L call ret s' L') (h : Rep s L)
    (hfresh : FreshName s ⟨env, call⟩) (hw : WellNamed L) : WellNamed L' := by
  cases hc with
  | quiet hq hneg => exact hw
  | touched hres hf hfile => exact wellNamed_modifyAt hw fun _ => rfl
  | @created _ path name mode dir d r hcall hres hin hspace hnumber =>
    have he := hin.found.entryAt h
    obtain ⟨ds, hds, hnodup⟩ := hw d hin.found.mem hin.isDir
    have hlook : get_path_inode s path = .ok (sync s L, r) := by
      rw [get_path_inode_rep h, hres]
    have hnew := (hfresh.2 path mode hcall).2 _ dir name hlook (hin.parentDir_eq h) hspace
    rw [dirNames_eq he hds] at hnew
    have hclean : (0 : UInt8) ∉ name.take 31 := fun hmem => hin.clean (List.mem_of_mem_take hmem)
    refine wellNamed_append hw ?_
    rw [List.forall_mem_cons, List.forall_mem_singleton]
    refine ⟨fun _ => ⟨ds ++ [⟨name.take 31, nodeNumber (sync s L) d, by simp, hclean, hnumber⟩],
      ?_, ?_⟩, fun _ => ⟨[], rfl, List.nodup_nil⟩⟩
    · rw [contents_concat, nameField_take, ← hds, dirEntry]
    · rw [List.map_append, List.nodup_append]
      refine ⟨hnodup, by simp, fun x hx y hy hxy => hnew ?_⟩
      rw [List.map_singleton, List.mem_singleton] at hy
      rwa [hxy, hy] at hx
  | headed hres hf hfile hoff hspace => exact hw
  | written hres hf hfile hoff hspace =>
    refine wellNamed_append hw ?_
    rw [List.forall_mem_singleton]
    intro hdir
    rw [fileEntry_isDir, hfile] at hdir
    cases hdir
  | missed hres hf hin hfound => exact hw
  | @unlinked path name file dir e d hres hf hin hfound =>
    obtain ⟨ds, hds, hnodup⟩ := hw d hin.found.mem hin.isDir
    have hup := hin.found.upper h
    have hbytes : shrunkBytes env (sync s L) dir d name =
        contents (ds.filter fun d => d.name ≠ name) :=
      shrunkBytes_dentries (hin.found.entryAt h.sync)
        (by rw [sync_head, Entry.span]; omega) hds hin.clean hnodup hfound
    refine wellNamed_append (wellNamed_modifyAt hw fun _ => rfl) ?_
    rw [List.forall_mem_singleton]
    exact fun _ => ⟨_, hbytes, hnodup.sublist (List.filter_sublist.map _)⟩

def Invariant (s : Wfs) : Prop := ∃ L, Rep s L ∧ WellNamed L

theorem step_namesKept {e : Event} (h : Invariant s) (hf : FreshName s e) :
    NamesKept s e ∧ ∀ s', next s e = some s' → Invariant s' := by
  obtain ⟨L, hrep, hw⟩ := h
  have hinv : ∀ s', next s e = some s' → ∃ L, Rep s' L ∧ WellNamed L := by
    intro s' hn
    obtain ⟨r, hr⟩ := next_some hn
    obtain ⟨L', hc⟩ := handle_change hrep hf.1 hr
    exact ⟨L', hc.rep hrep hf.1, change_wellNamed hc hrep hf hw⟩
  refine ⟨⟨fun path mode a s' r hc hloc _ => ?_, fun s' hn => ?_⟩, hinv⟩
  · rw [(hf.2 path mode hc).1] at hloc
    cases hloc
  · obtain ⟨L', hrep', hw'⟩ := hinv s' hn
    exact distinctNames_of_wellNamed hrep' hw'

theorem run_namesKept {es : List Event} (h : Invariant s) (hf : Along FreshName s es) :
    Along NamesKept s es := Runs.along_of_along (fun _ _ => step_namesKept) h hf

end Step

theorem mkfs_invariant (disk : Mem) (total_size : ℕ) (time : ℕ → ℕ) :
    Invariant (mkfs disk total_size time) := by
  refine ⟨_, mkfs_rep disk total_size time, ?_⟩
  intro e he _
  rw [List.mem_singleton] at he
  exact ⟨[], by rw [he]; rfl, List.nodup_nil⟩

/-- From a fresh image, names stay distinct in every run whose creations all ask for paths
that do not resolve and names that are new after the cut. -/
theorem fresh_names_distinct {disk : Mem} {total_size : ℕ} {time : ℕ → ℕ} {es : List Event}
    (hf : Along FreshName (mkfs disk total_size time) es) :
    DistinctNames (mkfs disk total_size time) ∧ Along NamesKept (mkfs disk total_size time) es := by
  obtain ⟨L, hrep, hw⟩ := mkfs_invariant disk total_size time
  exact ⟨distinctNames_of_wellNamed hrep hw, run_namesKept ⟨L, hrep, hw⟩ hf⟩

theorem freshName_mknod {s : Wfs} {env : Env} {path : Path} {dir : ℕ} {name : List UInt8}
    (hroom : Roomy s (.mknod path)) (hloc : located s path = none)
    (hp : parentDir s path = some (dir, name)) (hnew : name.take 31 ∉ dirNames s.data dir) :
    FreshName s ⟨env, .mknod path⟩ := by
  refine ⟨hroom, fun path' mode hc => ?_⟩
  simp only [creates, Option.some.injEq, Prod.mk.injEq] at hc
  obtain ⟨rfl, _⟩ := hc
  refine ⟨hloc, fun r dir' name' _ hp' _ => ?_⟩
  rw [hp] at hp'
  cases hp'
  exact hnew

theorem two_names_distinct : Along FreshName (zeroDisk 1000) [mknodA, mknodB] ∧
    Along NamesKept (zeroDisk 1000) [mknodA, mknodB] := by
  have hfresh : Along FreshName (zeroDisk 1000) [mknodA, mknodB] := by
    refine ⟨@freshName_mknod _ _ _ 8 [97] ?_ ?_ ?_ ?_, fun s hs => ⟨?_, fun _ _ => trivial⟩⟩
    · unfold Roomy
      decide +kernel
    · decide +kernel
    · decide +kernel
    · decide +kernel
    · rw [next_getD hs]
      refine @freshName_mknod _ _ _ 52 [98] ?_ ?_ ?_ ?_
      · unfold Roomy
        decide +kernel
      · decide +kernel
      · decide +kernel
      · decide +kernel
  exact ⟨hfresh, (fresh_names_distinct hfresh).2⟩

/-- The second `mknod("/a")` returns 0 and the root, now at 180, holds the name twice. -/
theorem mknod_twice_duplicates : ¬ Along NamesKept (zeroDisk 1000) [mknodA, mknodA] ∧
    ∃ s s' r, run (zeroDisk 1000) [mknodA] = some s ∧ located s [slash, 97] = some 136 ∧
      handle quietEnv s mknodA.call = .ok (s', r) ∧ r.ret = 0 ∧
      dirNames s'.data 180 = [[97], [97]] := by
  have hfirst : ((next (zeroDisk 1000) mknodA).any fun s =>
      decide (located s [slash, 97] = some 136) &&
      (handle quietEnv s mknodA.call).toOption.any fun p =>
        decide (p.2.ret = 0 ∧ dirNames p.1.data 180 = [[97], [97]])) = true := by
    decide +kernel
  obtain ⟨s, hs, hst⟩ := (Option.any_eq_true _ _).mp hfirst
  rw [Bool.and_eq_true, decide_eq_true_eq] at hst
  obtain ⟨hloc, hsecond⟩ := hst
  obtain ⟨⟨s', r⟩, hr, hsecond⟩ := Runs.exists_ok_of_any hsecond
  rw [decide_eq_true_eq] at hsecond
  refine ⟨fun hkept => ?_, s, s', r, by rw [run, Runs.run, hs]; rfl, hloc, hr, hsecond.1, hsecond.2⟩
  have hret := (((hkept.2 s hs).1).1 _ _ _ s' r rfl hloc hr).1
  rw [hsecond.1] at hret
  exact absurd hret (by decide)

end WfsNames
