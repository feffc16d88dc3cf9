import OsProjects.WfsRuns
import OsProjects.WfsDentries

/-! # Allocation of inode numbers

A creation takes the first number that `all_le` does not hold. There is no branch for the
case that all 256 are held: the new node then keeps the word that lies at its place.
-/
namespace WfsInodes

open ByteMemory WfsLookup WfsHandlers WfsLog WfsPaths WfsAppend WfsChange WfsDentries WfsRuns

/-- `get_number_inode` finds the number, and its last entry is not deleted. -/
def Live (s : Wfs) (n : ℕ) : Prop := ∃ s' a, get_number_inode s n = .ok (s', some a)

def RootAlive (s : Wfs) : Prop :=
  ∃ s' a, get_number_inode s 0 = .ok (s', some a) ∧ isDir s.data a = true

/-- The new node, whose entry is the last of the log, has a number that was not live; when
none is left the call is an error without effect; and the root survives. -/
def Unshared (s : Wfs) (e : Event) : Prop :=
  ∀ s' r, handle e.env s e.call = .ok (s', r) →
    RootAlive s' ∧ ((creates e.call).isSome →
      (r.ret = 0 → ¬ Live s (loadWord s'.data (s'.head - 44))) ∧
      ((∀ n < 256, Live s n) →
        r.ret < 0 ∧ s'.head = s.head ∧ ∀ x < s.head, s'.data x = s.data x))

/-- A creation that gets to its append finds a number that is not live. -/
def SpareNumber (s : Wfs) (call : Call) : Prop :=
  ∀ path mode r dir name, creates call = some (path, mode) → get_path_inode s path = .ok r →
    parentDir s path = some (dir, name) → s.head + 44 ≤ s.total_size → ∃ n < 256, ¬ Live s n

/-- No unlink takes the root, inode 0, out of another directory. -/
def RootSpared (s : Wfs) : Call → Prop
  | .unlink path => ∀ file dir name, located s path = some file →
      parentDir s path = some (dir, name) → (lookupDentry s.data dir name).isSome →
      loadWord s.data file = 0 → loadWord s.data dir = 0
  | _ => True

def Spare (s : Wfs) (e : Event) : Prop :=
  Roomy s e.call ∧ SpareNumber s e.call ∧ RootSpared s e.call

/-- The last entry of inode 0 is a live directory. -/
def RootAt (L : List Entry) : Prop := ∃ a e, Found L a e ∧ e.number = 0 ∧ e.isDir

section Allocation

variable {env : Env} {s s' : Wfs} {L L' : List Entry} {call : Call} {ret : ℤ} {n a : ℕ} {d e : Entry}

theorem live_iff (h : Rep s L) : Live s n ↔ table L n ≠ 0 := by
  rw [Live, get_number_inode_rep h, table_eq]
  cases hl : lastAt L 8 n with
  | none => simp
  | some r =>
    obtain ⟨b, e⟩ := r
    have hb := (h.tiled.lastAt hl).2.1
    by_cases hd : e.inode.deleted = 0
    · simp only [hd, ne_eq, not_true_eq_false, if_false, if_true]
      exact iff_of_true ⟨_, b, rfl⟩ (by omega)
    · simp [hd]

theorem table_ne_zero (hf : Found L a e) (h : Rep s L) : table L e.number ≠ 0 := by
  have hlo := hf.lower h
  rw [table_eq, hf.last]
  dsimp only
  rw [if_pos hf.live]
  omega

theorem firstFree_some {t : ℕ → ℕ} (h : firstFree t = some n) : t n = 0 := by
  simpa using List.find?_some h

theorem firstFree_none {t : ℕ → ℕ} (h : firstFree t = none) : ∀ i < 256, t i ≠ 0 := by
  intro i hi
  have hall := List.find?_eq_none.mp h i (List.mem_range.mpr hi)
  simpa using hall

/-- With a number to spare the new node gets one that is not live. -/
theorem nodeNumber_free (h : Rep s L) (hspare : ∃ n < 256, ¬ Live s n) :
    table L (nodeNumber (sync s L) d) = 0 := by
  obtain ⟨n, hn, hdead⟩ := hspare
  rw [live_iff h, not_not] at hdead
  rw [nodeNumber]
  cases hfree : firstFree (sync s L).all_le with
  | none => exact absurd hdead (firstFree_none hfree n hn)
  | some i => exact firstFree_some hfree

theorem rootAlive_of_rootAt (h : Rep s L) (hr : RootAt L) : RootAlive s := by
  obtain ⟨a, e, hf, hn, hdir⟩ := hr
  have hl := hf.last
  rw [hn] at hl
  refine ⟨sync s L, a, ?_, ?_⟩
  · rw [get_number_inode_rep h, hl]
    simp [hf.live]
  · rw [(hf.entryAt h).isDir_eq]
    exact hdir

theorem rootAt_concat_self (hn : e.number = 0) (hlive : e.inode.deleted = 0) (hdir : e.isDir) :
    RootAt (L ++ [e]) :=
  ⟨8 + spans L, e, ⟨by rw [lastAt_concat, if_pos rfl], hlive⟩, hn, hdir⟩

theorem RootAt.concat (hr : RootAt L) (he : e.number = 0 → e.inode.deleted = 0 ∧ e.isDir) :
    RootAt (L ++ [e]) := by
  by_cases hn : e.number = 0
  · obtain ⟨hlive, hdir⟩ := he hn
    exact rootAt_concat_self hn hlive hdir
  · obtain ⟨a, r, hf, hr0, hdir⟩ := hr
    exact ⟨a, r, ⟨by rw [lastAt_concat, if_neg (by rw [hr0]; exact hn), hf.last], hf.live⟩, hr0, hdir⟩

theorem RootAt.modifyAt {f : Inode → Inode} {b : ℕ} (hr : RootAt L)
    (hnum : ∀ i, (f i).inode_number = i.inode_number) (hmode : ∀ i, (f i).mode = i.mode)
    (hlive : ∀ e, Found L b e → e.number = 0 → (f e.inode).deleted = 0) :
    RootAt (modifyAt f b L 8) := by
  obtain ⟨a, r, hf, hr0, hdir⟩ := hr
  have hlast : lastAt (WfsChange.modifyAt f b L 8) 8 r.number =
      some (a, if a = b then ⟨f r.inode, r.bytes⟩ else r) := by
    rw [lastAt_modifyAt hnum, hf.last]
    rfl
  by_cases hab : a = b
  · subst hab
    rw [if_pos rfl] at hlast
    refine ⟨a, ⟨f r.inode, r.bytes⟩, ⟨?_, hlive r hf hr0⟩, ?_, ?_⟩
    · rw [← hlast, Entry.number, hnum, ← Entry.number]
    · rw [Entry.number, hnum]
      exact hr0
    · rw [Entry.isDir, hmode]
      exact hdir
  · rw [if_neg hab] at hlast
    exact ⟨a, r, ⟨hlast, hf.live⟩, hr0, hdir⟩

/-- The root, if a lookup found it at `a`. -/
theorem RootAt.isDir_of_found (hr : RootAt L) (hf : Found L a e) (hn : e.number = 0) : e.isDir := by
  obtain ⟨b, r, hfr, hr0, hdir⟩ := hr
  have hlast := hf.last
  rw [hn, ← hr0, hfr.last] at hlast
  cases hlast
  exact hdir

theorem change_rootAt (hc : Change env s L call ret s' L') (h : Rep s L)
    (hspare : Spare s ⟨env, call⟩) (hr : RootAt L) : RootAt L' := by
  obtain ⟨_, hnumber, hroot⟩ := hspare
  cases hc with
  | quiet hq hneg => exact hr
  | touched hres hf hfile => exact hr.modifyAt (fun _ => rfl) (fun _ => rfl) fun e he _ => he.live
  | @created _ path name mode dir d r hcall hres hin hspace hnum =>
    have hlook : get_path_inode s path = .ok (sync s L, r) := by
      rw [get_path_inode_rep h, hres]
    have hfree : table L (nodeNumber (sync s L) d) = 0 := nodeNumber_free h
      (hnumber path mode _ dir name hcall hlook (hin.parentDir_eq h) hspace)
    rw [List.append_cons]
    refine RootAt.concat (hr.concat fun _ => ⟨hin.found.live, hin.isDir⟩) fun hzero => ?_
    obtain ⟨a, root, hfr, hr0, _⟩ := hr
    rw [nodeEntry_number] at hzero
    have hheld := table_ne_zero hfr h
    rw [hr0] at hheld
    rw [hzero] at hfree
    exact absurd hfree hheld
  | headed hres hf hfile hoff hspace => exact hr
  | written hres hf hfile hoff hspace =>
    refine hr.concat fun hzero => ?_
    rw [fileEntry_number] at hzero
    have hdir := hr.isDir_of_found hf hzero
    rw [hfile] at hdir
    cases hdir
  | missed hres hf hin hfound => exact hr
  | @unlinked path name file dir e d hres hf hin hfound =>
    by_cases hd0 : d.number = 0
    · exact rootAt_concat_self hd0 hin.found.live hin.isDir
    · refine RootAt.concat (hr.modifyAt (fun _ => rfl) (fun _ => rfl) fun x hx hx0 => ?_)
        fun hzero => absurd hzero hd0
      have hdir0 := hroot file dir name (located_of_resolve h hres) (hin.parentDir_eq h)
        ((hin.shrunk_iff h hres).mp hfound) ((hx.entryAt h).number_eq.trans hx0)
      exact absurd ((hin.found.entryAt h).number_eq.symm.trans hdir0) hd0

theorem change_unshared (hc : Change env s L call ret s' L') (h : Rep s L)
    (hspare : Spare s ⟨env, call⟩) (hcreate : (creates call).isSome) :
    (ret = 0 → ¬ Live s (loadWord s'.data (s'.head - 44))) ∧
      ((∀ n < 256, Live s n) → ret < 0 ∧ s'.head = s.head ∧ ∀ x < s.head, s'.data x = s.data x) := by
  obtain ⟨hroom, hnumber, _⟩ := hspare
  have hh := h.eight_le
  cases hc with
  | quiet hq hneg =>
    have hlt := hneg hcreate
    exact ⟨fun hzero => by omega, fun _ => ⟨hlt, rfl, fun _ _ => rfl⟩⟩
  | @created _ path name mode dir d r hcall hres hin hspace hnum =>
    have hlook : get_path_inode s path = .ok (sync s L, r) := by
      rw [get_path_inode_rep h, hres]
    have hsome := hnumber path mode _ dir name hcall hlook (hin.parentDir_eq h) hspace
    constructor
    · intro _
      have hfit := hroom.created h hcall hin hspace
      have hhead : loadWord (nodeImage env (sync s L) d name mode) 4 =
          s.head + 128 + d.bytes.length := nodeImage_head hh (by rw [sync_head]; omega)
      have hplace : loadWord (nodeImage env (sync s L) d name mode) 4 - 44 =
          s.head + 84 + d.bytes.length := by omega
      have hnode : loadWord (nodeImage env (sync s L) d name mode)
          (s.head + 84 + d.bytes.length) = nodeNumber (sync s L) d :=
        (nodeImage_node (s := sync s L) hh (creates_mode hcall)).number_eq
      have hlast : loadWord (nodeImage env (sync s L) d name mode)
          (loadWord (nodeImage env (sync s L) d name mode) 4 - 44) = nodeNumber (sync s L) d := by
        rw [hplace, hnode]
      intro hlive
      exact (live_iff h).mp hlive ((congrArg (table L) hlast).trans (nodeNumber_free h hsome))
    · intro hall
      obtain ⟨n, hn, hdead⟩ := hsome
      exact absurd (hall n hn) hdead
  | touched => cases hcreate
  | headed => cases hcreate
  | written => cases hcreate
  | missed => cases hcreate
  | unlinked => cases hcreate

end Allocation

def Invariant (s : Wfs) : Prop := ∃ L, Rep s L ∧ RootAt L

theorem step_unshared {s : Wfs} {e : Event} (h : Invariant s) (hs : Spare s e) :
    Unshared s e ∧ ∀ s', next s e = some s' → Invariant s' := by
  obtain ⟨L, hrep, hroot⟩ := h
  constructor
  · intro s' r hr
    obtain ⟨L', hc⟩ := handle_change hrep hs.1 hr
    exact ⟨rootAlive_of_rootAt (hc.rep hrep hs.1) (change_rootAt hc hrep hs hroot),
      change_unshared hc hrep hs⟩
  · intro s' hn
    obtain ⟨r, hr⟩ := next_some hn
    obtain ⟨L', hc⟩ := handle_change hrep hs.1 hr
    exact ⟨L', hc.rep hrep hs.1, change_rootAt hc hrep hs hroot⟩

theorem run_unshared {s : Wfs} {es : List Event} (h : Invariant s) (hs : Along Spare s es) :
    Along Unshared s es := Runs.along_of_along (fun _ _ => step_unshared) h hs

theorem mkfs_rootAt (time : ℕ → ℕ) : RootAt [rootEntry time] :=
  ⟨8, rootEntry time, ⟨by simp [lastAt], rfl⟩, rfl, by simp [Entry.isDir, rootEntry, S_IFDIR]⟩

/-- From a fresh image, in every run whose creations find a number to spare, no number is
shared and the root stays a live directory. -/
theorem spare_run_unshared {disk : Mem} {total_size : ℕ} {time : ℕ → ℕ} {es : List Event}
    (hs : Along Spare (mkfs disk total_size time) es) :
    RootAlive (mkfs disk total_size time) ∧ Along Unshared (mkfs disk total_size time) es :=
  ⟨rootAlive_of_rootAt (mkfs_rep disk total_size time) (mkfs_rootAt time),
    run_unshared ⟨_, mkfs_rep disk total_size time, mkfs_rootAt time⟩ hs⟩

/-- `unlink("/a")`. -/
def unlinkA : Event := ⟨quietEnv, .unlink ⟨[slash, 97], zero_notMem_pathA⟩⟩

theorem not_live {s : Wfs} {n : ℕ}
    (h : (get_number_inode s n).toOption.bind Prod.snd = none) : ¬ Live s n := by
  rintro ⟨s', a, hn⟩
  rw [hn] at h
  cases h

theorem spare_creation {s : Wfs} {e : Event} {n : ℕ} (hroom : Roomy s e.call)
    (hcall : (creates e.call).isSome) (hn : n < 256)
    (hdead : (get_number_inode s n).toOption.bind Prod.snd = none) : Spare s e := by
  refine ⟨hroom, fun _ _ _ _ _ _ _ _ _ => ⟨n, hn, not_live hdead⟩, ?_⟩
  cases hc : e.call with
  | unlink path =>
    rw [hc] at hcall
    cases hcall
  | _ => trivial

/-- The number of a file that was removed is given to the next one. -/
theorem removed_number_unshared : Along Spare (zeroDisk 1000) [mknodA, unlinkA, mknodB] ∧
    Along Unshared (zeroDisk 1000) [mknodA, unlinkA, mknodB] ∧
    ∃ s, run (zeroDisk 1000) [mknodA, unlinkA, mknodB] = some s ∧
      loadWord s.data (s.head - 44) = 1 := by
  have hspare : Along Spare (zeroDisk 1000) [mknodA, unlinkA, mknodB] := by
    refine ⟨@spare_creation _ _ 1 ?_ rfl (by decide) (by decide +kernel), fun s hs => ?_⟩
    · unfold Roomy
      decide +kernel
    have hs' := next_getD hs
    refine ⟨⟨?_, ?_, ?_⟩, fun t ht => ⟨?_, fun _ _ => trivial⟩⟩
    · rw [hs']
      unfold Roomy
      decide +kernel
    · intro path mode r dir name hcall
      cases hcall
    · intro file dir name hfile _ _ hzero
      have hnumber : (located s [slash, 97]).map (loadWord s.data) = some 1 := by
        rw [hs']
        decide +kernel
      rw [hfile, Option.map_some, hzero] at hnumber
      cases hnumber
    · have ht' := next_getD ht
      refine @spare_creation _ _ 1 ?_ rfl (by decide) ?_
      · rw [ht', hs']
        unfold Roomy
        decide +kernel
      · rw [ht', hs']
        decide +kernel
  have hlast : ((run (zeroDisk 1000) [mknodA, unlinkA, mknodB]).any fun s =>
      decide (loadWord s.data (s.head - 44) = 1)) = true := by
    decide +kernel
  obtain ⟨s, hs, hnumber⟩ := (Option.any_eq_true _ _).mp hlast
  exact ⟨hspare, (spare_run_unshared hspare).2, s, hs, of_decide_eq_true hnumber⟩

def letter (k : ℕ) : UInt8 := UInt8.ofNat (97 + k)

/-- The two-letter name of the `i`-th of 256 files. -/
def fileName (i : ℕ) : List UInt8 := [letter (i / 16 % 16), letter (i % 16)]

theorem letter_ne : ∀ k < 16, letter k ≠ 0 ∧ letter k ≠ slash := by decide

theorem letter_injective : ∀ k < 16, ∀ l < 16, letter k = letter l → k = l := by decide

theorem fileName_clean (i : ℕ) : (0 : UInt8) ∉ fileName i ∧ slash ∉ fileName i := by
  have h₁ := letter_ne (i / 16 % 16) (Nat.mod_lt _ (by decide))
  have h₂ := letter_ne (i % 16) (Nat.mod_lt _ (by decide))
  simp [fileName, h₁.1.symm, h₁.2.symm, h₂.1.symm, h₂.2.symm]

theorem fileName_injective {i j : ℕ} (hi : i < 256) (hj : j < 256) (h : fileName i = fileName j) :
    i = j := by
  simp only [fileName, List.cons.injEq, and_true] at h
  have h₁ := letter_injective _ (Nat.mod_lt _ (by decide)) _ (Nat.mod_lt _ (by decide)) h.1
  have h₂ := letter_injective _ (Nat.mod_lt _ (by decide)) _ (Nat.mod_lt _ (by decide)) h.2
  omega

def mknodFile (i : ℕ) : Event :=
  ⟨quietEnv, .mknod ⟨slash :: fileName i, by simp [fileName_clean i, slash]⟩⟩

/-- After `k` creations the numbers `0, ..., k` are live, the root holds the `k` names, and
the image behind the log is still zero. -/
structure Filled (k : ℕ) (s : Wfs) (L : List Entry) : Prop where
  rep : Rep s L
  total : s.total_size = 4194304
  bound : s.head ≤ 52 + 10328 * k
  zero : ∀ x, s.head ≤ x → s.data x = 0
  live : ∀ n < 256, table L n ≠ 0 ↔ n ≤ k
  root : ∃ a d ds, Found L a d ∧ d.number = 0 ∧ d.isDir ∧ d.bytes = contents ds ∧
    ds.map Dentry.name = (List.range k).map fileName

section Exhaustion

variable {s : Wfs} {L : List Entry} {k : ℕ}

theorem Filled.nodeNumber_eq (h : Filled k s L) {d : Entry} :
    nodeNumber (sync s L) d = if k < 255 then k + 1 else 0 := by
  rw [nodeNumber, sync_all_le]
  cases hfree : firstFree (table L) with
  | some i =>
    have hi := firstFree_lt hfree
    have hzero : table L i = 0 := firstFree_some hfree
    have hmin : ∀ j < i, table L j ≠ 0 := by
      rw [firstFree, List.find?_range_eq_some] at hfree
      intro j hj
      simpa using hfree.2.2 j hj
    have hki : k < i := by
      by_contra hle
      exact (h.live i hi).mpr (by omega) hzero
    have hik : i = k + 1 := by
      by_contra hne
      have := (h.live (k + 1) (by omega)).mp (hmin (k + 1) (by omega))
      omega
    dsimp only
    rw [if_pos (by omega), hik]
  | none =>
    have hk : ¬ k < 255 := by
      intro hk
      have := (h.live (k + 1) (by omega)).mp (firstFree_none hfree (k + 1) (by omega))
      omega
    dsimp only
    rw [if_neg hk, sync_data, sync_head,
      @loadWord_congr _ (fun _ => 0) _ fun x hx _ => h.zero x (by omega)]
    rfl

theorem splitLast_file : splitLast (slash :: fileName k) = some ([], fileName k) :=
  @splitLast_append [] _ (fileName_clean k).2

theorem strtok_file : strtok [] (slash :: fileName k) = [fileName k] := by
  rw [strtok_splitLast splitLast_file]
  rfl

/-- A new name is not found, and the root is its parent. -/
theorem Filled.resolve (h : Filled k s L) (hk : k ≤ 255) {a : ℕ} {d : Entry} {ds : List Dentry}
    (hf : Found L a d) (h0 : d.number = 0) (hdir : d.isDir) (hds : d.bytes = contents ds)
    (hnames : ds.map Dentry.name = (List.range k).map fileName) :
    WfsLog.resolve s.data L (slash :: fileName k) = .ok none ∧
      WfsLog.resolve s.data L [slash] = .ok (some a) := by
  have he := hf.entryAt h.rep
  have hlast := hf.last
  rw [h0] at hlast
  have hgood : ¬ (d.inode.deleted ≠ 0 ∨ isDir s.data a = false) := by
    rw [he.isDir_eq, hdir]
    simp [hf.live]
  have hmissing : ds.find? (fun e => e.name = fileName k) = none := by
    rw [List.find?_eq_none]
    intro e hmem heq
    have hname : e.name ∈ (List.range k).map fileName := hnames ▸ List.mem_map_of_mem hmem
    obtain ⟨i, hi, hei⟩ := List.mem_map.mp hname
    rw [List.mem_range] at hi
    rw [decide_eq_true_eq, ← hei] at heq
    have := fileName_injective (by omega) (by omega) heq
    omega
  constructor
  · rw [resolve_eq, hlast]
    dsimp only
    rw [if_neg hgood, strtok_file, walkLog]
    rcases lookupDentry_dentries he hds (fileName_clean k).1 with ⟨b, e, _, hsome, _⟩ | ⟨hnone, _⟩
    · rw [hmissing] at hsome
      cases hsome
    · rw [hnone]
  · rw [resolve_eq, hlast]
    dsimp only
    rw [if_neg hgood]
    rfl

/-- The state after the `k`-th creation. -/
def filledNext (s : Wfs) (L : List Entry) (d : Entry) (k : ℕ) : Wfs :=
  { sync s L with
    data := nodeImage quietEnv (sync s L) d (fileName k) S_IFREG
    all_le := Function.update (table L) (nodeNumber (sync s L) d) (s.head + 84 + d.bytes.length) }

theorem Filled.create_eq (h : Filled k s L) (hk : k ≤ 255) {a : ℕ} {d : Entry} {ds : List Dentry}
    (hf : Found L a d) (h0 : d.number = 0) (hdir : d.isDir) (hds : d.bytes = contents ds)
    (hnames : ds.map Dentry.name = (List.range k).map fileName)
    (hroom : s.head + 128 + d.bytes.length < 4294967296) :
    create quietEnv s (slash :: fileName k) S_IFREG = .ok (filledNext s L d k, 0) := by
  obtain ⟨hres, hpar⟩ := h.resolve hk hf h0 hdir hds hnames
  have he := hf.entryAt h.rep
  have hup := hf.upper h.rep
  have hbound := h.bound
  have hsmall : nodeNumber (sync s L) d < 256 := by
    rw [h.nodeNumber_eq]
    split_ifs <;> omega
  have hisDir : ¬ isDir s.data a = false := by
    rw [he.isDir_eq, hdir]
    simp
  have hspace : ¬ s.head + 44 > s.total_size := by
    rw [h.total]
    omega
  have hroot : parentPath [] = [slash] := rfl
  rw [create_rep h.rep, hres, splitLast_file]
  dsimp only
  rw [hroot, hpar]
  dsimp only
  have hentry : EntryAt (sync s L).data a d := he
  rw [if_neg hisDir, if_neg hspace, appendNode_eq hentry (hf.lower h.rep)
    (by rw [sync_head, Entry.span]; omega) (by rw [sync_head]; omega), if_pos hsmall]
  rfl

theorem Filled.step (h : Filled k s L) (hk : k ≤ 255) : ∃ s' r,
    handle quietEnv s (mknodFile k).call = .ok (s', r) ∧ r.ret = 0 ∧
      loadWord s'.data (s'.head - 44) = (if k < 255 then k + 1 else 0) ∧
      (k < 255 → ∃ L', Filled (k + 1) s' L') := by
  obtain ⟨a, d, ds, hf, h0, hdir, hds, hnames⟩ := h.root
  have hh := h.rep.eight_le
  have hbound := h.bound
  have hlen : d.bytes.length = 40 * k := by
    have hcount := congrArg List.length hnames
    rw [List.length_map, List.length_map, List.length_range] at hcount
    rw [hds, contents_length, hcount]
  have hroom : s.head + 128 + d.bytes.length < 4294967296 := by omega
  have hcreate := h.create_eq hk hf h0 hdir hds hnames hroom
  have hhead : (filledNext s L d k).head = s.head + 128 + d.bytes.length :=
    nodeImage_head (s := sync s L) hh hroom
  have hnode : EntryAt (filledNext s L d k).data (s.head + 84 + d.bytes.length)
      (nodeEntry quietEnv (nodeNumber (sync s L) d) S_IFREG) :=
    nodeImage_node (s := sync s L) hh (by decide)
  refine ⟨filledNext s L d k, ⟨0, none, [], []⟩, ?_, rfl, ?_, fun hlt => ?_⟩
  · simp only [handle, mknodFile, plain, wfs_mknod, hcreate]
  · have hplace : (filledNext s L d k).head - 44 = s.head + 84 + d.bytes.length := by omega
    rw [hplace, hnode.number_eq, nodeEntry_number, h.nodeNumber_eq]
  · have hnum : nodeNumber (sync s L) d = k + 1 := by rw [h.nodeNumber_eq, if_pos hlt]
    refine ⟨_, nodeImage_rep h.rep.sync hf hdir (by decide) hroom (by omega), h.total, ?_, ?_, ?_, ?_⟩
    · show (filledNext s L d k).head ≤ _
      omega
    · intro x hx
      have hx' : (filledNext s L d k).head ≤ x := hx
      rw [hhead] at hx'
      exact (nodeImage_frame (s := sync s L) (by rw [sync_head]; omega) hh).trans
        (h.zero x (by omega))
    · intro n hn
      rw [List.append_cons, table_concat, table_concat, dirEntry_number, nodeEntry_number, hnum, h0]
      have hlive := h.live n hn
      have hnew : (nodeEntry quietEnv (k + 1) S_IFREG).inode.deleted = 0 := rfl
      have hcopy : (dirEntry (quietEnv.time 0) d (d.bytes ++ nameField (fileName k) ++
        leBytes 8 (k + 1))).inode.deleted = 0 := hf.live
      rw [if_pos hnew, if_pos hcopy]
      split_ifs <;> omega
    · rw [List.append_cons, hnum]
      have hclean := (fileName_clean k).1
      refine ⟨8 + spans L, dirEntry (quietEnv.time 0) d
        (d.bytes ++ nameField (fileName k) ++ leBytes 8 (k + 1)),
        ds ++ [⟨fileName k, k + 1, by simp [fileName], hclean, by omega⟩],
        ⟨?_, hf.live⟩, h0, hdir, ?_, ?_⟩
      · rw [lastAt_concat, nodeEntry_number, dirEntry_number, if_neg (by omega), lastAt_concat,
          dirEntry_number, if_pos rfl]
      · rw [contents_concat, ← hds, dirEntry]
      · rw [List.map_append, hnames, List.range_succ, List.map_append]
        rfl

theorem filled_run (hk : k ≤ 255) : ∃ s L,
    run (zeroDisk 4194304) ((List.range k).map mknodFile) = some s ∧ Filled k s L := by
  induction k with
  | zero =>
    refine ⟨zeroDisk 4194304, _, rfl, mkfs_rep _ _ _, rfl, by rw [zeroDisk, mkfs_head], ?_, ?_, ?_⟩
    · intro x hx
      rw [zeroDisk, mkfs_head] at hx
      exact mkfs_outside hx
    · intro n _
      rw [← List.nil_append [_], table_concat]
      rcases Nat.eq_zero_or_pos n with rfl | hn
      · simp [rootEntry, Entry.number]
      · have hne : ¬ (rootEntry fun _ => 0).number = n := by
          simp only [rootEntry, Entry.number]
          omega
        rw [if_neg hne, table_of_absent (by simp)]
        omega
    · exact ⟨8, rootEntry fun _ => 0, [], ⟨by decide, rfl⟩, rfl, by decide, rfl, rfl⟩
  | succ k ih =>
    obtain ⟨s, L, hrun, hfilled⟩ := ih (by omega)
    obtain ⟨s', r, hr, _, _, hnext⟩ := hfilled.step (by omega)
    obtain ⟨L', hL'⟩ := hnext (by omega)
    refine ⟨s', L', ?_, hL'⟩
    have hstep : next s (mknodFile k) = some s' := by
      rw [next]
      exact hr ▸ rfl
    rw [List.range_succ, List.map_append, run, Runs.run_append_some hrun, List.map_singleton,
      Runs.run, hstep]
    rfl

/-- With 255 files in the root all 256 numbers are live; on a zero-filled disk the next
`wfs_mknod` returns 0 and gives the new file the number of the root. -/
theorem root_number_reused :
    (∃ s s' r, run (zeroDisk 4194304) ((List.range 255).map mknodFile) = some s ∧
      (∀ n < 256, Live s n) ∧ handle quietEnv s (mknodFile 255).call = .ok (s', r) ∧ r.ret = 0 ∧
      loadWord s'.data (s'.head - 44) = 0) ∧
    ¬ Along Unshared (zeroDisk 4194304) ((List.range 256).map mknodFile) := by
  obtain ⟨s, L, hrun, hfilled⟩ := filled_run (k := 255) le_rfl
  obtain ⟨s', r, hr, hret, hnumber, _⟩ := hfilled.step le_rfl
  rw [if_neg (by omega)] at hnumber
  have hall : ∀ n < 256, Live s n := fun n hn =>
    (live_iff hfilled.rep).mpr ((hfilled.live n hn).mpr (by omega))
  refine ⟨⟨s, s', r, hrun, hall, hr, hret, hnumber⟩, fun hunshared => ?_⟩
  rw [List.range_succ, List.map_append] at hunshared
  have hlast := (hunshared.append hrun).1 s' r hr
  refine ((hlast.2 rfl).1 hret) ?_
  rw [hnumber]
  exact hall 0 (by omega)

end Exhaustion

end WfsInodes
