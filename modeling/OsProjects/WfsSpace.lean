import OsProjects.WfsRuns

/-! # Space on the disk

The handlers compare with `total_size` in four places: a creation asks for one entry header
only, a write stores the header before it asks, and an unlink does not ask at all. Runs that
stay out of the gaps between the tests and the appends keep the log inside the disk.
-/
namespace WfsSpace

open ByteMemory WfsLookup WfsHandlers WfsLog WfsAppend WfsChange WfsRuns

/-- The call leaves the log inside the disk and touches nothing behind it; what does not
fit is refused with `-ENOSPC`. -/
def Confined (s : Wfs) (e : Event) : Prop :=
  ∀ s' r, handle e.env s e.call = .ok (s', r) →
    s'.head ≤ s.total_size ∧ s'.total_size = s.total_size ∧
    (∀ x, s.total_size ≤ x → s'.data x = s.data x) ∧
    (s.head + appended s e.call > s.total_size →
      r.ret = -ENOSPC ∧ s'.head = s.head ∧ ∀ x < s.head, s'.data x = s.data x)

/-- A creation that reaches its space test is refused by it or fits. -/
def AmpleCreate (s : Wfs) (path : List UInt8) : Prop :=
  ∀ r dir name, get_path_inode s path = .ok r → parentDir s path = some (dir, name) →
    s.head + 44 > s.total_size ∨ s.head + 128 + fileSize s dir ≤ s.total_size

/-- A write that stores its header has the space for it. -/
def AmpleWrite (s : Wfs) (path : List UInt8) (offset : ℕ) : Prop :=
  ∀ a, located s path = some a → isDir s.data a = false → offset ≤ fileSize s a →
    s.head + 44 ≤ s.total_size

/-- An unlink has the space for the dentries it copies. -/
def AmpleUnlink (s : Wfs) (path : List UInt8) : Prop :=
  ∀ file dir name, located s path = some file → parentDir s path = some (dir, name) →
    s.head + 44 + (if (lookupDentry s.data dir name).isSome then fileSize s dir - 40
      else fileSize s dir) ≤ s.total_size

def AmpleCall (s : Wfs) : Call → Prop
  | .mknod path => AmpleCreate s path
  | .mkdir path => AmpleCreate s path
  | .write path _ offset => AmpleWrite s path offset
  | .unlink path => AmpleUnlink s path
  | _ => True

def Ample (s : Wfs) (e : Event) : Prop := Roomy s e.call ∧ AmpleCall s e.call

section Step

variable {env : Env} {s s' : Wfs} {L L' : List Entry} {call : Call} {ret : ℤ}

theorem ampleCreate_of_creates {path : Path} {mode : ℕ} (hc : creates call = some (path, mode))
    (h : AmpleCall s call) : AmpleCreate s path := by
  cases call <;> simp only [creates, Option.some.injEq, Prod.mk.injEq, reduceCtorEq] at hc
  · exact hc.1 ▸ h
  · exact hc.1 ▸ h

/-- The frame of one change, with the end of what it wrote. -/
theorem change_confined (hc : Change env s L call ret s' L') (h : Rep s L) (hroom : Roomy s call)
    (hample : AmpleCall s call) (hin : s.head ≤ s.total_size) :
    s'.head ≤ s.total_size ∧ s'.total_size = s.total_size ∧
      (∀ x, s.total_size ≤ x → s'.data x = s.data x) ∧
      (s.head + appended s call > s.total_size →
        ret = -ENOSPC ∧ s'.head = s.head ∧ ∀ x < s.head, s'.data x = s.data x) := by
  have hh := h.eight_le
  cases hc with
  | quiet hq hneg =>
    refine ⟨hin, rfl, fun _ _ => rfl, fun hover => ?_⟩
    rcases hq with hzero | ⟨hret, _⟩
    · omega
    · exact ⟨hret, rfl, fun _ _ => rfl⟩
  | @touched _ _ _ a f _ hres hf hfile =>
    have hup := hf.upper h
    have hlo := hf.lower h
    have hhead : loadWord (storeWord s.data (a + 28) (env.time 0)) 4 = s.head :=
      loadWord_storeWord_of_disjoint (by omega)
    refine ⟨hhead.trans_le hin, rfl, fun x hx => storeWord_outside (by omega), fun hover => ?_⟩
    exact absurd hover (by simp only [appended]; omega)
  | @created _ path name mode dir d r hcall hres hindir hspace hnumber =>
    have hap := appended_create h hcall hindir
    have hsize : fileSize s dir = d.bytes.length := (hindir.found.entryAt h).size_eq
    have hfit : s.head + 128 + d.bytes.length ≤ s.total_size := by
      have hlook : get_path_inode s path = .ok (sync s L, r) := by
        rw [get_path_inode_rep h, hres]
      have := ampleCreate_of_creates hcall hample _ _ _ hlook (hindir.parentDir_eq h)
      rw [hsize] at this
      omega
    have hfit32 := hroom.created h hcall hindir hspace
    have hhead : loadWord (nodeImage env (sync s L) d name mode) 4 =
        s.head + 128 + d.bytes.length := nodeImage_head hh (by rw [sync_head]; omega)
    refine ⟨hhead.trans_le hfit, rfl, fun x hx => nodeImage_frame (by rw [sync_head]; omega) hh,
      fun hover => ?_⟩
    exact absurd hover (by rw [hap]; omega)
  | @headed path buf offset a f hres hf hfile hoff hspace =>
    have he := hf.entryAt h
    have hfit : s.head + 44 ≤ s.total_size := by
      refine hample a (located_of_resolve h hres) (by rw [he.isDir_eq, hfile]) ?_
      rw [fileSize, he.size_eq]
      exact hoff
    have hhead : loadWord (headerImage (env.time 0) (sync s L) f) 4 = s.head :=
      headerImage_word (by rw [sync_head]; omega)
    exact ⟨hhead.trans_le hin, rfl,
      fun x hx => headerImage_outside (Or.inr (by rw [sync_head]; omega)),
      fun _ => ⟨rfl, hhead, fun x hx => headerImage_outside (Or.inl hx)⟩⟩
  | @written path buf offset a f hres hf hfile hoff hspace =>
    have hap := @appended_write _ _ _ buf _ _ _ h hres hf hfile hoff
    have hlen := splice_length buf hoff
    have hfit32 := hroom.written h hres hf hfile hoff hspace
    have hhead : loadWord (writeImage env (sync s L) f buf offset) 4 =
        s.head + 44 + (splice f.bytes offset buf).length :=
      writeImage_head (by rw [sync_head]; omega)
    refine ⟨hhead.trans_le (by omega), rfl,
      fun x hx => writeImage_frame hoff hh (by rw [sync_head]; omega), fun hover => ?_⟩
    exact absurd hover (by rw [hap]; omega)
  | @missed path name file dir e d hres hf hindir hfound =>
    have hdvd := h.dirs d hindir.found.mem hindir.isDir
    have hsize : fileSize s dir = d.bytes.length := (hindir.found.entryAt h).size_eq
    have hnone : ¬ (lookupDentry s.data dir name).isSome := by
      rw [← @InDir.shrunk_iff env _ _ _ _ _ _ _ hindir h hres, hfound]
      exact Bool.false_ne_true
    have hfit := hample file dir name (located_of_resolve h hres) (hindir.parentDir_eq h)
    rw [if_neg hnone, hsize] at hfit
    have hhead : loadWord (shrunk env (sync s L) dir d name).1 4 = s.head :=
      loadWord_congr fun x _ _ => shrunk_outside hdvd (Or.inl (by rw [sync_head]; omega))
    refine ⟨hhead.trans_le hin, rfl,
      fun x hx => shrunk_outside hdvd (Or.inr (by rw [sync_head]; omega)), fun hover => ?_⟩
    rw [appended_unlink h hres hindir, if_neg hnone] at hover
    omega
  | @unlinked path name file dir e d hres hf hindir hfound =>
    have hdvd := h.dirs d hindir.found.mem hindir.isDir
    have hup := hf.upper h
    have hsize : fileSize s dir = d.bytes.length := (hindir.found.entryAt h).size_eq
    have hsome : (lookupDentry s.data dir name).isSome := (hindir.shrunk_iff h hres).mp hfound
    have hfit := hample file dir name (located_of_resolve h hres) (hindir.parentDir_eq h)
    rw [if_pos hsome, hsize] at hfit
    have hap := appended_unlink h hres hindir
    rw [if_pos hsome] at hap
    have hfit32 := hroom.unlinked h hres hindir hfound
    have hhead : loadWord (unlinkImage env (sync s L) file dir d name) 4 =
        s.head + 44 + (d.bytes.length - 40) :=
      unlinkImage_head (hf.lower h) (by rw [sync_head]; omega)
    refine ⟨hhead.trans_le hfit, rfl, fun x hx => ?_, fun hover => ?_⟩
    · exact unlinkImage_frame hfound hdvd hh (by rw [sync_head]; omega) (by rw [sync_head]; omega)
        (by omega)
    · exact absurd hover (by rw [hap]; omega)

end Step

/-- A log that `get_number_inode` can read, inside the disk. -/
def Invariant (s : Wfs) : Prop := s.head ≤ s.total_size ∧ ∃ L, Rep s L

theorem step_confined {s : Wfs} {e : Event} (h : Invariant s) (ha : Ample s e) :
    Confined s e ∧ ∀ s', next s e = some s' → Invariant s' := by
  obtain ⟨hin, L, hrep⟩ := h
  constructor
  · intro s' r hr
    obtain ⟨L', hc⟩ := handle_change hrep ha.1 hr
    exact change_confined hc hrep ha.1 ha.2 hin
  · intro s' hn
    obtain ⟨r, hr⟩ := next_some hn
    obtain ⟨L', hc⟩ := handle_change hrep ha.1 hr
    obtain ⟨hle, htotal, _⟩ := change_confined hc hrep ha.1 ha.2 hin
    exact ⟨htotal ▸ hle, L', hc.rep hrep ha.1⟩

theorem run_confined {s : Wfs} {es : List Event} (h : Invariant s) (ha : Along Ample s es) :
    Along Confined s es := Runs.along_of_along (fun _ _ => step_confined) h ha

/-- On every fresh image that holds the initial file system, a run without an append between
what the handlers test and what they write stays inside the disk. -/
theorem ample_run_confined {disk : Mem} {total_size : ℕ} {time : ℕ → ℕ} {es : List Event}
    (hsize : 52 ≤ total_size) (ha : Along Ample (mkfs disk total_size time) es) :
    Along Confined (mkfs disk total_size time) es := by
  refine run_confined ⟨?_, _, mkfs_rep disk total_size time⟩ ha
  rw [mkfs_head]
  exact hsize

/-- The directory, its new dentry and the new node fill a disk of 180 bytes to the last one. -/
theorem exact_fit_confined : 52 ≤ 180 ∧ Along Ample (zeroDisk 180) [mknodA] ∧
    Along Confined (zeroDisk 180) [mknodA] := by
  have hparent : parentDir (zeroDisk 180) [slash, 97] = some (8, [97]) := by decide +kernel
  have hhead : (zeroDisk 180).head = 52 := mkfs_head
  have hsize : fileSize (zeroDisk 180) 8 = 0 := by decide +kernel
  have hample : Along Ample (zeroDisk 180) [mknodA] := by
    refine ⟨⟨?_, ?_⟩, fun _ _ => trivial⟩
    · intro _
      simp only [mknodA, appended, createLength, hparent, hhead, hsize]
      decide
    · intro r dir name _ hd
      rw [hparent] at hd
      cases hd
      right
      rw [hhead, hsize]
      exact le_rfl
  exact ⟨by decide, hample, ample_run_confined (by decide) hample⟩

/-- One header fits behind the root on 100 bytes, so `wfs_mknod` goes ahead and returns 0 with
the head at 180. -/
theorem mknod_overruns : 52 ≤ 100 ∧ ¬ Along Confined (zeroDisk 100) [mknodA] := by
  have hsome : ((next (zeroDisk 100) mknodA).any fun s => s.head = 180) = true := by
    decide +kernel
  obtain ⟨s, hs, hhead⟩ := (Option.any_eq_true _ _).mp hsome
  rw [decide_eq_true_eq] at hhead
  refine ⟨by decide, fun hconf => ?_⟩
  obtain ⟨r, hr⟩ := next_some hs
  have hle := (hconf.1 s r hr).1
  rw [hhead] at hle
  exact absurd hle (by decide)

end WfsSpace
