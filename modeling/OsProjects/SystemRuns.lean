import OsProjects.NamePaths

/-! # Runs of system calls

In every run of the calls on names, the names stay a tree with right link counts, and an inode
without names is kept exactly as long as a process or an open file refers to it. -/
namespace SystemRuns

open ByteMemory Programs DiskBlocks Directories PathNames FileCalls NameTrees NamedFiles LinkCounts NamePaths
open DiskSpace hiding slots
open FileStore hiding iput next

variable {sb : SuperBlock} {f f' g : ℕ → File} {refs refs' : ℕ → ℕ} {inum dp cwd i k n : ℕ}
  {name path : List UInt8} {ok : Bool} {kind : Kind}

section Purpose

structure Books (sb : SuperBlock) (f : ℕ → File) (refs : ℕ → ℕ) : Prop where
  named : Named sb f
  /-- What has lost its names is in use. -/
  kept : ∀ i < sb.ninodes, (f i).type ≠ 0 → (f i).nlink = 0 → 0 < refs i
  /-- What is in use is there. -/
  held : ∀ i, 0 < refs i → i < sb.ninodes ∧ (f i).type ≠ 0

/-- The paths of a call, each with the process. -/
def Event.paths : Event → List (ℕ × List UInt8)
  | .sys_link p old new => [(p, old), (p, new)]
  | .sys_unlink p path | .sys_open p path _ _ _ | .sys_mkdir p path | .sys_mknod p path _ _
  | .sys_chdir p path => [(p, path)]
  | .fork _ | .exit _ | .close _ | .write _ _ _ => []

/-- The paths are texts, and none starts in a working directory that has lost its name. -/
def Event.Anchored (sb : SuperBlock) (f : ℕ → File) (cwds : List ℕ) (e : Event) : Prop :=
  ∀ q ∈ Event.paths e, 0 ∉ q.2 ∧ ∀ cwd ∈ cwds[q.1]?, Starts sb f cwd q.2

/-- The calls that need no new inode and no new block. The first process does not exit. -/
def Event.Spares : Event → Prop
  | .sys_unlink _ _ | .sys_chdir _ _ | .fork _ | .close _ => True
  | .exit p => p ≠ 0
  | .sys_open _ _ O_CREATE _ _ => O_CREATE = false
  | .sys_link _ _ _ | .sys_mkdir _ _ | .sys_mknod _ _ _ _ | .write _ _ _ => False

/-- An open that may make its file has room for it, and a write is one chunk. -/
def Event.Whole : Event → Prop
  | .sys_open _ _ O_CREATE _ room => O_CREATE = true → room ≠ false
  | .write _ _ src => src.length ≤ PageCache.MAXCHUNK
  | .sys_link _ _ _ | .sys_unlink _ _ | .sys_mkdir _ _ | .sys_mknod _ _ _ _ | .sys_chdir _ _
  | .fork _ | .exit _ | .close _ => True

/-- The process, or the open file, is there. -/
def Event.Present (cwds files : List ℕ) : Event → Prop
  | .sys_link p _ _ | .sys_unlink p _ | .sys_open p _ _ _ _ | .sys_mkdir p _ | .sys_mknod p _ _ _
  | .sys_chdir p _ | .fork p | .exit p => p < cwds.length
  | .close fd | .write fd _ _ => fd < files.length

end Purpose

section Changes

theorem Linked.named (h : Named sb f) (hsmall : Small sb) (hl : Linked sb f f' dp name inum) :
    Named sb f' := by
  have hfile : inum ∉ dirs sb f := fun hm => hl.file (mem_dirs.mp hm).2
  rw [hl.files]
  refine h.link hl.dir hl.free hl.text hl.small (Nat.lt_of_lt_of_le hl.live.inode hsmall.inodes)
    hl.live.inode (h.ne_zero hl.live) hfile hl.live.type hl.file ?_
  dsimp only
  rw [h.count inum (mem_alive.mpr hl.live)]

theorem Created.named (h : Named sb f) (hsmall : Small sb)
    (hc : Created sb f f' kind dp name inum) : Named sb f' := by
  obtain ⟨major, minor, hf⟩ := hc.files
  have hnew : inum ∉ alive sb f := fun hm => (mem_alive.mp hm).type hc.unused
  have hinum : inum < 65536 := Nat.lt_of_lt_of_le hc.inode hsmall.inodes
  have hdp : dp < 65536 := Nat.lt_of_lt_of_le (mem_dirs.mp hc.dir).1.inode hsmall.inodes
  rw [hf]
  split_ifs with hkind
  · exact h.mkdir hc.dir hc.free hc.text hc.small hinum hc.inode hc.proper hnew hdp
  · have hlinks : links (entries sb f) inum = 0 := by
      by_contra hne
      obtain ⟨e, he, rfl⟩ := links_ne_zero.mp hne
      exact hnew (h.tree.node e he)
    refine h.link hc.dir hc.free hc.text hc.small hinum hc.inode hc.proper
      (fun hm => hnew (h.tree.subset hm)) code_ne_zero ?_ ?_
    · cases kind with
      | T_DIR => exact absurd rfl hkind
      | T_FILE => exact (by decide : Kind.T_FILE.code ≠ T_DIR)
      | T_DEV => exact (by decide : Kind.T_DEV.code ≠ T_DIR)
    · dsimp only
      rw [hlinks]

theorem settled_named (h : Named sb f) : Named sb (settled f inum n) := by
  rw [settled]
  split_ifs with hlast
  · have hother : ∀ i, Live sb f i → i ≠ inum := fun i hi hs => hi.named (hs ▸ hlast.1)
    refine h.congr (fun i => ?_) (fun i hi => ?_) fun d hd => ?_
    · obtain rfl | hi := eq_or_ne i inum
      · rw [live_iff, live_iff, Function.update_self, hlast.1]
        simp
      · rw [live_iff, live_iff, Function.update_of_ne hi]
    · rw [Function.update_of_ne (hother i hi)]
      exact ⟨rfl, rfl⟩
    · rw [Function.update_of_ne (hother d (mem_dirs.mp hd).1)]
  · exact h

/-- Changes that leave no inode without names. -/
theorem Books.grow (h : Books sb f refs) (hnamed : Named sb f')
    (hrest : ∀ i, Live sb f' i ∨ f' i = f i) (hmono : ∀ i, refs i ≤ refs' i)
    (hnew : ∀ i, refs i < refs' i → Live sb f' i ∨ 0 < refs i) : Books sb f' refs' := by
  refine ⟨hnamed, fun i hi ht hn => ?_, fun i hr => ?_⟩
  · obtain hlive | hs := hrest i
    · exact absurd hn hlive.named
    · rw [hs] at ht hn
      exact Nat.lt_of_lt_of_le (h.kept i hi ht hn) (hmono i)
  · have hcase : Live sb f' i ∨ 0 < refs i := by
      obtain heq | hlt := (hmono i).eq_or_lt
      · exact .inr (heq.symm ▸ hr)
      · exact hnew i hlt
    obtain hlive | hr := hcase
    · exact ⟨hlive.inode, hlive.type⟩
    · obtain hlive | hs := hrest i
      · exact ⟨hlive.inode, hlive.type⟩
      · rw [hs]
        exact h.held i hr

/-- `iput` sees to an inode that may have lost its last name or its last reference. -/
theorem Books.settle (hnamed : Named sb f)
    (hkept : ∀ i < sb.ninodes, i ≠ inum → (f i).type ≠ 0 → (f i).nlink = 0 → 0 < refs i)
    (hheld : ∀ i, 0 < refs i → i < sb.ninodes ∧ (f i).type ≠ 0) :
    Books sb (settled f inum (refs inum)) refs := by
  have hnamed' : Named sb (settled f inum (refs inum)) := settled_named hnamed
  rw [settled] at hnamed' ⊢
  split_ifs at hnamed' ⊢ with hlast
  · refine ⟨hnamed', fun i hi ht hn => ?_, fun i hr => ?_⟩
    · obtain rfl | hne := eq_or_ne i inum
      · rw [Function.update_self] at ht
        exact absurd rfl ht
      · rw [Function.update_of_ne hne] at ht hn
        exact hkept i hi hne ht hn
    · obtain rfl | hne := eq_or_ne i inum
      · omega
      · rw [Function.update_of_ne hne]
        exact hheld i hr
  · refine ⟨hnamed', fun i hi ht hn => ?_, hheld⟩
    obtain rfl | hne := eq_or_ne i inum
    · omega
    · exact hkept i hi hne ht hn

/-- A reference goes. -/
theorem Books.drop (h : Books sb f refs) (hrefs : ∀ i, i ≠ inum → refs' i = refs i)
    (hle : refs' inum ≤ refs inum) : Books sb (settled f inum (refs' inum)) refs' := by
  refine .settle h.named (fun i hi hne ht hn => ?_) fun i hr => ?_
  · rw [hrefs i hne]
    exact h.kept i hi ht hn
  · obtain rfl | hne := eq_or_ne i inum
    · exact h.held i (by omega)
    · exact h.held i (hrefs i hne ▸ hr)

/-- The reference of a process or of an open file goes. -/
theorem Books.leave (h : Books sb f refs)
    (hrefs : ∀ i, refs' i + (if inum = i then 1 else 0) = refs i) :
    Books sb (settled f inum (refs inum - 1)) refs' := by
  have hself := hrefs inum
  rw [if_pos rfl] at hself
  have hlast : refs inum - 1 = refs' inum := by omega
  rw [hlast]
  refine h.drop (fun i hi => ?_) (by omega)
  have hother := hrefs i
  rw [if_neg hi.symm, Nat.add_zero] at hother
  exact hother

/-- A reference goes, and another comes. -/
theorem Books.move (h : Books sb f refs) (hi : Live sb f inum) (hcwd : 0 < refs cwd)
    (hrefs : ∀ i, refs' i + (if cwd = i then 1 else 0) = refs i + if inum = i then 1 else 0) :
    Books sb (settled f cwd (refs cwd - 1 + if inum = cwd then 1 else 0)) refs' := by
  have hself := hrefs cwd
  rw [if_pos rfl] at hself
  have hlast : (refs cwd - 1 + if inum = cwd then 1 else 0) = refs' cwd := by omega
  rw [hlast]
  refine .settle h.named (fun i hlt hne ht hn => ?_) fun i hr => ?_
  · have hother := hrefs i
    rw [if_neg hne.symm] at hother
    have := h.kept i hlt ht hn
    omega
  · by_cases hs : inum = i
    · exact hs ▸ ⟨hi.inode, hi.type⟩
    · have hother := hrefs i
      rw [if_neg hs] at hother
      exact h.held i (by omega)

/-- The contents of a file that is no directory are not about names. -/
theorem Books.written (h : Books sb f refs) (hfile : (f inum).type ≠ T_DIR) {bytes : List UInt8} :
    Books sb (Function.update f inum { f inum with bytes := bytes }) refs := by
  set g := Function.update f inum { f inum with bytes := bytes } with hg
  have hsame : ∀ i, (g i).type = (f i).type ∧ (g i).nlink = (f i).nlink := by
    intro i
    obtain rfl | hi := eq_or_ne i inum
    · rw [hg, Function.update_self]
      exact ⟨rfl, rfl⟩
    · rw [hg, Function.update_of_ne hi]
      exact ⟨rfl, rfl⟩
  refine ⟨h.named.congr (fun i => ?_) (fun i _ => hsame i) fun d hd => ?_, fun i hi ht hn => ?_,
    fun i hr => ?_⟩
  · rw [live_iff, live_iff, (hsame i).1, (hsame i).2]
  · have hne : d ≠ inum := fun hs => hfile (hs ▸ (mem_dirs.mp hd).2)
    rw [hg, Function.update_of_ne hne]
  · rw [(hsame i).1] at ht
    rw [(hsame i).2] at hn
    exact h.kept i hi ht hn
  · rw [(hsame i).1]
    exact h.held i hr

/-- `filewrite` changes the contents of its file only, chunk by chunk. -/
theorem exec_writeLoop {fuel off : ℕ} {src : List UInt8}
    (he : exec (FileMachine.next sb) (writeLoop inum fuel off src) f = some (f', ok)) :
    ∃ bytes, f' = Function.update f inum { f inum with bytes := bytes } := by
  induction fuel generalizing off src f with
  | zero =>
    obtain ⟨rfl, -⟩ := Prod.mk.inj (Option.some.inj he)
    exact ⟨(f inum).bytes, (Function.update_eq_self inum f).symm⟩
  | succ fuel ih =>
    rw [writeLoop] at he
    split_ifs at he
    · obtain ⟨rfl, -⟩ := Prod.mk.inj (Option.some.inj he)
      exact ⟨(f inum).bytes, (Function.update_eq_self inum f).symm⟩
    rw [exec_bind] at he
    obtain ⟨⟨f₁, wrote⟩, hchunk, he⟩ := Option.bind_eq_some_iff.mp he
    obtain ⟨-, rfl⟩ := exec_writei hchunk
    cases wrote with
    | false =>
      obtain ⟨rfl, -⟩ := Prod.mk.inj (Option.some.inj he)
      exact ⟨_, rfl⟩
    | true =>
      obtain ⟨bytes, rfl⟩ := ih he
      refine ⟨bytes, ?_⟩
      dsimp only
      rw [Function.update_self, Function.update_idem]

/-- A write that is one chunk is done as a whole or not at all. -/
theorem exec_writeLoop_chunk {fuel off : ℕ} {src : List UInt8} (hfuel : src.length ≤ fuel)
    (hlen : src.length ≤ PageCache.MAXCHUNK)
    (he : exec (FileMachine.next sb) (writeLoop inum fuel off src) f = some (f', false)) :
    f' = f := by
  cases fuel with
  | zero =>
    obtain ⟨rfl, -⟩ := Prod.mk.inj (Option.some.inj he)
    rfl
  | succ fuel =>
    rw [writeLoop, List.take_of_length_le hlen, List.drop_of_length_le hlen] at he
    split_ifs at he
    · cases he
    rw [exec_bind] at he
    obtain ⟨⟨f₁, wrote⟩, hchunk, he⟩ := Option.bind_eq_some_iff.mp he
    obtain ⟨hwrote, rfl⟩ := exec_writei hchunk
    cases wrote with
    | false =>
      obtain ⟨rfl, -⟩ := Prod.mk.inj (Option.some.inj he)
      have hnone : PageCache.writei (f inum).bytes off src = none :=
        Option.isSome_eq_false_iff.mp hwrote.symm |> Option.isNone_iff_eq_none.mp
      rw [hnone, Option.getD_none, Function.update_eq_self]
    | true =>
      -- nothing is left for the rest of the loop
      have hdone : ∀ n off, writeLoop inum n off [] = pure true := by
        intro n off
        cases n with
        | zero => rfl
        | succ n => rfl
      dsimp only at he
      rw [if_pos rfl, hdone] at he
      cases he

/-- Only the inodes of the disk matter. -/
theorem Books.shown (h : Books sb f refs) (hsame : ∀ i < sb.ninodes, g i = f i) :
    Books sb g refs := by
  refine ⟨h.named.congr (fun i => ?_) (fun i hi => ?_) fun d hd => ?_, fun i hi ht hn => ?_,
    fun i hr => ?_⟩
  · rw [live_iff, live_iff]
    exact and_congr_right fun hi => by rw [hsame i hi]
  · rw [hsame i hi.inode]
    exact ⟨rfl, rfl⟩
  · rw [hsame d (mem_dirs.mp hd).1.inode]
  · rw [hsame i hi] at ht hn
    exact h.kept i hi ht hn
  · obtain ⟨hi, ht⟩ := h.held i hr
    exact ⟨hi, (hsame i hi).symm ▸ ht⟩

theorem Unlinked.books (h : Books sb f refs) (hu : Unlinked sb refs f f' dp k inum) :
    Books sb f' refs := by
  obtain ⟨hne, hdead, hnamed⟩ := named_removed h.named hu.entry hu.proper hu.empty rfl
  have htype : ∀ i, (removed f dp (if (f inum).type = T_DIR then (f dp).nlink - 1 else
      (f dp).nlink) k inum ((f inum).nlink - 1) i).type = (f i).type := by
    intro i
    obtain rfl | hi := eq_or_ne i inum
    · rw [removed_gone]
    · obtain rfl | hd := eq_or_ne i dp
      · rw [removed_dir hne]
      · rw [removed_other hi hd]
  rw [hu.files]
  refine .settle hnamed (fun i hi hi' ht hn => ?_) fun i hr => ?_
  · obtain rfl | hd := eq_or_ne i dp
    · exact absurd hn hdead.named
    · rw [removed_other hi' hd] at ht hn
      exact h.kept i hi ht hn
  · rw [htype]
    exact h.held i hr

end Changes

section Counts

variable {S : Type} {s : System S} {p fd : ℕ} {store : S}

theorem count_set {l : List ℕ} (hp : l[p]? = some cwd) :
    (l.set p n).count i + (if cwd = i then 1 else 0) =
      l.count i + if n = i then 1 else 0 := by
  obtain ⟨hlt, rfl⟩ := List.getElem?_eq_some_iff.mp hp
  have hpos : l[p] = i → 0 < l.count i := fun hs => List.count_pos_iff.mpr (hs ▸ l.getElem_mem hlt)
  rw [List.count_set hlt]
  simp only [beq_iff_eq]
  split_ifs with h₁ h₂ h₂
  · have := hpos h₁
    omega
  · have := hpos h₁
    omega
  · rfl
  · rfl

theorem set_self {l : List ℕ} (hp : l[p]? = some n) : l.set p n = l := by
  obtain ⟨hlt, rfl⟩ := List.getElem?_eq_some_iff.mp hp
  exact List.set_getElem_self hlt

theorem count_eraseIdx {l : List ℕ} (hp : l[p]? = some n) :
    (l.eraseIdx p).count i + (if n = i then 1 else 0) = l.count i := by
  obtain ⟨hlt, rfl⟩ := List.getElem?_eq_some_iff.mp hp
  rw [← (List.getElem_cons_eraseIdx_perm hlt).count_eq i, List.count_cons]
  simp only [beq_iff_eq]

theorem refs_fork : (System.mk store (s.cwds ++ [n]) s.files).refs i =
    s.refs i + if n = i then 1 else 0 := by
  rw [System.refs, System.refs, List.count_append, List.count_singleton]
  simp only [beq_iff_eq]
  omega

theorem refs_open : (System.mk store s.cwds (s.files ++ [n])).refs i =
    s.refs i + if n = i then 1 else 0 := by
  rw [System.refs, System.refs, List.count_append, List.count_singleton]
  simp only [beq_iff_eq]
  omega

theorem refs_exit (hp : s.cwds[p]? = some n) :
    (System.mk store (s.cwds.eraseIdx p) s.files).refs i + (if n = i then 1 else 0) =
      s.refs i := by
  rw [System.refs, System.refs, ← count_eraseIdx hp]
  dsimp only
  omega

theorem refs_close (hp : s.files[fd]? = some n) :
    (System.mk store s.cwds (s.files.eraseIdx fd)).refs i + (if n = i then 1 else 0) =
      s.refs i := by
  rw [System.refs, System.refs, ← count_eraseIdx hp]
  dsimp only
  omega

theorem refs_chdir (hp : s.cwds[p]? = some cwd) :
    (System.mk store (s.cwds.set p n) s.files).refs i + (if cwd = i then 1 else 0) =
      s.refs i + if n = i then 1 else 0 := by
  have h := count_set (n := n) (i := i) hp
  rw [System.refs, System.refs]
  dsimp only
  omega

theorem refs_of_cwd (hp : s.cwds[p]? = some cwd) : 0 < s.refs cwd := by
  rw [System.refs]
  have := List.count_pos_iff.mpr (List.mem_of_getElem? hp)
  omega

theorem refs_of_file (hp : s.files[fd]? = some n) : 0 < s.refs n := by
  rw [System.refs]
  have := List.count_pos_iff.mpr (List.mem_of_getElem? hp)
  omega

end Counts

section Specs

variable {O_CREATE O_RDONLY room : Bool} {major minor : ℕ} {found : Option ℕ}

/-- `sys_chdir` does not panic. -/
theorem exec_sys_chdir (refs : ℕ → ℕ) (h : Named sb f)
    (hcwd : cwd < sb.ninodes ∧ (f cwd).type ≠ 0) (hstart : Starts sb f cwd path) :
    ∃ f' found, exec (FileMachine.next sb) (sys_chdir refs cwd path) f = some (f', found) ∧
      (found = none ∧ f' = f ∨ ∃ inum, found = some inum ∧ Live sb f inum ∧
        f' = settled f cwd (refs cwd - 1 + if inum = cwd then 1 else 0)) := by
  obtain ⟨start, hexec, hfound⟩ := exec_found refs false h.closed hstart
  rw [sys_chdir, exec_bind, hexec, Option.bind_some]
  cases start with
  | none => exact ⟨f, none, rfl, .inl ⟨rfl, rfl⟩⟩
  | some r =>
    obtain ⟨inum, name⟩ := r
    have hlive := (hfound inum name rfl).live
    dsimp only
    rw [exec_bind, exec_stat hlive.inode hlive.type, Option.bind_some]
    dsimp only
    by_cases htype : (f inum).type ≠ T_DIR
    · rw [if_pos htype, exec_bind, exec_iput hlive, Option.bind_some]
      exact ⟨f, none, rfl, .inl ⟨rfl, rfl⟩⟩
    · rw [if_neg htype, exec_bind, exec_put hcwd.1 hcwd.2, Option.bind_some]
      exact ⟨_, some inum, rfl, .inr ⟨inum, rfl, hlive, rfl⟩⟩

/-- To open what is there changes nothing, and does not panic. -/
theorem exec_open_existing (refs : ℕ → ℕ) (h : Named sb f) (hstart : Starts sb f cwd path) :
    ∃ found, exec (FileMachine.next sb) (open_inode refs cwd path false O_RDONLY) f =
      some (f, found) ∧ ∀ inum ∈ found, Live sb f inum := by
  obtain ⟨start, hexec, hfound⟩ := exec_found refs false h.closed hstart
  rw [open_inode, if_neg Bool.false_ne_true, exec_bind, hexec, Option.bind_some]
  cases start with
  | none => exact ⟨none, rfl, fun _ hm => by cases hm⟩
  | some r =>
    obtain ⟨inum, name⟩ := r
    have hlive := (hfound inum name rfl).live
    dsimp only
    rw [exec_bind, exec_stat hlive.inode hlive.type, Option.bind_some]
    dsimp only
    split_ifs with hdir
    · rw [exec_bind, exec_iput hlive, Option.bind_some]
      exact ⟨none, rfl, fun _ hm => by cases hm⟩
    · refine ⟨some inum, rfl, fun i hm => ?_⟩
      obtain rfl := Option.some.inj hm
      exact hlive

variable (h : Named sb f) (hsmall : Small sb) (hroom : total sb f ≤ sb.nblocks)
  (hstart : Starts sb f cwd path) (hzero : 0 ∉ path)

include h hsmall hroom hstart hzero

theorem exec_open_inode (he : exec (FileMachine.next sb)
      (open_inode refs cwd path O_CREATE O_RDONLY) f = some (f', found)) :
    (f' = f ∧ ∀ inum ∈ found, Live sb f inum) ∨ O_CREATE = true ∧
      ∃ dp name inum, found = some inum ∧ Created sb f f' .T_FILE dp name inum := by
  cases O_CREATE with
  | true =>
    rw [open_inode, if_pos rfl] at he
    obtain hsame | hnew := exec_create h hsmall hroom hstart hzero he
    · exact .inl hsame
    · exact .inr ⟨rfl, hnew⟩
  | false =>
    obtain ⟨start, hexec, hlive⟩ := exec_open_existing refs h hstart
    rw [hexec] at he
    obtain ⟨rfl, rfl⟩ := Prod.mk.inj (Option.some.inj he)
    exact .inl ⟨rfl, hlive⟩

/-- When there is no room for the open file, a file that was made stays. -/
theorem exec_sys_open (he : exec (FileMachine.next sb)
      (sys_open refs cwd path O_CREATE O_RDONLY room) f = some (f', found)) :
    (f' = f ∧ ∀ inum ∈ found, Live sb f inum) ∨
      ∃ dp name inum, (found = some inum ∨ found = none ∧ O_CREATE = true ∧ room = false) ∧
        Created sb f f' .T_FILE dp name inum := by
  rw [sys_open, exec_bind] at he
  obtain ⟨⟨f₁, start⟩, hopen, he⟩ := Option.bind_eq_some_iff.mp he
  have hspec := exec_open_inode h hsmall hroom hstart hzero hopen
  cases start with
  | none =>
    obtain ⟨rfl, rfl⟩ := Prod.mk.inj (Option.some.inj he)
    obtain hsame | ⟨-, dp, name, inum, hnone, -⟩ := hspec
    · exact .inl hsame
    · cases hnone
  | some ip =>
    cases room with
    | true =>
      obtain ⟨rfl, rfl⟩ := Prod.mk.inj (Option.some.inj he)
      obtain hsame | ⟨-, dp, name, inum, hsome, hnew⟩ := hspec
      · exact .inl hsame
      · exact .inr ⟨dp, name, inum, .inl hsome, hnew⟩
    | false =>
      have hlive : Live sb f₁ ip := by
        obtain ⟨rfl, hlive⟩ | ⟨-, dp, name, inum, hsome, hnew⟩ := hspec
        · exact hlive ip rfl
        · obtain rfl := Option.some.inj hsome
          exact hnew.live
      dsimp only at he
      rw [if_neg Bool.false_ne_true, exec_bind, exec_iput hlive, Option.bind_some] at he
      obtain ⟨rfl, rfl⟩ := Prod.mk.inj (Option.some.inj he)
      obtain ⟨rfl, -⟩ | ⟨hcreate, dp, name, inum, -, hnew⟩ := hspec
      · exact .inl ⟨rfl, fun _ hm => by cases hm⟩
      · exact .inr ⟨dp, name, inum, .inr ⟨rfl, hcreate, rfl⟩, hnew⟩

theorem exec_sys_make (he : exec (FileMachine.next sb)
      (sys_make refs cwd path kind major minor) f = some (f', ok)) :
    f' = f ∨ ok = true ∧ ∃ dp name inum, Created sb f f' kind dp name inum := by
  rw [sys_make, exec_bind] at he
  obtain ⟨⟨f₁, found⟩, hcreate, he⟩ := Option.bind_eq_some_iff.mp he
  have hspec := exec_create h hsmall hroom hstart hzero hcreate
  cases found with
  | none =>
    obtain ⟨rfl, rfl⟩ := Prod.mk.inj (Option.some.inj he)
    obtain ⟨rfl, -⟩ | ⟨dp, name, inum, hnone, -⟩ := hspec
    · exact .inl rfl
    · cases hnone
  | some ip =>
    have hlive : Live sb f₁ ip := by
      obtain ⟨rfl, hlive⟩ | ⟨dp, name, inum, hsome, hnew⟩ := hspec
      · exact hlive ip rfl
      · obtain rfl := Option.some.inj hsome
        exact hnew.live
    dsimp only at he
    rw [exec_bind, exec_iput hlive, Option.bind_some] at he
    obtain ⟨rfl, rfl⟩ := Prod.mk.inj (Option.some.inj he)
    obtain ⟨rfl, -⟩ | ⟨dp, name, inum, -, hnew⟩ := hspec
    · exact .inl rfl
    · exact .inr ⟨rfl, dp, name, inum, hnew⟩

end Specs

section Steps

variable {s s' : System (ℕ → File)} {e : Event} {p fd : ℕ}

theorem call_eq_some {A : Type} {program : Call A} {after : A → After}
    (he : s.call (FileMachine.next sb) program after = some (s', ok)) :
    ∃ f a, exec (FileMachine.next sb) program s.store = some (f, a) ∧
      s' = ⟨f, (after a).cwds, (after a).files⟩ ∧ ok = (after a).ok := by
  obtain ⟨⟨f, a⟩, hexec, hs⟩ := Option.map_eq_some_iff.mp he
  obtain ⟨rfl, rfl⟩ := Prod.mk.inj hs
  exact ⟨f, a, hexec, rfl, rfl⟩

theorem call_ne_none {A : Type} {program : Call A} {after : A → After} {a : A}
    (hexec : exec (FileMachine.next sb) program s.store = some (f', a)) :
    s.call (FileMachine.next sb) program after ≠ none := by
  rw [System.call, hexec]
  exact Option.some_ne_none _

theorem entered_rest {nlink : ℕ} {ip : File} :
    i = inum ∨ i = dp ∨ entered f dp nlink name inum ip i = f i := by
  obtain rfl | hi := eq_or_ne i inum
  · exact .inl rfl
  · obtain rfl | hd := eq_or_ne i dp
    · exact .inr (.inl rfl)
    · exact .inr (.inr (entered_other hi hd))

variable (hsmall : Small sb)

include hsmall

theorem Linked.books (h : Books sb f refs) (hl : Linked sb f f' dp name inum) :
    Books sb f' refs := by
  have hne : inum ≠ dp := fun hs => hl.file (hs ▸ (mem_dirs.mp hl.dir).2)
  refine h.grow (Linked.named h.named hsmall hl) (fun i => ?_) (fun i => Nat.le_refl _)
    fun i hi => absurd hi (Nat.lt_irrefl _)
  have hrest : i = inum ∨ i = dp ∨ f' i = f i := by
    rw [hl.files]
    exact entered_rest
  obtain rfl | rfl | hs := hrest
  · rw [live_iff, hl.files, entered_new hne]
    exact .inl ⟨hl.live.inode, hl.live.type, Nat.succ_ne_zero _⟩
  · rw [live_iff, hl.files, entered_dir]
    exact .inl (live_iff.mp (mem_dirs.mp hl.dir).1)
  · exact .inr hs

theorem Created.books (h : Books sb f refs) (hc : Created sb f f' kind dp name inum)
    (hmono : ∀ i, refs i ≤ refs' i) (hnew : ∀ i, refs i < refs' i → i = inum) :
    Books sb f' refs' := by
  have hlive := hc.live
  have hdir := hc.live_dir
  refine h.grow (Created.named h.named hsmall hc) (fun i => ?_) hmono
    fun i hi => .inl (hnew i hi ▸ hlive)
  obtain ⟨major, minor, hf⟩ := hc.files
  have hrest : i = inum ∨ i = dp ∨ f' i = f i := by
    rw [hf]
    split_ifs
    · exact entered_rest
    · exact entered_rest
  obtain rfl | rfl | hs := hrest
  · exact .inl hlive
  · exact .inl hdir
  · exact .inr hs

/-- `sys_mkdir` and `sys_mknod`. -/
theorem make_books {major minor : ℕ} (h : Books sb f refs) (hroom : total sb f ≤ sb.nblocks)
    (hstart : Starts sb f cwd path) (hzero : 0 ∉ path) (he : exec (FileMachine.next sb)
      (sys_make refs cwd path kind major minor) f = some (f', ok)) : Books sb f' refs := by
  obtain rfl | ⟨-, dp, name, inum, hc⟩ := exec_sys_make h.named hsmall hroom hstart hzero he
  · exact h
  · exact Created.books hsmall h hc (fun _ => Nat.le_refl _) fun i hi =>
      absurd hi (Nat.lt_irrefl _)

/-- One call. -/
theorem step_books (h : Books sb s.store s.refs) (hroom : total sb s.store ≤ sb.nblocks)
    (hanchor : Event.Anchored sb s.store s.cwds e)
    (hn : FileCalls.next (FileMachine.next sb) s e = some (s', ok)) :
    Books sb s'.store s'.refs := by
  cases e with
  | fork p =>
    obtain ⟨cwd, hp, hs⟩ := Option.map_eq_some_iff.mp hn
    obtain ⟨rfl, rfl⟩ := Prod.mk.inj hs
    refine h.grow h.named (fun i => .inr rfl) (fun i => ?_) fun i hi => ?_
    · rw [refs_fork]
      exact Nat.le_add_right _ _
    · rw [refs_fork] at hi
      split_ifs at hi with hc
      · exact .inr (hc ▸ refs_of_cwd hp)
      · omega
  | exit p =>
    rw [FileCalls.next] at hn
    split_ifs at hn
    obtain ⟨cwd, hp, hs⟩ := Option.bind_eq_some_iff.mp hn
    obtain ⟨f', a, hexec, rfl, -⟩ := call_eq_some hs
    have hheld := h.held cwd (refs_of_cwd hp)
    rw [exec_put hheld.1 hheld.2] at hexec
    obtain ⟨rfl, -⟩ := Prod.mk.inj (Option.some.inj hexec)
    exact h.leave fun i => refs_exit hp
  | close fd =>
    obtain ⟨inum, hp, hs⟩ := Option.bind_eq_some_iff.mp hn
    obtain ⟨f', a, hexec, rfl, -⟩ := call_eq_some hs
    have hheld := h.held inum (refs_of_file hp)
    rw [exec_put hheld.1 hheld.2] at hexec
    obtain ⟨rfl, -⟩ := Prod.mk.inj (Option.some.inj hexec)
    exact h.leave fun i => refs_close hp
  | write fd off src =>
    obtain ⟨inum, hp, hs⟩ := Option.bind_eq_some_iff.mp hn
    obtain ⟨f', a, hexec, rfl, -⟩ := call_eq_some hs
    have hheld := h.held inum (refs_of_file hp)
    rw [FileCalls.write, exec_bind, exec_stat hheld.1 hheld.2, Option.bind_some] at hexec
    dsimp only at hexec
    split_ifs at hexec with hfile
    · obtain ⟨bytes, rfl⟩ := exec_writeLoop hexec
      refine h.written fun hdir => ?_
      rw [hfile] at hdir
      cases hdir
    · cases hexec
  | sys_link p old new =>
    obtain ⟨cwd, hp, hs⟩ := Option.bind_eq_some_iff.mp hn
    obtain ⟨f', a, hexec, rfl, -⟩ := call_eq_some hs
    obtain ⟨-, hold⟩ := hanchor (p, old) List.mem_cons_self
    obtain ⟨hzero, hnew⟩ := hanchor (p, new) (List.mem_cons_of_mem _ List.mem_cons_self)
    obtain ⟨-, rfl⟩ | ⟨-, dp, name, inum, hl⟩ :=
      exec_sys_link h.named hsmall hroom (hold cwd hp) (hnew cwd hp) hzero hexec
    · exact h
    · exact Linked.books hsmall h hl
  | sys_unlink p path =>
    obtain ⟨cwd, hp, hs⟩ := Option.bind_eq_some_iff.mp hn
    obtain ⟨f', a, hexec, rfl, -⟩ := call_eq_some hs
    obtain ⟨-, hstart⟩ := hanchor (p, path) List.mem_cons_self
    obtain ⟨f₁, ok₁, hspec, hcases⟩ :=
      exec_sys_unlink h.named hsmall hroom s.refs (hstart cwd hp)
    rw [hspec] at hexec
    obtain ⟨rfl, rfl⟩ := Prod.mk.inj (Option.some.inj hexec)
    obtain ⟨-, rfl⟩ | ⟨-, dp, k, inum, hu⟩ := hcases
    · exact h
    · exact Unlinked.books h hu
  | sys_open p path O_CREATE O_RDONLY room =>
    obtain ⟨cwd, hp, hs⟩ := Option.bind_eq_some_iff.mp hn
    obtain ⟨f', found, hexec, rfl, -⟩ := call_eq_some hs
    obtain ⟨hzero, hstart⟩ := hanchor (p, path) List.mem_cons_self
    have hspec := exec_sys_open h.named hsmall hroom (hstart cwd hp) hzero hexec
    cases found with
    | none =>
      have hrefs : (System.mk f' s.cwds (s.files ++ [])).refs = s.refs := by
        funext i
        rw [System.refs, System.refs, List.append_nil]
      dsimp only [Option.toList_none]
      rw [hrefs]
      obtain ⟨rfl, -⟩ | ⟨dp, name, inum, -, hc⟩ := hspec
      · exact h
      · exact Created.books hsmall h hc (fun _ => Nat.le_refl _) fun i hi =>
          absurd hi (Nat.lt_irrefl _)
    | some ip =>
      have hrefs : ∀ i, (System.mk f' s.cwds (s.files ++ [ip])).refs i =
          s.refs i + if ip = i then 1 else 0 := fun i => refs_open
      have hmono : ∀ i, s.refs i ≤ (System.mk f' s.cwds (s.files ++ [ip])).refs i := fun i => by
        rw [hrefs]
        exact Nat.le_add_right _ _
      have hnew : ∀ i, s.refs i < (System.mk f' s.cwds (s.files ++ [ip])).refs i → i = ip := by
        intro i hi
        rw [hrefs] at hi
        split_ifs at hi with hs
        · exact hs.symm
        · omega
      obtain ⟨rfl, hlive⟩ | ⟨dp, name, inum, hsome | ⟨hnone, -⟩, hc⟩ := hspec
      · exact h.grow h.named (fun i => .inr rfl) hmono fun i hi =>
          .inl (hnew i hi ▸ hlive ip rfl)
      · obtain rfl := Option.some.inj hsome
        exact Created.books hsmall h hc hmono hnew
      · cases hnone
  | sys_mkdir p path =>
    obtain ⟨cwd, hp, hs⟩ := Option.bind_eq_some_iff.mp hn
    obtain ⟨f', a, hexec, rfl, -⟩ := call_eq_some hs
    obtain ⟨hzero, hstart⟩ := hanchor (p, path) List.mem_cons_self
    exact make_books hsmall h hroom (hstart cwd hp) hzero hexec
  | sys_mknod p path major minor =>
    obtain ⟨cwd, hp, hs⟩ := Option.bind_eq_some_iff.mp hn
    obtain ⟨f', a, hexec, rfl, -⟩ := call_eq_some hs
    obtain ⟨hzero, hstart⟩ := hanchor (p, path) List.mem_cons_self
    exact make_books hsmall h hroom (hstart cwd hp) hzero hexec
  | sys_chdir p path =>
    obtain ⟨cwd, hp, hs⟩ := Option.bind_eq_some_iff.mp hn
    obtain ⟨f', found, hexec, rfl, -⟩ := call_eq_some hs
    obtain ⟨-, hstart⟩ := hanchor (p, path) List.mem_cons_self
    obtain ⟨f₁, found₁, hspec, hcases⟩ :=
      exec_sys_chdir s.refs h.named (h.held cwd (refs_of_cwd hp)) (hstart cwd hp)
    rw [hspec] at hexec
    obtain ⟨rfl, rfl⟩ := Prod.mk.inj (Option.some.inj hexec)
    obtain ⟨rfl, rfl⟩ | ⟨inum, rfl, hlive, rfl⟩ := hcases
    · dsimp only [Option.getD_none]
      rw [set_self hp]
      exact h
    · exact h.move hlive (refs_of_cwd hp) fun i => refs_chdir hp

/-- No reference and no link count is ever wrong, so that nothing panics. -/
theorem step_ne_none (h : Books sb s.store s.refs) (hroom : total sb s.store ≤ sb.nblocks)
    (hanchor : Event.Anchored sb s.store s.cwds e) (hspares : Event.Spares e)
    (hthere : Event.Present s.cwds s.files e) :
    FileCalls.next (FileMachine.next sb) s e ≠ none := by
  cases e with
  | fork p =>
    rw [FileCalls.next, List.getElem?_eq_getElem hthere]
    exact Option.some_ne_none _
  | exit p =>
    have hp := List.getElem?_eq_getElem hthere
    have hheld := h.held _ (refs_of_cwd hp)
    rw [FileCalls.next, if_neg hspares, hp, Option.bind_some]
    exact call_ne_none (exec_put hheld.1 hheld.2)
  | close fd =>
    have hp := List.getElem?_eq_getElem hthere
    have hheld := h.held _ (refs_of_file hp)
    rw [FileCalls.next, hp, Option.bind_some]
    exact call_ne_none (exec_put hheld.1 hheld.2)
  | sys_unlink p path =>
    have hp := List.getElem?_eq_getElem hthere
    obtain ⟨-, hstart⟩ := hanchor (p, path) List.mem_cons_self
    obtain ⟨f', ok, hexec, -⟩ := exec_sys_unlink h.named hsmall hroom s.refs (hstart _ hp)
    rw [FileCalls.next, hp, Option.bind_some]
    exact call_ne_none hexec
  | sys_chdir p path =>
    have hp := List.getElem?_eq_getElem hthere
    obtain ⟨-, hstart⟩ := hanchor (p, path) List.mem_cons_self
    obtain ⟨f', found, hexec, -⟩ :=
      exec_sys_chdir s.refs h.named (h.held _ (refs_of_cwd hp)) (hstart _ hp)
    rw [FileCalls.next, hp, Option.bind_some]
    exact call_ne_none hexec
  | sys_open p path O_CREATE O_RDONLY room =>
    have hp := List.getElem?_eq_getElem hthere
    obtain ⟨-, hstart⟩ := hanchor (p, path) List.mem_cons_self
    obtain rfl : O_CREATE = false := hspares
    obtain ⟨found, hexec, hlive⟩ := exec_open_existing s.refs h.named (hstart _ hp)
    have hopen : ∃ f' found', exec (FileMachine.next sb)
        (sys_open s.refs s.cwds[p] path false O_RDONLY room) s.store = some (f', found') := by
      rw [sys_open, exec_bind, hexec, Option.bind_some]
      cases found with
      | none => exact ⟨_, _, rfl⟩
      | some ip =>
        cases room with
        | true => exact ⟨_, _, rfl⟩
        | false =>
          dsimp only
          rw [if_neg Bool.false_ne_true, exec_bind, exec_iput (hlive ip rfl), Option.bind_some]
          exact ⟨_, _, rfl⟩
    obtain ⟨f', found', hexec'⟩ := hopen
    rw [FileCalls.next, hp, Option.bind_some]
    exact call_ne_none hexec'
  | sys_link p old new => exact absurd hspares id
  | sys_mkdir p path => exact absurd hspares id
  | sys_mknod p path major minor => exact absurd hspares id
  | write fd off src => exact absurd hspares id

/-- A call that fails has done nothing, unless an open file had no room, or a later chunk of a
write was refused. -/
theorem step_failed (h : Books sb s.store s.refs) (hroom : total sb s.store ≤ sb.nblocks)
    (hanchor : Event.Anchored sb s.store s.cwds e) (hwhole : Event.Whole e)
    (hn : FileCalls.next (FileMachine.next sb) s e = some (s', false)) : s' = s := by
  cases e with
  | fork p =>
    obtain ⟨cwd, -, hs⟩ := Option.map_eq_some_iff.mp hn
    cases (Prod.mk.inj hs).2
  | exit p =>
    rw [FileCalls.next] at hn
    split_ifs at hn
    obtain ⟨cwd, -, hs⟩ := Option.bind_eq_some_iff.mp hn
    obtain ⟨f', a, -, -, hok⟩ := call_eq_some hs
    cases hok
  | close fd =>
    obtain ⟨inum, -, hs⟩ := Option.bind_eq_some_iff.mp hn
    obtain ⟨f', a, -, -, hok⟩ := call_eq_some hs
    cases hok
  | write fd off src =>
    obtain ⟨inum, hp, hs⟩ := Option.bind_eq_some_iff.mp hn
    obtain ⟨f', a, hexec, rfl, rfl⟩ := call_eq_some hs
    have hheld := h.held inum (refs_of_file hp)
    rw [FileCalls.write, exec_bind, exec_stat hheld.1 hheld.2, Option.bind_some] at hexec
    dsimp only at hexec
    split_ifs at hexec
    · obtain rfl := exec_writeLoop_chunk (Nat.le_refl _) hwhole hexec
      rfl
    · cases hexec
  | sys_link p old new =>
    obtain ⟨cwd, hp, hs⟩ := Option.bind_eq_some_iff.mp hn
    obtain ⟨f', a, hexec, rfl, hok⟩ := call_eq_some hs
    obtain ⟨-, hold⟩ := hanchor (p, old) List.mem_cons_self
    obtain ⟨hzero, hnew⟩ := hanchor (p, new) (List.mem_cons_of_mem _ List.mem_cons_self)
    obtain ⟨-, rfl⟩ | ⟨htrue, -⟩ :=
      exec_sys_link h.named hsmall hroom (hold cwd hp) (hnew cwd hp) hzero hexec
    · rfl
    · cases hok.trans htrue
  | sys_unlink p path =>
    obtain ⟨cwd, hp, hs⟩ := Option.bind_eq_some_iff.mp hn
    obtain ⟨f', a, hexec, rfl, hok⟩ := call_eq_some hs
    obtain ⟨-, hstart⟩ := hanchor (p, path) List.mem_cons_self
    obtain ⟨f₁, ok₁, hspec, hcases⟩ :=
      exec_sys_unlink h.named hsmall hroom s.refs (hstart cwd hp)
    rw [hspec] at hexec
    obtain ⟨rfl, rfl⟩ := Prod.mk.inj (Option.some.inj hexec)
    obtain ⟨-, rfl⟩ | ⟨htrue, -⟩ := hcases
    · rfl
    · cases hok.trans htrue
  | sys_open p path O_CREATE O_RDONLY room =>
    obtain ⟨cwd, hp, hs⟩ := Option.bind_eq_some_iff.mp hn
    obtain ⟨f', found, hexec, rfl, hok⟩ := call_eq_some hs
    obtain ⟨hzero, hstart⟩ := hanchor (p, path) List.mem_cons_self
    have hspec := exec_sys_open h.named hsmall hroom (hstart cwd hp) hzero hexec
    cases found with
    | some ip => cases hok
    | none =>
      obtain ⟨rfl, -⟩ | ⟨dp, name, inum, hnone | ⟨-, rfl, rfl⟩, -⟩ := hspec
      · dsimp only [Option.toList_none]
        rw [List.append_nil]
      · cases hnone
      · exact absurd rfl (hwhole rfl)
  | sys_mkdir p path =>
    obtain ⟨cwd, hp, hs⟩ := Option.bind_eq_some_iff.mp hn
    obtain ⟨f', a, hexec, rfl, hok⟩ := call_eq_some hs
    obtain ⟨hzero, hstart⟩ := hanchor (p, path) List.mem_cons_self
    obtain rfl | ⟨htrue, -⟩ := exec_sys_make h.named hsmall hroom (hstart cwd hp) hzero hexec
    · rfl
    · cases hok.trans htrue
  | sys_mknod p path major minor =>
    obtain ⟨cwd, hp, hs⟩ := Option.bind_eq_some_iff.mp hn
    obtain ⟨f', a, hexec, rfl, hok⟩ := call_eq_some hs
    obtain ⟨hzero, hstart⟩ := hanchor (p, path) List.mem_cons_self
    obtain rfl | ⟨htrue, -⟩ := exec_sys_make h.named hsmall hroom (hstart cwd hp) hzero hexec
    · rfl
    · cases hok.trans htrue
  | sys_chdir p path =>
    obtain ⟨cwd, hp, hs⟩ := Option.bind_eq_some_iff.mp hn
    obtain ⟨f', found, hexec, rfl, hok⟩ := call_eq_some hs
    obtain ⟨-, hstart⟩ := hanchor (p, path) List.mem_cons_self
    obtain ⟨f₁, found₁, hspec, hcases⟩ :=
      exec_sys_chdir s.refs h.named (h.held cwd (refs_of_cwd hp)) (hstart cwd hp)
    rw [hspec] at hexec
    obtain ⟨rfl, rfl⟩ := Prod.mk.inj (Option.some.inj hexec)
    obtain ⟨rfl, rfl⟩ | ⟨inum, rfl, -, -⟩ := hcases
    · rw [Option.getD_none, set_self hp]
    · cases hok

end Steps

section Runs

variable {s s' : System DiskInodes.Fs} {e : Event} {es : List Event}

/-- The calls one after another, on the disk. -/
inductive Runs (sb : SuperBlock) : System DiskInodes.Fs → List Event → System DiskInodes.Fs →
    Prop where
  | nil (s : System DiskInodes.Fs) : Runs sb s [] s
  | cons {s s' s'' : System DiskInodes.Fs} {e : Event} {es : List Event} {ok : Bool} :
    Event.Anchored sb (file s.store) s.cwds e →
    FileCalls.next (FileStore.next sb) s e = some (s', ok) → Runs sb s' es s'' →
    Runs sb s (e :: es) s''

theorem total_le {fs : DiskInodes.Fs} (h : Invariant sb fs) : total sb (file fs) ≤ sb.nblocks :=
  card_inUse_eq_total h (fun _ _ => rfl) ▸ card_inUse_le

theorem disk_step_books (hsmall : Small sb) (hinv : Invariant sb s.store)
    (h : Books sb (file s.store) s.refs) (hanchor : Event.Anchored sb (file s.store) s.cwds e)
    (hn : FileCalls.next (FileStore.next sb) s e = some (s', ok)) :
    Invariant sb s'.store ∧ Books sb (file s'.store) s'.refs := by
  have hmirrors : Mirrors sb s ⟨file s.store, s.cwds, s.files⟩ :=
    ⟨hinv, fun _ _ => rfl, rfl, rfl⟩
  obtain ⟨t', hn', hmirrors'⟩ := next_mirrors hmirrors hn
  have hbooks := step_books hsmall h (total_le hinv) hanchor hn'
  rw [hmirrors'.refs] at hbooks
  exact ⟨hmirrors'.invariant, hbooks.shown hmirrors'.shows⟩

theorem runs_books (hsmall : Small sb) (hinv : Invariant sb s.store)
    (h : Books sb (file s.store) s.refs) (hr : Runs sb s es s') :
    Invariant sb s'.store ∧ Books sb (file s'.store) s'.refs := by
  induction hr with
  | nil => exact ⟨hinv, h⟩
  | cons hanchor hn _ ih =>
    obtain ⟨hinv', h'⟩ := disk_step_books hsmall hinv h hanchor hn
    exact ih hinv' h'

end Runs

section Formatted

variable {s s' : System DiskInodes.Fs} {es : List Event} {fs : DiskInodes.Fs}

/-- The root directory is made. -/
def format : List Op :=
  [.ialloc .T_DIR, .node ROOTINO 0 0 1, .writei ROOTINO 0 (dots ROOTINO ROOTINO)]

theorem fits_format : ∀ op ∈ format, op.Fits := by
  simp only [format, List.mem_cons, List.not_mem_nil, or_false]
  rintro op (rfl | rfl | rfl)
  · trivial
  · exact ⟨by decide, by decide, by decide⟩
  · exact (by decide : (dots ROOTINO ROOTINO).length < 4294967296)

theorem written_dots : (PageCache.writei [] 0 (dots ROOTINO ROOTINO)).getD [] =
    dots ROOTINO ROOTINO := by
  decide +kernel

/-- The root directory, and no other file. -/
def formatted : ℕ → File :=
  Function.update (fun _ => File.none) ROOTINO ⟨T_DIR, 0, 0, 1, dots ROOTINO ROOTINO⟩

theorem format_shows
    (hr : FileStore.run sb (blank sb) format = some (fs, [.inum ROOTINO, .done, .wrote true])) :
    Invariant sb fs ∧ Shows sb fs formatted := by
  obtain ⟨hinv, f, hdoes, hshows⟩ := run_spec blank_invariant (fun _ _ => rfl) fits_format hr
  have hblank : file (blank sb) = fun _ => File.none := rfl
  rw [hblank] at hdoes
  cases hdoes with
  | cons _ hdoes =>
    cases hdoes with
    | cons _ hdoes =>
      cases hdoes with
      | cons _ hdoes =>
        cases hdoes with
        | nil =>
          refine ⟨hinv, fun i hi => (hshows i hi).trans ?_⟩
          obtain rfl | hne := eq_or_ne i ROOTINO
          · simp only [apply, formatted, Function.update_self, File.none, written_dots]
          · simp only [apply, formatted, Function.update_of_ne hne]

/-- One process is in the root directory. -/
theorem formatted_books (hlt : ROOTINO < sb.ninodes) :
    Books sb formatted (System.mk formatted [ROOTINO] []).refs := by
  have hroot : formatted ROOTINO = ⟨T_DIR, 0, 0, 1, dots ROOTINO ROOTINO⟩ :=
    Function.update_self _ _ _
  have hrest : ∀ i, i ≠ ROOTINO → formatted i = File.none := fun i hi =>
    Function.update_of_ne hi _ _
  refine ⟨.of_root hlt hroot fun i _ hi => ?_, fun i _ ht hn => ?_, fun i hi => ?_⟩
  · rw [hrest i hi]
    rfl
  · obtain rfl | hi := eq_or_ne i ROOTINO
    · rw [hroot] at hn
      cases hn
    · rw [hrest i hi] at ht
      exact absurd rfl ht
  · rw [System.refs, List.count_nil, Nat.add_zero] at hi
    obtain rfl := List.mem_singleton.mp (List.count_pos_iff.mp hi)
    rw [hroot]
    exact ⟨hlt, (by decide : T_DIR ≠ 0)⟩

/-- The calls, computed. -/
def play {S : Type} (step : S → Op → Option (S × Result)) (s : System S) :
    List Event → Option (System S)
  | [] => some s
  | e :: es => (FileCalls.next step s e).bind fun r => play step r.1 es

/-- A call on the files is one on the disk. -/
theorem next_mirrored {t t' : System (ℕ → File)} {e : Event} (h : Mirrors sb s t)
    (hn : FileCalls.next (FileMachine.next sb) t e = some (t', ok)) :
    ∃ s', FileCalls.next (FileStore.next sb) s e = some (s', ok) ∧ Mirrors sb s' t' := by
  cases hs : FileCalls.next (FileStore.next sb) s e with
  | none =>
    rw [(next_fails h).mp hs] at hn
    cases hn
  | some r =>
    obtain ⟨s', ok'⟩ := r
    obtain ⟨t₁, hn', h'⟩ := next_mirrors h hs
    rw [hn] at hn'
    obtain ⟨rfl, rfl⟩ := Prod.mk.inj (Option.some.inj hn')
    exact ⟨s', rfl, h'⟩

theorem play_mirrors {t t' : System (ℕ → File)} (h : Mirrors sb s t)
    (hp : play (FileMachine.next sb) t es = some t') :
    ∃ s', play (FileStore.next sb) s es = some s' ∧ Mirrors sb s' t' := by
  induction es generalizing s t with
  | nil =>
    obtain rfl := Option.some.inj hp
    exact ⟨s, rfl, h⟩
  | cons e es ih =>
    obtain ⟨⟨t₁, ok⟩, hn, hp⟩ := Option.bind_eq_some_iff.mp hp
    obtain ⟨s₁, hs, h'⟩ := next_mirrored h hn
    obtain ⟨s', hp', h''⟩ := ih h' hp
    exact ⟨s', by rw [play, hs, Option.bind_some, hp'], h''⟩

theorem runs_of_play (hpaths : ∀ e ∈ es, ∀ q ∈ Event.paths e, 0 ∉ q.2 ∧ q.2.head? = some slash)
    (hp : play (FileStore.next sb) s es = some s') : Runs sb s es s' := by
  induction es generalizing s with
  | nil =>
    obtain rfl := Option.some.inj hp
    exact .nil s
  | cons e es ih =>
    obtain ⟨⟨s₁, ok⟩, hn, hp⟩ := Option.bind_eq_some_iff.mp hp
    refine .cons (fun q hq => ?_) hn (ih (fun e he => hpaths e (List.mem_cons_of_mem _ he)) hp)
    obtain ⟨hzero, hslash⟩ := hpaths e List.mem_cons_self q hq
    exact ⟨hzero, fun _ _ => .inl hslash⟩

end Formatted

section Results

variable {s s' : System DiskInodes.Fs} {es : List Event}

/-- A directory is made, and a file in it, which gets another name. Both names go while the file is
open, and then the directory goes. -/
def session : List Event :=
  [.sys_mkdir 0 [47, 97], .sys_open 0 [47, 97, 47, 98] true false true,
    .sys_link 0 [47, 97, 47, 98] [47, 99], .sys_unlink 0 [47, 97, 47, 98], .sys_unlink 0 [47, 99],
    .sys_unlink 0 [47, 97]]

theorem small_tiny : Small tiny := ⟨by decide, by decide⟩

theorem session_absolute :
    ∀ e ∈ session, ∀ q ∈ Event.paths e, 0 ∉ q.2 ∧ q.2.head? = some slash := by
  decide

/-- Calls that go through on the files are a run on a fresh disk. -/
theorem fresh_runs {t : System (ℕ → File)}
    (hpaths : ∀ e ∈ es, ∀ q ∈ Event.paths e, 0 ∉ q.2 ∧ q.2.head? = some slash)
    (hp : play (FileMachine.next tiny) ⟨formatted, [ROOTINO], []⟩ es = some t) :
    ∃ s s', Invariant tiny s.store ∧ Books tiny (file s.store) s.refs ∧ Runs tiny s es s' ∧
      Mirrors tiny s' t := by
  have hformat : (FileStore.run tiny (blank tiny) format).map Prod.snd =
      some [.inum ROOTINO, .done, .wrote true] := by
    decide +kernel
  obtain ⟨⟨fs, rs⟩, hr, rfl⟩ := Option.map_eq_some_iff.mp hformat
  obtain ⟨hinv, hshows⟩ := format_shows hr
  have hmirrors : Mirrors tiny ⟨fs, [ROOTINO], []⟩ ⟨formatted, [ROOTINO], []⟩ :=
    ⟨hinv, hshows, rfl, rfl⟩
  obtain ⟨s', hp', hmirrors'⟩ := play_mirrors hmirrors hp
  exact ⟨_, s', hinv, (formatted_books (by decide)).shown hshows, runs_of_play hpaths hp', hmirrors'⟩

theorem session_played : ∃ s s', Invariant tiny s.store ∧ Books tiny (file s.store) s.refs ∧
    Runs tiny s session s' ∧ s'.files = [3] ∧ s'.refs 3 = 1 ∧ (file s'.store 3).nlink = 0 := by
  have hplay : (play (FileMachine.next tiny) ⟨formatted, [ROOTINO], []⟩ session).map
      (fun t => (t.files, t.refs 3, (t.store 3).nlink)) = some ([3], 1, 0) := by
    decide +kernel
  obtain ⟨t', hp, ht⟩ := Option.map_eq_some_iff.mp hplay
  obtain ⟨hfiles, hrest⟩ := Prod.mk.inj ht
  obtain ⟨hrefs, hnlink⟩ := Prod.mk.inj hrest
  obtain ⟨s, s', hinv, hbooks, hruns, hmirrors⟩ := fresh_runs session_absolute hp
  refine ⟨s, s', hinv, hbooks, hruns, hmirrors.files.symm.trans hfiles, ?_, ?_⟩
  · rw [← hmirrors.refs]
    exact hrefs
  · rw [hmirrors.shows 3 (by decide)]
    exact hnlink

/-- In every run, a call that fails leaves the files, the working directories and the open files as
they were. The exceptions are an open that made its file before it found no room for it, and a
write of which an earlier chunk went in. -/
theorem failed_call_changes_nothing {s'' : System DiskInodes.Fs} {e : Event} (hsmall : Small sb)
    (hinv : Invariant sb s.store) (h : Books sb (file s.store) s.refs) (hr : Runs sb s es s')
    (hanchor : Event.Anchored sb (file s'.store) s'.cwds e) (hwhole : Event.Whole e)
    (hn : FileCalls.next (FileStore.next sb) s' e = some (s'', false)) :
    (∀ i < sb.ninodes, file s''.store i = file s'.store i) ∧ s''.cwds = s'.cwds ∧
      s''.files = s'.files := by
  obtain ⟨hinv', h'⟩ := runs_books hsmall hinv h hr
  have hmirrors : Mirrors sb s' ⟨file s'.store, s'.cwds, s'.files⟩ :=
    ⟨hinv', fun _ _ => rfl, rfl, rfl⟩
  obtain ⟨t, ht, hmirrors'⟩ := next_mirrors hmirrors hn
  obtain rfl := step_failed hsmall h' (total_le hinv') hanchor hwhole ht
  exact ⟨hmirrors'.shows, hmirrors'.cwds.symm, hmirrors'.files.symm⟩

/-- A directory and an open file in it are made. The name for a link to the file is in a directory
that is not there: the link count of the file is raised and lowered again. -/
theorem failed_call_changes_nothing_link : ∃ s s' s'' : System DiskInodes.Fs,
    Runs tiny s (session.take 2) s' ∧ (file s'.store 3).nlink = 1 ∧
      FileCalls.next (FileStore.next tiny) s' (.sys_link 0 [47, 97, 47, 98] [47, 122, 47, 121]) =
        some (s'', false) ∧
      (∀ i < tiny.ninodes, file s''.store i = file s'.store i) ∧ s''.cwds = s'.cwds ∧
      s''.files = s'.files := by
  have hplay : ((play (FileMachine.next tiny) ⟨formatted, [ROOTINO], []⟩ (session.take 2)).bind
      fun t => (FileCalls.next (FileMachine.next tiny) t
        (.sys_link 0 [47, 97, 47, 98] [47, 122, 47, 121])).map
          fun r => ((t.store 3).nlink, r.2)) = some (1, false) := by
    decide +kernel
  obtain ⟨t, hp, ht⟩ := Option.bind_eq_some_iff.mp hplay
  obtain ⟨⟨t', ok⟩, hn, hresult⟩ := Option.map_eq_some_iff.mp ht
  obtain ⟨hnlink, rfl⟩ := Prod.mk.inj hresult
  have habsolute : ∀ e ∈ session.take 2, ∀ q ∈ Event.paths e, 0 ∉ q.2 ∧ q.2.head? = some slash :=
    fun e he => session_absolute e (List.mem_of_mem_take he)
  obtain ⟨s, s', hinv, hbooks, hruns, hmirrors⟩ := fresh_runs habsolute hp
  obtain ⟨s'', hn', -⟩ := next_mirrored hmirrors hn
  refine ⟨s, s', s'', hruns, ?_, hn',
    failed_call_changes_nothing small_tiny hinv hbooks hruns ?_ ?_ hn'⟩
  · rw [hmirrors.shows 3 (by decide)]
    exact hnlink
  · intro q hq
    obtain rfl | rfl : q = (0, [47, 97, 47, 98]) ∨ q = (0, [47, 122, 47, 121]) := by
      simpa [Event.paths] using hq
    · exact ⟨by decide, fun _ _ => .inl rfl⟩
    · exact ⟨by decide, fun _ _ => .inl rfl⟩
  · trivial

/-- In every run, a call that needs no new inode and no new block finds what it looks for, and the
counts that it changes are in range: it reaches none of the panics of `ilock`, `dirlookup`,
`isdirempty` and `sys_unlink`. -/
theorem never_panics {e : Event} (hsmall : Small sb) (hinv : Invariant sb s.store)
    (h : Books sb (file s.store) s.refs) (hr : Runs sb s es s')
    (hanchor : Event.Anchored sb (file s'.store) s'.cwds e) (hspares : Event.Spares e)
    (hthere : Event.Present s'.cwds s'.files e) :
    FileCalls.next (FileStore.next sb) s' e ≠ none := by
  obtain ⟨hinv', h'⟩ := runs_books hsmall hinv h hr
  have hmirrors : Mirrors sb s' ⟨file s'.store, s'.cwds, s'.files⟩ :=
    ⟨hinv', fun _ _ => rfl, rfl, rfl⟩
  rw [ne_eq, next_fails hmirrors]
  exact step_ne_none hsmall h' (total_le hinv') hanchor hspares hthere

theorem never_panics_session : ∃ s s' : System DiskInodes.Fs, Runs tiny s session s' ∧
    s'.files = [3] ∧ FileCalls.next (FileStore.next tiny) s' (.close 0) ≠ none := by
  obtain ⟨s, s', hinv, hbooks, hruns, hfiles, -⟩ := session_played
  refine ⟨s, s', hruns, hfiles, never_panics small_tiny hinv hbooks hruns ?_ trivial ?_⟩
  · intro q hq
    cases hq
  · rw [hfiles]
    exact Nat.zero_lt_one

end Results

end SystemRuns
