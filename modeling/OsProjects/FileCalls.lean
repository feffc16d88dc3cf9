import OsProjects.PathNames

/-! # System calls on names

`sys_link`, `sys_unlink`, `create`, `sys_open`, `sys_mkdir`, `sys_mknod` and `sys_chdir` of
`sysfile.c`, and the references of working directories and open files. Calls run one after another.
-/
namespace FileCalls

open Programs DiskBlocks DiskInodes FileStore Directories PathNames

abbrev T_DIR : ℕ := Kind.T_DIR.code
abbrev T_FILE : ℕ := Kind.T_FILE.code

def dot : List UInt8 := [46]
def dotdot : List UInt8 := [46, 46]

section Code

/-- `iupdate` after a change of `ip->nlink`, which is a `short`. -/
def links (inum nlink : ℕ) : Call Unit := .call (.links inum (nlink % 65536)) fun _ => pure ()

def ialloc (kind : Kind) : Call ℕ := .call (.ialloc kind) fun
  | .inum inum => pure inum
  | _ => .fail

def node (inum major minor nlink : ℕ) : Call Unit :=
  .call (.node inum (major % 65536) (minor % 65536) nlink) fun _ => pure ()

/-- The label `bad` of `sys_unlink`; `refs` are the references of others. -/
def unlink_bad (refs : ℕ → ℕ) (inum : ℕ) : Call Bool := do
  iput (refs inum) inum
  pure false

def link_bad (refs : ℕ → ℕ) (ip : ℕ) : Call Bool := do
  let st ← stat ip
  links ip (st.nlink + 65535)
  unlink_bad refs ip

def sys_link (refs : ℕ → ℕ) (cwd : ℕ) (old new : List UInt8) : Call Bool := do
  match ← namex refs cwd old false with
  | none => pure false
  | some (ip, _) =>
    let st ← stat ip
    if st.type = T_DIR then unlink_bad refs ip
    else
      links ip (st.nlink + 1)
      let held := Function.update refs ip (refs ip + 1)
      match ← namex held cwd new true with
      | none => link_bad refs ip
      | some (dp, name) =>
        -- there is one device
        let ok ← dirlink dp name ip
        iput (held dp) dp
        if ok then
          iput (refs ip) ip
          pure true
        else link_bad refs ip

/-- The callers panic when the call fails. -/
def orPanic (call : Call Bool) : Call Unit := do
  let ok ← call
  if ok then pure () else .fail

/-- `dp->nlink--` for the entry `..` of a directory that goes. -/
def unlink_parent (dp type : ℕ) : Call Unit :=
  if type = T_DIR then do
    let st ← stat dp
    links dp (st.nlink + 65535)
  else pure ()

def unlink_entry (refs : ℕ → ℕ) (dp ip off type : ℕ) : Call Bool := do
  orPanic (writei dp off (List.replicate DIRENT 0))
  unlink_parent dp type
  iput (refs dp + if dp = ip then 1 else 0) dp
  let st ← stat ip
  links ip (st.nlink + 65535)
  iput (refs ip) ip
  pure true

/-- Whether the inode may be unlinked. -/
def unlinkable (ip type : ℕ) : Call Bool := if type = T_DIR then isdirempty ip else pure true

def sys_unlink (refs : ℕ → ℕ) (cwd : ℕ) (path : List UInt8) : Call Bool := do
  match ← namex refs cwd path true with
  | none => pure false
  | some (dp, name) =>
    if namecmp name dot = 0 ∨ namecmp name dotdot = 0 then unlink_bad refs dp
    else
      match ← dirlookup dp name with
      | none => unlink_bad refs dp
      | some (ip, off) =>
        let st ← stat ip
        -- `nlink < 1` of a `short`
        if st.nlink = 0 ∨ 32768 ≤ st.nlink then .fail
        else
          let ok ← unlinkable ip st.type
          if ok then unlink_entry refs dp ip off st.type
          else
            iput (refs ip + if dp = ip then 1 else 0) ip
            unlink_bad refs dp

/-- The entries `.` and `..`. There is no `ip->nlink++` for the first. -/
def create_dots (dp ip : ℕ) (kind : Kind) : Call Unit :=
  if kind = .T_DIR then do
    let st ← stat dp
    links dp (st.nlink + 1)
    orPanic (dirlink ip dot ip)
    orPanic (dirlink ip dotdot dp)
  else pure ()

/-- A new inode with its entries. -/
def create_new (dp : ℕ) (name : List UInt8) (kind : Kind) (major minor : ℕ) : Call ℕ := do
  let ip ← ialloc kind
  node ip major minor 1
  create_dots dp ip kind
  orPanic (dirlink dp name ip)
  pure ip

def create (refs : ℕ → ℕ) (cwd : ℕ) (path : List UInt8) (kind : Kind) (major minor : ℕ) :
    Call (Option ℕ) := do
  match ← namex refs cwd path true with
  | none => pure none
  | some (dp, name) =>
    match ← dirlookup dp name with
    | some (ip, _) =>
      iput (refs dp + if ip = dp then 1 else 0) dp
      let st ← stat ip
      if kind = .T_FILE ∧ st.type = T_FILE then pure (some ip)
      else
        iput (refs ip) ip
        pure none
    | none =>
      let ip ← create_new dp name kind major minor
      iput (refs dp) dp
      pure (some ip)

/-- The first half of `sys_open`. `omode` is `O_RDONLY` or not, and has `O_CREATE` or not. -/
def open_inode (refs : ℕ → ℕ) (cwd : ℕ) (path : List UInt8) (O_CREATE O_RDONLY : Bool) :
    Call (Option ℕ) :=
  if O_CREATE then create refs cwd path .T_FILE 0 0
  else do
    match ← namex refs cwd path false with
    | none => pure none
    | some (ip, _) =>
      let st ← stat ip
      if st.type = T_DIR ∧ !O_RDONLY then
        iput (refs ip) ip
        pure none
      else pure (some ip)

/-- There is room for another open file, or there is none. -/
def sys_open (refs : ℕ → ℕ) (cwd : ℕ) (path : List UInt8) (O_CREATE O_RDONLY room : Bool) :
    Call (Option ℕ) := do
  match ← open_inode refs cwd path O_CREATE O_RDONLY with
  | none => pure none
  | some ip =>
    if room then pure (some ip)
    else
      iput (refs ip) ip
      pure none

/-- `sys_mkdir` and `sys_mknod`. -/
def sys_make (refs : ℕ → ℕ) (cwd : ℕ) (path : List UInt8) (kind : Kind) (major minor : ℕ) :
    Call Bool := do
  match ← create refs cwd path kind major minor with
  | none => pure false
  | some ip =>
    iput (refs ip) ip
    pure true

def sys_mkdir (refs : ℕ → ℕ) (cwd : ℕ) (path : List UInt8) : Call Bool :=
  sys_make refs cwd path .T_DIR 0 0

def sys_mknod (refs : ℕ → ℕ) (cwd : ℕ) (path : List UInt8) (major minor : ℕ) : Call Bool :=
  sys_make refs cwd path .T_DEV major minor

/-- One of the references to `cwd` is that of the process. -/
def sys_chdir (refs : ℕ → ℕ) (cwd : ℕ) (path : List UInt8) : Call (Option ℕ) := do
  match ← namex refs cwd path false with
  | none => pure none
  | some (ip, _) =>
    let st ← stat ip
    if st.type ≠ T_DIR then
      iput (refs ip) ip
      pure none
    else
      iput (refs cwd - 1 + if ip = cwd then 1 else 0) cwd
      pure (some ip)

end Code

section Runs

/-- The working directories of the processes, and the inodes of the open files. -/
structure System (S : Type) where
  store : S
  cwds : List ℕ
  files : List ℕ

def System.refs {S : Type} (s : System S) (inum : ℕ) : ℕ := s.cwds.count inum + s.files.count inum

/-- A process is its place in the list, and so is an open file. -/
inductive Event where
  | sys_link (p : ℕ) (old new : List UInt8)
  | sys_unlink (p : ℕ) (path : List UInt8)
  | sys_open (p : ℕ) (path : List UInt8) (O_CREATE O_RDONLY room : Bool)
  | sys_mkdir (p : ℕ) (path : List UInt8)
  | sys_mknod (p : ℕ) (path : List UInt8) (major minor : ℕ)
  | sys_chdir (p : ℕ) (path : List UInt8)
  | fork (p : ℕ)
  | exit (p : ℕ)
  | close (fd : ℕ)
  /-- The file offset is `off`. -/
  | write (fd off : ℕ) (src : List UInt8)

/-- What a call leaves behind: the working directories, the open files, and whether it failed. -/
structure After where
  cwds : List ℕ
  files : List ℕ
  ok : Bool

variable {S A : Type} (step : S → Op → Option (S × Result))

def System.call (s : System S) (program : Call A) (after : A → After) : Option (System S × Bool) :=
  (exec step program s.store).map fun r =>
    let a := after r.2
    (⟨r.1, a.cwds, a.files⟩, a.ok)

/-- The loop of `filewrite`. The chunks before one that is refused stay. -/
def writeLoop (inum : ℕ) : ℕ → ℕ → List UInt8 → Call Bool
  | 0, _, src => pure src.isEmpty
  | fuel + 1, off, src =>
    if src.isEmpty then pure true
    else do
      let ok ← writei inum off (src.take PageCache.MAXCHUNK)
      if ok then
        writeLoop inum fuel (off + (src.take PageCache.MAXCHUNK).length)
          (src.drop PageCache.MAXCHUNK)
      else pure false

/-- `filewrite` to a regular file. Directories are never open for writing. -/
def write (inum off : ℕ) (src : List UInt8) : Call Bool := do
  let st ← stat inum
  if st.type = T_FILE then writeLoop inum src.length off src else .fail

/-- `none` when the kernel panics, and when there is no such process or file. Process 0 is the
first process, which must not exit. That `iget` has room in the inode table is taken for granted. -/
def next (s : System S) : Event → Option (System S × Bool)
  | .sys_link p old new => s.cwds[p]?.bind fun cwd =>
    s.call step (sys_link s.refs cwd old new) fun ok => ⟨s.cwds, s.files, ok⟩
  | .sys_unlink p path => s.cwds[p]?.bind fun cwd =>
    s.call step (sys_unlink s.refs cwd path) fun ok => ⟨s.cwds, s.files, ok⟩
  | .sys_open p path O_CREATE O_RDONLY room => s.cwds[p]?.bind fun cwd =>
    s.call step (sys_open s.refs cwd path O_CREATE O_RDONLY room) fun ip =>
      ⟨s.cwds, s.files ++ ip.toList, ip.isSome⟩
  | .sys_mkdir p path => s.cwds[p]?.bind fun cwd =>
    s.call step (sys_mkdir s.refs cwd path) fun ok => ⟨s.cwds, s.files, ok⟩
  | .sys_mknod p path major minor => s.cwds[p]?.bind fun cwd =>
    s.call step (sys_mknod s.refs cwd path major minor) fun ok => ⟨s.cwds, s.files, ok⟩
  | .sys_chdir p path => s.cwds[p]?.bind fun cwd =>
    s.call step (sys_chdir s.refs cwd path) fun ip =>
      ⟨s.cwds.set p (ip.getD cwd), s.files, ip.isSome⟩
  | .fork p => s.cwds[p]?.map fun cwd => (⟨s.store, s.cwds ++ [cwd], s.files⟩, true)
  | .exit p =>
    if p = 0 then none
    else s.cwds[p]?.bind fun cwd =>
      s.call step (iput (s.refs cwd - 1) cwd) fun _ => ⟨s.cwds.eraseIdx p, s.files, true⟩
  | .close fd => s.files[fd]?.bind fun inum =>
    s.call step (iput (s.refs inum - 1) inum) fun _ => ⟨s.cwds, s.files.eraseIdx fd, true⟩
  | .write fd off src => s.files[fd]?.bind fun inum =>
    s.call step (write inum off src) fun ok => ⟨s.cwds, s.files, ok⟩

end Runs

section Issued

variable {inum off n : ℕ} {refs : ℕ → ℕ}

theorem issues_stat : Issues Op.Fits (stat inum) := by
  refine ⟨trivial, fun r => ?_⟩
  cases r <;> trivial

theorem issues_readi (hn : n < 4294967296) : Issues Op.Fits (Directories.readi inum off n) := by
  refine ⟨hn, fun r => ?_⟩
  cases r <;> trivial

theorem issues_writei {src : List UInt8} (hn : src.length < 4294967296) :
    Issues Op.Fits (Directories.writei inum off src) := by
  refine ⟨hn, fun r => ?_⟩
  cases r <;> trivial

theorem issues_links : Issues Op.Fits (links inum n) :=
  ⟨Nat.mod_lt _ (by decide), fun _ => trivial⟩

theorem issues_ialloc {kind : Kind} : Issues Op.Fits (ialloc kind) := by
  refine ⟨trivial, fun r => ?_⟩
  cases r <;> trivial

theorem issues_iput {others : ℕ} : Issues Op.Fits (iput others inum) := by
  refine issues_bind issues_stat fun st => ?_
  split_ifs
  · exact ⟨trivial, fun _ => trivial⟩
  · trivial

theorem issues_readDirent : Issues Op.Fits (readDirent inum off) := by
  refine issues_bind (issues_readi (by decide)) fun bs => ?_
  cases bs with
  | none => trivial
  | some bs =>
    dsimp only
    split_ifs <;> trivial

theorem issues_lookupLoop {name : List UInt8} {offs : List ℕ} :
    Issues Op.Fits (lookupLoop inum name offs) := by
  induction offs with
  | nil => trivial
  | cons off offs ih =>
    refine issues_bind issues_readDirent fun de => ?_
    split_ifs
    · exact ih
    · trivial
    · exact ih

theorem issues_dirlookup {name : List UInt8} : Issues Op.Fits (dirlookup inum name) := by
  refine issues_bind issues_stat fun st => ?_
  split_ifs
  · trivial
  · exact issues_lookupLoop

theorem issues_emptyLoop {last : ℕ} {offs : List ℕ} :
    Issues Op.Fits (emptyLoop inum last offs) := by
  induction offs with
  | nil => trivial
  | cons off offs ih =>
    refine issues_bind issues_readDirent fun de => ?_
    split_ifs
    · trivial
    · exact ih

theorem encode_small {name : List UInt8} :
    (Dirent.encode ⟨inum, strncpy DIRSIZ name⟩).length < 4294967296 := by
  rw [Dirent.encode, List.length_append, ByteMemory.leBytes_length, strncpy_length]
  decide

theorem issues_dirlink {name : List UInt8} : Issues Op.Fits (dirlink inum name n) := by
  refine issues_bind issues_dirlookup fun found => ?_
  cases found with
  | some _ => trivial
  | none =>
    refine issues_bind issues_stat fun st => issues_bind issues_emptyLoop fun off =>
      issues_bind (issues_writei encode_small) fun ok => ?_
    split_ifs <;> trivial

theorem issues_isemptyLoop {offs : List ℕ} : Issues Op.Fits (isemptyLoop inum offs) := by
  induction offs with
  | nil => trivial
  | cons off offs ih =>
    refine issues_bind issues_readDirent fun de => ?_
    split_ifs
    · trivial
    · exact ih

theorem issues_namexLoop {nameiparent : Bool} {fuel : ℕ} {path : List UInt8} :
    Issues Op.Fits (namexLoop refs nameiparent fuel inum path) := by
  induction fuel generalizing inum path with
  | zero => trivial
  | succ fuel ih =>
    rw [namexLoop]
    cases skipelem path with
    | none => trivial
    | some r =>
      refine issues_bind issues_stat fun st => ?_
      split_ifs
      · exact issues_bind issues_iput fun _ => trivial
      · trivial
      · refine issues_bind issues_dirlookup fun found => ?_
        cases found with
        | none => exact issues_bind issues_iput fun _ => trivial
        | some r => exact issues_bind issues_iput fun _ => ih

theorem issues_namex {cwd : ℕ} {path : List UInt8} {nameiparent : Bool} :
    Issues Op.Fits (namex refs cwd path nameiparent) := issues_namexLoop

theorem issues_unlink_bad : Issues Op.Fits (unlink_bad refs inum) :=
  issues_bind issues_iput fun _ => trivial

theorem issues_link_bad : Issues Op.Fits (link_bad refs inum) :=
  issues_bind issues_stat fun _ => issues_bind issues_links fun _ => issues_unlink_bad

theorem issues_sys_link {cwd : ℕ} {old new : List UInt8} :
    Issues Op.Fits (sys_link refs cwd old new) := by
  refine issues_bind issues_namex fun found => ?_
  cases found with
  | none => trivial
  | some r =>
    refine issues_bind issues_stat fun st => ?_
    split_ifs
    · exact issues_unlink_bad
    · refine issues_bind issues_links fun _ => issues_bind issues_namex fun found => ?_
      cases found with
      | none => exact issues_link_bad
      | some r =>
        refine issues_bind issues_dirlink fun ok => issues_bind issues_iput fun _ => ?_
        split_ifs
        · exact issues_bind issues_iput fun _ => trivial
        · exact issues_link_bad

theorem issues_orPanic {call : Call Bool} (h : Issues Op.Fits call) :
    Issues Op.Fits (orPanic call) := by
  refine issues_bind h fun ok => ?_
  split_ifs <;> trivial

theorem issues_unlink_parent {type : ℕ} : Issues Op.Fits (unlink_parent inum type) := by
  rw [unlink_parent]
  split_ifs
  · exact issues_bind issues_stat fun _ => issues_links
  · trivial

theorem issues_unlink_entry {ip type : ℕ} :
    Issues Op.Fits (unlink_entry refs inum ip off type) := by
  have hlen : (List.replicate DIRENT (0 : UInt8)).length < 4294967296 := by
    rw [List.length_replicate]
    decide
  exact issues_bind (issues_orPanic (issues_writei hlen)) fun _ =>
    issues_bind issues_unlink_parent fun _ => issues_bind issues_iput fun _ =>
      issues_bind issues_stat fun _ => issues_bind issues_links fun _ =>
        issues_bind issues_iput fun _ => trivial

theorem issues_unlinkable {type : ℕ} : Issues Op.Fits (unlinkable inum type) := by
  rw [unlinkable]
  split_ifs
  · exact issues_bind issues_stat fun _ => issues_isemptyLoop
  · trivial

theorem issues_sys_unlink {cwd : ℕ} {path : List UInt8} :
    Issues Op.Fits (sys_unlink refs cwd path) := by
  refine issues_bind issues_namex fun found => ?_
  cases found with
  | none => trivial
  | some r =>
    dsimp only
    split_ifs
    · exact issues_unlink_bad
    · refine issues_bind issues_dirlookup fun found => ?_
      cases found with
      | none => exact issues_unlink_bad
      | some r =>
        refine issues_bind issues_stat fun st => ?_
        by_cases hpanic : st.nlink = 0 ∨ 32768 ≤ st.nlink
        · rw [if_pos hpanic]
          trivial
        · rw [if_neg hpanic]
          refine issues_bind issues_unlinkable fun ok => ?_
          cases ok with
          | true => exact issues_unlink_entry
          | false => exact issues_bind issues_iput fun _ => issues_unlink_bad

theorem issues_create_dots {ip : ℕ} {kind : Kind} :
    Issues Op.Fits (create_dots inum ip kind) := by
  rw [create_dots]
  split_ifs
  · exact issues_bind issues_stat fun _ => issues_bind issues_links fun _ =>
      issues_bind (issues_orPanic issues_dirlink) fun _ => issues_orPanic issues_dirlink
  · trivial

theorem issues_create {cwd major minor : ℕ} {path : List UInt8} {kind : Kind} :
    Issues Op.Fits (create refs cwd path kind major minor) := by
  refine issues_bind issues_namex fun found => ?_
  cases found with
  | none => trivial
  | some r =>
    refine issues_bind issues_dirlookup fun found => ?_
    cases found with
    | some r =>
      refine issues_bind issues_iput fun _ => issues_bind issues_stat fun st => ?_
      split_ifs
      · trivial
      · exact issues_bind issues_iput fun _ => trivial
    | none =>
      have hnode : ∀ ip, Issues Op.Fits (node ip major minor 1) := fun ip =>
        ⟨⟨Nat.mod_lt _ (by decide), Nat.mod_lt _ (by decide), by decide⟩, fun _ => trivial⟩
      refine issues_bind ?_ fun _ => issues_bind issues_iput fun _ => trivial
      exact issues_bind issues_ialloc fun ip => issues_bind (hnode ip) fun _ =>
        issues_bind issues_create_dots fun _ =>
          issues_bind (issues_orPanic issues_dirlink) fun _ => trivial

theorem issues_open_inode {cwd : ℕ} {path : List UInt8} {O_CREATE O_RDONLY : Bool} :
    Issues Op.Fits (open_inode refs cwd path O_CREATE O_RDONLY) := by
  cases O_CREATE with
  | true => exact issues_create
  | false =>
    refine issues_bind issues_namex fun found => ?_
    cases found with
    | none => trivial
    | some r =>
      refine issues_bind issues_stat fun st => ?_
      split_ifs
      · exact issues_bind issues_iput fun _ => trivial
      · trivial

theorem issues_sys_open {cwd : ℕ} {path : List UInt8} {O_CREATE O_RDONLY room : Bool} :
    Issues Op.Fits (sys_open refs cwd path O_CREATE O_RDONLY room) := by
  refine issues_bind issues_open_inode fun found => ?_
  cases found with
  | none => trivial
  | some ip =>
    cases room with
    | true => trivial
    | false => exact issues_bind issues_iput fun _ => trivial

theorem issues_sys_make {cwd major minor : ℕ} {path : List UInt8} {kind : Kind} :
    Issues Op.Fits (sys_make refs cwd path kind major minor) := by
  refine issues_bind issues_create fun found => ?_
  cases found with
  | none => trivial
  | some ip => exact issues_bind issues_iput fun _ => trivial

theorem issues_sys_chdir {cwd : ℕ} {path : List UInt8} :
    Issues Op.Fits (sys_chdir refs cwd path) := by
  refine issues_bind issues_namex fun found => ?_
  cases found with
  | none => trivial
  | some r =>
    refine issues_bind issues_stat fun st => ?_
    split_ifs
    · exact issues_bind issues_iput fun _ => trivial
    · exact issues_bind issues_iput fun _ => trivial
    · exact issues_bind issues_iput fun _ => trivial

theorem issues_writeLoop {fuel : ℕ} {src : List UInt8} :
    Issues Op.Fits (writeLoop inum fuel off src) := by
  induction fuel generalizing off src with
  | zero => trivial
  | succ fuel ih =>
    have hchunk : (src.take PageCache.MAXCHUNK).length < 4294967296 :=
      Nat.lt_of_le_of_lt (List.length_take_le _ _) (by decide)
    rw [writeLoop]
    split_ifs
    · trivial
    · refine issues_bind (issues_writei hchunk) fun ok => ?_
      split_ifs
      · exact ih
      · trivial

theorem issues_write {src : List UInt8} : Issues Op.Fits (write inum off src) := by
  refine issues_bind issues_stat fun st => ?_
  split_ifs
  · exact issues_writeLoop
  · trivial

end Issued

section Transfer

variable {sb : SuperBlock} {s s' : System Fs} {t : System (ℕ → File)} {e : Event} {ok : Bool}

/-- The same processes and open files, over the disk and over the files. -/
structure Mirrors (sb : SuperBlock) (s : System Fs) (t : System (ℕ → File)) : Prop where
  invariant : Invariant sb s.store
  shows : Shows sb s.store t.store
  cwds : t.cwds = s.cwds
  files : t.files = s.files

theorem Mirrors.refs (h : Mirrors sb s t) : t.refs = s.refs := by
  funext inum
  rw [System.refs, System.refs, h.cwds, h.files]

/-- A call on the disk is the call on the files. -/
theorem Mirrors.call {A : Type} {program : Call A} {after : A → After} (h : Mirrors sb s t)
    (hp : Issues Op.Fits program)
    (he : s.call (FileStore.next sb) program after = some (s', ok)) :
    ∃ t', t.call (FileMachine.next sb) program after = some (t', ok) ∧ Mirrors sb s' t' := by
  obtain ⟨⟨fs, a⟩, hexec, hs⟩ := Option.map_eq_some_iff.mp he
  obtain ⟨rfl, rfl⟩ := Prod.mk.inj hs
  obtain ⟨f, hf, hrel⟩ := FileMachine.lockstep.exec_steps hp ⟨h.invariant, h.shows⟩ hexec
  refine ⟨⟨f, (after a).cwds, (after a).files⟩, ?_, hrel.1, hrel.2, rfl, rfl⟩
  rw [System.call, hf, Option.map_some]

theorem Mirrors.call_fails {A : Type} {program : Call A} {after : A → After}
    (h : Mirrors sb s t) (hp : Issues Op.Fits program) :
    s.call (FileStore.next sb) program after = none ↔
      t.call (FileMachine.next sb) program after = none := by
  rw [System.call, System.call, Option.map_eq_none_iff, Option.map_eq_none_iff]
  exact FileMachine.lockstep.exec_fails hp ⟨h.invariant, h.shows⟩

theorem bind_fails {A B C : Type} {o : Option A} {g : A → Option B} {g' : A → Option C}
    (h : ∀ a, g a = none ↔ g' a = none) : o.bind g = none ↔ o.bind g' = none := by
  cases o with
  | none => exact ⟨fun _ => rfl, fun _ => rfl⟩
  | some a =>
    rw [Option.bind_some, Option.bind_some]
    exact h a

/-- Both machines panic together. -/
theorem next_fails (h : Mirrors sb s t) :
    next (FileStore.next sb) s e = none ↔ next (FileMachine.next sb) t e = none := by
  cases e with
  | fork p => rw [next, next, h.cwds, Option.map_eq_none_iff, Option.map_eq_none_iff]
  | close fd =>
    rw [next, next, h.files, h.refs, h.cwds]
    exact bind_fails fun _ => h.call_fails issues_iput
  | write fd off src =>
    rw [next, next, h.files, h.cwds]
    exact bind_fails fun _ => h.call_fails issues_write
  | sys_link p old new =>
    rw [next, next, h.cwds, h.refs, h.files]
    exact bind_fails fun _ => h.call_fails issues_sys_link
  | sys_unlink p path =>
    rw [next, next, h.cwds, h.refs, h.files]
    exact bind_fails fun _ => h.call_fails issues_sys_unlink
  | sys_open p path O_CREATE O_RDONLY room =>
    rw [next, next, h.cwds, h.refs, h.files]
    exact bind_fails fun _ => h.call_fails issues_sys_open
  | sys_mkdir p path =>
    rw [next, next, h.cwds, h.refs, h.files]
    exact bind_fails fun _ => h.call_fails issues_sys_make
  | sys_mknod p path major minor =>
    rw [next, next, h.cwds, h.refs, h.files]
    exact bind_fails fun _ => h.call_fails issues_sys_make
  | sys_chdir p path =>
    rw [next, next, h.cwds, h.refs, h.files]
    exact bind_fails fun _ => h.call_fails issues_sys_chdir
  | exit p =>
    rw [next, next, h.cwds, h.refs, h.files]
    split_ifs
    · exact ⟨fun _ => rfl, fun _ => rfl⟩
    · exact bind_fails fun _ => h.call_fails issues_iput

/-- The machine on the disk is the machine on the files, call by call. -/
theorem next_mirrors (h : Mirrors sb s t) (hn : next (FileStore.next sb) s e = some (s', ok)) :
    ∃ t', next (FileMachine.next sb) t e = some (t', ok) ∧ Mirrors sb s' t' := by
  cases e with
  | fork p =>
    obtain ⟨cwd, hp, hs⟩ := Option.map_eq_some_iff.mp hn
    obtain ⟨rfl, rfl⟩ := Prod.mk.inj hs
    refine ⟨⟨t.store, t.cwds ++ [cwd], t.files⟩, ?_, h.invariant, h.shows, ?_, h.files⟩
    · rw [next, h.cwds, hp, Option.map_some]
    · rw [h.cwds]
  | close fd =>
    obtain ⟨inum, hp, hs⟩ := Option.bind_eq_some_iff.mp hn
    rw [next, h.files, hp, Option.bind_some, h.refs, h.cwds]
    exact h.call issues_iput hs
  | write fd off src =>
    obtain ⟨inum, hp, hs⟩ := Option.bind_eq_some_iff.mp hn
    rw [next, h.files, hp, Option.bind_some, h.cwds]
    exact h.call issues_write hs
  | sys_link p old new =>
    obtain ⟨cwd, hp, hs⟩ := Option.bind_eq_some_iff.mp hn
    rw [next, h.cwds, hp, Option.bind_some, h.refs, h.files]
    exact h.call issues_sys_link hs
  | sys_unlink p path =>
    obtain ⟨cwd, hp, hs⟩ := Option.bind_eq_some_iff.mp hn
    rw [next, h.cwds, hp, Option.bind_some, h.refs, h.files]
    exact h.call issues_sys_unlink hs
  | sys_open p path O_CREATE O_RDONLY room =>
    obtain ⟨cwd, hp, hs⟩ := Option.bind_eq_some_iff.mp hn
    rw [next, h.cwds, hp, Option.bind_some, h.refs, h.files]
    exact h.call issues_sys_open hs
  | sys_mkdir p path =>
    obtain ⟨cwd, hp, hs⟩ := Option.bind_eq_some_iff.mp hn
    rw [next, h.cwds, hp, Option.bind_some, h.refs, h.files]
    exact h.call issues_sys_make hs
  | sys_mknod p path major minor =>
    obtain ⟨cwd, hp, hs⟩ := Option.bind_eq_some_iff.mp hn
    rw [next, h.cwds, hp, Option.bind_some, h.refs, h.files]
    exact h.call issues_sys_make hs
  | sys_chdir p path =>
    obtain ⟨cwd, hp, hs⟩ := Option.bind_eq_some_iff.mp hn
    rw [next, h.cwds, hp, Option.bind_some, h.refs, h.files]
    exact h.call issues_sys_chdir hs
  | exit p =>
    rw [next] at hn
    split_ifs at hn with hfirst
    obtain ⟨cwd, hp, hs⟩ := Option.bind_eq_some_iff.mp hn
    rw [next, if_neg hfirst, h.cwds, hp, Option.bind_some, h.refs, h.files]
    exact h.call issues_iput hs

end Transfer

end FileCalls
