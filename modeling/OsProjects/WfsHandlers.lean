import OsProjects.WfsLookup

/-! # The WFS handlers

The seven FUSE operations of `mount.wfs.c`, store by store. Output to the terminal is left
out, and so is the failure of `strdup`. Offsets of the calls are natural numbers;
`wfs_write_signed` is the write for every `off_t`.
-/
namespace WfsHandlers

open ByteMemory WfsLookup

def ENOENT : ℤ := 2
def EEXIST : ℤ := 17
def EFBIG : ℤ := 27
def ENOSPC : ℤ := 28

/-- What a call reads from its surroundings: the caller's ids and successive clock values. -/
structure Env where
  uid : ℕ
  gid : ℕ
  time : ℕ → ℕ

def copyWord (m : Mem) (dst src : ℕ) : Mem := storeWord m dst (loadWord m src)

def copyBytes (m : Mem) (dst src n : ℕ) : Mem := storeBytes m dst (loadBytes m src n)

def wfsincpy (m : Mem) (orig copied cur_time : ℕ) : Mem :=
  let m := copyWord m copied orig
  let m := copyWord m (copied + 4) (orig + 4)
  let m := copyWord m (copied + 8) (orig + 8)
  let m := copyWord m (copied + 12) (orig + 12)
  let m := copyWord m (copied + 16) (orig + 16)
  let m := copyWord m (copied + 20) (orig + 20)
  let m := copyWord m (copied + 24) (orig + 24)
  let m := storeWord m (copied + 28) cur_time
  let m := storeWord m (copied + 32) cur_time
  let m := storeWord m (copied + 36) cur_time
  copyWord m (copied + 40) (orig + 40)

/-- `strncpy(dst, name, 31); dst[31] = 0`. -/
def nameField (name : List UInt8) : List UInt8 :=
  name.take 31 ++ List.replicate (32 - (name.take 31).length) 0

structure Stat where
  st_uid : ℕ
  st_gid : ℕ
  st_mtime : ℕ
  st_mode : ℕ
  st_nlink : ℕ
  st_size : ℕ
  deriving DecidableEq, Repr

def wfs_getattr (s : Wfs) (path : List UInt8) : Run (Wfs × ℤ × Option Stat) :=
  match get_path_inode s path with
  | .error f => .error f
  | .ok (s, none) => .ok (s, -ENOENT, none)
  | .ok (s, some a) =>
    let i := loadInode s.data a
    .ok (s, 0, some ⟨i.uid, i.gid, i.mtime, i.mode, i.links, i.size⟩)

/-- The fields of a new node other than its number. -/
def newNodeWords (env : Env) (mode : ℕ) : List ℕ :=
  [0, mode, env.uid, env.gid, 0, 0, env.time 1, env.time 1, env.time 1, 1]

def firstFree (all_le : ℕ → ℕ) : Option ℕ := (List.range 256).find? fun i => all_le i = 0

/-- The append of `wfs_mknod` and `wfs_mkdir`. When no number is free the word at the new
node is left as it is. -/
def appendNode (env : Env) (s : Wfs) (dir : ℕ) (name : List UInt8) (mode : ℕ) : Run (Wfs × ℤ) :=
  let new_dir := s.head
  let m := wfsincpy s.data dir new_dir (env.time 0)
  let m := copyBytes m (new_dir + 44) (dir + 44) (loadWord m (dir + 24))
  let m := storeWord m 4 (loadWord m 4 + 44 + loadWord m (dir + 24) + 40)
  let new_node := loadWord m 4
  let m := match firstFree s.all_le with
    | some i => storeWord m new_node i
    | none => m
  let m := storeWords m (new_node + 4) (newNodeWords env mode)
  let m := storeWord m 4 (loadWord m 4 + 44)
  let new_dentry := new_dir + 44 + loadWord m (new_dir + 24)
  let m := storeBytes m (new_dentry + 32) (leBytes 8 (loadWord m new_node))
  let m := storeBytes m new_dentry (nameField name)
  let m := storeWord m (new_dir + 24) (loadWord m (new_dir + 24) + 40)
  let number := loadWord m new_node
  if number < 256 then
    .ok ({ s with data := m, all_le := Function.update s.all_le number new_node }, 0)
  else .error .indexOutOfRange

/-- What `wfs_mknod` and `wfs_mkdir` share; they differ in the mode of the new node. -/
def create (env : Env) (s : Wfs) (path : List UInt8) (mode : ℕ) : Run (Wfs × ℤ) :=
  match get_path_inode s path with
  | .error f => .error f
  | .ok (s, test_path) =>
    if test_path.any fun a => loadWord s.data (a + 4) ≠ 0 then .ok (s, -EEXIST)
    else
      match splitLast path with
      | none => .ok (s, -ENOENT)
      | some (dir_path, node_name) =>
        match get_path_inode s (parentPath dir_path) with
        | .error f => .error f
        | .ok (s, none) => .ok (s, -ENOENT)
        | .ok (s, some dir) =>
          if isDir s.data dir = false then .ok (s, -ENOENT)
          else if s.head + 44 > s.total_size then .ok (s, -ENOSPC)
          else appendNode env s dir node_name mode

def wfs_mknod (env : Env) (s : Wfs) (path : List UInt8) : Run (Wfs × ℤ) :=
  create env s path S_IFREG

def wfs_mkdir (env : Env) (s : Wfs) (path : List UInt8) : Run (Wfs × ℤ) :=
  create env s path S_IFDIR

/-- The count is returned as a C int. -/
def intOfSize (n : ℕ) : ℤ := (n : ℤ).bmod 4294967296

def wfs_read (env : Env) (s : Wfs) (path : List UInt8) (size offset : ℕ) :
    Run (Wfs × ℤ × List UInt8) :=
  match get_path_inode s path with
  | .error f => .error f
  | .ok (s, none) => .ok (s, -ENOENT, [])
  | .ok (s, some a) =>
    let fileSize := loadWord s.data (a + 24)
    if isDir s.data a then .ok (s, -1, [])
    else if offset ≥ fileSize then .ok (s, 0, [])
    else
      let actual_size := if offset + size > fileSize then fileSize - offset else size
      let buf := loadBytes s.data (a + 44 + offset) actual_size
      .ok ({ s with data := storeWord s.data (a + 28) (env.time 0) }, intOfSize actual_size, buf)

/-- The copied inode is in place before the space is checked. -/
def appendWrite (env : Env) (s : Wfs) (orig : ℕ) (buf : List UInt8) (offset : ℕ) : Wfs × ℤ :=
  let modified := s.head
  let m := wfsincpy s.data orig modified (env.time 0)
  let origSize := loadWord m (orig + 24)
  if loadWord m 4 + 44 + origSize + buf.length > s.total_size then ({ s with data := m }, -ENOSPC)
  else
    let m := copyBytes m (modified + 44) (orig + 44) origSize
    let m := storeBytes m (modified + 44 + offset) buf
    let origSize := loadWord m (orig + 24)
    let m := storeWord m (modified + 24)
      (if offset + buf.length > origSize then offset + buf.length else origSize)
    let m := storeWord m (modified + 36) (env.time 1)
    let m := storeWord m (modified + 32) (env.time 1)
    let m := storeWord m 4 (loadWord m 4 + 44 + loadWord m (modified + 24))
    ({ s with data := m }, intOfSize buf.length)

def wfs_write (env : Env) (s : Wfs) (path : List UInt8) (buf : List UInt8) (offset : ℕ) :
    Run (Wfs × ℤ) :=
  match get_path_inode s path with
  | .error f => .error f
  | .ok (s, none) => .ok (s, -ENOENT)
  | .ok (s, some a) =>
    if isDir s.data a then .ok (s, -1)
    else if offset > loadWord s.data (a + 24) then .ok (s, -EFBIG)
    else .ok (appendWrite env s a buf offset)

/-- `appendWrite` with any offset; bytes that fall in front of the image are lost. The new
size is computed in 64 bits without sign. -/
def appendWriteSigned (env : Env) (s : Wfs) (orig : ℕ) (buf : List UInt8) (offset : ℤ) : Wfs × ℤ :=
  let modified := s.head
  let m := wfsincpy s.data orig modified (env.time 0)
  let origSize := loadWord m (orig + 24)
  if loadWord m 4 + 44 + origSize + buf.length > s.total_size then ({ s with data := m }, -ENOSPC)
  else
    let m := copyBytes m (modified + 44) (orig + 44) origSize
    let target : ℤ := modified + 44 + offset
    let m := storeBytes m target.toNat (buf.drop (-target).toNat)
    let origSize := loadWord m (orig + 24)
    let reached := ((offset + buf.length) % 18446744073709551616).toNat
    let m := storeWord m (modified + 24) (if reached > origSize then reached else origSize)
    let m := storeWord m (modified + 36) (env.time 1)
    let m := storeWord m (modified + 32) (env.time 1)
    let m := storeWord m 4 (loadWord m 4 + 44 + loadWord m (modified + 24))
    ({ s with data := m }, intOfSize buf.length)

def wfs_write_signed (env : Env) (s : Wfs) (path : List UInt8) (buf : List UInt8) (offset : ℤ) :
    Run (Wfs × ℤ) :=
  match get_path_inode s path with
  | .error f => .error f
  | .ok (s, none) => .ok (s, -ENOENT)
  | .ok (s, some a) =>
    if isDir s.data a then .ok (s, -1)
    else if offset > loadWord s.data (a + 24) then .ok (s, -EFBIG)
    else .ok (appendWriteSigned env s a buf offset)

section Signed

variable {env : Env} {s : Wfs} {orig offset : ℕ} {path buf : List UInt8}

theorem appendWriteSigned_nat (h : offset + buf.length < 18446744073709551616) :
    appendWriteSigned env s orig buf offset = appendWrite env s orig buf offset := by
  have htarget : ((s.head : ℤ) + 44 + (offset : ℤ)).toNat = s.head + 44 + offset := by omega
  have hcut : (-((s.head : ℤ) + 44 + (offset : ℤ))).toNat = 0 := by omega
  have hreached : (((offset : ℤ) + (buf.length : ℤ)) % 18446744073709551616).toNat =
      offset + buf.length := by omega
  simp only [appendWriteSigned, appendWrite, htarget, hcut, hreached, List.drop_zero]

/-- Offsets that are not negative. -/
theorem wfs_write_signed_nat (h : offset + buf.length < 18446744073709551616) :
    wfs_write_signed env s path buf offset = wfs_write env s path buf offset := by
  rw [wfs_write_signed, wfs_write]
  cases get_path_inode s path with
  | error f => rfl
  | ok r =>
    obtain ⟨t, o⟩ := r
    cases o with
    | none => rfl
    | some a => simp only [appendWriteSigned_nat h, gt_iff_lt, Nat.cast_lt]

end Signed

/-- The C string at `a`, read inside the image. -/
def cstring (m : Mem) : ℕ → ℕ → List UInt8
  | 0, _ => []
  | n + 1, a => if m a = 0 then [] else m a :: cstring m n (a + 1)

/-- The names given to `filler`, whose `k`-th answer is `full k`: the loop ends with the
first name it refuses. -/
def fillNames (m : Mem) (limit : ℕ) (full : ℕ → Bool) : ℕ → ℕ → ℕ → List (List UInt8)
  | 0, _, _ => []
  | n + 1, k, a =>
    cstring m limit a :: if full k then [] else fillNames m limit full n (k + 1) (a + 40)

def wfs_readdir (s : Wfs) (path : List UInt8) (full : ℕ → Bool) :
    Run (Wfs × ℤ × List (List UInt8)) :=
  match get_path_inode s path with
  | .error f => .error f
  | .ok (s, none) => .ok (s, -ENOENT, [])
  | .ok (s, some a) =>
    if isDir s.data a = false then .ok (s, -ENOENT, [])
    else .ok (s, 0,
      fillNames s.data s.total_size full ((loadWord s.data (a + 24) + 39) / 40) 0 (a + 44))

/-- The copy loop of `wfs_unlink`: memory and whether the name was met. -/
def copyDentries (filename : List UInt8) (stop : ℕ) :
    ℕ → ℕ → ℕ → Mem → Bool → Mem × Bool
  | 0, _, _, m, found => (m, found)
  | fuel + 1, insides, new_insides, m, found =>
    if insides < stop then
      if strEq m insides filename then
        copyDentries filename stop fuel (insides + 40) new_insides m true
      else
        let m := storeBytes m (new_insides + 32) (leBytes 8 (loadLong m (insides + 32)))
        let m := storeBytes m new_insides (nameField (cstring m 31 insides))
        copyDentries filename stop fuel (insides + 40) (new_insides + 40) m found
    else (m, found)

def removeDentry (env : Env) (s : Wfs) (file dir : ℕ) (filename : List UInt8) : Wfs × ℤ :=
  let new_dir := s.head
  let m := wfsincpy s.data dir new_dir (env.time 0)
  let size := loadWord m (dir + 24)
  let (m, found) := copyDentries filename (dir + 44 + size) ((size + 39) / 40) (dir + 44)
    (new_dir + 44) m false
  if found then
    let m := storeWord m (new_dir + 24) (loadWord m (new_dir + 24) + (4294967296 - 40))
    let m := storeWord m 4 (loadWord m 4 + 44 + loadWord m (new_dir + 24))
    let m := storeWord m (file + 4) 1
    ({ s with data := m, all_le := Function.update s.all_le (loadWord m file) 0 }, 0)
  else ({ s with data := m }, -ENOENT)

def wfs_unlink (env : Env) (s : Wfs) (path : List UInt8) : Run (Wfs × ℤ) :=
  match get_path_inode s path with
  | .error f => .error f
  | .ok (s, none) => .ok (s, -ENOENT)
  | .ok (s, some file) =>
    match splitLast path with
    | none => .ok (s, -ENOENT)
    | some (dir_path, filename) =>
      match get_path_inode s (parentPath dir_path) with
      | .error f => .error f
      | .ok (s, none) => .ok (s, -ENOENT)
      | .ok (s, some dir) =>
        if isDir s.data dir = false then .ok (s, -ENOENT)
        else .ok (removeDentry env s file dir filename)

inductive Call where
  | getattr (path : Path)
  | mknod (path : Path)
  | mkdir (path : Path)
  | read (path : Path) (size offset : ℕ)
  | write (path : Path) (buf : List UInt8) (offset : ℕ)
  | readdir (path : Path) (full : ℕ → Bool)
  | unlink (path : Path)

/-- Everything the caller gets to see. -/
structure Reply where
  ret : ℤ
  stat : Option Stat
  buf : List UInt8
  names : List (List UInt8)
  deriving DecidableEq, Repr

def plain (r : Run (Wfs × ℤ)) : Run (Wfs × Reply) :=
  match r with
  | .error f => .error f
  | .ok (s, ret) => .ok (s, ⟨ret, none, [], []⟩)

def handle (env : Env) (s : Wfs) : Call → Run (Wfs × Reply)
  | .getattr path =>
    match wfs_getattr s path with
    | .error f => .error f
    | .ok (s, ret, stat) => .ok (s, ⟨ret, stat, [], []⟩)
  | .mknod path => plain (wfs_mknod env s path)
  | .mkdir path => plain (wfs_mkdir env s path)
  | .read path size offset =>
    match wfs_read env s path size offset with
    | .error f => .error f
    | .ok (s, ret, buf) => .ok (s, ⟨ret, none, buf, []⟩)
  | .write path buf offset => plain (wfs_write env s path buf offset)
  | .readdir path full =>
    match wfs_readdir s path full with
    | .error f => .error f
    | .ok (s, ret, names) => .ok (s, ⟨ret, none, [], names⟩)
  | .unlink path => plain (wfs_unlink env s path)

end WfsHandlers
