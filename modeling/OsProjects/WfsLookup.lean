import OsProjects.ByteMemory
import Mathlib.Logic.Function.Basic

/-! # WFS images and path lookup

The layout of `wfs.h`, the image `mkfs.wfs` writes, and the lookup half of `mount.wfs.c`.
Pointers into the image are offsets from `data`, so 0 is free to stand for a null pointer
in `all_le`. The image is unbounded here; `total_size` is what the handlers compare with.
-/
namespace WfsLookup

open ByteMemory

def WFS_MAGIC : ℕ := 0xdeadbeef
def S_IFDIR : ℕ := 0x4000
def S_IFREG : ℕ := 0x8000
def slash : UInt8 := 47

structure Inode where
  inode_number : ℕ
  deleted : ℕ
  mode : ℕ
  uid : ℕ
  gid : ℕ
  flags : ℕ
  size : ℕ
  atime : ℕ
  mtime : ℕ
  ctime : ℕ
  links : ℕ
  deriving DecidableEq, Repr

/-- The fields in the order of the struct, one word each. -/
def Inode.words (i : Inode) : List ℕ :=
  [i.inode_number, i.deleted, i.mode, i.uid, i.gid, i.flags, i.size, i.atime, i.mtime, i.ctime,
    i.links]

def loadInode (m : Mem) (a : ℕ) : Inode :=
  ⟨loadWord m a, loadWord m (a + 4), loadWord m (a + 8), loadWord m (a + 12),
    loadWord m (a + 16), loadWord m (a + 20), loadWord m (a + 24), loadWord m (a + 28),
    loadWord m (a + 32), loadWord m (a + 36), loadWord m (a + 40)⟩

def storeWords (m : Mem) : ℕ → List ℕ → Mem
  | _, [] => m
  | a, w :: ws => storeWords (storeWord m a w) (a + 4) ws

/-- The globals of `mount.wfs.c`. -/
structure Wfs where
  data : Mem
  all_le : ℕ → ℕ
  nLogEntry : ℕ
  total_size : ℕ

def Wfs.head (s : Wfs) : ℕ := loadWord s.data 4

/-- A null entry is dereferenced, or `all_le` is indexed behind its end. -/
inductive Fault where
  | nullEntry
  | indexOutOfRange
  deriving DecidableEq, Repr

abbrev Run := Except Fault

/-- The loop of `get_number_inode`; every entry moves the cursor, so `head` rounds suffice. -/
def scan (inode_cnm head : ℕ) : ℕ → ℕ → Option ℕ → Wfs → Run (Wfs × Option ℕ)
  | 0, _, the_entry, s => .ok (s, the_entry)
  | fuel + 1, lookup, the_entry, s =>
    if lookup < head then
      let number := loadWord s.data lookup
      if number < 256 then
        scan inode_cnm head fuel (lookup + 44 + loadWord s.data (lookup + 24))
          (if number = inode_cnm then some lookup else the_entry)
          { s with
            all_le := Function.update s.all_le number
              (if loadWord s.data (lookup + 4) = 0 then lookup else 0)
            nLogEntry := if number > s.nLogEntry then number else s.nLogEntry }
      else .error .indexOutOfRange
    else .ok (s, the_entry)

def get_number_inode (s : Wfs) (inode_cnm : ℕ) : Run (Wfs × Option ℕ) :=
  match scan inode_cnm s.head s.head 8 none s with
  | .error f => .error f
  | .ok (_, none) => .error .nullEntry
  | .ok (s, some a) => .ok (s, if loadWord s.data (a + 4) ≠ 0 then none else some a)

/-- A path is a C string: any bytes but NUL. -/
abbrev Path := { p : List UInt8 // (0 : UInt8) ∉ p }

/-- The successive results of `strtok(path, "/")`; `cur` is the token being read. -/
def strtok : List UInt8 → List UInt8 → List (List UInt8)
  | cur, [] => if cur = [] then [] else [cur]
  | cur, c :: cs =>
    if c = slash then
      if cur = [] then strtok [] cs else cur :: strtok [] cs
    else strtok (cur ++ [c]) cs

/-- `strcmp(name, token) == 0` for the C string at `a`. -/
def strEq (m : Mem) : ℕ → List UInt8 → Bool
  | a, [] => m a = 0
  | a, c :: cs => m a = c ∧ strEq m (a + 1) cs

def loadLong (m : Mem) (a : ℕ) : ℕ := leValue (loadBytes m a 8)

/-- The dentry loop of `get_path_inode`: the first dentry with the name. -/
def findDentry (m : Mem) (token : List UInt8) (stop : ℕ) : ℕ → ℕ → Option ℕ
  | 0, _ => none
  | fuel + 1, insides =>
    if insides < stop then
      if strEq m insides token then some insides else findDentry m token stop fuel (insides + 40)
    else none

def lookupDentry (m : Mem) (curDir : ℕ) (token : List UInt8) : Option ℕ :=
  let size := loadWord m (curDir + 24)
  findDentry m token (curDir + 44 + size) ((size + 39) / 40) (curDir + 44)

/-- The token loop. A component that is deleted is only noticed by the next round, which
reads through the null pointer. -/
def walk : List (List UInt8) → ℕ → Wfs → Run (Wfs × Option ℕ)
  | [], curDir, s => .ok (s, some curDir)
  | token :: rest, curDir, s =>
    match lookupDentry s.data curDir token with
    | none => .ok (s, none)
    | some d =>
      match get_number_inode s (loadLong s.data (d + 32) % 4294967296) with
      | .error f => .error f
      | .ok (s, some e) => walk rest e s
      | .ok (s, none) => if rest = [] then .ok (s, none) else .error .nullEntry

def isDir (m : Mem) (a : ℕ) : Bool := loadWord m (a + 8) &&& S_IFDIR ≠ 0

def get_path_inode (s : Wfs) (path : List UInt8) : Run (Wfs × Option ℕ) :=
  match get_number_inode s 0 with
  | .error f => .error f
  | .ok (s, none) => .ok (s, none)
  | .ok (s, some root) =>
    if isDir s.data root = false then .ok (s, none)
    else if path = [slash] then .ok (s, some root)
    else walk (strtok [] path) root s

/-- The text before the last slash and the text behind it, as cut by `strrchr`. -/
def splitLast (path : List UInt8) : Option (List UInt8 × List UInt8) :=
  if slash ∈ path then
    let name := (path.reverse.takeWhile (· ≠ slash)).reverse
    some (path.take (path.length - name.length - 1), name)
  else none

/-- `dir_path` of the handlers. -/
def parentPath (dirPath : List UInt8) : List UInt8 := if dirPath = [] then [slash] else dirPath

/-- `initialize_file_system` over an existing file, with its three clock readings. -/
def mkfs (disk : Mem) (total_size : ℕ) (time : ℕ → ℕ) : Wfs :=
  let m := storeWords disk 0 [WFS_MAGIC, 52]
  let root : Inode := ⟨0, 0, S_IFDIR, 0, 0, 0, 0, time 0, time 1, time 2, 1⟩
  ⟨storeWords m 8 root.words, fun _ => 0, 0, total_size⟩

end WfsLookup
