import Mathlib.Data.List.OfFn
import OsProjects.DiskBlocks
import OsProjects.WordArrays

/-! # Inodes on the disk

`struct dinode`, and the functions of `fs.c` that move an inode between the disk and the inode
cache. The cache is taken to have room, so that `iget` does not panic. -/
namespace DiskInodes

open ByteMemory WordArrays DiskBlocks

abbrev NDIRECT : ℕ := 12

structure Inode where
  type : ℕ
  major : ℕ
  minor : ℕ
  nlink : ℕ
  size : ℕ
  addrs : Fin (NDIRECT + 1) → ℕ

/-- The fields fit their places in `struct dinode`. -/
structure Fits (ip : Inode) : Prop where
  type : ip.type < 65536
  major : ip.major < 65536
  minor : ip.minor < 65536
  nlink : ip.nlink < 65536
  size : ip.size < 4294967296
  addrs : ∀ k, ip.addrs k < 4294967296

/-- The size of `struct dinode`. -/
abbrev DINODE : ℕ := 64

def loadDinode (m : Mem) (a : ℕ) : Inode where
  type := loadHalf m a
  major := loadHalf m (a + 2)
  minor := loadHalf m (a + 4)
  nlink := loadHalf m (a + 6)
  size := loadWord m (a + 8)
  addrs k := loadWord m (a + 12 + 4 * k)

def storeDinode (m : Mem) (a : ℕ) (ip : Inode) : Mem :=
  let m := storeHalf m a ip.type
  let m := storeHalf m (a + 2) ip.major
  let m := storeHalf m (a + 4) ip.minor
  let m := storeHalf m (a + 6) ip.nlink
  let m := storeWord m (a + 8) ip.size
  storeWords m (a + 12) (List.ofFn ip.addrs)

section Layout

variable {m m' : Mem} {a b x : ℕ} {ip : Inode}

theorem storeDinode_outside (h : x < a ∨ a + DINODE ≤ x) : storeDinode m a ip x = m x := by
  rw [storeDinode, storeWords_outside, storeWord_outside, storeHalf_outside, storeHalf_outside,
    storeHalf_outside, storeHalf_outside]
  all_goals
    simp only [DINODE, NDIRECT, List.length_ofFn] at *
    omega

theorem loadDinode_congr (h : AgreeOn m m' a (a + DINODE)) : loadDinode m a = loadDinode m' a := by
  have hhalf : ∀ i, i ≤ 6 → loadHalf m (a + i) = loadHalf m' (a + i) := fun i hi =>
    loadHalf_congr fun x hx hx' => h x (by omega) (by simp only [DINODE]; omega)
  have hword : ∀ i, i ≤ 60 → loadWord m (a + i) = loadWord m' (a + i) := fun i hi =>
    loadWord_congr fun x hx hx' => h x (by omega) (by simp only [DINODE]; omega)
  have h0 := hhalf 0 (Nat.zero_le _)
  rw [loadDinode, loadDinode, show loadHalf m a = loadHalf m' a from h0, hhalf 2 (by omega),
    hhalf 4 (by omega), hhalf 6 (by omega), hword 8 (by omega)]
  congr 1
  funext k
  have hk : (k : ℕ) < 13 := k.isLt
  rw [Nat.add_assoc, hword _ (by omega)]

theorem loadDinode_storeDinode (h : Fits ip) : loadDinode (storeDinode m a ip) a = ip := by
  have hlen : (List.ofFn ip.addrs).length = 13 := List.length_ofFn
  have hwords : ∀ {m b}, b + 4 ≤ a + 12 →
      loadWord (storeWords m (a + 12) (List.ofFn ip.addrs)) b = loadWord m b := fun hb =>
    loadWord_storeWords_of_disjoint (.inl hb)
  have htype : loadHalf (storeDinode m a ip) a = ip.type := by
    rw [← loadHalf_storeHalf (m := m) (a := a) h.type]
    refine loadHalf_congr fun x _ hx => ?_
    rw [storeDinode, storeWords_outside (by omega), storeWord_outside (by omega),
      storeHalf_outside (by omega), storeHalf_outside (by omega), storeHalf_outside (by omega)]
  have hmajor : loadHalf (storeDinode m a ip) (a + 2) = ip.major := by
    rw [← loadHalf_storeHalf (m := storeHalf m a ip.type) (a := a + 2) h.major]
    refine loadHalf_congr fun x _ hx => ?_
    rw [storeDinode, storeWords_outside (by omega), storeWord_outside (by omega),
      storeHalf_outside (by omega), storeHalf_outside (by omega)]
  have hminor : loadHalf (storeDinode m a ip) (a + 4) = ip.minor := by
    rw [← loadHalf_storeHalf (m := storeHalf (storeHalf m a ip.type) (a + 2) ip.major)
      (a := a + 4) h.minor]
    refine loadHalf_congr fun x _ hx => ?_
    rw [storeDinode, storeWords_outside (by omega), storeWord_outside (by omega),
      storeHalf_outside (by omega)]
  have hnlink : loadHalf (storeDinode m a ip) (a + 6) = ip.nlink := by
    rw [← loadHalf_storeHalf (a := a + 6) (m := storeHalf (storeHalf (storeHalf m a ip.type) (a + 2)
      ip.major) (a + 4) ip.minor) h.nlink]
    refine loadHalf_congr fun x _ hx => ?_
    rw [storeDinode, storeWords_outside (by omega), storeWord_outside (by omega)]
  have hsize : loadWord (storeDinode m a ip) (a + 8) = ip.size := by
    rw [storeDinode, hwords (by omega), loadWord_storeWord, Nat.mod_eq_of_lt h.size]
  have haddrs : ∀ k : Fin (NDIRECT + 1),
      loadWord (storeDinode m a ip) (a + 12 + 4 * k) = ip.addrs k := by
    intro k
    have hk : (k : ℕ) < (List.ofFn ip.addrs).length := by
      rw [hlen]
      exact k.isLt
    rw [storeDinode, loadWord_storeWords hk, List.getElem_ofFn, Nat.mod_eq_of_lt (h.addrs _)]
  rw [loadDinode, htype, hmajor, hminor, hnlink, hsize]
  congr 1
  funext k
  exact haddrs k

theorem fits_loadDinode : Fits (loadDinode m a) :=
  ⟨loadHalf_lt, loadHalf_lt, loadHalf_lt, loadHalf_lt, loadWord_lt, fun _ => loadWord_lt⟩

end Layout

/-- `inode` is the copy in the inode cache, or what `ilock` reads when there is none. -/
structure Fs where
  disk : Disk
  inode : ℕ → Inode

section Code

variable (sb : SuperBlock)

/-- The inode's place in its block. -/
def place (inum : ℕ) : ℕ := inum % IPB * DINODE

def dinode (d : Disk) (inum : ℕ) : Inode := loadDinode (d (IBLOCK sb inum)) (place inum)

def Fs.set (fs : Fs) (inum : ℕ) (ip : Inode) : Fs :=
  { fs with inode := Function.update fs.inode inum ip }

def iupdate (fs : Fs) (inum : ℕ) : Fs :=
  { fs with
    disk := Function.update fs.disk (IBLOCK sb inum)
      (storeDinode (fs.disk (IBLOCK sb inum)) (place inum) (fs.inode inum)) }

/-- `ilock` of an inode whose cache entry is not valid. -/
def ilock (fs : Fs) (inum : ℕ) : Fs := fs.set inum (dinode sb fs.disk inum)

/-- The entry that `iget` makes is not valid, so that `ilock` reads what is written here. -/
def ialloc (fs : Fs) (type : ℕ) : Option (Fs × ℕ) :=
  match (List.range' 1 (sb.ninodes - 1)).find? fun inum => (dinode sb fs.disk inum).type = 0 with
  | some inum =>
    let m := fs.disk (IBLOCK sb inum)
    let m := storeBytes m (place inum) (List.replicate DINODE 0)
    let m := storeHalf m (place inum) type
    some (ilock sb { fs with disk := Function.update fs.disk (IBLOCK sb inum) m } inum, inum)
  | none =>
    -- panics
    none

end Code

section Specs

variable {sb : SuperBlock} {fs : Fs} {d d' : Disk} {inum inum' : ℕ}

theorem place_disjoint (h : IBLOCK sb inum = IBLOCK sb inum') (hne : inum ≠ inum') :
    place inum + DINODE ≤ place inum' ∨ place inum' + DINODE ≤ place inum := by
  simp only [IBLOCK, place, IPB, DINODE] at *
  omega

/-- A block of inodes in which one inode is changed. -/
theorem dinode_update_of_ne {m : Mem} (hne : inum ≠ inum')
    (hm : ∀ x, x < place inum ∨ place inum + DINODE ≤ x → m x = d (IBLOCK sb inum) x) :
    dinode sb (Function.update d (IBLOCK sb inum) m) inum' = dinode sb d inum' := by
  rw [dinode, dinode, Function.update_apply]
  split_ifs with h
  · have hdisj := place_disjoint h.symm hne
    rw [h]
    exact loadDinode_congr fun x hx hx' => hm x (by omega)
  · rfl

theorem dinode_congr (h : d (IBLOCK sb inum) = d' (IBLOCK sb inum)) :
    dinode sb d inum = dinode sb d' inum := by rw [dinode, dinode, h]

theorem dinode_iupdate_self (h : Fits (fs.inode inum)) :
    dinode sb (iupdate sb fs inum).disk inum = fs.inode inum := by
  have hblock : (iupdate sb fs inum).disk (IBLOCK sb inum) =
      storeDinode (fs.disk (IBLOCK sb inum)) (place inum) (fs.inode inum) :=
    Function.update_self _ _ _
  rw [dinode, hblock, loadDinode_storeDinode h]

theorem dinode_iupdate_of_ne (h : inum ≠ inum') :
    dinode sb (iupdate sb fs inum).disk inum' = dinode sb fs.disk inum' :=
  dinode_update_of_ne h fun _ hx => storeDinode_outside hx

theorem loadHalf_of_zero {m : Mem} {a : ℕ} (h : ∀ x, a ≤ x → x < a + 2 → m x = 0) :
    loadHalf m a = 0 := by
  have hzero : loadHalf m a = loadHalf (fun _ => 0) a := loadHalf_congr h
  rw [hzero]
  rfl

theorem loadWord_of_zero {m : Mem} {a : ℕ} (h : ∀ x, a ≤ x → x < a + 4 → m x = 0) :
    loadWord m a = 0 := by
  have hzero : loadWord m a = loadWord (fun _ => 0) a := loadWord_congr h
  rw [hzero]
  rfl

/-- What `ialloc` writes. -/
theorem loadDinode_blank {m : Mem} {a type : ℕ} (ht : type < 65536) :
    loadDinode (storeHalf (storeBytes m a (List.replicate DINODE 0)) a type) a =
      ⟨type, 0, 0, 0, 0, fun _ => 0⟩ := by
  have hzero : ∀ x, a + 2 ≤ x → x < a + DINODE →
      storeHalf (storeBytes m a (List.replicate DINODE 0)) a type x = 0 := by
    intro x hx hx'
    obtain ⟨j, rfl⟩ := Nat.exists_eq_add_of_le (show a ≤ x by omega)
    have hj : j < (List.replicate DINODE (0 : UInt8)).length := by
      rw [List.length_replicate]
      omega
    rw [storeHalf_outside (by omega), storeBytes_inside hj, List.getElem_replicate]
  simp only [DINODE] at hzero
  rw [loadDinode, loadHalf_storeHalf ht, loadHalf_of_zero fun x hx hx' => hzero x hx (by omega),
    loadHalf_of_zero fun x hx hx' => hzero x (by omega) (by omega),
    loadHalf_of_zero fun x hx hx' => hzero x (by omega) (by omega),
    loadWord_of_zero fun x hx hx' => hzero x (by omega) (by omega)]
  congr 1
  funext k
  have hk : (k : ℕ) < 13 := k.isLt
  exact loadWord_of_zero fun x hx hx' => hzero x (by omega) (by omega)

/-- What `ialloc` has found and done. -/
theorem ialloc_spec {fs' : Fs} {type : ℕ} (ht : type < 65536)
    (h : ialloc sb fs type = some (fs', inum)) :
    inum < sb.ninodes ∧ (dinode sb fs.disk inum).type = 0 ∧
      fs'.inode = Function.update fs.inode inum ⟨type, 0, 0, 0, 0, fun _ => 0⟩ ∧
      dinode sb fs'.disk inum = ⟨type, 0, 0, 0, 0, fun _ => 0⟩ ∧
      (∃ data, fs'.disk = Function.update fs.disk (IBLOCK sb inum) data) ∧
      ∀ i, inum ≠ i → dinode sb fs'.disk i = dinode sb fs.disk i := by
  rw [ialloc] at h
  split at h
  · rename_i inum' hfind
    obtain ⟨rfl, rfl⟩ := Prod.mk.inj (Option.some.inj h)
    have hmem := List.mem_range'_1.mp (List.mem_of_find?_eq_some hfind)
    have htype : (dinode sb fs.disk inum').type = 0 := by simpa using List.find?_some hfind
    have hload : ∀ d : Disk, dinode sb (Function.update d (IBLOCK sb inum')
        (storeHalf (storeBytes (d (IBLOCK sb inum')) (place inum') (List.replicate DINODE 0))
          (place inum') type)) inum' = ⟨type, 0, 0, 0, 0, fun _ => 0⟩ := fun d => by
      rw [dinode, Function.update_self, loadDinode_blank ht]
    refine ⟨by omega, htype, ?_, hload _, ⟨_, rfl⟩, fun i hi => ?_⟩
    · simp only [ilock, Fs.set, hload]
    · refine dinode_update_of_ne hi fun x hx => ?_
      rw [storeHalf_outside (by simp only [DINODE] at hx; omega),
        storeBytes_outside (by rw [List.length_replicate]; exact hx)]
  · cases h

end Specs

end DiskInodes
