import OsProjects.WfsHandlers
import OsProjects.WfsLog

/-! # What the handlers do to the log

Each append is followed store by store and summed up as a change of the list of entries.
-/
namespace WfsAppend

open ByteMemory WfsLookup WfsHandlers WfsLog

section Stores

variable {m m' : Mem} {a b x t orig copied : ℕ} {i : Inode} {ws : List ℕ}

theorem storeWords_outside (h : x < a ∨ a + 4 * ws.length ≤ x) : storeWords m a ws x = m x := by
  induction ws generalizing a m with
  | nil => rfl
  | cons w ws ih =>
    rw [List.length_cons] at h
    rw [storeWords, ih (by omega), storeWord_outside (by omega)]

@[simp] theorem words_length : i.words.length = 11 := rfl

/-- The inode fits its eleven words. -/
def Fits (i : Inode) : Prop := ∀ w ∈ i.words, w < 4294967296

theorem loadInode_size : (loadInode m a).size = loadWord m (a + 24) := rfl

theorem loadInode_fits : Fits (loadInode m a) := by
  simp [Fits, Inode.words, loadInode, loadWord_lt]

theorem loadInode_storeWords (h : Fits i) : loadInode (storeWords m a i.words) a = i := by
  simp only [Fits, Inode.words, List.forall_mem_cons] at h
  simp only [loadInode, Inode.words, storeWords, Nat.add_assoc, Nat.reduceAdd]
  simp (disch := omega) only [loadWord_storeWord, loadWord_storeWord_of_disjoint]
  simp only [Nat.mod_eq_of_lt, h]

theorem loadInode_storeWord_size {w : ℕ} :
    loadInode (storeWord m (a + 24) w) a = { loadInode m a with size := w % 4294967296 } := by
  simp (disch := omega) only [loadInode, loadWord_storeWord, loadWord_storeWord_of_disjoint]

theorem loadInode_storeWord_times {w : ℕ} :
    loadInode (storeWord (storeWord m (a + 36) w) (a + 32) w) a =
      { loadInode m a with mtime := w % 4294967296, ctime := w % 4294967296 } := by
  simp (disch := omega) only [loadInode, loadWord_storeWord, loadWord_storeWord_of_disjoint]

theorem loadInode_storeWord_deleted {w : ℕ} :
    loadInode (storeWord m (a + 4) w) a = { loadInode m a with deleted := w % 4294967296 } := by
  simp (disch := omega) only [loadInode, loadWord_storeWord, loadWord_storeWord_of_disjoint]

theorem loadInode_storeWord_atime {w : ℕ} :
    loadInode (storeWord m (a + 28) w) a = { loadInode m a with atime := w % 4294967296 } := by
  simp (disch := omega) only [loadInode, loadWord_storeWord, loadWord_storeWord_of_disjoint]

/-- The copy `wfsincpy` makes of an inode. -/
def stamped (i : Inode) (t : ℕ) : Inode :=
  { i with atime := t % 4294967296, mtime := t % 4294967296, ctime := t % 4294967296 }

/-- The fields are copied upwards, so a target below the source may overlap it. -/
theorem wfsincpy_eq (h : orig + 44 ≤ copied ∨ copied ≤ orig) :
    wfsincpy m orig copied t = storeWords m copied (stamped (loadInode m orig) t).words := by
  simp only [wfsincpy, copyWord]
  simp (disch := omega) only [loadWord_storeWord_of_disjoint]
  simp only [stamped, loadInode, Inode.words, storeWords, Nat.add_assoc, Nat.reduceAdd,
    storeWord_mod]

theorem loadWord_storeWords_of_disjoint (h : a + 4 ≤ b ∨ b + 4 * ws.length ≤ a) :
    loadWord (storeWords m b ws) a = loadWord m a :=
  loadWord_congr fun x _ _ => storeWords_outside (by omega)

theorem stamped_fits (h : Fits i) : Fits (stamped i t) := by
  have ht : t % 4294967296 < 4294967296 := Nat.mod_lt _ (by omega)
  simp only [Fits, Inode.words, List.forall_mem_cons] at h
  simp [Fits, Inode.words, stamped, h, ht]

@[simp] theorem nameField_length (name : List UInt8) : (nameField name).length = 32 := by
  simp [nameField]

end Stores

/-- The copy of an inode that every append begins with. -/
def headerImage (t : ℕ) (s : Wfs) (f : Entry) : Mem :=
  storeWords s.data s.head (stamped f.inode t).words

section Header

variable {s : Wfs} {orig t : ℕ} {f : Entry}

theorem headerImage_outside {x : ℕ} (h : x < s.head ∨ s.head + 44 ≤ x) :
    headerImage t s f x = s.data x :=
  storeWords_outside (by rwa [words_length])

theorem headerImage_inode (he : EntryAt s.data orig f) :
    loadInode (headerImage t s f) s.head = stamped f.inode t := by
  have hfits : Fits f.inode := he.inode ▸ loadInode_fits
  rw [headerImage, loadInode_storeWords (stamped_fits hfits)]

theorem headerImage_size (he : EntryAt s.data orig f) :
    loadWord (headerImage t s f) (s.head + 24) = f.inode.size := by
  rw [← loadInode_size, headerImage_inode he, stamped]

theorem headerImage_word {a : ℕ} (h : a + 4 ≤ s.head) :
    loadWord (headerImage t s f) a = loadWord s.data a :=
  loadWord_storeWords_of_disjoint (Or.inl h)

theorem headerImage_entry {a : ℕ} {e : Entry} (he : EntryAt s.data a e)
    (h : a + e.span ≤ s.head) : EntryAt (headerImage t s f) a e :=
  he.congr fun x _ hx => (headerImage_outside (Or.inl (by omega))).symm

theorem wfsincpy_header (he : EntryAt s.data orig f) (hhi : orig + f.span ≤ s.head) :
    wfsincpy s.data orig s.head t = headerImage t s f := by
  have hspan : f.span = 44 + f.bytes.length := rfl
  rw [wfsincpy_eq (Or.inl (by omega)), he.inode, headerImage]

end Header

/-- The copy of a directory that `wfs_mknod`, `wfs_mkdir` and `wfs_unlink` append. -/
def dirEntry (t : ℕ) (d : Entry) (bytes : List UInt8) : Entry :=
  ⟨{ stamped d.inode t with size := bytes.length }, bytes⟩

def nodeEntry (env : Env) (number mode : ℕ) : Entry :=
  ⟨⟨number, 0, mode, env.uid % 4294967296, env.gid % 4294967296, 0, 0, env.time 1 % 4294967296,
    env.time 1 % 4294967296, env.time 1 % 4294967296, 1⟩, []⟩

/-- The number a creation gives out: the first one that is not live, else whatever the
image holds at the place of the new node. -/
def nodeNumber (s : Wfs) (d : Entry) : ℕ :=
  match firstFree s.all_le with
  | some i => i
  | none => loadWord s.data (s.head + 84 + d.bytes.length)

/-- The image after `appendNode`. -/
def nodeImage (env : Env) (s : Wfs) (d : Entry) (name : List UInt8) (mode : ℕ) : Mem :=
  let n := d.bytes.length
  let m := storeBytes (headerImage (env.time 0) s d) (s.head + 44) d.bytes
  let m := storeWord m 4 (s.head + 84 + n)
  let m := storeWord m (s.head + 84 + n) (nodeNumber s d)
  let m := storeWords m (s.head + 88 + n) (newNodeWords env mode)
  let m := storeWord m 4 (s.head + 128 + n)
  let m := storeBytes m (s.head + 76 + n) (leBytes 8 (nodeNumber s d))
  let m := storeBytes m (s.head + 44 + n) (nameField name)
  storeWord m (s.head + 24) (n + 40)

section Create

variable {env : Env} {s : Wfs} {dir mode : ℕ} {d : Entry} {name : List UInt8}

theorem firstFree_lt {t : ℕ → ℕ} {i : ℕ} (h : firstFree t = some i) : i < 256 := by
  have hmem := List.mem_of_find?_eq_some h
  simpa using hmem

theorem nodeNumber_lt : nodeNumber s d < 4294967296 := by
  rw [nodeNumber]
  split
  next i hi =>
    have := firstFree_lt hi
    omega
  next => exact loadWord_lt

theorem appendNode_eq (he : EntryAt s.data dir d) (hlo : 8 ≤ dir) (hhi : dir + d.span ≤ s.head)
    (hroom : s.head + 128 + d.bytes.length < 4294967296) :
    appendNode env s dir name mode =
      if nodeNumber s d < 256 then
        .ok ({ s with
          data := nodeImage env s d name mode
          all_le := Function.update s.all_le (nodeNumber s d) (s.head + 84 + d.bytes.length) }, 0)
      else .error .indexOutOfRange := by
  have hspan : d.span = 44 + d.bytes.length := rfl
  have hhead : loadWord s.data 4 = s.head := rfl
  unfold appendNode
  extract_lets new_dir m1 m2 m3 new_node m4 m5 m6 new_dentry m7 m8 m9 number
  have h1 : m1 = wfsincpy s.data dir s.head (env.time 0) := rfl
  have h2 : m2 = copyBytes m1 (s.head + 44) (dir + 44) (loadWord m1 (dir + 24)) := rfl
  have h3 : m3 = storeWord m2 4 (loadWord m2 4 + 44 + loadWord m2 (dir + 24) + 40) := rfl
  have hnode : new_node = loadWord m3 4 := rfl
  have h4 : m4 = match firstFree s.all_le with
    | some i => storeWord m3 new_node i
    | none => m3 := rfl
  have h5 : m5 = storeWords m4 (new_node + 4) (newNodeWords env mode) := rfl
  have h6 : m6 = storeWord m5 4 (loadWord m5 4 + 44) := rfl
  have hdentry : new_dentry = s.head + 44 + loadWord m6 (s.head + 24) := rfl
  have h7 : m7 = storeBytes m6 (new_dentry + 32) (leBytes 8 (loadWord m6 new_node)) := rfl
  have h8 : m8 = storeBytes m7 new_dentry (nameField name) := rfl
  have h9 : m9 = storeWord m8 (s.head + 24) (loadWord m8 (s.head + 24) + 40) := rfl
  have hnumber : number = loadWord m9 new_node := rfl
  clear_value number m9 m8 m7 new_dentry m6 m5 m4 new_node m3 m2 m1
  rw [wfsincpy_header he hhi] at h1
  have he1 : EntryAt m1 dir d := h1 ▸ headerImage_entry he hhi
  rw [he1.size_eq, copyBytes, he1.bytes] at h2
  have hw2 : loadWord m2 (dir + 24) = d.bytes.length := by
    rw [h2, loadWord_storeBytes_of_disjoint (by omega), he1.size_eq]
  have hh2 : loadWord m2 4 = s.head := by
    rw [h2, loadWord_storeBytes_of_disjoint (by omega), h1, headerImage_word (by omega), hhead]
  have hs2 : loadWord m2 (s.head + 24) = d.bytes.length := by
    rw [h2, loadWord_storeBytes_of_disjoint (by omega), h1, headerImage_size he, he.size]
  have hend : s.head + 44 + d.bytes.length + 40 = s.head + 84 + d.bytes.length := by omega
  rw [hh2, hw2, hend] at h3
  rw [h3, loadWord_storeWord, Nat.mod_eq_of_lt (by omega)] at hnode
  subst hnode
  have hw3 : loadWord m3 (s.head + 84 + d.bytes.length) =
      loadWord s.data (s.head + 84 + d.bytes.length) := by
    rw [h3, loadWord_storeWord_of_disjoint (by omega), h2,
      loadWord_storeBytes_of_disjoint (by omega), h1,
      loadWord_congr fun x _ _ => headerImage_outside (by omega)]
  have hm4 : m4 = storeWord m3 (s.head + 84 + d.bytes.length) (nodeNumber s d) := by
    rw [h4, nodeNumber]
    cases firstFree s.all_le with
    | some i => rfl
    | none =>
      dsimp only
      rw [← hw3, storeWord_loadWord]
  have hh5 : loadWord m5 4 = s.head + 84 + d.bytes.length := by
    rw [h5, loadWord_storeWords_of_disjoint (by omega), hm4,
      loadWord_storeWord_of_disjoint (by omega), h3, loadWord_storeWord,
      Nat.mod_eq_of_lt (by omega)]
  have hs5 : loadWord m5 (s.head + 24) = d.bytes.length := by
    rw [h5, loadWord_storeWords_of_disjoint (by omega), hm4,
      loadWord_storeWord_of_disjoint (by omega), h3, loadWord_storeWord_of_disjoint (by omega), hs2]
  have hn5 : loadWord m5 (s.head + 84 + d.bytes.length) = nodeNumber s d := by
    rw [h5, loadWord_storeWords_of_disjoint (by omega), hm4, loadWord_storeWord,
      Nat.mod_eq_of_lt nodeNumber_lt]
  have hend' : s.head + 84 + d.bytes.length + 44 = s.head + 128 + d.bytes.length := by omega
  rw [hh5, hend'] at h6
  have hs6 : loadWord m6 (s.head + 24) = d.bytes.length := by
    rw [h6, loadWord_storeWord_of_disjoint (by omega), hs5]
  have hn6 : loadWord m6 (s.head + 84 + d.bytes.length) = nodeNumber s d := by
    rw [h6, loadWord_storeWord_of_disjoint (by omega), hn5]
  rw [hs6] at hdentry
  subst hdentry
  rw [hn6] at h7
  have h8len := nameField_length name
  have h7len := leBytes_length 8 (nodeNumber s d)
  have hs8 : loadWord m8 (s.head + 24) = d.bytes.length := by
    rw [h8, loadWord_storeBytes_of_disjoint (by omega), h7,
      loadWord_storeBytes_of_disjoint (by omega), hs6]
  rw [hs8] at h9
  have hn9 : number = nodeNumber s d := by
    rw [hnumber, h9, loadWord_storeWord_of_disjoint (by omega), h8,
      loadWord_storeBytes_of_disjoint (by omega), h7, loadWord_storeBytes_of_disjoint (by omega),
      hn6]
  have hm9 : m9 = nodeImage env s d name mode := by
    have hplace : s.head + 44 + d.bytes.length + 32 = s.head + 76 + d.bytes.length := by omega
    have hfields : s.head + 84 + d.bytes.length + 4 = s.head + 88 + d.bytes.length := by omega
    rw [h9, h8, h7, h6, h5, hm4, h3, h2, h1, hplace, hfields]
    rfl
  rw [hn9, hm9]

theorem nodeImage_head (hh : 8 ≤ s.head) (hroom : s.head + 128 + d.bytes.length < 4294967296) :
    loadWord (nodeImage env s d name mode) 4 = s.head + 128 + d.bytes.length := by
  have h8len := nameField_length name
  have h7len := leBytes_length 8 (nodeNumber s d)
  simp only [nodeImage]
  rw [loadWord_storeWord_of_disjoint (by omega), loadWord_storeBytes_of_disjoint (by omega),
    loadWord_storeBytes_of_disjoint (by omega), loadWord_storeWord, Nat.mod_eq_of_lt hroom]

theorem nodeImage_frame {x : ℕ}
    (h : x < 4 ∨ 8 ≤ x ∧ x < s.head ∨ 8 ≤ x ∧ s.head + 128 + d.bytes.length ≤ x) (hh : 8 ≤ s.head) :
    nodeImage env s d name mode x = s.data x := by
  have h8len := nameField_length name
  have h7len := leBytes_length 8 (nodeNumber s d)
  have h5len : (newNodeWords env mode).length = 10 := rfl
  simp only [nodeImage]
  rw [storeWord_outside (by omega), storeBytes_outside (by omega), storeBytes_outside (by omega),
    storeWord_outside (by omega), storeWords_outside (by omega), storeWord_outside (by omega),
    storeWord_outside (by omega), storeBytes_outside (by omega), headerImage_outside (by omega)]

theorem nodeImage_dir (he : EntryAt s.data dir d) (hh : 8 ≤ s.head)
    (hroom : s.head + 128 + d.bytes.length < 4294967296) :
    EntryAt (nodeImage env s d name mode) s.head
      (dirEntry (env.time 0) d (d.bytes ++ nameField name ++ leBytes 8 (nodeNumber s d))) := by
  have h8len := nameField_length name
  have h7len := leBytes_length 8 (nodeNumber s d)
  have h5len : (newNodeWords env mode).length = 10 := rfl
  refine ⟨?_, rfl, ?_⟩
  · simp only [nodeImage]
    rw [loadInode_storeWord_size, @loadInode_congr _ (headerImage (env.time 0) s d),
      headerImage_inode he]
    · simp only [dirEntry, List.length_append, h8len, h7len]
      rw [Nat.mod_eq_of_lt (by omega)]
    · intro x hx hx'
      rw [storeBytes_outside (by omega), storeBytes_outside (by omega),
        storeWord_outside (by omega), storeWords_outside (by omega), storeWord_outside (by omega),
        storeWord_outside (by omega), storeBytes_outside (by omega)]
  · simp only [dirEntry, List.length_append, h8len, h7len]
    rw [loadBytes_append, loadBytes_append]
    refine congrArg₂ (· ++ ·) (congrArg₂ (· ++ ·) ?_ ?_) ?_
    · rw [@loadBytes_congr _ (storeBytes (headerImage (env.time 0) s d) (s.head + 44) d.bytes),
        loadBytes_storeBytes]
      intro x hx hx'
      simp only [nodeImage]
      rw [storeWord_outside (by omega), storeBytes_outside (by omega),
        storeBytes_outside (by omega), storeWord_outside (by omega),
        storeWords_outside (by omega), storeWord_outside (by omega),
        storeWord_outside (by omega)]
    · simp only [nodeImage]
      exact (loadBytes_congr fun x hx hx' => storeWord_outside (by omega)).trans
        (loadBytes_storeBytes_of_length h8len)
    · have hplace : s.head + 44 + (d.bytes.length + 32) = s.head + 76 + d.bytes.length := by omega
      simp only [nodeImage, hplace]
      exact (loadBytes_congr fun x hx hx' => (storeWord_outside (by omega)).trans
        (storeBytes_outside (by omega))).trans (loadBytes_storeBytes_of_length h7len)

theorem nodeImage_node (hh : 8 ≤ s.head) (hmode : mode < 4294967296) :
    EntryAt (nodeImage env s d name mode) (s.head + 84 + d.bytes.length)
      (nodeEntry env (nodeNumber s d) mode) := by
  have h8len := nameField_length name
  have h7len := leBytes_length 8 (nodeNumber s d)
  refine ⟨?_, rfl, rfl⟩
  have hfits : Fits (nodeEntry env (nodeNumber s d) mode).inode := by
    have hlt : ∀ w : ℕ, w % 4294967296 < 4294967296 := fun w => Nat.mod_lt _ (by omega)
    simp [Fits, nodeEntry, Inode.words, nodeNumber_lt, hmode, hlt]
  have hplace : s.head + 88 + d.bytes.length = s.head + 84 + d.bytes.length + 4 := by omega
  simp only [nodeImage]
  rw [@loadInode_congr _ (storeWords (storeWord (storeBytes (headerImage (env.time 0) s d)
    (s.head + 44) d.bytes) 4 (s.head + 84 + d.bytes.length))
    (s.head + 84 + d.bytes.length) (nodeEntry env (nodeNumber s d) mode).inode.words),
    loadInode_storeWords hfits]
  intro x hx hx'
  rw [storeWord_outside (by omega), storeBytes_outside (by omega), storeBytes_outside (by omega),
    storeWord_outside (by omega), hplace]
  simp only [nodeEntry, Inode.words, newNodeWords, storeWords, storeWord_mod]

end Create

/-- The version of a file that a write appends. -/
def fileEntry (env : Env) (f : Entry) (buf : List UInt8) (offset : ℕ) : Entry :=
  let bytes := splice f.bytes offset buf
  ⟨{ stamped f.inode (env.time 0) with
    size := bytes.length
    mtime := env.time 1 % 4294967296
    ctime := env.time 1 % 4294967296 }, bytes⟩

@[simp] theorem dirEntry_number (t : ℕ) (d : Entry) (bytes : List UInt8) :
    (dirEntry t d bytes).number = d.number := rfl

@[simp] theorem dirEntry_isDir (t : ℕ) (d : Entry) (bytes : List UInt8) :
    (dirEntry t d bytes).isDir = d.isDir := rfl

@[simp] theorem fileEntry_number (env : Env) (f : Entry) (buf : List UInt8) (offset : ℕ) :
    (fileEntry env f buf offset).number = f.number := rfl

@[simp] theorem fileEntry_isDir (env : Env) (f : Entry) (buf : List UInt8) (offset : ℕ) :
    (fileEntry env f buf offset).isDir = f.isDir := rfl

@[simp] theorem nodeEntry_number (env : Env) (number mode : ℕ) :
    (nodeEntry env number mode).number = number := rfl

/-- The image after `appendWrite`. -/
def writeImage (env : Env) (s : Wfs) (f : Entry) (buf : List UInt8) (offset : ℕ) : Mem :=
  let n := (splice f.bytes offset buf).length
  let m := storeBytes (headerImage (env.time 0) s f) (s.head + 44) f.bytes
  let m := storeBytes m (s.head + 44 + offset) buf
  let m := storeWord m (s.head + 24) n
  let m := storeWord m (s.head + 36) (env.time 1)
  let m := storeWord m (s.head + 32) (env.time 1)
  storeWord m 4 (s.head + 44 + n)

section Write

variable {env : Env} {s : Wfs} {orig offset t : ℕ} {f : Entry} {buf : List UInt8}

theorem appendWrite_eq (he : EntryAt s.data orig f) (hlo : 8 ≤ orig)
    (hhi : orig + f.span ≤ s.head) (hoff : offset ≤ f.bytes.length)
    (hroom : s.head + 44 + f.bytes.length + buf.length ≤ s.total_size →
      s.head + 44 + (splice f.bytes offset buf).length < 4294967296) :
    appendWrite env s orig buf offset =
      if s.head + 44 + f.bytes.length + buf.length > s.total_size then
        ({ s with data := headerImage (env.time 0) s f }, -ENOSPC)
      else ({ s with data := writeImage env s f buf offset }, intOfSize buf.length) := by
  have hspan : f.span = 44 + f.bytes.length := rfl
  have hlen := splice_length buf hoff
  have hhead : loadWord s.data 4 = s.head := rfl
  unfold appendWrite
  extract_lets modified m1 n1 m2 m3 n3 m4 m5 m6 m7
  have h1 : m1 = wfsincpy s.data orig s.head (env.time 0) := rfl
  have hn1 : n1 = loadWord m1 (orig + 24) := rfl
  have h2 : m2 = copyBytes m1 (s.head + 44) (orig + 44) n1 := rfl
  have h3 : m3 = storeBytes m2 (s.head + 44 + offset) buf := rfl
  have hn3 : n3 = loadWord m3 (orig + 24) := rfl
  have h4 : m4 = storeWord m3 (s.head + 24)
    (if offset + buf.length > n3 then offset + buf.length else n3) := rfl
  have h5 : m5 = storeWord m4 (s.head + 36) (env.time 1) := rfl
  have h6 : m6 = storeWord m5 (s.head + 32) (env.time 1) := rfl
  have h7 : m7 = storeWord m6 4 (loadWord m6 4 + 44 + loadWord m6 (s.head + 24)) := rfl
  clear_value m7 m6 m5 m4 n3 m3 m2 n1 m1
  rw [wfsincpy_header he hhi] at h1
  have he1 : EntryAt m1 orig f := h1 ▸ headerImage_entry he hhi
  rw [he1.size_eq] at hn1
  rw [copyBytes, hn1, he1.bytes] at h2
  have hh1 : loadWord m1 4 = s.head := by rw [h1, headerImage_word (by omega), hhead]
  rw [hh1, hn1]
  split_ifs with hfull
  · rw [h1]
  have hin := hroom (not_lt.mp hfull)
  have hh3 : loadWord m3 4 = s.head := by
    rw [h3, loadWord_storeBytes_of_disjoint (by omega), h2,
      loadWord_storeBytes_of_disjoint (by omega), hh1]
  have hsize : (if offset + buf.length > n3 then offset + buf.length else n3) =
      (splice f.bytes offset buf).length := by
    rw [hn3, h3, loadWord_storeBytes_of_disjoint (by omega), h2,
      loadWord_storeBytes_of_disjoint (by omega), he1.size_eq]
    split_ifs <;> omega
  rw [hsize] at h4
  have hh6 : loadWord m6 4 = s.head := by
    rw [h6, loadWord_storeWord_of_disjoint (by omega), h5,
      loadWord_storeWord_of_disjoint (by omega), h4, loadWord_storeWord_of_disjoint (by omega), hh3]
  have hs6 : loadWord m6 (s.head + 24) = (splice f.bytes offset buf).length := by
    rw [h6, loadWord_storeWord_of_disjoint (by omega), h5,
      loadWord_storeWord_of_disjoint (by omega), h4, loadWord_storeWord,
      Nat.mod_eq_of_lt (by omega)]
  rw [hh6, hs6] at h7
  have hm7 : m7 = writeImage env s f buf offset := by
    rw [h7, h6, h5, h4, h3, h2, h1]
    rfl
  rw [hm7]

theorem writeImage_frame {x : ℕ} (hoff : offset ≤ f.bytes.length) (hh : 8 ≤ s.head)
    (h : x < 4 ∨ 8 ≤ x ∧ x < s.head ∨ s.head + 44 + (splice f.bytes offset buf).length ≤ x) :
    writeImage env s f buf offset x = s.data x := by
  have hlen := splice_length buf hoff
  simp only [writeImage]
  rw [storeWord_outside (by omega), storeWord_outside (by omega), storeWord_outside (by omega),
    storeWord_outside (by omega), storeBytes_outside (by omega), storeBytes_outside (by omega),
    headerImage_outside (by omega)]

theorem writeImage_head (hroom : s.head + 44 + (splice f.bytes offset buf).length < 4294967296) :
    loadWord (writeImage env s f buf offset) 4 =
      s.head + 44 + (splice f.bytes offset buf).length := by
  simp only [writeImage]
  rw [loadWord_storeWord, Nat.mod_eq_of_lt hroom]

theorem writeImage_file (he : EntryAt s.data orig f) (hoff : offset ≤ f.bytes.length)
    (hh : 8 ≤ s.head) (hroom : s.head + 44 + (splice f.bytes offset buf).length < 4294967296) :
    EntryAt (writeImage env s f buf offset) s.head (fileEntry env f buf offset) := by
  refine ⟨?_, rfl, ?_⟩
  · simp only [writeImage]
    rw [loadInode_congr fun x hx _ => storeWord_outside (by omega), loadInode_storeWord_times,
      loadInode_storeWord_size, loadInode_congr fun x hx _ => (storeBytes_outside (by omega)).trans
        (storeBytes_outside (by omega)), headerImage_inode he, Nat.mod_eq_of_lt (by omega)]
    rfl
  · refine (loadBytes_congr fun x hx _ => ?_).trans
      (loadBytes_storeBytes_splice (m := headerImage (env.time 0) s f) hoff)
    simp only [writeImage]
    rw [storeWord_outside (by omega), storeWord_outside (by omega), storeWord_outside (by omega),
      storeWord_outside (by omega)]

end Write

theorem intOfSize_of_lt {n : ℕ} (h : n < 2147483648) : intOfSize n = (n : ℤ) := by
  have hhalf : ((4294967296 : ℕ) : ℤ) / 2 = 2147483648 := rfl
  have hhalf' : (((4294967296 : ℕ) : ℤ) + 1) / 2 = 2147483648 := rfl
  exact Int.bmod_eq_of_le (by rw [hhalf]; omega) (by rw [hhalf']; omega)

theorem strEq_congr {m m' : Mem} {a : ℕ} {name : List UInt8}
    (h : AgreeOn m m' a (a + name.length + 1)) : strEq m a name = strEq m' a name := by
  induction name generalizing a with
  | nil => rw [strEq, strEq, h a le_rfl (by simp)]
  | cons c cs ih =>
    rw [List.length_cons] at h
    rw [strEq, strEq, h a le_rfl (by omega), ih fun x hx hx' => h x (by omega) (by omega)]

section CopyDentries

variable {filename : List UInt8} {stop fuel insides new_insides x : ℕ} {m m₀ : Mem} {found : Bool}

/-- The image after one dentry was copied. -/
def copyDentry (m : Mem) (insides new_insides : ℕ) : Mem :=
  storeBytes (storeBytes m (new_insides + 32) (leBytes 8 (loadLong m (insides + 32)))) new_insides
    (nameField (cstring (storeBytes m (new_insides + 32) (leBytes 8 (loadLong m (insides + 32)))) 31
      insides))

theorem copyDentries_succ : copyDentries filename stop (fuel + 1) insides new_insides m found =
    if insides < stop then
      if strEq m insides filename then
        copyDentries filename stop fuel (insides + 40) new_insides m true
      else copyDentries filename stop fuel (insides + 40) (new_insides + 40)
        (copyDentry m insides new_insides) found
    else (m, found) := by
  rw [copyDentries]
  rfl

theorem copyDentry_outside (h : x < new_insides ∨ new_insides + 40 ≤ x) :
    copyDentry m insides new_insides x = m x := by
  rw [copyDentry, storeBytes_outside (by rw [nameField_length]; omega),
    storeBytes_outside (by rw [leBytes_length]; omega)]

theorem copyDentries_outside (h : x < new_insides ∨ new_insides + 40 * fuel ≤ x) :
    (copyDentries filename stop fuel insides new_insides m found).1 x = m x := by
  induction fuel generalizing insides new_insides m found with
  | zero => rfl
  | succ fuel ih =>
    rw [copyDentries_succ]
    split_ifs
    · exact ih (by omega)
    · rw [ih (by omega), copyDentry_outside (by omega)]
    · rfl

theorem copyDentries_found :
    (copyDentries filename stop fuel insides new_insides m true).2 = true := by
  induction fuel generalizing insides new_insides m with
  | zero => rfl
  | succ fuel ih =>
    rw [copyDentries_succ]
    split_ifs
    · exact ih
    · exact ih
    · rfl

/-- Once the name was met there is one dentry less to copy. -/
theorem copyDentries_outside_of_found
    (hf : (copyDentries filename stop fuel insides new_insides m false).2 = true)
    (h : x < new_insides ∨ new_insides + 40 * (fuel - 1) ≤ x) :
    (copyDentries filename stop fuel insides new_insides m false).1 x = m x := by
  induction fuel generalizing insides new_insides m with
  | zero => rfl
  | succ fuel ih =>
    rw [copyDentries_succ] at hf ⊢
    split_ifs at hf ⊢
    · exact copyDentries_outside (by omega)
    · cases fuel with
      | zero => cases hf
      | succ fuel => rw [ih hf (by omega), copyDentry_outside (by omega)]

/-- A name that lookup finds below the new copy is met by the loop. -/
theorem copyDentries_meets {d base : ℕ}
    (hd : findDentry m₀ filename stop fuel insides = some d) (hin : d + filename.length + 1 ≤ base)
    (hbase : base ≤ new_insides) (hm : AgreeOn m m₀ 0 base) :
    (copyDentries filename stop fuel insides new_insides m found).2 = true := by
  induction fuel generalizing insides new_insides m found with
  | zero => cases hd
  | succ fuel ih =>
    rw [findDentry] at hd
    rw [copyDentries_succ]
    split_ifs at hd with hstop heq
    · cases hd
      have hstable : strEq m d filename = true := by
        rw [strEq_congr fun x _ hx => hm x (by omega) (by omega), heq]
      rw [if_pos hstop, if_pos hstable]
      exact copyDentries_found
    · rw [if_pos hstop]
      split_ifs
      · exact copyDentries_found
      · refine ih hd (by omega) fun x hx hx' => ?_
        rw [copyDentry_outside (by omega), hm x hx hx']

/-- A name that lookup does not find is not met, if no comparison reaches the new copy. -/
theorem copyDentries_misses {base : ℕ} (hd : findDentry m₀ filename stop fuel insides = none)
    (hin : stop + filename.length ≤ base) (hbase : base ≤ new_insides) (hm : AgreeOn m m₀ 0 base) :
    (copyDentries filename stop fuel insides new_insides m found).2 = found := by
  induction fuel generalizing insides new_insides m with
  | zero => rfl
  | succ fuel ih =>
    rw [findDentry] at hd
    rw [copyDentries_succ]
    split_ifs at hd with hstop heq
    · have hstable : ¬ strEq m insides filename = true := by
        rwa [strEq_congr fun x _ hx => hm x (by omega) (by omega)]
      rw [if_pos hstop, if_neg hstable]
      refine ih hd (by omega) fun x hx hx' => ?_
      rw [copyDentry_outside (by omega), hm x hx hx']
    · rw [if_neg hstop]

end CopyDentries

/-- Image and outcome of the copy loop of `wfs_unlink`. -/
def shrunk (env : Env) (s : Wfs) (dir : ℕ) (d : Entry) (filename : List UInt8) : Mem × Bool :=
  copyDentries filename (dir + 44 + d.bytes.length) ((d.bytes.length + 39) / 40) (dir + 44)
    (s.head + 44) (headerImage (env.time 0) s d) false

/-- The image after `removeDentry`. -/
def unlinkImage (env : Env) (s : Wfs) (file dir : ℕ) (d : Entry) (filename : List UInt8) : Mem :=
  let n := d.bytes.length - 40
  let m := storeWord (shrunk env s dir d filename).1 (s.head + 24) n
  let m := storeWord m 4 (s.head + 44 + n)
  storeWord m (file + 4) 1

section Unlink

variable {env : Env} {s : Wfs} {file dir : ℕ} {d e : Entry} {filename : List UInt8}

theorem shrunk_nonempty (h : (shrunk env s dir d filename).2 = true) (hd : 40 ∣ d.bytes.length) :
    40 ≤ d.bytes.length := by
  refine Nat.le_of_dvd (Nat.pos_of_ne_zero fun hzero => ?_) hd
  rw [shrunk, hzero] at h
  cases h

theorem shrunk_outside {x : ℕ} (hd : 40 ∣ d.bytes.length)
    (h : x < s.head ∨ s.head + 44 + d.bytes.length ≤ x) :
    (shrunk env s dir d filename).1 x = s.data x := by
  rw [shrunk, copyDentries_outside (by omega), headerImage_outside (by omega)]

theorem shrunk_outside_of_found {x : ℕ} (hf : (shrunk env s dir d filename).2 = true)
    (hd : 40 ∣ d.bytes.length) (h : x < s.head ∨ s.head + 44 + (d.bytes.length - 40) ≤ x) :
    (shrunk env s dir d filename).1 x = s.data x := by
  have hpos := shrunk_nonempty hf hd
  rw [shrunk, copyDentries_outside_of_found hf (by omega), headerImage_outside (by omega)]

theorem shrunk_inode (he : EntryAt s.data dir d) :
    loadInode (shrunk env s dir d filename).1 s.head = stamped d.inode (env.time 0) := by
  rw [← headerImage_inode he]
  exact loadInode_congr fun x _ hx => copyDentries_outside (by omega)

theorem removeDentry_eq (he : EntryAt s.data dir d) (hhi : dir + d.span ≤ s.head)
    (hfile : EntryAt s.data file e) (hflo : 8 ≤ file) (hfhi : file + e.span ≤ s.head)
    (hd : 40 ∣ d.bytes.length) (hroom : (shrunk env s dir d filename).2 = true →
      s.head + 44 + (d.bytes.length - 40) < 4294967296) :
    removeDentry env s file dir filename =
      if (shrunk env s dir d filename).2 then
        ({ s with
          data := unlinkImage env s file dir d filename
          all_le := Function.update s.all_le e.number 0 }, 0)
      else ({ s with data := (shrunk env s dir d filename).1 }, -ENOENT) := by
  have hspan : d.span = 44 + d.bytes.length := rfl
  have hfspan : e.span = 44 + e.bytes.length := rfl
  have hhead : loadWord s.data 4 = s.head := rfl
  unfold removeDentry
  extract_lets new_dir m1 size
  have h1 : m1 = wfsincpy s.data dir s.head (env.time 0) := rfl
  have hsize : size = loadWord m1 (dir + 24) := rfl
  clear_value size m1
  rw [wfsincpy_header he hhi] at h1
  subst h1
  rw [(headerImage_entry he hhi).size_eq] at hsize
  subst hsize
  have hloop : copyDentries filename (dir + 44 + d.bytes.length) ((d.bytes.length + 39) / 40)
      (dir + 44) (new_dir + 44) (headerImage (env.time 0) s d) false =
      shrunk env s dir d filename := rfl
  rw [hloop]
  by_cases hf : (shrunk env s dir d filename).2 = true
  · have hpos := shrunk_nonempty hf hd
    have hroom := hroom hf
    obtain ⟨m2, h2⟩ : ∃ m2, m2 = (shrunk env s dir d filename).1 := ⟨_, rfl⟩
    have hs2 : loadWord m2 (s.head + 24) = d.bytes.length := by
      rw [h2, ← loadInode_size, shrunk_inode he, stamped, he.size]
    have hh2 : loadWord m2 4 = s.head := by
      rw [h2, loadWord_congr fun x _ _ => shrunk_outside hd (by omega), hhead]
    have hsub : storeWord m2 (s.head + 24) (d.bytes.length + (4294967296 - 40)) =
        storeWord m2 (s.head + 24) (d.bytes.length - 40) := by
      rw [← storeWord_mod, show d.bytes.length + (4294967296 - 40) =
        d.bytes.length - 40 + 4294967296 by omega, Nat.add_mod_right, storeWord_mod]
    have hf2 : loadWord (unlinkImage env s file dir d filename) file = e.number := by
      simp only [unlinkImage]
      rw [loadWord_storeWord_of_disjoint (by omega), loadWord_storeWord_of_disjoint (by omega),
        loadWord_storeWord_of_disjoint (by omega),
        loadWord_congr fun x _ _ => shrunk_outside hd (by omega), hfile.number_eq]
    have himage : storeWord (storeWord (storeWord m2 (s.head + 24) (d.bytes.length - 40)) 4
        (s.head + 44 + (d.bytes.length - 40))) (file + 4) 1 =
        unlinkImage env s file dir d filename := by
      rw [h2]
      rfl
    have hpair : shrunk env s dir d filename = (m2, true) := Prod.ext h2.symm hf
    rw [if_pos hf, hpair]
    simp only [new_dir, hs2, hsub, loadWord_storeWord, if_true]
    rw [loadWord_storeWord_of_disjoint (by omega), hh2, Nat.mod_eq_of_lt (by omega), himage, hf2]
  · generalize shrunk env s dir d filename = r at hf ⊢
    obtain ⟨m2, found⟩ := r
    dsimp only at hf ⊢
    rw [if_neg hf, if_neg hf]

theorem unlinkImage_frame {x : ℕ} (hf : (shrunk env s dir d filename).2 = true)
    (hd : 40 ∣ d.bytes.length) (hh : 8 ≤ s.head) (hfhi : file + 44 ≤ s.head)
    (h : x < 4 ∨ 8 ≤ x ∧ x < s.head ∨ s.head + 44 + (d.bytes.length - 40) ≤ x)
    (hx : x < file + 4 ∨ file + 8 ≤ x) :
    unlinkImage env s file dir d filename x = s.data x := by
  simp only [unlinkImage]
  rw [storeWord_outside (by omega), storeWord_outside (by omega), storeWord_outside (by omega),
    shrunk_outside_of_found hf hd (by omega)]

theorem unlinkImage_head (hflo : 8 ≤ file)
    (hroom : s.head + 44 + (d.bytes.length - 40) < 4294967296) :
    loadWord (unlinkImage env s file dir d filename) 4 = s.head + 44 + (d.bytes.length - 40) := by
  simp only [unlinkImage]
  rw [loadWord_storeWord_of_disjoint (by omega), loadWord_storeWord, Nat.mod_eq_of_lt hroom]

/-- The bytes of the new directory. -/
def shrunkBytes (env : Env) (s : Wfs) (dir : ℕ) (d : Entry) (filename : List UInt8) :
    List UInt8 :=
  loadBytes (shrunk env s dir d filename).1 (s.head + 44) (d.bytes.length - 40)

theorem unlinkImage_dir (he : EntryAt s.data dir d) (hfhi : file + 44 ≤ s.head)
    (hroom : s.head + 44 + (d.bytes.length - 40) < 4294967296) :
    EntryAt (unlinkImage env s file dir d filename) s.head
      (dirEntry (env.time 0) d (shrunkBytes env s dir d filename)) := by
  have hlen : (shrunkBytes env s dir d filename).length = d.bytes.length - 40 := loadBytes_length
  refine ⟨?_, rfl, ?_⟩
  · simp only [unlinkImage]
    rw [loadInode_congr fun x hx _ => (storeWord_outside (by omega)).trans
      (storeWord_outside (by omega)), loadInode_storeWord_size, shrunk_inode he, dirEntry, hlen,
      Nat.mod_eq_of_lt (by omega)]
  · simp only [dirEntry, hlen]
    refine loadBytes_congr fun x hx _ => ?_
    simp only [unlinkImage]
    rw [storeWord_outside (by omega), storeWord_outside (by omega), storeWord_outside (by omega)]

end Unlink

end WfsAppend
