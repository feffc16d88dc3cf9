import OsProjects.WfsAppend
import OsProjects.WfsPaths

/-! # Calls as changes of the log

`Change` says what a call can do to the image and to the list of entries it holds, with the
guards under which it does so. Everything about whole runs is derived from it.
-/
namespace WfsChange

open ByteMemory WfsLookup WfsHandlers WfsLog WfsAppend WfsPaths

/-- The entry at `b` with its inode changed in place. -/
def modifyAt (f : Inode → Inode) (b : ℕ) : List Entry → ℕ → List Entry
  | [], _ => []
  | e :: es, a =>
    (if a = b then ⟨f e.inode, e.bytes⟩ else e) :: modifyAt f b es (a + e.span)

section Modify

variable {f : Inode → Inode} {a b c n : ℕ} {es es' : List Entry} {e : Entry} {m m' : Mem}

theorem modifyAt_of_lt (h : b < a) : modifyAt f b es a = es := by
  induction es generalizing a with
  | nil => rfl
  | cons e es ih => rw [modifyAt, if_neg (by omega), ih (by omega)]

theorem spans_modifyAt : spans (modifyAt f b es a) = spans es := by
  induction es generalizing a with
  | nil => rfl
  | cons e es ih =>
    rw [modifyAt, spans_cons, spans_cons, ih]
    split_ifs <;> rfl

theorem mem_modifyAt (h : e ∈ modifyAt f b es a) :
    ∃ d ∈ es, e = d ∨ e = ⟨f d.inode, d.bytes⟩ := by
  induction es generalizing a with
  | nil => cases h
  | cons d es ih =>
    rw [modifyAt, List.mem_cons] at h
    rcases h with rfl | h
    · refine ⟨d, List.mem_cons_self, ?_⟩
      split_ifs
      · exact Or.inr rfl
      · exact Or.inl rfl
    · obtain ⟨x, hx, hex⟩ := ih h
      exact ⟨x, List.mem_cons_of_mem d hx, hex⟩

theorem mem_modifyAt_number (hf : ∀ i, (f i).inode_number = i.inode_number) {d : Entry}
    (h : d ∈ es) : ∃ x ∈ modifyAt f b es a, x.number = d.number := by
  induction es generalizing a with
  | nil => cases h
  | cons e es ih =>
    rw [modifyAt]
    rcases List.mem_cons.mp h with rfl | h
    · refine ⟨_, List.mem_cons_self, ?_⟩
      split_ifs
      · exact hf _
      · rfl
    · obtain ⟨x, hx, hxe⟩ := ih (a := a + e.span) h
      exact ⟨x, List.mem_cons_of_mem _ hx, hxe⟩

theorem lastAt_modifyAt (hf : ∀ i, (f i).inode_number = i.inode_number) :
    lastAt (modifyAt f b es a) a n = (lastAt es a n).map fun r =>
      (r.1, if r.1 = b then ⟨f r.2.inode, r.2.bytes⟩ else r.2) := by
  induction es generalizing a with
  | nil => rfl
  | cons e es ih =>
    have hspan : (if a = b then (⟨f e.inode, e.bytes⟩ : Entry) else e).span = e.span := by
      split_ifs <;> rfl
    have hnum : (if a = b then (⟨f e.inode, e.bytes⟩ : Entry) else e).number = e.number := by
      split_ifs
      · exact hf _
      · rfl
    rw [modifyAt, lastAt, lastAt, hspan, hnum, ih]
    cases lastAt es (a + e.span) n with
    | some r => rfl
    | none =>
      by_cases hn : e.number = n <;> simp [hn]

/-- The inode at the start of one entry was changed in the image, and nothing else. -/
theorem tiled_modifyAt (h : Tiled m a (es ++ e :: es') c) (hb : b = a + spans es)
    (hsize : ∀ i, (f i).size = i.size) (hi : loadInode m' b = f (loadInode m b))
    (hm : ∀ x, a ≤ x → x < c → x < b ∨ b + 44 ≤ x → m' x = m x) :
    Tiled m' a (modifyAt f b (es ++ e :: es') a) c := by
  subst hb
  induction es generalizing a with
  | nil =>
    obtain ⟨he, ht⟩ := h
    have hspan : e.span = 44 + e.bytes.length := rfl
    have hc := ht.end_eq
    rw [spans_nil, Nat.add_zero] at hi hm ⊢
    rw [List.nil_append, modifyAt, if_pos rfl, modifyAt_of_lt (by omega)]
    refine ⟨⟨?_, ?_, ?_⟩, ht.congr fun x hx hx' => (hm x (by omega) hx' (by omega)).symm⟩
    · rw [hi, he.inode]
    · rw [hsize]
      exact he.size
    · rw [← he.bytes]
      simp only [loadBytes_length]
      exact loadBytes_congr fun x hx hx' => hm x (by omega) (by omega) (by omega)
  | cons d es ih =>
    rw [List.cons_append] at h
    obtain ⟨he, ht⟩ := h
    have hspan : d.span = 44 + d.bytes.length := rfl
    have hc := ht.end_eq
    rw [spans_append] at hc
    rw [spans_cons, ← Nat.add_assoc] at hi hm ⊢
    rw [List.cons_append, modifyAt, if_neg (by omega)]
    refine ⟨he.congr fun x hx hx' => (hm x hx (by omega) (by omega)).symm, ?_⟩
    exact ih ht hi fun x hx hx' hxb => hm x (by omega) hx' hxb

end Modify

/-- A live entry as lookup returns it. -/
structure Found (L : List Entry) (a : ℕ) (e : Entry) : Prop where
  last : lastAt L 8 e.number = some (a, e)
  live : e.inode.deleted = 0

section Found

variable {s : Wfs} {L : List Entry} {m : Mem} {a b file dir : ℕ} {e d : Entry}
  {name dp : List UInt8} {env : Env}

theorem resolve_found {path : List UInt8} (h : resolve m L path = .ok (some a)) :
    ∃ e, Found L a e := by
  obtain ⟨n, e, hl, hlive⟩ := resolve_live h
  have hn := (lastAt_some hl).1
  exact ⟨e, hn ▸ hl, hlive⟩

theorem Found.entryAt (hf : Found L a e) (h : Rep s L) : EntryAt s.data a e :=
  (h.tiled.lastAt hf.last).1

theorem Found.lower (hf : Found L a e) (h : Rep s L) : 8 ≤ a := (h.tiled.lastAt hf.last).2.1

theorem Found.upper (hf : Found L a e) (h : Rep s L) : a + 44 + e.bytes.length ≤ s.head := by
  have hup := (h.tiled.lastAt hf.last).2.2.1
  rwa [Entry.span, ← Nat.add_assoc] at hup

theorem Found.mem (hf : Found L a e) : e ∈ L := by
  obtain ⟨_, pre, post, rfl, _, _⟩ := lastAt_some hf.last
  simp

theorem Found.unique (hf : Found L a e) (hd : Found L a d) (h : Rep s L) : e = d := by
  have hnum : e.number = d.number := by
    rw [← (hf.entryAt h).number_eq, (hd.entryAt h).number_eq]
  have hlast := hf.last
  rw [hnum, hd.last] at hlast
  exact (congrArg Prod.snd (Option.some.inj hlast)).symm

theorem findDentry_some {stop fuel insides : ℕ} {token : List UInt8}
    (h : findDentry m token stop fuel insides = some b) :
    b < stop ∧ strEq m b token = true ∧ ∃ k, b = insides + 40 * k := by
  induction fuel generalizing insides with
  | zero => cases h
  | succ fuel ih =>
    rw [findDentry] at h
    split_ifs at h with hstop heq
    · cases h
      exact ⟨hstop, heq, 0, rfl⟩
    · obtain ⟨hb, hs, k, hk⟩ := ih h
      exact ⟨hb, hs, k + 1, by omega⟩

/-- A dentry that lookup finds lies inside its directory. -/
theorem lookupDentry_inside (he : EntryAt m dir d) (hd : 40 ∣ d.bytes.length)
    (h : lookupDentry m dir name = some b) : dir + 44 ≤ b ∧ b + 40 ≤ dir + 44 + d.bytes.length := by
  rw [lookupDentry, he.size_eq] at h
  obtain ⟨hb, _, k, rfl⟩ := findDentry_some h
  obtain ⟨j, hj⟩ := hd
  omega

theorem strEq_getElem (h : strEq m a name = true) {k : ℕ} (hk : k < name.length) :
    m (a + k) = name[k] := by
  induction name generalizing a k with
  | nil => simp at hk
  | cons c cs ih =>
    simp only [strEq, decide_eq_true_eq] at h
    cases k with
    | zero => simpa using h.1
    | succ k =>
      have hrest := ih h.2 (k := k) (by simpa using hk)
      rw [List.getElem_cons_succ, ← hrest]
      congr 1
      omega

theorem strEq_length_le (h : strEq m a name = true) (h0 : (0 : UInt8) ∉ name) {k : ℕ}
    (hk : m (a + k) = 0) : name.length ≤ k := by
  by_contra hlt
  have hget := strEq_getElem h (not_le.mp hlt)
  rw [hk] at hget
  exact h0 (hget ▸ List.getElem_mem _)

/-- The second byte of a small inode number. -/
theorem loadLong_small (h : loadLong m a % 4294967296 < 256) : m (a + 1) = 0 := by
  have hbytes : loadBytes m a 8 = [m a, m (a + 1), m (a + 2), m (a + 3), m (a + 4), m (a + 5),
    m (a + 6), m (a + 7)] := rfl
  simp only [loadLong, hbytes, leValue] at h
  have h0 := (m a).toNat_lt
  have h1 := (m (a + 1)).toNat_lt
  have h2 := (m (a + 2)).toNat_lt
  have h3 := (m (a + 3)).toNat_lt
  have hzero : (m (a + 1)).toNat = 0 := by omega
  exact UInt8.toNat_inj.mp hzero

/-- The copy loop of `wfs_unlink` meets the name exactly when lookup finds it in the
directory. A comparison never runs into the copy: a dentry that resolves has a zero byte
behind its name field. -/
theorem shrunk_found_iff (h : Rep s L) {path : Path} (hs : splitLast path = some (dp, name))
    (hfile : resolve s.data L path = .ok (some file))
    (hdir : resolve s.data L (parentPath dp) = .ok (some dir)) (hd : Found L dir d)
    (hisDir : d.isDir) :
    (shrunk env s dir d name).2 = true ↔ lookupDentry s.data dir name ≠ none := by
  have hupper := hd.upper h
  have he := hd.entryAt h
  have hagree : AgreeOn (headerImage (env.time 0) s d) s.data 0 s.head :=
    fun x _ hx => headerImage_outside (Or.inl hx)
  have hchild := resolve_child hs hdir
  rw [hfile] at hchild
  have hlook : lookupDentry s.data dir name = findDentry s.data name
      (dir + 44 + d.bytes.length) ((d.bytes.length + 39) / 40) (dir + 44) := by
    rw [lookupDentry, he.size_eq]
  by_cases hname : name = []
  · subst hname
    rw [hlook]
    cases hfind : findDentry s.data [] (dir + 44 + d.bytes.length)
        ((d.bytes.length + 39) / 40) (dir + 44) with
    | none =>
      rw [shrunk, copyDentries_misses hfind (by simpa using hupper) (by omega) hagree]
      simp
    | some b =>
      have hb := (findDentry_some hfind).1
      rw [shrunk, copyDentries_meets hfind (by simp; omega) (by omega) hagree]
      simp
  · rw [if_neg hname] at hchild
    obtain ⟨b, e, hlb, hl, _⟩ := walkLog_single hchild.symm
    have hsmall : loadLong s.data (b + 32) % 4294967296 < 256 := by
      obtain ⟨hn, pre, post, hL, _⟩ := lastAt_some hl
      rw [← hn]
      exact h.numbers e (by simp [hL])
    have hinside := lookupDentry_inside he (h.dirs d hd.mem hisDir) hlb
    rw [hlook] at hlb ⊢
    have hzero : s.data (b + 33) = 0 := loadLong_small hsmall
    have hlen := strEq_length_le (findDentry_some hlb).2.1 (splitLast_clean hs) hzero
    rw [shrunk, copyDentries_meets hlb (by omega) (by omega) hagree]
    simp [hlb]

end Found

/-- The live last entry of a number. -/
def entryOf (L : List Entry) (i : ℕ) : Option (ℕ × Entry) :=
  match lastAt L 8 i with
  | some (a, e) => if e.inode.deleted = 0 then some (a, e) else none
  | none => none

section EntryOf

variable {L : List Entry} {i a : ℕ} {e x : Entry}

theorem entryOf_found (h : entryOf L i = some (a, e)) : Found L a e ∧ e.number = i := by
  rw [entryOf] at h
  split at h
  next b d hl =>
    split_ifs at h with hlive
    cases h
    have hn := (lastAt_some hl).1
    exact ⟨⟨hn ▸ hl, hlive⟩, hn⟩
  next => cases h

theorem entryOf_none (h : entryOf L i = none) : table L i = 0 := by
  rw [entryOf] at h
  rw [table_eq]
  cases hl : lastAt L 8 i with
  | none => rfl
  | some r =>
    rw [hl] at h
    dsimp only at h ⊢
    split_ifs at h with hlive
    exact if_neg hlive

theorem entryOf_table (h : entryOf L i = some (a, e)) : table L i = a := by
  obtain ⟨hf, hn⟩ := entryOf_found h
  have hl := hf.last
  rw [hn] at hl
  rw [table_eq, hl]
  exact if_pos hf.live

theorem entryOf_concat : entryOf (L ++ [x]) i =
    if x.number = i then if x.inode.deleted = 0 then some (8 + spans L, x) else none
    else entryOf L i := by
  rw [entryOf, lastAt_concat]
  by_cases hn : x.number = i
  · rw [if_pos hn, if_pos hn]
  · rw [if_neg hn, if_neg hn, entryOf]

end EntryOf

/-- What lookup returns, a fault counting as nothing. -/
def located (s : Wfs) (path : List UInt8) : Option ℕ :=
  match get_path_inode s path with
  | .ok (_, r) => r
  | .error _ => none

/-- The directory a creation or an unlink works on, and the name behind the last slash. -/
def parentDir (s : Wfs) (path : List UInt8) : Option (ℕ × List UInt8) :=
  match splitLast path with
  | none => none
  | some (dp, name) =>
    match located s (parentPath dp) with
    | none => none
    | some dir => if isDir s.data dir then some (dir, name) else none

def fileSize (s : Wfs) (a : ℕ) : ℕ := loadWord s.data (a + 24)

def createLength (s : Wfs) (path : List UInt8) : ℕ :=
  match parentDir s path with
  | none => 0
  | some (dir, _) => 128 + fileSize s dir

/-- The length of the entries a call appends when it has the space. -/
def appended (s : Wfs) : Call → ℕ
  | .mknod path => createLength s path
  | .mkdir path => createLength s path
  | .write path buf offset =>
    match located s path with
    | none => 0
    | some a =>
      if isDir s.data a ∨ offset > fileSize s a then 0
      else 44 + max (fileSize s a) (offset + buf.length)
  | .unlink path =>
    match located s path, parentDir s path with
    | some _, some (dir, name) =>
      if (lookupDentry s.data dir name).isSome then 44 + (fileSize s dir - 40) else 0
    | _, _ => 0
  | _ => 0

/-- The space test in front of the append turns the call away. -/
def refused (s : Wfs) : Call → Bool
  | .mknod _ => decide (s.head + 44 > s.total_size)
  | .mkdir _ => decide (s.head + 44 > s.total_size)
  | .write path buf _ =>
    match located s path with
    | none => false
    | some a => decide (s.head + 44 + fileSize s a + buf.length > s.total_size)
  | _ => false

/-- The head is a 32-bit offset, and what the call appends leaves it one. -/
def Roomy (s : Wfs) (call : Call) : Prop :=
  refused s call = false → s.head + appended s call < 4294967296

section Handlers

variable {env : Env} {s : Wfs} {L : List Entry} {path : List UInt8}

theorem located_rep (h : Rep s L) (path : List UInt8) : located s path =
    match resolve s.data L path with
    | .ok r => r
    | .error _ => none := by
  rw [located, get_path_inode_rep h]
  cases resolve s.data L path <;> rfl

theorem located_of_resolve (h : Rep s L) {r : Option ℕ} (hr : resolve s.data L path = .ok r) :
    located s path = r := by
  rw [located_rep h, hr]

theorem parentDir_of_resolve (h : Rep s L) {dp name : List UInt8} {dir : ℕ}
    (hs : splitLast path = some (dp, name))
    (hr : resolve s.data L (parentPath dp) = .ok (some dir)) (hd : isDir s.data dir = true) :
    parentDir s path = some (dir, name) := by
  rw [parentDir, hs]
  dsimp only
  rw [located_of_resolve h hr]
  simp [hd]

theorem parentDir_of_resolve_none (h : Rep s L) {dp name : List UInt8}
    (hs : splitLast path = some (dp, name))
    (hr : resolve s.data L (parentPath dp) = .ok none) : parentDir s path = none := by
  rw [parentDir, hs]
  dsimp only
  rw [located_of_resolve h hr]

theorem parentDir_of_file (h : Rep s L) {dp name : List UInt8} {dir : ℕ}
    (hs : splitLast path = some (dp, name))
    (hr : resolve s.data L (parentPath dp) = .ok (some dir)) (hd : isDir s.data dir = false) :
    parentDir s path = none := by
  rw [parentDir, hs]
  dsimp only
  rw [located_of_resolve h hr]
  simp [hd]

theorem parentDir_of_no_slash (hs : splitLast path = none) : parentDir s path = none := by
  rw [parentDir, hs]

theorem get_path_inode_sync (h : Rep s L) (path : List UInt8) :
    get_path_inode (sync s L) path =
      match resolve s.data L path with
      | .error f => .error f
      | .ok r => .ok (sync s L, r) := by
  have hrep := get_path_inode_rep h.sync path
  rw [sync_sync, sync_data] at hrep
  exact hrep

/-- The test for an existing path compares with the deleted flag and never fires. -/
theorem create_rep (h : Rep s L) (mode : ℕ) : create env s path mode =
    match resolve s.data L path with
    | .error f => .error f
    | .ok _ =>
      match splitLast path with
      | none => .ok (sync s L, -ENOENT)
      | some (dp, name) =>
        match resolve s.data L (parentPath dp) with
        | .error f => .error f
        | .ok none => .ok (sync s L, -ENOENT)
        | .ok (some dir) =>
          if isDir s.data dir = false then .ok (sync s L, -ENOENT)
          else if s.head + 44 > s.total_size then .ok (sync s L, -ENOSPC)
          else appendNode env (sync s L) dir name mode := by
  rw [create, get_path_inode_rep h]
  cases hr : resolve s.data L path with
  | error f => rfl
  | ok r =>
    have hlive : (r.any fun a => loadWord (sync s L).data (a + 4) ≠ 0) = false := by
      cases r with
      | none => rfl
      | some a =>
        obtain ⟨e, hf⟩ := resolve_found hr
        simp [(hf.entryAt h).deleted_eq, hf.live]
    dsimp only
    rw [hlive, if_neg Bool.false_ne_true]
    cases splitLast path with
    | none => rfl
    | some q =>
      obtain ⟨dp, name⟩ := q
      dsimp only
      rw [get_path_inode_sync h]
      cases resolve s.data L (parentPath dp) with
      | error f => rfl
      | ok o => cases o <;> rfl

theorem read_rep (h : Rep s L) (size offset : ℕ) : wfs_read env s path size offset =
    match resolve s.data L path with
    | .error f => .error f
    | .ok none => .ok (sync s L, -ENOENT, [])
    | .ok (some a) =>
      let fileSize := loadWord s.data (a + 24)
      if isDir s.data a then .ok (sync s L, -1, [])
      else if offset ≥ fileSize then .ok (sync s L, 0, [])
      else
        let actual_size := if offset + size > fileSize then fileSize - offset else size
        let buf := loadBytes s.data (a + 44 + offset) actual_size
        .ok ({ sync s L with data := storeWord s.data (a + 28) (env.time 0) },
          intOfSize actual_size, buf) := by
  rw [wfs_read, get_path_inode_rep h]
  cases resolve s.data L path with
  | error f => rfl
  | ok r => cases r <;> rfl

theorem write_rep (h : Rep s L) (buf : List UInt8) (offset : ℕ) :
    wfs_write env s path buf offset =
      match resolve s.data L path with
      | .error f => .error f
      | .ok none => .ok (sync s L, -ENOENT)
      | .ok (some a) =>
        if isDir s.data a then .ok (sync s L, -1)
        else if offset > loadWord s.data (a + 24) then .ok (sync s L, -EFBIG)
        else .ok (appendWrite env (sync s L) a buf offset) := by
  rw [wfs_write, get_path_inode_rep h]
  cases resolve s.data L path with
  | error f => rfl
  | ok r => cases r <;> rfl

theorem unlink_rep (h : Rep s L) : wfs_unlink env s path =
    match resolve s.data L path with
    | .error f => .error f
    | .ok none => .ok (sync s L, -ENOENT)
    | .ok (some file) =>
      match splitLast path with
      | none => .ok (sync s L, -ENOENT)
      | some (dp, name) =>
        match resolve s.data L (parentPath dp) with
        | .error f => .error f
        | .ok none => .ok (sync s L, -ENOENT)
        | .ok (some dir) =>
          if isDir s.data dir = false then .ok (sync s L, -ENOENT)
          else .ok (removeDentry env (sync s L) file dir name) := by
  rw [wfs_unlink, get_path_inode_rep h]
  cases resolve s.data L path with
  | error f => rfl
  | ok r =>
    cases r with
    | none => rfl
    | some file =>
      dsimp only
      cases splitLast path with
      | none => rfl
      | some q =>
        obtain ⟨dp, name⟩ := q
        dsimp only
        rw [get_path_inode_sync h]
        cases resolve s.data L (parentPath dp) with
        | error f => rfl
        | ok o => cases o <;> rfl

end Handlers

/-- Path and mode of the node a call creates. -/
def creates : Call → Option (Path × ℕ)
  | .mknod path => some (path, S_IFREG)
  | .mkdir path => some (path, S_IFDIR)
  | _ => none

/-- The parent of `path` is the directory `d` at `dir`. -/
structure InDir (s : Wfs) (L : List Entry) (path name : List UInt8) (dir : ℕ) (d : Entry) :
    Prop where
  split : ∃ dp, splitLast path = some (dp, name) ∧
    resolve s.data L (parentPath dp) = .ok (some dir)
  found : Found L dir d
  isDir : d.isDir

def touchInode (t : ℕ) (i : Inode) : Inode := { i with atime := t % 4294967296 }

def deleteInode (i : Inode) : Inode := { i with deleted := 1 }

/-- What a call that returns can do. -/
inductive Change (env : Env) (s : Wfs) (L : List Entry) : Call → ℤ → Wfs → List Entry → Prop
  | quiet {call : Call} {ret : ℤ} :
      appended s call = 0 ∨ ret = -ENOSPC ∧ s.head + 44 > s.total_size →
      ((creates call).isSome → ret < 0) → Change env s L call ret (sync s L) L
  | touched {path : Path} {size offset a : ℕ} {f : Entry} {ret : ℤ} :
      resolve s.data L path = .ok (some a) → Found L a f → f.isDir = false →
      Change env s L (.read path size offset) ret
        { sync s L with data := storeWord s.data (a + 28) (env.time 0) }
        (modifyAt (touchInode (env.time 0)) a L 8)
  | created {call : Call} {path : Path} {name : List UInt8} {mode dir : ℕ} {d : Entry}
      {r : Option ℕ} :
      creates call = some (path, mode) → resolve s.data L path = .ok r →
      InDir s L path name dir d → s.head + 44 ≤ s.total_size → nodeNumber (sync s L) d < 256 →
      Change env s L call 0
        { sync s L with
          data := nodeImage env (sync s L) d name mode
          all_le := Function.update (table L) (nodeNumber (sync s L) d)
            (s.head + 84 + d.bytes.length) }
        (L ++ [dirEntry (env.time 0) d
            (d.bytes ++ nameField name ++ leBytes 8 (nodeNumber (sync s L) d)),
          nodeEntry env (nodeNumber (sync s L) d) mode])
  | headed {path : Path} {buf : List UInt8} {offset a : ℕ} {f : Entry} :
      resolve s.data L path = .ok (some a) → Found L a f → f.isDir = false →
      offset ≤ f.bytes.length →
      s.head + 44 + f.bytes.length + buf.length > s.total_size →
      Change env s L (.write path buf offset) (-ENOSPC)
        { sync s L with data := headerImage (env.time 0) (sync s L) f } L
  | written {path : Path} {buf : List UInt8} {offset a : ℕ} {f : Entry} :
      resolve s.data L path = .ok (some a) → Found L a f → f.isDir = false →
      offset ≤ f.bytes.length →
      s.head + 44 + f.bytes.length + buf.length ≤ s.total_size →
      Change env s L (.write path buf offset) (intOfSize buf.length)
        { sync s L with data := writeImage env (sync s L) f buf offset }
        (L ++ [fileEntry env f buf offset])
  | missed {path : Path} {name : List UInt8} {file dir : ℕ} {e d : Entry} :
      resolve s.data L path = .ok (some file) → Found L file e → InDir s L path name dir d →
      (shrunk env (sync s L) dir d name).2 = false →
      Change env s L (.unlink path) (-ENOENT)
        { sync s L with data := (shrunk env (sync s L) dir d name).1 } L
  | unlinked {path : Path} {name : List UInt8} {file dir : ℕ} {e d : Entry} :
      resolve s.data L path = .ok (some file) → Found L file e → InDir s L path name dir d →
      (shrunk env (sync s L) dir d name).2 = true →
      Change env s L (.unlink path) 0
        { sync s L with
          data := unlinkImage env (sync s L) file dir d name
          all_le := Function.update (table L) e.number 0 }
        (modifyAt deleteInode file L 8 ++
          [dirEntry (env.time 0) d (shrunkBytes env (sync s L) dir d name)])

section Step

variable {env : Env} {s s' : Wfs} {L L' : List Entry} {call : Call} {ret : ℤ}

theorem InDir.clean {path : Path} {name : List UInt8} {dir : ℕ} {d : Entry}
    (hin : InDir s L path name dir d) : (0 : UInt8) ∉ name := by
  obtain ⟨dp, hs, _⟩ := hin.split
  exact splitLast_clean hs

theorem InDir.parentDir_eq {path name : List UInt8} {dir : ℕ} {d : Entry}
    (hin : InDir s L path name dir d) (h : Rep s L) : parentDir s path = some (dir, name) := by
  obtain ⟨dp, hs, hdir⟩ := hin.split
  exact parentDir_of_resolve h hs hdir ((hin.found.entryAt h).isDir_eq ▸ hin.isDir)

theorem appended_create {path : Path} {name : List UInt8} {mode dir : ℕ} {d : Entry} (h : Rep s L)
    (hc : creates call = some (path, mode)) (hin : InDir s L path name dir d) :
    appended s call = 128 + d.bytes.length := by
  have hlen : createLength s path = 128 + d.bytes.length := by
    rw [createLength, hin.parentDir_eq h]
    simp only [fileSize, (hin.found.entryAt h).size_eq]
  cases call <;> simp only [creates, Option.some.injEq, Prod.mk.injEq, reduceCtorEq] at hc
  · obtain ⟨rfl, _⟩ := hc
    exact hlen
  · obtain ⟨rfl, _⟩ := hc
    exact hlen

theorem appended_create_zero {path : Path} {mode : ℕ} (hc : creates call = some (path, mode))
    (hp : parentDir s path = none) : appended s call = 0 := by
  have hlen : createLength s path = 0 := by rw [createLength, hp]
  cases call <;> simp only [creates, Option.some.injEq, Prod.mk.injEq, reduceCtorEq] at hc
  · obtain ⟨rfl, _⟩ := hc
    exact hlen
  · obtain ⟨rfl, _⟩ := hc
    exact hlen

theorem appended_unlink_zero {path : Path} (hp : parentDir s path = none) :
    appended s (.unlink path) = 0 := by
  simp only [appended, hp]
  cases located s path <;> rfl

theorem appended_write {path : Path} {buf : List UInt8} {offset a : ℕ} {f : Entry} (h : Rep s L)
    (hres : resolve s.data L path = .ok (some a)) (hf : Found L a f) (hfile : f.isDir = false)
    (hoff : offset ≤ f.bytes.length) :
    appended s (.write path buf offset) = 44 + (splice f.bytes offset buf).length := by
  have he := hf.entryAt h
  simp only [appended, located_of_resolve h hres, fileSize, he.size_eq, he.isDir_eq]
  rw [if_neg (by simp [hfile, hoff]), splice_length _ hoff]

theorem appended_unlink {path : Path} {name : List UInt8} {file dir : ℕ} {d : Entry} (h : Rep s L)
    (hres : resolve s.data L path = .ok (some file)) (hin : InDir s L path name dir d) :
    appended s (.unlink path) =
      if (lookupDentry s.data dir name).isSome then 44 + (d.bytes.length - 40) else 0 := by
  simp only [appended, located_of_resolve h hres, hin.parentDir_eq h, fileSize,
    (hin.found.entryAt h).size_eq]

theorem Roomy.created {path : Path} {name : List UInt8} {mode dir : ℕ} {d : Entry}
    (hroom : Roomy s call) (h : Rep s L) (hc : creates call = some (path, mode))
    (hin : InDir s L path name dir d) (hspace : s.head + 44 ≤ s.total_size) :
    s.head + 128 + d.bytes.length < 4294967296 := by
  have hopen : refused s call = false := by
    cases call <;> simp only [creates, reduceCtorEq] at hc
    · exact decide_eq_false (not_lt.mpr hspace)
    · exact decide_eq_false (not_lt.mpr hspace)
  have hlt := hroom hopen
  rw [appended_create h hc hin] at hlt
  omega

theorem Roomy.written {path : Path} {buf : List UInt8} {offset a : ℕ} {f : Entry}
    (hroom : Roomy s (.write path buf offset)) (h : Rep s L)
    (hres : resolve s.data L path = .ok (some a)) (hf : Found L a f) (hfile : f.isDir = false)
    (hoff : offset ≤ f.bytes.length)
    (hspace : s.head + 44 + f.bytes.length + buf.length ≤ s.total_size) :
    s.head + 44 + (splice f.bytes offset buf).length < 4294967296 := by
  have hopen : refused s (.write path buf offset) = false := by
    simp only [refused, located_of_resolve h hres, fileSize, (hf.entryAt h).size_eq]
    exact decide_eq_false (not_lt.mpr hspace)
  have hlt := hroom hopen
  rw [appended_write h hres hf hfile hoff] at hlt
  omega

theorem InDir.shrunk_iff {path : Path} {name : List UInt8} {file dir : ℕ} {d : Entry}
    (hin : InDir s L path name dir d) (h : Rep s L)
    (hres : resolve s.data L path = .ok (some file)) :
    (shrunk env (sync s L) dir d name).2 = true ↔ (lookupDentry s.data dir name).isSome := by
  obtain ⟨dp, hs, hdir⟩ := hin.split
  rw [shrunk_found_iff h.sync hs hres hdir hin.found hin.isDir, sync_data,
    Option.isSome_iff_ne_none]

theorem Roomy.unlinked {path : Path} {name : List UInt8} {file dir : ℕ} {d : Entry}
    (hroom : Roomy s (.unlink path)) (h : Rep s L)
    (hres : resolve s.data L path = .ok (some file)) (hin : InDir s L path name dir d)
    (hfound : (shrunk env (sync s L) dir d name).2 = true) :
    s.head + 44 + (d.bytes.length - 40) < 4294967296 := by
  have hlt := hroom rfl
  rw [appended_unlink h hres hin, if_pos ((hin.shrunk_iff h hres).mp hfound)] at hlt
  omega

theorem create_change {path : Path} {mode : ℕ} (h : Rep s L) (hroom : Roomy s call)
    (hc : creates call = some (path, mode)) (hr : create env s path mode = .ok (s', ret)) :
    ∃ L', Change env s L call ret s' L' := by
  rw [create_rep h] at hr
  split at hr
  next => cases hr
  next r hres =>
    split at hr
    next hs =>
      cases hr
      exact ⟨L, .quiet (Or.inl (appended_create_zero hc (parentDir_of_no_slash hs))) fun _ => by decide⟩
    next dp name hs =>
      split at hr
      next => cases hr
      next hdir =>
        cases hr
        exact ⟨L, .quiet (Or.inl (appended_create_zero hc (parentDir_of_resolve_none h hs hdir)))
          fun _ => by decide⟩
      next dir hdir =>
        obtain ⟨d, hd⟩ := resolve_found hdir
        have he := hd.entryAt h
        have hisDir := he.isDir_eq
        split_ifs at hr with hfile hspace
        · cases hr
          exact ⟨L, .quiet (Or.inl (appended_create_zero hc (parentDir_of_file h hs hdir hfile)))
            fun _ => by decide⟩
        · cases hr
          exact ⟨L, .quiet (Or.inr ⟨rfl, hspace⟩) fun _ => by decide⟩
        · have hin : InDir s L path name dir d :=
            ⟨⟨dp, hs, hdir⟩, hd, by rw [← hisDir]; simpa using hfile⟩
          have hfit := hroom.created h hc hin (not_lt.mp hspace)
          have hup := hd.upper h
          have hentry : EntryAt (sync s L).data dir d := he
          rw [appendNode_eq hentry (hd.lower h) (by rw [sync_head, Entry.span]; omega)
            (by rw [sync_head]; omega)] at hr
          split_ifs at hr with hnum
          cases hr
          exact ⟨_, .created hc hres hin (by omega) hnum⟩

theorem read_change {path : Path} {size offset : ℕ} {buf : List UInt8} (h : Rep s L)
    (hr : wfs_read env s path size offset = .ok (s', ret, buf)) :
    ∃ L', Change env s L (.read path size offset) ret s' L' := by
  rw [read_rep h] at hr
  split at hr
  next => cases hr
  next =>
    cases hr
    exact ⟨L, .quiet (Or.inl rfl) (by simp [creates])⟩
  next a hres =>
    obtain ⟨f, hf⟩ := resolve_found hres
    have hisDir := (hf.entryAt h).isDir_eq
    dsimp only at hr
    split_ifs at hr with hdir
    · cases hr
      exact ⟨L, .quiet (Or.inl rfl) (by simp [creates])⟩
    · cases hr
      exact ⟨L, .quiet (Or.inl rfl) (by simp [creates])⟩
    all_goals
      simp only [Except.ok.injEq, Prod.mk.injEq] at hr
      obtain ⟨rfl, -, -⟩ := hr
      exact ⟨_, .touched hres hf (by rw [← hisDir]; simpa using hdir)⟩

theorem write_change {path : Path} {buf : List UInt8} {offset : ℕ} (h : Rep s L)
    (hroom : Roomy s (.write path buf offset))
    (hr : wfs_write env s path buf offset = .ok (s', ret)) :
    ∃ L', Change env s L (.write path buf offset) ret s' L' := by
  rw [write_rep h] at hr
  split at hr
  next => cases hr
  next hres =>
    cases hr
    exact ⟨L, .quiet (Or.inl (by simp only [appended, located_of_resolve h hres])) (by simp [creates])⟩
  next a hres =>
    obtain ⟨f, hf⟩ := resolve_found hres
    have he := hf.entryAt h
    split_ifs at hr with hdir hoff
    · cases hr
      exact ⟨L, .quiet (Or.inl (by
        simp only [appended, located_of_resolve h hres, hdir, true_or, if_true])) (by simp [creates])⟩
    · cases hr
      exact ⟨L, .quiet (Or.inl (by
        simp only [appended, located_of_resolve h hres, fileSize, hoff, or_true, if_true]))
          (by simp [creates])⟩
    · rw [he.size_eq, not_lt] at hoff
      have hfile : f.isDir = false := by
        rw [← he.isDir_eq]
        simpa using hdir
      have hup := hf.upper h
      have hentry : EntryAt (sync s L).data a f := he
      rw [appendWrite_eq hentry (hf.lower h) (by rw [sync_head, Entry.span]; omega) hoff
        (hroom.written h hres hf hfile hoff), sync_head, sync_total] at hr
      split_ifs at hr with hspace
      · cases hr
        exact ⟨L, .headed hres hf hfile hoff hspace⟩
      · cases hr
        exact ⟨_, .written hres hf hfile hoff (by omega)⟩

theorem unlink_change {path : Path} (h : Rep s L) (hroom : Roomy s (.unlink path))
    (hr : wfs_unlink env s path = .ok (s', ret)) :
    ∃ L', Change env s L (.unlink path) ret s' L' ∧ (appended s (.unlink path) = 0 → ret < 0) := by
  rw [unlink_rep h] at hr
  split at hr
  next => cases hr
  next hres =>
    cases hr
    exact ⟨L, .quiet (Or.inl (by simp only [appended, located_of_resolve h hres]))
      (by simp [creates]), fun _ => by decide⟩
  next file hres =>
    split at hr
    next hs =>
      cases hr
      exact ⟨L, .quiet (Or.inl (appended_unlink_zero (parentDir_of_no_slash hs)))
        (by simp [creates]), fun _ => by decide⟩
    next dp name hs =>
      split at hr
      next => cases hr
      next hdir =>
        cases hr
        exact ⟨L, .quiet (Or.inl (appended_unlink_zero (parentDir_of_resolve_none h hs hdir)))
          (by simp [creates]), fun _ => by decide⟩
      next dir hdir =>
        obtain ⟨d, hd⟩ := resolve_found hdir
        obtain ⟨e, hf⟩ := resolve_found hres
        have hed := hd.entryAt h
        split_ifs at hr with hfile
        · cases hr
          exact ⟨L, .quiet (Or.inl (appended_unlink_zero (parentDir_of_file h hs hdir hfile)))
            (by simp [creates]), fun _ => by decide⟩
        · have hin : InDir s L path name dir d :=
            ⟨⟨dp, hs, hdir⟩, hd, by rw [← hed.isDir_eq]; simpa using hfile⟩
          have hup := hd.upper h
          have hfup := hf.upper h
          have hroom' : (shrunk env (sync s L) dir d name).2 = true →
              s.head + 44 + (d.bytes.length - 40) < 4294967296 := hroom.unlinked h hres hin
          have hentry : EntryAt (sync s L).data dir d := hed
          have hfentry : EntryAt (sync s L).data file e := hf.entryAt h.sync
          rw [removeDentry_eq hentry (by rw [sync_head, Entry.span]; omega) hfentry
            (hf.lower h) (by rw [sync_head, Entry.span]; omega) (h.dirs d hd.mem hin.isDir)
            hroom'] at hr
          split_ifs at hr with hfound
          · cases hr
            refine ⟨_, .unlinked hres hf hin hfound, fun hzero => ?_⟩
            rw [appended_unlink h hres hin, if_pos ((hin.shrunk_iff h hres).mp hfound)] at hzero
            omega
          · cases hr
            exact ⟨L, .missed hres hf hin (by simpa using hfound), fun _ => by decide⟩

theorem handle_change (h : Rep s L) (hroom : Roomy s call) {r : Reply}
    (hr : handle env s call = .ok (s', r)) : ∃ L', Change env s L call r.ret s' L' := by
  cases call with
  | getattr path =>
    simp only [handle, wfs_getattr, get_path_inode_rep h] at hr
    cases hres : resolve s.data L path with
    | error f => simp [hres] at hr
    | ok o =>
      cases o <;>
      · simp only [hres, Except.ok.injEq, Prod.mk.injEq] at hr
        obtain ⟨rfl, rfl⟩ := hr
        exact ⟨L, .quiet (Or.inl rfl) (by simp [creates])⟩
  | mknod path =>
    simp only [handle, plain, wfs_mknod] at hr
    split at hr
    next => cases hr
    next s'' ret' hc =>
      cases hr
      exact create_change h hroom rfl hc
  | mkdir path =>
    simp only [handle, plain, wfs_mkdir] at hr
    split at hr
    next => cases hr
    next s'' ret' hc =>
      cases hr
      exact create_change h hroom rfl hc
  | read path size offset =>
    simp only [handle] at hr
    split at hr
    next => cases hr
    next s'' ret' buf hc =>
      cases hr
      exact read_change h hc
  | write path buf offset =>
    simp only [handle, plain] at hr
    split at hr
    next => cases hr
    next s'' ret' hc =>
      cases hr
      exact write_change h hroom hc
  | readdir path full =>
    simp only [handle, wfs_readdir, get_path_inode_rep h] at hr
    cases hres : resolve s.data L path with
    | error f => simp [hres] at hr
    | ok o =>
      cases o with
      | none =>
        simp only [hres, Except.ok.injEq, Prod.mk.injEq] at hr
        obtain ⟨rfl, rfl⟩ := hr
        exact ⟨L, .quiet (Or.inl rfl) (by simp [creates])⟩
      | some a =>
        simp only [hres] at hr
        by_cases hd : isDir (sync s L).data a = false <;>
        · simp only [hd, if_true, Except.ok.injEq, Prod.mk.injEq] at hr
          obtain ⟨rfl, rfl⟩ := hr
          exact ⟨L, .quiet (Or.inl rfl) (by simp [creates])⟩
  | unlink path =>
    simp only [handle, plain] at hr
    split at hr
    next => cases hr
    next s'' ret' hc =>
      cases hr
      obtain ⟨L', hchange, _⟩ := unlink_change h hroom hc
      exact ⟨L', hchange⟩

/-- Entries appended behind an unchanged log. -/
theorem rep_extend (h : Rep s L) {m : Mem} {t : ℕ → ℕ} {es : List Entry}
    (hm : AgreeOn s.data m 8 s.head) (ht : Tiled m s.head es (loadWord m 4))
    (hnum : ∀ e ∈ es, e.number < 256) (hdirs : ∀ e ∈ es, e.isDir → 40 ∣ e.bytes.length)
    (habs : ∀ n, (∀ e ∈ L ++ es, e.number ≠ n) → t n = 0) :
    Rep { s with data := m, all_le := t } (L ++ es) := by
  have hend := h.tiled.end_eq
  refine ⟨?_, ?_, ?_, habs⟩
  · rw [tiled_append, ← hend]
    exact ⟨h.tiled.congr hm, ht⟩
  · intro e he
    rcases List.mem_append.mp he with he | he
    · exact h.numbers e he
    · exact hnum e he
  · intro e he
    rcases List.mem_append.mp he with he | he
    · exact h.dirs e he
    · exact hdirs e he

/-- One inode changed in place. -/
theorem rep_modify (h : Rep s L) {m : Mem} {f : Inode → Inode} {a : ℕ} {e : Entry}
    (hf : Found L a e) (hnum : ∀ i, (f i).inode_number = i.inode_number)
    (hsize : ∀ i, (f i).size = i.size) (hmode : ∀ i, (f i).mode = i.mode)
    (hi : loadInode m a = f (loadInode s.data a))
    (hm : ∀ x, 4 ≤ x → x < s.head → x < a ∨ a + 44 ≤ x → m x = s.data x) :
    Rep { s with data := m } (modifyAt f a L 8) := by
  have hlo := hf.lower h
  have hup := hf.upper h
  have hhead : loadWord m 4 = s.head := loadWord_congr fun x _ _ => hm x (by omega) (by omega) (by omega)
  obtain ⟨_, pre, post, rfl, ha, _⟩ := lastAt_some hf.last
  refine ⟨?_, ?_, ?_, ?_⟩
  · rw [Wfs.head, hhead]
    exact tiled_modifyAt h.tiled ha hsize hi fun x hx hx' hxa => hm x (by omega) hx' hxa
  · intro x hx
    obtain ⟨y, hy, hxy⟩ := mem_modifyAt hx
    rcases hxy with rfl | rfl
    · exact h.numbers _ hy
    · rw [Entry.number, hnum]
      exact h.numbers y hy
  · intro x hx hdir
    obtain ⟨y, hy, hxy⟩ := mem_modifyAt hx
    rcases hxy with rfl | rfl
    · exact h.dirs _ hy hdir
    · rw [Entry.isDir, hmode] at hdir
      exact h.dirs y hy hdir
  · intro n hn
    refine h.absent n fun y hy => ?_
    obtain ⟨x, hx, hxy⟩ := mem_modifyAt_number hnum hy
    exact hxy ▸ hn x hx

theorem creates_mode {path : Path} {mode : ℕ} (hc : creates call = some (path, mode)) :
    mode < 4294967296 := by
  cases call <;> simp only [creates, Option.some.injEq, Prod.mk.injEq, reduceCtorEq] at hc
  · exact hc.2 ▸ (by decide)
  · exact hc.2 ▸ (by decide)

theorem nodeImage_rep {dir mode a : ℕ} {d : Entry} {name : List UInt8} (h : Rep s L)
    (hd : Found L dir d) (hisDir : d.isDir) (hmode : mode < 4294967296)
    (hroom : s.head + 128 + d.bytes.length < 4294967296) (hnumber : nodeNumber s d < 256) :
    Rep { s with
      data := nodeImage env s d name mode
      all_le := Function.update s.all_le (nodeNumber s d) a }
      (L ++ [dirEntry (env.time 0) d (d.bytes ++ nameField name ++ leBytes 8 (nodeNumber s d)),
        nodeEntry env (nodeNumber s d) mode]) := by
  have hh := h.eight_le
  have he := hd.entryAt h
  refine rep_extend h (fun x hx hx' => (nodeImage_frame (by omega) hh).symm)
    ⟨nodeImage_dir he hh hroom, ?_, ?_⟩ ?_ ?_ fun n hn => ?_
  · have hspan : s.head + (dirEntry (env.time 0) d (d.bytes ++ nameField name ++
        leBytes 8 (nodeNumber s d))).span = s.head + 84 + d.bytes.length := by
      simp only [Entry.span, dirEntry, List.length_append, nameField_length, leBytes_length]
      omega
    rw [hspan]
    exact nodeImage_node hh hmode
  · simp only [Tiled, Entry.span, dirEntry, nodeEntry, List.length_append, nameField_length,
      leBytes_length, List.length_nil, nodeImage_head hh hroom]
    omega
  · rw [List.forall_mem_cons, List.forall_mem_singleton]
    exact ⟨h.numbers d hd.mem, hnumber⟩
  · rw [List.forall_mem_cons, List.forall_mem_singleton]
    refine ⟨fun _ => ?_, fun _ => dvd_zero 40⟩
    have hdvd := h.dirs d hd.mem hisDir
    simp only [dirEntry, List.length_append, nameField_length, leBytes_length]
    omega
  · have hne : n ≠ nodeNumber s d := fun heq => hn (nodeEntry env (nodeNumber s d) mode)
      (by simp) heq.symm
    rw [Function.update_of_ne hne]
    exact h.absent n fun e he => hn e (List.mem_append_left _ he)

theorem writeImage_rep {a offset : ℕ} {f : Entry} {buf : List UInt8} (h : Rep s L)
    (hf : Found L a f) (hfile : f.isDir = false) (hoff : offset ≤ f.bytes.length)
    (hroom : s.head + 44 + (splice f.bytes offset buf).length < 4294967296) :
    Rep { s with data := writeImage env s f buf offset } (L ++ [fileEntry env f buf offset]) := by
  have hh := h.eight_le
  refine rep_extend h (fun x hx hx' => (writeImage_frame hoff hh (by omega)).symm)
    ⟨writeImage_file (hf.entryAt h) hoff hh hroom, ?_⟩ ?_ ?_ fun n hn => ?_
  · simp only [Tiled, Entry.span, fileEntry, writeImage_head hroom]
    omega
  · rw [List.forall_mem_singleton]
    exact h.numbers f hf.mem
  · rw [List.forall_mem_singleton]
    intro hdir
    rw [fileEntry_isDir, hfile] at hdir
    cases hdir
  · exact h.absent n fun e he => hn e (List.mem_append_left _ he)

/-- Bytes behind the log do not matter. -/
theorem rep_scribble (h : Rep s L) {m : Mem} (hm : AgreeOn s.data m 4 s.head) :
    Rep { s with data := m } L := by
  have hh := h.eight_le
  have hhead : loadWord m 4 = s.head :=
    (loadWord_congr fun x hx hx' => hm x hx (by omega)).symm
  refine ⟨?_, h.numbers, h.dirs, h.absent⟩
  rw [Wfs.head, hhead]
  exact h.tiled.congr fun x hx hx' => hm x (by omega) hx'

theorem unlinkImage_rep {file dir : ℕ} {e d : Entry} {name : List UInt8} (h : Rep s L)
    (hf : Found L file e) (hd : Found L dir d) (hisDir : d.isDir)
    (hfound : (shrunk env s dir d name).2 = true)
    (hroom : s.head + 44 + (d.bytes.length - 40) < 4294967296) :
    Rep { s with
      data := unlinkImage env s file dir d name
      all_le := Function.update s.all_le e.number 0 }
      (modifyAt deleteInode file L 8 ++
        [dirEntry (env.time 0) d (shrunkBytes env s dir d name)]) := by
  have hh := h.eight_le
  have hlo := hf.lower h
  have hup := hf.upper h
  have hdvd := h.dirs d hd.mem hisDir
  have hmarked : Rep { s with data := storeWord s.data (file + 4) 1 }
      (modifyAt deleteInode file L 8) :=
    rep_modify h hf (fun _ => rfl) (fun _ => rfl) (fun _ => rfl) loadInode_storeWord_deleted
      fun x _ _ hx => storeWord_outside (by omega)
  have hhead : loadWord (storeWord s.data (file + 4) 1) 4 = s.head :=
    loadWord_storeWord_of_disjoint (by omega)
  have hlen : (shrunkBytes env s dir d name).length = d.bytes.length - 40 := loadBytes_length
  refine rep_extend hmarked ?_ ⟨?_, ?_⟩ ?_ ?_ fun n hn => ?_
  · intro x hx hx'
    rw [Wfs.head, hhead] at hx'
    dsimp only
    by_cases hxf : x < file + 4 ∨ file + 8 ≤ x
    · rw [storeWord_outside (by omega),
        unlinkImage_frame hfound hdvd hh (by omega) (by omega) hxf]
    · simp only [unlinkImage, storeWord, storeBytes, leBytes_length]
      rw [if_pos (by omega), if_pos (by omega)]
  · rw [Wfs.head, hhead]
    exact unlinkImage_dir (hd.entryAt h) (by omega) hroom
  · simp only [Tiled, Wfs.head, hhead, Entry.span, dirEntry, hlen, unlinkImage_head hlo hroom]
    omega
  · rw [List.forall_mem_singleton]
    exact h.numbers d hd.mem
  · rw [List.forall_mem_singleton]
    intro _
    simp only [dirEntry, hlen]
    omega
  · by_cases hne : n = e.number
    · rw [hne, Function.update_self]
    · rw [Function.update_of_ne hne]
      exact hmarked.absent n fun x hx => hn x (List.mem_append_left _ hx)

theorem Change.rep (hc : Change env s L call ret s' L') (h : Rep s L) (hroom : Roomy s call) :
    Rep s' L' := by
  have hh := h.eight_le
  cases hc with
  | quiet hq hneg => exact h.sync
  | touched hres hf hfile =>
    exact rep_modify h.sync hf (fun _ => rfl) (fun _ => rfl) (fun _ => rfl)
      loadInode_storeWord_atime fun x _ _ hx => storeWord_outside (by omega)
  | created hcall hres hin hspace hnumber =>
    exact nodeImage_rep h.sync hin.found hin.isDir (creates_mode hcall)
      (hroom.created h hcall hin hspace) hnumber
  | headed hres hf hfile hoff hspace =>
    exact rep_scribble h.sync fun x hx hx' => (headerImage_outside (Or.inl hx')).symm
  | written hres hf hfile hoff hspace =>
    exact writeImage_rep h.sync hf hfile hoff (hroom.written h hres hf hfile hoff hspace)
  | missed hres hf hin hfound =>
    have hdvd := h.dirs _ hin.found.mem hin.isDir
    exact rep_scribble h.sync fun x hx hx' => (shrunk_outside hdvd (Or.inl hx')).symm
  | unlinked hres hf hin hfound =>
    exact unlinkImage_rep h.sync hf hin.found hin.isDir hfound (hroom.unlinked h hres hin hfound)

end Step

end WfsChange
