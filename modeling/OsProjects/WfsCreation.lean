import OsProjects.WfsDentries
import OsProjects.WfsResolution

/-! # What is created can be found

A creation copies the parent behind the head, with one record more. Lookup compares names in
full, the record holds 31 bytes of them.
-/
namespace WfsCreation

open ByteMemory WfsLookup WfsHandlers WfsLog WfsPaths WfsAppend WfsChange WfsRuns WfsScan
open WfsDentries WfsResolution

/-- The number the new node gets. -/
def freeNumber (s : Wfs) (path : List UInt8) : Option ℕ := firstFree (afterLookup s path).all_le

/-- A creation of a missing path in a live directory, with space and a free number. -/
structure Asked (s : Wfs) (e : Event) (path : Path) (mode dir : ℕ) (name : List UInt8) : Prop where
  call : creates e.call = some (path, mode)
  missing : located s path = none
  parent : parentDir s path = some (dir, name)
  named : name ≠ []
  number : freeNumber s path ≠ none
  space : s.head + 128 + fileSize s dir ≤ s.total_size

/-- The path leads to the entry that ends at the new head, an empty node of the mode. -/
def LeadsToNew (s s' : Wfs) (path : List UInt8) (mode : ℕ) : Prop :=
  ∃ a, located s' path = some a ∧ s.head ≤ a ∧ a + 44 = s'.head ∧
    loadWord s'.data (a + 8) = mode ∧ fileSize s' a = 0

/-- The number of the inode a path resolves to. -/
def numberAt (s : Wfs) (path : List UInt8) : Option ℕ :=
  (located s path).map fun a => loadWord s.data a

/-- What was asked for is found under its path, and the paths that resolved keep their inodes. -/
def CreationFound (s : Wfs) (e : Event) : Prop :=
  ∀ path mode dir name s' r, Asked s e path mode dir name →
    handle e.env s e.call = .ok (s', r) → r.ret = 0 →
    LeadsToNew s s' path mode ∧
      ∀ (q : Path) (k : ℕ), numberAt s q = some k → numberAt s' q = some k

/-- Either no record of the parent has the name, and it is short enough to be stored whole, or
the first one that has it names the new number already. -/
def NameFits (s : Wfs) (path : List UInt8) (dir : ℕ) (name : List UInt8) : Prop :=
  match lookupDentry s.data dir name with
  | none => name.length ≤ 31
  | some d => freeNumber s path = some (loadLong s.data (d + 32) % 4294967296)

/-- The records a walk uses lie below the head. -/
def Inside (s : Wfs) : List (List UInt8) → ℕ → Prop
  | [], _ => True
  | token :: rest, a => ∀ d s' b, lookupDentry s.data a token = some d →
      get_number_inode s (loadLong s.data (d + 32) % 4294967296) = .ok (s', some b) →
      d + 36 ≤ s.head ∧ Inside s rest b

/-- What is created has a name that fits, and no lookup reads a directory behind the end of the
log. -/
structure Findable (s : Wfs) (e : Event) : Prop where
  roomy : RoomyStep s e
  fits : ∀ path mode dir name, Asked s e path mode dir name → NameFits s path dir name
  inside : ∀ path mode dir name, Asked s e path mode dir name → ∀ q : Path, located s q ≠ none →
    ∀ s' root, get_number_inode s 0 = .ok (s', some root) → Inside s (strtok [] q) root

section Records

variable {m m' : Mem} {a b d n : ℕ} {token : List UInt8}

theorem strEq_shift (h : ∀ j ≤ token.length, m' (b + j) = m (a + j)) :
    strEq m' b token = strEq m a token := by
  induction token generalizing a b with
  | nil =>
    have h0 := h 0 le_rfl
    rw [Nat.add_zero, Nat.add_zero] at h0
    rw [strEq, strEq, h0]
  | cons c cs ih =>
    have h0 := h 0 (Nat.zero_le _)
    rw [Nat.add_zero, Nat.add_zero] at h0
    rw [strEq, strEq, h0, ih fun j hj => ?_]
    have hnext := h (j + 1) (by simpa using hj)
    rwa [Nat.add_comm j, ← Nat.add_assoc, ← Nat.add_assoc] at hnext

/-- Only the low four bytes of the number count. -/
theorem loadLong_mod : loadLong m a % 4294967296 = loadWord m a := by
  have hsplit : loadBytes m a 8 = loadBytes m a 4 ++ loadBytes m (a + 4) 4 :=
    @loadBytes_append m a 4 4
  have hfour : loadBytes m a 4 = [m a, m (a + 1), m (a + 2), m (a + 3)] := rfl
  have hlt : loadWord m a < 4294967296 := loadWord_lt
  rw [loadWord, hfour] at hlt
  rw [loadLong, loadWord, hsplit, hfour]
  simp only [List.cons_append, List.nil_append, leValue] at hlt ⊢
  omega

theorem loadWord_shift (h : ∀ j < 4, m' (b + j) = m (a + j)) : loadWord m' b = loadWord m a := by
  have hbytes : loadBytes m' b 4 = loadBytes m a 4 := by
    apply List.map_congr_left
    intro j hj
    exact h j (List.mem_range.mp hj)
  rw [loadWord, hbytes, loadWord]

/-- A record that can resolve has its name in front of a zero byte of the number. -/
theorem token_short (h : FirstDentry m a token d) (h0 : (0 : UInt8) ∉ token)
    (hn : loadLong m (d + 32) % 4294967296 < 256) : token.length ≤ 33 := by
  obtain ⟨i, rfl, _, hs, _⟩ := h
  exact strEq_length_le hs h0 (loadLong_small hn)

/-- A node read at another place, up to `n`, has the same first record with the name. -/
theorem firstDentry_shift (h : FirstDentry m a token d) (hshort : token.length ≤ 33)
    (hend : d + 36 ≤ a + n) (hsize : d < a + 44 + loadWord m' (b + 24))
    (hsame : ∀ j, 44 ≤ j → j < n → m' (b + j) = m (a + j)) :
    ∃ c, FirstDentry m' b token c ∧
      loadLong m' (c + 32) % 4294967296 = loadLong m (d + 32) % 4294967296 := by
  obtain ⟨i, rfl, hi, hs, hbefore⟩ := h
  have hcomp : ∀ j ≤ i, strEq m' (b + 44 + 40 * j) token = strEq m (a + 44 + 40 * j) token := by
    intro j hj
    refine strEq_shift fun x hx => ?_
    have hbyte := hsame (44 + 40 * j + x) (by omega) (by omega)
    rwa [← Nat.add_assoc, ← Nat.add_assoc, ← Nat.add_assoc, ← Nat.add_assoc] at hbyte
  refine ⟨b + 44 + 40 * i, ⟨i, rfl, by omega, by rw [hcomp i le_rfl, hs], fun j hj => ?_⟩, ?_⟩
  · rw [hcomp j (by omega)]
    exact hbefore j hj
  · rw [loadLong_mod, loadLong_mod]
    refine loadWord_shift fun x hx => ?_
    have hbyte := hsame (76 + 40 * i + x) (by omega) (by omega)
    rw [show b + 44 + 40 * i + 32 + x = b + (76 + 40 * i + x) by omega, hbyte]
    congr 1
    omega

end Records

/-- The log after a creation below the directory `d`. -/
def grown (env : Env) (s : Wfs) (L : List Entry) (d : Entry) (name : List UInt8) (mode : ℕ) :
    List Entry :=
  L ++ [dirEntry (env.time 0) d (d.bytes ++ nameField name ++ leBytes 8 (nodeNumber (sync s L) d)),
    nodeEntry env (nodeNumber (sync s L) d) mode]

/-- Where an entry is found after a creation in the directory at `dir`. -/
def moveTo (s : Wfs) (dir a : ℕ) : ℕ := if a = dir then s.head else a

section Grown

variable {env : Env} {s : Wfs} {L : List Entry} {name : List UInt8} {mode dir a b c k i : ℕ}
  {d e : Entry} {m' : Mem} {names : List (List UInt8)}

theorem lastAt_grown (h : Rep s L) : lastAt (grown env s L d name mode) 8 k =
    if nodeNumber (sync s L) d = k then
      some (s.head + 84 + d.bytes.length, nodeEntry env (nodeNumber (sync s L) d) mode)
    else if d.number = k then
      some (s.head, dirEntry (env.time 0) d
        (d.bytes ++ nameField name ++ leBytes 8 (nodeNumber (sync s L) d)))
    else lastAt L 8 k := by
  have hend := h.tiled.end_eq
  rw [grown, List.append_cons, lastAt_concat, lastAt_concat, nodeEntry_number, dirEntry_number,
    spans_append, spans_cons, spans_nil, ← hend]
  congr 3
  simp only [Entry.span, dirEntry, List.length_append, nameField_length, leBytes_length]
  omega

theorem found_number_ne (hf : Found L a e) (h : Rep s L) (hfree : firstFree (table L) = some i) :
    e.number ≠ i := by
  rintro rfl
  have hzero : table L e.number = 0 := by simpa using List.find?_some hfree
  have hlo := hf.lower h
  rw [table_eq, hf.last] at hzero
  simp only [hf.live, if_true] at hzero
  omega

theorem nodeNumber_free (hfree : firstFree (table L) = some i) : nodeNumber (sync s L) d = i := by
  rw [nodeNumber, sync_all_le, hfree]

/-- Live entries stay, the directory as its copy. -/
theorem found_grown (env : Env) (name : List UInt8) (mode : ℕ) (hf : Found L a e) (h : Rep s L)
    (hd : Found L dir d)
    (hfree : firstFree (table L) = some i) :
    ∃ x, Found (grown env s L d name mode) (moveTo s dir a) x ∧ x.number = e.number ∧
      x.isDir = e.isDir := by
  have hnew := found_number_ne hf h hfree
  rw [← nodeNumber_free (s := s) (d := d) hfree] at hnew
  by_cases ha : a = dir
  · subst ha
    obtain rfl := hf.unique hd h
    refine ⟨dirEntry (env.time 0) e (e.bytes ++ nameField name ++
      leBytes 8 (nodeNumber (sync s L) e)), ⟨?_, hf.live⟩, rfl, dirEntry_isDir _ _ _⟩
    rw [lastAt_grown h, dirEntry_number, if_neg hnew.symm, if_pos rfl, moveTo, if_pos rfl]
  · have hne : d.number ≠ e.number := fun heq => by
      have hlast := hf.last
      rw [← heq, hd.last, Option.some.injEq, Prod.mk.injEq] at hlast
      exact ha hlast.1.symm
    refine ⟨e, ⟨?_, hf.live⟩, rfl, rfl⟩
    rw [lastAt_grown h, if_neg hnew.symm, if_neg hne, moveTo, if_neg ha]
    exact hf.last

theorem entry_byte {m : Mem} (he : EntryAt m a e) (hk : k < e.bytes.length) :
    m (a + 44 + k) = e.bytes[k] :=
  (loadBytes_getElem (by simpa using hk)).symm.trans (List.getElem_of_eq he.bytes _)

/-- The copy has the bytes of the directory. -/
theorem copied_bytes (hd : EntryAt s.data dir d) (hcopy : EntryAt m' s.head e)
    (hpre : d.bytes <+: e.bytes) {j : ℕ} (hlo : 44 ≤ j) (hj : j < 44 + d.bytes.length) :
    m' (s.head + j) = s.data (dir + j) := by
  obtain ⟨k, rfl⟩ := Nat.exists_eq_add_of_le hlo
  have hk : k < d.bytes.length := by omega
  have hlen := hpre.length_le
  rw [← Nat.add_assoc, ← Nat.add_assoc, entry_byte hd hk, entry_byte hcopy (by omega)]
  exact (hpre.getElem hk).symm

theorem image_copy (env : Env) (name : List UInt8) (mode : ℕ) (h : Rep s L) (hd : Found L dir d)
    (hroom : s.head + 128 + d.bytes.length < 4294967296) :
    EntryAt (nodeImage env (sync s L) d name mode) s.head (dirEntry (env.time 0) d
      (d.bytes ++ nameField name ++ leBytes 8 (nodeNumber (sync s L) d))) :=
  nodeImage_dir (hd.entryAt h.sync) h.sync.eight_le hroom

/-- A record that a walk uses is found again, with the same number. -/
theorem record_kept (env : Env) (name : List UInt8) (mode : ℕ) (h : Rep s L) (hd : Found L dir d)
    (hisDir : d.isDir)
    (hroom : s.head + 128 + d.bytes.length < 4294967296) (hf : Found L a e) {token : List UInt8}
    (hrec : FirstDentry s.data a token b) (h0 : (0 : UInt8) ∉ token)
    (hn : loadLong s.data (b + 32) % 4294967296 < 256) (hin : b + 36 ≤ s.head) :
    ∃ c, FirstDentry (nodeImage env (sync s L) d name mode) (moveTo s dir a) token c ∧
      loadLong (nodeImage env (sync s L) d name mode) (c + 32) % 4294967296 =
        loadLong s.data (b + 32) % 4294967296 := by
  have hshort := token_short hrec h0 hn
  have hh := h.eight_le
  by_cases ha : a = dir
  · subst ha
    have hcopy := image_copy env name mode h hd hroom
    have hsize := (hd.entryAt h).size_eq
    have hwhole := h.dirs d hd.mem hisDir
    rw [moveTo, if_pos rfl]
    have hgrown := hcopy.size_eq
    simp only [dirEntry, List.length_append] at hgrown
    have hrec' := hrec
    obtain ⟨i, hi, hlt, _⟩ := hrec'
    refine firstDentry_shift (n := 44 + d.bytes.length) hrec hshort (by omega) (by omega)
      fun j hlo hj => ?_
    · exact copied_bytes (hd.entryAt h) hcopy (by simp [dirEntry, List.append_assoc]) hlo hj
  · have hup := hf.upper h
    have hlo := hf.lower h
    have hframe : ∀ x, 8 ≤ x → x < s.head →
        nodeImage env (sync s L) d name mode x = s.data x := fun x hx hx' =>
      nodeImage_frame (s := sync s L) (Or.inr (Or.inl ⟨hx, hx'⟩)) hh
    rw [moveTo, if_neg ha]
    have hsize : loadWord (nodeImage env (sync s L) d name mode) (a + 24) =
        loadWord s.data (a + 24) :=
      loadWord_congr fun x hx hx' => hframe x (by omega) (by omega)
    have hrec' := hrec
    obtain ⟨i, hi, hlt, _⟩ := hrec'
    exact firstDentry_shift (n := s.head - a) hrec hshort (by omega) (by omega)
      fun j _ hj => hframe (a + j) (by omega) (by omega)

theorem walk_kept (h : Rep s L) (hd : Found L dir d) (hisDir : d.isDir)
    (hroom : s.head + 128 + d.bytes.length < 4294967296) (hfree : firstFree (table L) = some i)
    (hf : Found L a e) (hwalk : walkLog s.data L names a = .ok (some c))
    (hclean : ∀ token ∈ names, (0 : UInt8) ∉ token) (hin : Inside s names a) :
    walkLog (nodeImage env (sync s L) d name mode) (grown env s L d name mode) names
      (moveTo s dir a) = .ok (some (moveTo s dir c)) := by
  induction names generalizing a e with
  | nil =>
    cases hwalk
    rfl
  | cons token rest ih =>
    rw [walkLog] at hwalk
    split at hwalk
    next => cases hwalk
    next b hb =>
      split at hwalk
      next => cases hwalk
      next q x hlast =>
        split_ifs at hwalk with hlive hend
        · have hx : Found L q x := ⟨(lastAt_some hlast).1 ▸ hlast, hlive⟩
          have hnumber : loadLong s.data (b + 32) % 4294967296 < 256 := by
            rw [← (lastAt_some hlast).1]
            exact h.numbers x hx.mem
          obtain ⟨hbelow, hrest⟩ := hin b (sync s L) q hb (by
            rw [get_number_inode_rep h, hlast]
            simp [hlive])
          obtain ⟨c', hrec, hsame⟩ := record_kept env name mode h hd
            hisDir hroom hf (lookupDentry_iff.mp hb) (hclean token List.mem_cons_self) hnumber hbelow
          obtain ⟨y, hy, hyn, _⟩ := found_grown env name mode hx h hd
            hfree
          have hlast' := hy.last
          rw [hyn, (lastAt_some hlast).1, ← hsame] at hlast'
          rw [walkLog, lookupDentry_iff.mpr hrec]
          simp only [hlast', hy.live, if_true]
          exact ih hx hwalk (fun t ht => hclean t (List.mem_cons_of_mem token ht)) hrest
        · cases hwalk

theorem lookupDentry_none {m : Mem} {token : List UInt8} (hl : lookupDentry m a token = none) {j : ℕ}
    (hj : 40 * j < loadWord m (a + 24)) : strEq m (a + 44 + 40 * j) token = false := by
  by_contra hne
  have hex : ∃ j, 40 * j < loadWord m (a + 24) ∧ strEq m (a + 44 + 40 * j) token = true :=
    ⟨j, hj, by simpa using hne⟩
  classical
  obtain ⟨hlt, hs⟩ := Nat.find_spec hex
  have hfirst : FirstDentry m a token (a + 44 + 40 * Nat.find hex) := by
    refine ⟨_, rfl, hlt, hs, fun k hk => ?_⟩
    have hmin := Nat.find_min hex hk
    rw [not_and] at hmin
    simpa using hmin (by omega)
  rw [lookupDentry_iff.mpr hfirst] at hl
  cases hl

/-- The record the creation adds is the first with the name, if none had it before and the
name was not cut. -/
theorem record_added (h : Rep s L) (hd : Found L dir d) (hisDir : d.isDir)
    (hroom : s.head + 128 + d.bytes.length < 4294967296) (hsmall : nodeNumber (sync s L) d < 256)
    (hl : lookupDentry s.data dir name = none) (hshort : name.length ≤ 31)
    (h0 : (0 : UInt8) ∉ name) :
    ∃ c, FirstDentry (nodeImage env (sync s L) d name mode) s.head name c ∧
      loadLong (nodeImage env (sync s L) d name mode) (c + 32) % 4294967296 =
        nodeNumber (sync s L) d := by
  have hcopy := image_copy env name mode h hd hroom
  obtain ⟨k, hk⟩ := h.dirs d hd.mem hisDir
  have hsize := (hd.entryAt h).size_eq
  have hrecord : loadBytes (nodeImage env (sync s L) d name mode) (s.head + 44 + 40 * k) 40 =
      (Dentry.mk name (nodeNumber (sync s L) d) hshort h0 hsmall).encode := by
    have hbytes := hcopy.bytes
    simp only [dirEntry, List.append_assoc, List.length_append, nameField_length, leBytes_length]
      at hbytes
    rw [loadBytes_append] at hbytes
    rw [← hk]
    exact (List.append_inj hbytes (by simp)).2
  refine ⟨s.head + 44 + 40 * k, ⟨k, rfl, ?_, ?_, fun j hj => ?_⟩, ?_⟩
  · rw [hcopy.size_eq]
    simp only [dirEntry, List.length_append, nameField_length]
    omega
  · rw [strEq_dentry hrecord h0]
    exact decide_eq_true rfl
  · rw [← lookupDentry_none hl (j := j) (by omega)]
    refine strEq_shift fun x hx => ?_
    have hbyte := copied_bytes (j := 44 + 40 * j + x) (hd.entryAt h) hcopy
      (by simp [dirEntry, List.append_assoc]) (by omega) (by omega)
    rwa [← Nat.add_assoc, ← Nat.add_assoc, ← Nat.add_assoc, ← Nat.add_assoc] at hbyte
  · rw [loadLong_dentry hrecord]
    exact Nat.mod_eq_of_lt (lt_trans hsmall (by decide))

theorem resolve_kept {s' : Wfs} {q : List UInt8} (h : Rep s L)
    (h' : Rep s' (grown env s L d name mode))
    (hdata : s'.data = nodeImage env (sync s L) d name mode) (hd : Found L dir d) (hisDir : d.isDir)
    (hroom : s.head + 128 + d.bytes.length < 4294967296) (hfree : firstFree (table L) = some i)
    (hres : resolve s.data L q = .ok (some c)) (hclean : (0 : UInt8) ∉ q)
    (hin : ∀ s' root, get_number_inode s 0 = .ok (s', some root) → Inside s (strtok [] q) root) :
    resolve s'.data (grown env s L d name mode) q = .ok (some (moveTo s dir c)) := by
  rw [resolve_eq] at hres ⊢
  cases hlast : lastAt L 8 0 with
  | none =>
    rw [hlast] at hres
    cases hres
  | some r =>
    obtain ⟨root, e⟩ := r
    rw [hlast] at hres
    dsimp only at hres
    by_cases hskip : e.inode.deleted ≠ 0 ∨ isDir s.data root = false
    · rw [if_pos hskip] at hres
      cases hres
    rw [if_neg hskip] at hres
    have hbad := not_or.mp hskip
    rw [not_not] at hbad
    have hroot : Found L root e := ⟨(lastAt_some hlast).1 ▸ hlast, hbad.1⟩
    obtain ⟨x, hx, hxn, hxdir⟩ := found_grown env name mode hroot h hd
      hfree
    have hlast' := hx.last
    rw [hxn, (lastAt_some hlast).1] at hlast'
    have hisDir' : isDir s'.data (moveTo s dir root) = isDir s.data root := by
      rw [(hx.entryAt h').isDir_eq, hxdir, (hroot.entryAt h).isDir_eq]
    rw [hlast']
    dsimp only
    rw [if_neg (not_or.mpr ⟨not_not.mpr hx.live, hisDir' ▸ hbad.2⟩), hdata]
    refine walk_kept h hd hisDir hroom hfree hroot hres (fun token ht h0 => hclean ?_) ?_
    · simpa using mem_strtok ht h0
    · refine hin (sync s L) root ?_
      rw [get_number_inode_rep h, hlast]
      simp [hbad.1]

end Grown

section Steps

variable {env : Env} {s s' : Wfs} {e : Event} {es : List Event} {L L' : List Entry} {path : Path}
  {name : List UInt8} {mode dir k : ℕ} {d : Entry} {ret : ℤ} {r : Reply}

theorem parentPath_clean {dp : List UInt8} (hsplit : splitLast path = some (dp, name)) :
    (0 : UInt8) ∉ parentPath dp := by
  intro hmem
  rw [parentPath] at hmem
  split_ifs at hmem with hdp
  · simp [slash] at hmem
  · apply path.2
    rw [(splitLast_some hsplit).1]
    exact List.mem_append_left _ hmem

/-- What a creation that returns 0 has done. -/
structure Made (env : Env) (s : Wfs) (L : List Entry) (s' : Wfs) (L' : List Entry) (path : Path)
    (mode : ℕ) (name : List UInt8) (dir : ℕ) (d : Entry) : Prop where
  resolved : ∃ r, resolve s.data L path = .ok r
  inDir : InDir s L path name dir d
  small : nodeNumber (sync s L) d < 256
  data : s'.data = nodeImage env (sync s L) d name mode
  log : L' = grown env s L d name mode

theorem made_of_change {call : Call} (hc : Change env s L call ret s' L')
    (hcall : creates call = some (path, mode)) (hret : ret = 0) :
    ∃ name dir d, Made env s L s' L' path mode name dir d := by
  cases hc with
  | quiet _ hneg =>
    rw [hcall, hret] at hneg
    exact absurd (hneg rfl) (lt_irrefl 0)
  | @created _ p name md dir d r hcall' hres hin _ hsmall =>
    rw [hcall, Option.some.injEq, Prod.mk.injEq] at hcall'
    obtain ⟨rfl, rfl⟩ := hcall'
    exact ⟨name, dir, d, ⟨r, hres⟩, hin, hsmall, rfl, rfl⟩
  | touched => cases hcall
  | headed => cases hcall
  | written => cases hcall
  | missed => cases hcall
  | unlinked => cases hcall

theorem Made.freeNumber_eq (hm : Made env s L s' L' path mode name dir d) (h : Rep s L) :
    freeNumber s path = firstFree (table L) := by
  obtain ⟨r, hres⟩ := hm.resolved
  rw [freeNumber, afterLookup, get_path_inode_rep h, hres]
  rfl

/-- The name leads to the new node from the copy of the directory. -/
theorem Made.name_found (hm : Made env s L s' L' path mode name dir d) (h : Rep s L)
    (hroom : s.head + 128 + d.bytes.length < 4294967296) {i : ℕ}
    (hfree : firstFree (table L) = some i) (hfits : NameFits s path dir name) :
    walkLog s'.data L' [name] s.head = .ok (some (s.head + 84 + d.bytes.length)) := by
  have hd := hm.inDir.found
  have hdir := hm.inDir.isDir
  have hnumber : nodeNumber (sync s L) d = i := nodeNumber_free hfree
  have hsmall := hm.small
  obtain ⟨c, hrec, hnum⟩ : ∃ c, FirstDentry s'.data s.head name c ∧
      loadLong s'.data (c + 32) % 4294967296 = i := by
    rw [hm.data]
    rw [NameFits, hm.freeNumber_eq h, hfree] at hfits
    cases hl : lookupDentry s.data dir name with
    | none =>
      rw [hl] at hfits
      rw [← hnumber]
      exact record_added h hd hdir hroom hsmall hl hfits hm.inDir.clean
    | some b =>
      rw [hl] at hfits
      have hold : loadLong s.data (b + 32) % 4294967296 = i := (Option.some.inj hfits).symm
      have hin := lookupDentry_inside (hd.entryAt h) (h.dirs d hd.mem hdir) hl
      have hup := hd.upper h
      have hkept := record_kept env name mode h hd hdir hroom hd
        (lookupDentry_iff.mp hl) hm.inDir.clean (by omega) (by omega)
      rwa [moveTo, if_pos rfl, hold] at hkept
  rw [walkLog, lookupDentry_iff.mpr hrec]
  dsimp only
  rw [hnum, hm.log, lastAt_grown h, if_pos hnumber]
  rfl

theorem nameField_end (h : 31 < (nameField name).length) : (nameField name)[31] = 0 := by
  have hlen : (name.take 31).length ≤ 31 := List.length_take_le _ _
  simp only [nameField]
  rw [List.getElem_append_right hlen, List.getElem_replicate]

/-- Nor does the name lead to the new node otherwise. -/
theorem Made.name_fits (hm : Made env s L s' L' path mode name dir d) (h : Rep s L)
    (hroom : s.head + 128 + d.bytes.length < 4294967296) {i : ℕ}
    (hfree : firstFree (table L) = some i)
    (hwalk : walkLog s'.data L' [name] s.head = .ok (some (s.head + 84 + d.bytes.length))) :
    NameFits s path dir name := by
  have hd := hm.inDir.found
  have hnumber : nodeNumber (sync s L) d = i := nodeNumber_free hfree
  have hsmall := hm.small
  have hsize := (hd.entryAt h).size_eq
  obtain ⟨w, hw⟩ := h.dirs d hd.mem hm.inDir.isDir
  have hcopy := image_copy env name mode h hd hroom
  rw [← hm.data] at hcopy
  have hgrown := hcopy.size_eq
  simp only [dirEntry, List.length_append, nameField_length, leBytes_length] at hgrown
  have hbytes : ∀ j, 44 ≤ j → j < 44 + d.bytes.length → s'.data (s.head + j) = s.data (dir + j) :=
    fun j => copied_bytes (hd.entryAt h) hcopy (by simp [dirEntry, List.append_assoc])
  obtain ⟨c, x, hl, hlast, _⟩ := walkLog_single hwalk
  have hrec := lookupDentry_iff.mp hl
  have hi : loadLong s'.data (c + 32) % 4294967296 = i := by
    rw [hm.log, lastAt_grown h] at hlast
    split_ifs at hlast with hnew hparent
    · rw [← hnew, hnumber]
    · rw [Option.some.injEq, Prod.mk.injEq] at hlast
      omega
    · have hbelow := (h.tiled.lastAt hlast).2.2.1
      omega
  have hshort := token_short hrec hm.inDir.clean (by omega)
  have hrec' := hrec
  obtain ⟨j, rfl, hj, hs, hbefore⟩ := hrec
  rw [NameFits, hm.freeNumber_eq h, hfree]
  by_cases hold : 40 * j < d.bytes.length
  · have hback : ∃ c, FirstDentry s.data dir name c ∧ _ := firstDentry_shift
      (n := 44 + d.bytes.length) hrec' hshort (by omega) (by omega)
      fun x hlo hx => (hbytes x hlo hx).symm
    obtain ⟨c, hfirst, hnum⟩ := hback
    rw [lookupDentry_iff.mpr hfirst]
    exact congrArg some (hi.symm.trans hnum.symm)
  · -- The record is the one that was added: it holds at most 31 bytes of the name.
    have hj' : 40 * j = d.bytes.length := by omega
    have hlen : name.length ≤ 31 := by
      refine strEq_length_le hs hm.inDir.clean ?_
      have hlast := entry_byte (k := d.bytes.length + 31) hcopy (by simp [dirEntry])
      rw [hj', Nat.add_assoc, hlast]
      simp only [dirEntry, List.append_assoc]
      rw [List.getElem_append_right (by omega), List.getElem_append_left (by simp)]
      simp only [Nat.add_sub_cancel_left]
      exact nameField_end _
    cases hl : lookupDentry s.data dir name with
    | none => exact hlen
    | some b =>
      obtain ⟨q, rfl, hq, hsame, _⟩ := lookupDentry_iff.mp hl
      have hne := hbefore q (by omega)
      rw [strEq_shift (m := s.data) (a := dir + 44 + 40 * q) fun x hx => ?_, hsame] at hne
      · cases hne
      · have hbyte := hbytes (44 + 40 * q + x) (by omega) (by omega)
        rwa [← Nat.add_assoc, ← Nat.add_assoc, ← Nat.add_assoc, ← Nat.add_assoc] at hbyte

theorem Made.path_kept (hm : Made env s L s' L' path mode name dir d) (h : Rep s L)
    (h' : Rep s' L') (hroom : s.head + 128 + d.bytes.length < 4294967296) {i : ℕ}
    (hfree : firstFree (table L) = some i) {q : Path}
    (hin : located s q ≠ none → ∀ s' root, get_number_inode s 0 = .ok (s', some root) →
      Inside s (strtok [] q) root) {c : ℕ} (hres : resolve s.data L q = .ok (some c)) :
    resolve s'.data L' q = .ok (some (moveTo s dir c)) := by
  have hlog := hm.log
  subst hlog
  refine resolve_kept h h' hm.data hm.inDir.found hm.inDir.isDir hroom hfree hres q.2 (hin ?_)
  rw [located_of_resolve h hres]
  exact Option.some_ne_none c

/-- The call of an asked-for creation that returned 0, on a log. -/
theorem made_of_asked (h : Rep s L) (hroomy : RoomyStep s e) (hask : Asked s e path mode dir name)
    (hh : handle e.env s e.call = .ok (s', r)) (hret : r.ret = 0) :
    ∃ L' d i, Rep s' L' ∧ Made e.env s L s' L' path mode name dir d ∧
      s.head + 128 + d.bytes.length < 4294967296 ∧ firstFree (table L) = some i := by
  obtain ⟨L', hc⟩ := handle_change h hroomy hh
  obtain ⟨name', dir', d, hm⟩ := made_of_change hc hask.call hret
  have hparent := hm.inDir.parentDir_eq h
  rw [hask.parent, Option.some.injEq, Prod.mk.injEq] at hparent
  obtain ⟨rfl, rfl⟩ := hparent
  obtain ⟨i, hfree⟩ := Option.ne_none_iff_exists'.mp hask.number
  rw [hm.freeNumber_eq h] at hfree
  have hspace : s.head + 44 ≤ s.total_size := by
    have := hask.space
    omega
  exact ⟨L', d, i, hc.rep h hroomy, hm, hroomy.created h hask.call hm.inDir hspace, hfree⟩

/-- A creation is found under its path exactly when the name fits. -/
theorem leads_iff (h : Rep s L) (hroomy : RoomyStep s e) (hask : Asked s e path mode dir name)
    (hh : handle e.env s e.call = .ok (s', r)) (hret : r.ret = 0)
    (hin : ∀ q : Path, located s q ≠ none → ∀ s' root, get_number_inode s 0 = .ok (s', some root) →
      Inside s (strtok [] q) root) :
    LeadsToNew s s' path mode ↔ NameFits s path dir name := by
  obtain ⟨L', d, i, h', hm, hroom, hfree⟩ := made_of_asked h hroomy hask hh hret
  obtain ⟨dp, hsplit, hres⟩ := hm.inDir.split
  have hdir := hm.path_kept h h' hroom hfree (hin ⟨parentPath dp, parentPath_clean hsplit⟩) hres
  rw [moveTo, if_pos rfl] at hdir
  have hpath := resolve_child hsplit hdir
  rw [if_neg hask.named] at hpath
  have hhead : s'.head = s.head + 128 + d.bytes.length := by
    rw [Wfs.head, hm.data]
    exact nodeImage_head h.sync.eight_le hroom
  constructor
  · rintro ⟨a, hloc, _, hend, _⟩
    have hplace : a = s.head + 84 + d.bytes.length := by omega
    rw [located_rep h', hpath] at hloc
    split at hloc
    next hwalk =>
      rw [hloc, hplace] at hwalk
      exact hm.name_fits h hroom hfree hwalk
    next => cases hloc
  · intro hfits
    have hnode : EntryAt s'.data (s.head + 84 + d.bytes.length)
        (nodeEntry e.env (nodeNumber (sync s L) d) mode) := by
      rw [hm.data]
      exact nodeImage_node (s := sync s L) h.eight_le (creates_mode hask.call)
    refine ⟨s.head + 84 + d.bytes.length, ?_, by omega, by omega, hnode.mode_eq, hnode.size_eq⟩
    refine located_of_resolve h' ?_
    rw [hpath]
    exact hm.name_found h hroom hfree hfits

theorem creation_found (h : Rep s L) (hf : Findable s e) : CreationFound s e := by
  intro path mode dir name s' r hask hh hret
  have hinside := hf.inside path mode dir name hask
  refine ⟨(leads_iff h hf.roomy hask hh hret hinside).mpr (hf.fits path mode dir name hask), ?_⟩
  obtain ⟨L', d, i, h', hm, hroom, hfree⟩ := made_of_asked h hf.roomy hask hh hret
  intro q k hq
  obtain ⟨c, hloc, rfl⟩ := Option.map_eq_some_iff.mp hq
  have hres : resolve s.data L q = .ok (some c) := by
    rw [located_rep h] at hloc
    split at hloc
    next hr => rw [hr, hloc]
    next => cases hloc
  obtain ⟨f, hfound⟩ := resolve_found hres
  obtain ⟨x, hx, hxn, _⟩ := found_grown e.env name mode hfound h
    hm.inDir.found hfree
  rw [← hm.log] at hx
  have hkept := hm.path_kept h h' hroom hfree (hinside q) hres
  rw [numberAt, located_of_resolve h' hkept, Option.map_some, (hx.entryAt h').number_eq, hxn,
    (hfound.entryAt h).number_eq]

/-- In a run whose steps all meet the condition, every creation is found and nothing is lost. -/
theorem found_along (h : Rep s L) (hs : Along Findable s es) : Along CreationFound s es := by
  induction es generalizing s L with
  | nil => trivial
  | cons e es ih =>
    refine ⟨creation_found h hs.1, fun s' hn => ?_⟩
    obtain ⟨r, hh⟩ := next_some hn
    obtain ⟨L', hc⟩ := handle_change h hs.1.roomy hh
    exact ih (hc.rep h hs.1.roomy) (hs.2 s' hn)

end Steps

section Whole

variable {s s' : Wfs} {L L' : List Entry} {e : Event} {names : List (List UInt8)} {a : ℕ} {x : Entry}

/-- What a file holds could be read as records to its end. -/
def Whole (L : List Entry) : Prop := ∀ x ∈ L, 40 ∣ x.bytes.length

theorem inside_of_whole (h : Rep s L) (hw : Whole L) (hf : Found L a x) : Inside s names a := by
  induction names generalizing a x with
  | nil => trivial
  | cons token rest ih =>
    intro d s' b hd hb
    have hrecord := (lookupDentry_inside (hf.entryAt h) (hw x hf.mem) hd).2
    have hupper := hf.upper h
    refine ⟨by omega, ?_⟩
    rw [get_number_inode_rep h] at hb
    split at hb
    next => cases hb
    next c y hlast =>
      split_ifs at hb with hdead
      · cases hb
      · cases hb
        exact ih ⟨(lastAt_some hlast).1 ▸ hlast, not_not.mp hdead⟩

theorem root_found (h : Rep s L) {root : ℕ} (hroot : get_number_inode s 0 = .ok (s', some root)) :
    ∃ x, Found L root x := by
  rw [get_number_inode_rep h] at hroot
  split at hroot
  next => cases hroot
  next c y hlast =>
    split_ifs at hroot with hdead
    · cases hroot
    · cases hroot
      exact ⟨y, (lastAt_some hlast).1 ▸ hlast, not_not.mp hdead⟩

/-- A new directory entry is a record more, and a new node is empty. -/
theorem change_whole {env : Env} {call : Call} {ret : ℤ} (h : Rep s L)
    (hc : Change env s L call ret s' L') (hcall : (creates call).isSome) (hw : Whole L) :
    Whole L' := by
  cases hc with
  | quiet => exact hw
  | created _ _ hin _ _ =>
    intro x hx
    rcases List.mem_append.mp hx with hx | hx
    · exact hw x hx
    · simp only [List.mem_cons, List.not_mem_nil, or_false] at hx
      rcases hx with rfl | rfl
      · have hd := h.dirs _ hin.found.mem hin.isDir
        simp only [dirEntry, List.length_append, nameField_length, leBytes_length]
        omega
      · exact Nat.dvd_zero 40
  | touched => cases hcall
  | headed => cases hcall
  | written => cases hcall
  | missed => cases hcall
  | unlinked => cases hcall

/-- Without contents of files only the name has to fit. -/
theorem findable_of_whole {path : Path} {mode dir : ℕ} {name : List UInt8} (h : Rep s L)
    (hw : Whole L) (hroom : RoomyStep s e) (hcall : creates e.call = some (path, mode))
    (hparent : parentDir s path = some (dir, name)) (hfits : NameFits s path dir name) :
    Findable s e := by
  refine ⟨hroom, fun path' mode' dir' name' hask => ?_, fun _ _ _ _ _ q _ s' root hroot => ?_⟩
  · obtain ⟨rfl, -⟩ := Prod.mk.inj (Option.some.inj (hcall.symm.trans hask.call))
    obtain ⟨rfl, rfl⟩ := Prod.mk.inj (Option.some.inj (hparent.symm.trans hask.parent))
    exact hfits
  · obtain ⟨x, hx⟩ := root_found h hroot
    exact inside_of_whole h hw hx

end Whole

/-- On runs from a fresh image: while creations are findable, they are found. -/
theorem created_are_found {disk : Mem} {total_size : ℕ} {time : ℕ → ℕ} {es : List Event}
    (hs : Along Findable (mkfs disk total_size time) es) :
    Along CreationFound (mkfs disk total_size time) es :=
  found_along (mkfs_rep disk total_size time) hs

/-- `mkdir("/d")`. -/
def mkdirD : Event := ⟨quietEnv, .mkdir ⟨[slash, 100], by decide⟩⟩

/-- `mknod("/d/x")`. -/
def mknodX : Event := ⟨quietEnv, .mknod ⟨[slash, 100, slash, 120], by decide⟩⟩

theorem name_fits_short {s : Wfs} {path name : List UInt8} {dir : ℕ}
    (hnone : lookupDentry s.data dir name = none) (hshort : name.length ≤ 31) :
    NameFits s path dir name := by
  rw [NameFits, hnone]
  exact hshort

/-- A file in a directory that was made before it. -/
theorem nested_file_found : Along Findable (zeroDisk 1000) [mkdirD, mknodX] ∧
    Along CreationFound (zeroDisk 1000) [mkdirD, mknodX] := by
  have hrep : Rep (zeroDisk 1000) [rootEntry fun _ => 0] := mkfs_rep _ _ _
  have hwhole : Whole [rootEntry fun _ => 0] := by
    intro x hx
    rw [List.mem_singleton.mp hx]
    exact Nat.dvd_zero 40
  have hparent : parentDir (zeroDisk 1000) [slash, 100] = some (8, [100]) := by decide +kernel
  have hfirst : Findable (zeroDisk 1000) mkdirD :=
    findable_of_whole hrep hwhole (by unfold RoomyStep Roomy; decide +kernel) rfl hparent
      (name_fits_short (by decide +kernel) (by decide))
  have hall : Along Findable (zeroDisk 1000) [mkdirD, mknodX] := by
    refine ⟨hfirst, fun s hs => ⟨?_, fun _ _ => trivial⟩⟩
    obtain ⟨r, hh⟩ := next_some hs
    obtain ⟨L, hc⟩ := handle_change hrep hfirst.roomy hh
    have hs' := next_getD hs
    have hparent' : parentDir s [slash, 100, slash, 120] = some (136, [120]) := by
      rw [hs']
      decide +kernel
    refine findable_of_whole (hc.rep hrep hfirst.roomy) (change_whole hrep hc rfl hwhole) ?_ rfl
      hparent' (name_fits_short ?_ (by decide))
    · rw [hs']
      unfold RoomyStep Roomy
      decide +kernel
    · rw [hs']
      decide +kernel
  exact ⟨hall, created_are_found hall⟩

/-- `mknod` of "/" and 32 times "a". -/
def mknodLong : Event := ⟨quietEnv, .mknod ⟨slash :: List.replicate 32 97, by decide⟩⟩

/-- A name of 32 bytes is stored without its last one, and not found again. -/
theorem long_name_lost : Along RoomyStep (zeroDisk 1000) [mknodLong] ∧
    ¬ Along CreationFound (zeroDisk 1000) [mknodLong] := by
  refine ⟨⟨by unfold RoomyStep Roomy; decide +kernel, fun _ _ => trivial⟩, fun hall => ?_⟩
  have hask : Asked (zeroDisk 1000) mknodLong ⟨slash :: List.replicate 32 97, by decide⟩ S_IFREG 8
      (List.replicate 32 97) :=
    ⟨rfl, by decide +kernel, by decide +kernel, by decide, by decide +kernel, by decide +kernel⟩
  have hlost : ((handle quietEnv (zeroDisk 1000) mknodLong.call).toOption.any fun p =>
      decide (p.2.ret = 0 ∧ located p.1 (slash :: List.replicate 32 97) = none)) = true := by
    decide +kernel
  obtain ⟨⟨s', r⟩, hh, hlost⟩ := Runs.exists_ok_of_any hlost
  obtain ⟨hret, hnone⟩ := of_decide_eq_true hlost
  obtain ⟨⟨a, hloc, _⟩, _⟩ := hall.1 _ _ _ _ s' r hask hh hret
  rw [hnone] at hloc
  cases hloc

end WfsCreation
