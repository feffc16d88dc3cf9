import OsProjects.WfsChange

/-! # Directories as lists of dentries

A dentry is 40 bytes: the name, cut to 31 bytes and filled up with zeros, and the inode
number. On a directory that is a list of such records lookup is a search in the list and the
copy loop of `wfs_unlink` a filter.
-/
namespace WfsDentries

open ByteMemory WfsLookup WfsHandlers WfsLog WfsAppend WfsChange

@[ext]
structure Dentry where
  name : List UInt8
  inode_number : ℕ
  short : name.length ≤ 31
  clean : (0 : UInt8) ∉ name
  small : inode_number < 256

instance : DecidableEq Dentry := fun _ _ => decidable_of_iff _ Dentry.ext_iff.symm

def Dentry.encode (d : Dentry) : List UInt8 := nameField d.name ++ leBytes 8 d.inode_number

def contents (ds : List Dentry) : List UInt8 := ds.flatMap Dentry.encode

/-- The dentries `ds` lie at `a`. -/
def DentriesAt (m : Mem) : ℕ → List Dentry → Prop
  | _, [] => True
  | a, d :: ds => loadBytes m a 40 = d.encode ∧ DentriesAt m (a + 40) ds

section Strings

variable {m : Mem} {a n : ℕ} {t u name rest : List UInt8}

theorem loadBytes_succ : loadBytes m a (n + 1) = m a :: loadBytes m (a + 1) n := by
  rw [Nat.add_comm, loadBytes_append]
  rfl

theorem strEq_of_loadBytes (h : loadBytes m a n = name ++ 0 :: rest) : strEq m a name = true := by
  induction name generalizing a n with
  | nil =>
    cases n with
    | zero => cases h
    | succ n =>
      rw [loadBytes_succ, List.nil_append] at h
      simpa [strEq] using (List.cons.inj h).1
  | cons c cs ih =>
    cases n with
    | zero => cases h
    | succ n =>
      rw [loadBytes_succ, List.cons_append] at h
      obtain ⟨hc, hcs⟩ := List.cons.inj h
      simp only [strEq, hc, ih hcs, and_self, decide_true]

/-- The C string at an address is unique. -/
theorem strEq_unique (ht : strEq m a t = true) (hu : strEq m a u = true) (ht0 : (0 : UInt8) ∉ t)
    (hu0 : (0 : UInt8) ∉ u) : t = u := by
  induction t generalizing a u with
  | nil =>
    cases u with
    | nil => rfl
    | cons c cs =>
      simp only [strEq, decide_eq_true_eq] at ht hu
      exact absurd (ht.symm.trans hu.1) (fun h => hu0 (h ▸ List.mem_cons_self))
  | cons c cs ih =>
    cases u with
    | nil =>
      simp only [strEq, decide_eq_true_eq] at ht hu
      exact absurd (hu.symm.trans ht.1) (fun h => ht0 (h ▸ List.mem_cons_self))
    | cons c' cs' =>
      simp only [strEq, decide_eq_true_eq] at ht hu
      rw [List.mem_cons, not_or] at ht0 hu0
      rw [ih ht.2 hu.2 ht0.2 hu0.2, ← ht.1, ← hu.1]

theorem cstring_of_strEq (h : strEq m a name = true) (h0 : (0 : UInt8) ∉ name)
    (hn : name.length ≤ n) : cstring m n a = name := by
  induction name generalizing a n with
  | nil =>
    simp only [strEq, decide_eq_true_eq] at h
    cases n with
    | zero => rfl
    | succ n => rw [cstring, if_pos h]
  | cons c cs ih =>
    simp only [strEq, decide_eq_true_eq] at h
    rw [List.mem_cons, not_or] at h0
    rw [List.length_cons] at hn
    cases n with
    | zero => omega
    | succ n =>
      rw [cstring, h.1, if_neg (Ne.symm h0.1), ih h.2 h0.2 (by omega)]

end Strings

section Record

variable {m m' : Mem} {a b : ℕ} {d : Dentry} {ds : List Dentry} {token : List UInt8}

@[simp] theorem Dentry.encode_length : d.encode.length = 40 := by simp [Dentry.encode]

@[simp] theorem contents_cons : contents (d :: ds) = d.encode ++ contents ds := rfl

theorem contents_concat :
    contents (ds ++ [d]) = contents ds ++ nameField d.name ++ leBytes 8 d.inode_number := by
  simp [contents, Dentry.encode]

@[simp] theorem contents_length : (contents ds).length = 40 * ds.length := by
  induction ds with
  | nil => rfl
  | cons d ds ih =>
    rw [contents_cons, List.length_append, Dentry.encode_length, ih, List.length_cons]
    omega

theorem nameField_of_short {name : List UInt8} (h : name.length ≤ 31) :
    ∃ rest, nameField name = name ++ 0 :: rest := by
  refine ⟨List.replicate (31 - name.length) 0, ?_⟩
  rw [nameField, List.take_of_length_le h, ← List.replicate_succ]
  congr 2
  omega

theorem strEq_dentry (h : loadBytes m a 40 = d.encode) (h0 : (0 : UInt8) ∉ token) :
    strEq m a token = decide (d.name = token) := by
  obtain ⟨rest, hrest⟩ := nameField_of_short d.short
  have hname : strEq m a d.name = true := by
    refine @strEq_of_loadBytes _ _ 40 _ (rest ++ leBytes 8 d.inode_number) ?_
    rw [h, Dentry.encode, hrest, List.append_assoc, List.cons_append]
  by_cases heq : d.name = token
  · simp [← heq, hname]
  · simp only [heq, decide_false, Bool.eq_false_iff]
    exact fun ht => heq (strEq_unique hname ht d.clean h0)

theorem cstring_dentry (h : loadBytes m a 40 = d.encode) {n : ℕ} (hn : d.name.length ≤ n) :
    cstring m n a = d.name :=
  cstring_of_strEq (by rw [strEq_dentry h d.clean, decide_eq_true rfl]) d.clean hn

theorem loadLong_dentry (h : loadBytes m a 40 = d.encode) :
    loadLong m (a + 32) = d.inode_number := by
  have hsplit : loadBytes m a 32 ++ loadBytes m (a + 32) 8 =
      nameField d.name ++ leBytes 8 d.inode_number := by
    rw [← loadBytes_append]
    exact h
  have hnum := (List.append_inj hsplit (by simp)).2
  have hsmall := d.small
  rw [loadLong, hnum, leValue_leBytes, Nat.mod_eq_of_lt (by omega)]

theorem dentriesAt_iff : DentriesAt m a ds ↔ loadBytes m a (40 * ds.length) = contents ds := by
  induction ds generalizing a with
  | nil => exact iff_of_true trivial rfl
  | cons d ds ih =>
    rw [DentriesAt, ih, contents_cons, List.length_cons, Nat.mul_succ, Nat.add_comm (40 * _),
      loadBytes_append]
    constructor
    · rintro ⟨hd, hds⟩
      rw [hd, hds]
    · intro h
      exact List.append_inj h (by simp)

theorem DentriesAt.congr (h : DentriesAt m a ds) (hm : AgreeOn m m' a (a + 40 * ds.length)) :
    DentriesAt m' a ds := by
  rw [dentriesAt_iff] at h ⊢
  rw [← h]
  exact (loadBytes_congr hm).symm

theorem findDentry_dentries (h : DentriesAt m a ds) (h0 : (0 : UInt8) ∉ token) :
    (∃ b d, findDentry m token (a + 40 * ds.length) ds.length a = some b ∧
      ds.find? (fun d => d.name = token) = some d ∧ loadBytes m b 40 = d.encode) ∨
    findDentry m token (a + 40 * ds.length) ds.length a = none ∧
      ds.find? (fun d => d.name = token) = none := by
  induction ds generalizing a with
  | nil => exact Or.inr ⟨rfl, rfl⟩
  | cons d ds ih =>
    have hstop : a + 40 * (d :: ds).length = a + 40 + 40 * ds.length := by
      rw [List.length_cons]
      omega
    rw [List.length_cons, findDentry, if_pos (by omega), strEq_dentry h.1 h0, List.find?_cons]
    by_cases heq : d.name = token
    · simp only [heq, decide_true, if_true]
      exact Or.inl ⟨a, d, rfl, rfl, h.1⟩
    · simp only [heq, decide_false, Bool.false_eq_true, if_false]
      rw [← List.length_cons (a := d), hstop]
      exact ih h.2

theorem lookupDentry_dentries {e : Entry} {dir : ℕ} (he : EntryAt m dir e)
    (hds : e.bytes = contents ds) (h0 : (0 : UInt8) ∉ token) :
    (∃ b d, lookupDentry m dir token = some b ∧
      ds.find? (fun d => d.name = token) = some d ∧ loadBytes m b 40 = d.encode) ∨
    lookupDentry m dir token = none ∧ ds.find? (fun d => d.name = token) = none := by
  have hat : DentriesAt m (dir + 44) ds := by
    have hbytes := he.bytes
    rw [hds, contents_length] at hbytes
    exact dentriesAt_iff.mpr hbytes
  have hfuel : (40 * ds.length + 39) / 40 = ds.length := by omega
  simp only [lookupDentry, he.size_eq, hds, contents_length, hfuel]
  exact findDentry_dentries hat h0

end Record

section Copy

variable {m : Mem} {insides new_insides : ℕ} {d : Dentry} {ds : List Dentry}
  {filename : List UInt8} {found : Bool}

theorem copyDentry_encode (h : loadBytes m insides 40 = d.encode)
    (hbelow : insides + 40 ≤ new_insides) :
    loadBytes (copyDentry m insides new_insides) new_insides 40 = d.encode := by
  have hlen := leBytes_length 8 (loadLong m (insides + 32))
  have hfield := nameField_length (cstring (storeBytes m (new_insides + 32)
    (leBytes 8 (loadLong m (insides + 32)))) 31 insides)
  have hsource : loadBytes (storeBytes m (new_insides + 32)
      (leBytes 8 (loadLong m (insides + 32)))) insides 40 = d.encode := by
    rw [loadBytes_storeBytes_of_disjoint (by omega), h]
  have hname : loadBytes (copyDentry m insides new_insides) new_insides 32 = nameField d.name := by
    rw [copyDentry, loadBytes_storeBytes_of_length hfield, cstring_dentry hsource d.short]
  have hnum : loadBytes (copyDentry m insides new_insides) (new_insides + 32) 8 =
      leBytes 8 d.inode_number := by
    rw [copyDentry, loadBytes_storeBytes_of_disjoint (by omega),
      loadBytes_storeBytes_of_length hlen, loadLong_dentry h]
  rw [Dentry.encode, ← hname, ← hnum, ← loadBytes_append]

/-- On a list of dentries the copy loop of `wfs_unlink` is a filter. -/
theorem copyDentries_dentries (h : DentriesAt m insides ds) (h0 : (0 : UInt8) ∉ filename)
    (hbelow : insides + 40 * ds.length ≤ new_insides) :
    DentriesAt (copyDentries filename (insides + 40 * ds.length) ds.length insides new_insides m
        found).1 new_insides (ds.filter fun d => d.name ≠ filename) ∧
      (copyDentries filename (insides + 40 * ds.length) ds.length insides new_insides m found).2 =
        (found || ds.any fun d => d.name = filename) := by
  induction ds generalizing insides new_insides m found with
  | nil => exact ⟨trivial, by simp [copyDentries]⟩
  | cons d ds ih =>
    have hstop : insides + 40 * (d :: ds).length = insides + 40 + 40 * ds.length := by
      rw [List.length_cons]
      omega
    rw [hstop] at hbelow
    rw [hstop, List.length_cons, copyDentries_succ, if_pos (by omega), strEq_dentry h.1 h0,
      List.filter_cons, List.any_cons]
    by_cases heq : d.name = filename
    · obtain ⟨hds, hfound⟩ := @ih _ _ new_insides true h.2 hbelow
      simp only [heq, decide_true, if_true, ne_eq, not_true_eq_false, decide_false,
        Bool.false_eq_true, if_false, Bool.true_or, Bool.or_true] at hfound ⊢
      exact ⟨hds, hfound⟩
    · have hrest : DentriesAt (copyDentry m insides new_insides) (insides + 40) ds :=
        h.2.congr fun x _ hx => (copyDentry_outside (Or.inl (by omega))).symm
      obtain ⟨hds, hfound⟩ := @ih _ _ (new_insides + 40) found hrest (by omega)
      simp only [heq, decide_false, Bool.false_eq_true, if_false, ne_eq, not_false_eq_true,
        decide_true, if_true, Bool.false_or]
      refine ⟨⟨?_, hds⟩, hfound⟩
      rw [loadBytes_congr fun x _ _ => copyDentries_outside (Or.inl (by omega)),
        copyDentry_encode h.1 (by omega)]

/-- Distinct names: removing one that is there removes one dentry. -/
theorem length_filter_name (hnodup : (ds.map Dentry.name).Nodup)
    (h : ds.any (fun d => d.name = filename) = true) :
    (ds.filter fun d => d.name ≠ filename).length + 1 = ds.length := by
  have hmem : filename ∈ ds.map Dentry.name := by
    simpa [List.any_eq_true, List.mem_map] using h
  have hone : ds.countP (fun d => d.name = filename) = 1 := by
    have hcount := hnodup.count (a := filename)
    rw [if_pos hmem, List.count, List.countP_map] at hcount
    rw [← hcount]
    exact List.countP_congr fun d _ => by simp
  have hsum := List.length_eq_countP_add_countP (fun d : Dentry => decide (d.name = filename))
    (l := ds)
  rw [hone] at hsum
  rw [← List.countP_eq_length_filter, hsum, Nat.add_comm]
  congr 1
  exact List.countP_congr fun d _ => by simp

end Copy

section Shrink

variable {env : Env} {s : Wfs} {dir : ℕ} {e : Entry} {ds : List Dentry} {name : List UInt8}

theorem shrunk_dentries (he : EntryAt s.data dir e) (hhi : dir + e.span ≤ s.head)
    (hds : e.bytes = contents ds) (h0 : (0 : UInt8) ∉ name) :
    DentriesAt (shrunk env s dir e name).1 (s.head + 44) (ds.filter fun d => d.name ≠ name) ∧
      (shrunk env s dir e name).2 = ds.any fun d => d.name = name := by
  have hspan : e.span = 44 + e.bytes.length := rfl
  have hlen : e.bytes.length = 40 * ds.length := by rw [hds, contents_length]
  have hat : DentriesAt (headerImage (env.time 0) s e) (dir + 44) ds := by
    have hbytes := (headerImage_entry (t := env.time 0) (f := e) he hhi).bytes
    rw [hlen, hds] at hbytes
    exact dentriesAt_iff.mpr hbytes
  have hfuel : (40 * ds.length + 39) / 40 = ds.length := by omega
  rw [shrunk, hlen, hfuel]
  simpa using @copyDentries_dentries _ _ (s.head + 44) _ _ false hat h0 (by omega)

/-- Unlinking from a directory with distinct names. -/
theorem shrunkBytes_dentries (he : EntryAt s.data dir e) (hhi : dir + e.span ≤ s.head)
    (hds : e.bytes = contents ds) (h0 : (0 : UInt8) ∉ name) (hnodup : (ds.map Dentry.name).Nodup)
    (hfound : (shrunk env s dir e name).2 = true) :
    shrunkBytes env s dir e name = contents (ds.filter fun d => d.name ≠ name) := by
  obtain ⟨hat, hany⟩ := @shrunk_dentries env _ _ _ _ _ he hhi hds h0
  rw [hfound] at hany
  have hlen := length_filter_name hnodup hany.symm
  have hcut : e.bytes.length - 40 = 40 * (ds.filter fun d => d.name ≠ name).length := by
    rw [hds, contents_length]
    omega
  rw [shrunkBytes, hcut]
  exact dentriesAt_iff.mp hat

end Shrink

end WfsDentries
