import OsProjects.WfsRuns
import OsProjects.WfsDentries
import Mathlib.Data.List.Induction

/-! # Compaction by fsck.wfs

The loop of `fsck.wfs.c` copies the last entry of every live inode, in the order of the
numbers, to the front of the image it reads from. Nothing keeps a copy off the entries that
are still to be read, nor off the size field of its own source, which is read again after
the copy.
-/
namespace WfsCompaction

open ByteMemory WfsLookup WfsHandlers WfsLog WfsPaths WfsAppend WfsChange WfsDentries WfsRuns

/-- One round of the loop; `cur->inode.size` is read from the image each time. -/
def compactStep (time : ℕ → ℕ) (s : Wfs) (i : ℕ) : Wfs :=
  if s.all_le i = 0 then s
  else
    let cur := s.all_le i
    let new := s.head
    let m := wfsincpy s.data cur new (time i)
    let m := copyBytes m (new + 44) (cur + 44) (loadWord m (cur + 24))
    let m := storeWord m 4 (loadWord m 4 + 44 + loadWord m (cur + 24))
    { s with data := m, all_le := Function.update s.all_le i new }

/-- The loop of `main`, with `all_le` filled. -/
def compact (time : ℕ → ℕ) (s : Wfs) : Wfs :=
  (List.range 256).foldl (compactStep time) { s with data := storeWord s.data 4 8 }

/-- What is kept of an inode: its fields without the times, and its bytes. -/
structure Snapshot where
  mode : ℕ
  uid : ℕ
  gid : ℕ
  flags : ℕ
  links : ℕ
  size : ℕ
  bytes : List UInt8
  deriving DecidableEq, Repr

def snapshotAt (m : Mem) (a : ℕ) : Snapshot :=
  let i := loadInode m a
  ⟨i.mode, i.uid, i.gid, i.flags, i.links, i.size, loadBytes m (a + 44) i.size⟩

/-- The last entry of number `n`, if it is live. -/
def snapshot (s : Wfs) (n : ℕ) : Option Snapshot :=
  match get_number_inode s n with
  | .ok (_, some a) => some (snapshotAt s.data a)
  | _ => none

/-- What `get_path_inode` makes of a path: a fault, NULL, or the number of the inode. -/
def outcome (s : Wfs) (path : List UInt8) : Run (Option ℕ) :=
  match get_path_inode s path with
  | .error f => .error f
  | .ok (_, r) => .ok (r.map (loadWord s.data))

/-- An entry of whole dentries. -/
def Whole (m : Mem) (a : ℕ) : Prop :=
  ∃ ds, loadBytes m (a + 44) (loadWord m (a + 24)) = contents ds

/-- The walk meets entries of whole dentries only, up to its last component. -/
def WholeWalk (s : Wfs) : List (List UInt8) → ℕ → Prop
  | [], _ => True
  | token :: rest, a => Whole s.data a ∧ ∀ d s' b, lookupDentry s.data a token = some d →
      get_number_inode s (loadLong s.data (d + 32) % 4294967296) = .ok (s', some b) →
      WholeWalk s rest b

def WholePath (s : Wfs) (path : List UInt8) : Prop :=
  ∀ s' a, get_number_inode s 0 = .ok (s', some a) → WholeWalk s (strtok [] path) a

/-- The compacted image is a log again, with the same live inodes, and looking up a path has
the same outcome. -/
def Preserved (s s' : Wfs) : Prop :=
  (∃ L, Rep s' L) ∧ (∀ n < 256, snapshot s' n = snapshot s n) ∧
    ∀ path : Path, WholePath s path → outcome s' path = outcome s path

/-- The walk ends at a name whose inode is deleted. -/
def EndsDead (s : Wfs) : List (List UInt8) → ℕ → Prop
  | [], _ => False
  | token :: rest, a => ∃ d, lookupDentry s.data a token = some d ∧
      ((rest = [] ∧ ∃ s',
        get_number_inode s (loadLong s.data (d + 32) % 4294967296) = .ok (s', none)) ∨
      ∃ s' b, get_number_inode s (loadLong s.data (d + 32) % 4294967296) = .ok (s', some b) ∧
        EndsDead s rest b)

/-- The root is not deleted, and no path ends at the name of a deleted inode. Lookup answers
NULL there as long as the deleted entry is in the log, and reads through NULL without it. -/
def Linked (s : Wfs) : Prop :=
  (∀ s', get_number_inode s 0 ≠ .ok (s', none)) ∧
    ∀ (path : Path) (s' : Wfs) (root : ℕ), WholePath s path →
      get_number_inode s 0 = .ok (s', some root) → isDir s.data root = true →
      ¬ EndsDead s (strtok [] path) root

/-- The length of the last entry of a live inode. -/
def liveSpan (s : Wfs) (i : ℕ) : ℕ :=
  if s.all_le i = 0 then 0 else 44 + loadWord s.data (s.all_le i + 24)

/-- Where the loop puts the entry of inode `i`. -/
def target (s : Wfs) (i : ℕ) : ℕ := 8 + ((List.range i).map (liveSpan s)).sum

/-- The copy of inode `i` stays where it is, or off the size field of its source and
everything behind it. -/
def OffSource (s : Wfs) (i : ℕ) : Prop :=
  target s i = s.all_le i ∨ target s i + liveSpan s i ≤ s.all_le i + 24 ∨
    s.all_le i + liveSpan s i ≤ target s i

/-- The copy of inode `i` stays off the entry of inode `j`. -/
def OffEntry (s : Wfs) (i j : ℕ) : Prop :=
  target s i + liveSpan s i ≤ s.all_le j ∨ s.all_le j + liveSpan s j ≤ target s i

def Apart (s : Wfs) : Prop :=
  ∀ i < 256, s.all_le i ≠ 0 →
    OffSource s i ∧ ∀ j < 256, i < j → s.all_le j ≠ 0 → OffEntry s i j

instance instDecidableOffSource (s : Wfs) (i : ℕ) : Decidable (OffSource s i) :=
  instDecidableOr

instance instDecidableOffEntry (s : Wfs) (i j : ℕ) : Decidable (OffEntry s i j) :=
  instDecidableOr

instance instDecidableApart (s : Wfs) : Decidable (Apart s) :=
  Nat.decidableBallLT 256 _

/-- The entry the loop writes. -/
def copyEntry (t : ℕ) (e : Entry) : Entry := ⟨stamped e.inode t, e.bytes⟩

section Move

variable {m : Mem} {cur new t : ℕ} {e : Entry}

/-- The image after one round. -/
def moved (m : Mem) (cur new t : ℕ) : Mem :=
  let m := wfsincpy m cur new t
  let m := copyBytes m (new + 44) (cur + 44) (loadWord m (cur + 24))
  storeWord m 4 (loadWord m 4 + 44 + loadWord m (cur + 24))

theorem moved_eq (he : EntryAt m cur e) (hcur : 8 ≤ cur) (hnew : 8 ≤ new)
    (hhead : loadWord m 4 = new)
    (hown : new = cur ∨ new + e.span ≤ cur + 24 ∨ cur + e.span ≤ new) :
    moved m cur new t = storeWord (storeBytes (storeWords m new (stamped e.inode t).words)
      (new + 44) e.bytes) 4 (new + e.span) := by
  have hspan : e.span = 44 + e.bytes.length := rfl
  have hfits : Fits (stamped e.inode t) := stamped_fits (he.inode ▸ loadInode_fits)
  obtain ⟨m1, h1⟩ : ∃ m1, m1 = storeWords m new (stamped e.inode t).words := ⟨_, rfl⟩
  have hcopy : wfsincpy m cur new t = m1 := by
    rw [wfsincpy_eq (by omega), he.inode, h1]
  have hsize : loadWord m1 (cur + 24) = e.bytes.length := by
    rcases hown with rfl | hbelow | habove
    · rw [h1, ← loadInode_size, loadInode_storeWords hfits]
      exact he.size
    · rw [h1, loadWord_storeWords_of_disjoint (by rw [words_length]; omega), he.size_eq]
    · rw [h1, loadWord_storeWords_of_disjoint (by omega), he.size_eq]
  have hbytes : loadBytes m1 (cur + 44) e.bytes.length = e.bytes := by
    rw [h1, loadBytes_congr fun x _ _ => storeWords_outside (by rw [words_length]; omega), he.bytes]
  have hhead1 : loadWord m1 4 = new := by
    rw [h1, loadWord_storeWords_of_disjoint (by omega), hhead]
  have hsize2 : loadWord (storeBytes m1 (new + 44) e.bytes) (cur + 24) = e.bytes.length := by
    rw [loadWord_storeBytes_of_disjoint (by omega), hsize]
  rw [moved, hcopy]
  simp only [copyBytes]
  rw [hsize, hbytes, hsize2, loadWord_storeBytes_of_disjoint (by omega), hhead1, h1, hspan,
    Nat.add_assoc]

theorem moved_head (he : EntryAt m cur e) (hcur : 8 ≤ cur) (hnew : 8 ≤ new)
    (hhead : loadWord m 4 = new)
    (hown : new = cur ∨ new + e.span ≤ cur + 24 ∨ cur + e.span ≤ new)
    (hroom : new + e.span < 4294967296) : loadWord (moved m cur new t) 4 = new + e.span := by
  rw [moved_eq he hcur hnew hhead hown, loadWord_storeWord, Nat.mod_eq_of_lt hroom]

theorem moved_outside (he : EntryAt m cur e) (hcur : 8 ≤ cur) (hnew : 8 ≤ new)
    (hhead : loadWord m 4 = new)
    (hown : new = cur ∨ new + e.span ≤ cur + 24 ∨ cur + e.span ≤ new) {x : ℕ} (hx : 8 ≤ x)
    (hout : x < new ∨ new + e.span ≤ x) : moved m cur new t x = m x := by
  have hspan : e.span = 44 + e.bytes.length := rfl
  rw [moved_eq he hcur hnew hhead hown, storeWord_outside (by omega), storeBytes_outside (by omega),
    storeWords_outside (by rw [words_length]; omega)]

theorem moved_entry (he : EntryAt m cur e) (hcur : 8 ≤ cur) (hnew : 8 ≤ new)
    (hhead : loadWord m 4 = new)
    (hown : new = cur ∨ new + e.span ≤ cur + 24 ∨ cur + e.span ≤ new) :
    EntryAt (moved m cur new t) new (copyEntry t e) := by
  have hfits : Fits (stamped e.inode t) := stamped_fits (he.inode ▸ loadInode_fits)
  rw [moved_eq he hcur hnew hhead hown]
  refine ⟨?_, he.size, ?_⟩
  · rw [loadInode_congr fun x hx hx' => (storeWord_outside (by omega)).trans
      (storeBytes_outside (by omega)), loadInode_storeWords hfits]
    rfl
  · exact (loadBytes_congr fun x hx _ => storeWord_outside (by omega)).trans loadBytes_storeBytes

end Move

/-- The log after `k` rounds. -/
def compacted (time : ℕ → ℕ) (L : List Entry) : ℕ → List Entry
  | 0 => []
  | k + 1 =>
    match entryOf L k with
    | some (_, e) => compacted time L k ++ [copyEntry (time k) e]
    | none => compacted time L k

section Compacted

variable {time : ℕ → ℕ} {s : Wfs} {L : List Entry} {i k n a : ℕ} {e x : Entry}

@[simp] theorem copyEntry_span (t : ℕ) : (copyEntry t e).span = e.span := rfl

@[simp] theorem copyEntry_number (t : ℕ) : (copyEntry t e).number = e.number := rfl

theorem compacted_concat_le (hk : k ≤ x.number) :
    compacted time (L ++ [x]) k = compacted time L k := by
  induction k with
  | zero => rfl
  | succ k ih => rw [compacted, compacted, ih (by omega), entryOf_concat, if_neg (by omega)]

/-- Each entry of the log pays for at most one copy. -/
theorem spans_compacted_concat :
    spans (compacted time (L ++ [x]) k) ≤ spans (compacted time L k) + x.span := by
  induction k with
  | zero => simp [compacted]
  | succ k ih =>
    by_cases hk : x.number = k
    · rw [compacted, entryOf_concat, if_pos hk, compacted_concat_le (by omega), compacted]
      have hmono : spans (compacted time L k) ≤ spans (match entryOf L k with
          | some (_, e) => compacted time L k ++ [copyEntry (time k) e]
          | none => compacted time L k) := by
        split <;> simp
      split_ifs
      · simp only [spans_append, spans_cons, copyEntry_span, spans_nil]
        omega
      · dsimp only
        omega
    · rw [compacted, compacted, entryOf_concat, if_neg hk]
      split
      · simp only [spans_append, spans_cons, copyEntry_span, spans_nil]
        omega
      · exact ih

theorem spans_compacted_le : spans (compacted time L k) ≤ spans L := by
  induction L using List.reverseRecOn with
  | nil =>
    have hnil : compacted time [] k = [] := by
      induction k with
      | zero => rfl
      | succ k ih => rw [compacted, ih]; rfl
    rw [hnil]
  | append_singleton L x ih =>
    have hconcat := @spans_compacted_concat time L k x
    rw [spans_append, spans_cons, spans_nil]
    omega

theorem lastAt_compacted : lastAt (compacted time L k) 8 n =
    if n < k then (entryOf L n).map fun r =>
      (8 + spans (compacted time L n), copyEntry (time n) r.2)
    else none := by
  induction k with
  | zero => rfl
  | succ k ih =>
    rw [compacted]
    cases hk : entryOf L k with
    | none =>
      dsimp only
      rw [ih]
      rcases Nat.lt_trichotomy n k with hlt | rfl | hgt
      · rw [if_pos hlt, if_pos (by omega)]
      · rw [if_neg (by omega), if_pos (by omega), hk]
        rfl
      · rw [if_neg (by omega), if_neg (by omega)]
    | some r =>
      obtain ⟨a, e⟩ := r
      dsimp only
      rw [lastAt_concat, copyEntry_number, (entryOf_found hk).2, ih]
      rcases Nat.lt_trichotomy n k with hlt | rfl | hgt
      · rw [if_neg (by omega), if_pos hlt, if_pos (by omega)]
      · rw [if_pos rfl, if_pos (by omega), hk]
        rfl
      · rw [if_neg (by omega), if_neg (by omega), if_neg (by omega)]

theorem mem_compacted (h : x ∈ compacted time L k) :
    ∃ j < k, ∃ a e, entryOf L j = some (a, e) ∧ x = copyEntry (time j) e := by
  induction k with
  | zero => cases h
  | succ k ih =>
    have hrec : x ∈ compacted time L k →
        ∃ j < k + 1, ∃ a e, entryOf L j = some (a, e) ∧ x = copyEntry (time j) e := fun hx => by
      obtain ⟨j, hj, hrest⟩ := ih hx
      exact ⟨j, by omega, hrest⟩
    rw [compacted] at h
    split at h
    next a e hk =>
      rcases List.mem_append.mp h with hx | hx
      · exact hrec hx
      · exact ⟨k, by omega, a, e, hk, List.mem_singleton.mp hx⟩
    next => exact hrec h

end Compacted

/-- The image after `k` rounds, on a log `L` that `all_le` describes: the copies are in place
and the entries still to be read are intact. -/
structure Compacting (time : ℕ → ℕ) (L : List Entry) (k : ℕ) (s : Wfs) : Prop where
  tiled : Tiled s.data 8 (compacted time L k) s.head
  rest : ∀ j, k ≤ j → j < 256 → ∀ a e, entryOf L j = some (a, e) → EntryAt s.data a e
  ahead : ∀ j, k ≤ j → s.all_le j = table L j
  dead : ∀ j, entryOf L j = none → s.all_le j = 0

section Loop

variable {time : ℕ → ℕ} {s t : Wfs} {L : List Entry} {i k a : ℕ} {e : Entry}

theorem liveSpan_some (h : Rep t L) (ht : t.all_le = table L) (he : entryOf L i = some (a, e)) :
    liveSpan t i = e.span := by
  have hf := (entryOf_found he).1
  have hlo := hf.lower h
  rw [liveSpan, ht, entryOf_table he, if_neg (by omega), (hf.entryAt h).size_eq, Entry.span]

theorem target_eq (h : Rep t L) (ht : t.all_le = table L) :
    target t k = 8 + spans (compacted time L k) := by
  induction k with
  | zero => rfl
  | succ k ih =>
    rw [target] at ih ⊢
    rw [List.range_succ, List.map_append, List.sum_append, List.map_singleton, List.sum_singleton,
      compacted]
    cases hk : entryOf L k with
    | none =>
      have hzero : liveSpan t k = 0 := by rw [liveSpan, ht, if_pos (entryOf_none hk)]
      rw [hzero]
      exact ih
    | some r =>
      obtain ⟨b, d⟩ := r
      rw [liveSpan_some h ht hk]
      simp only [spans_append, spans_cons, copyEntry_span, spans_nil]
      omega

/-- What `Apart` says of two live entries. -/
theorem apart_entries (h : Rep t L) (ht : t.all_le = table L) (hapart : Apart t) (hk : k < 256)
    (he : entryOf L k = some (a, e)) (hnew : s.head = target t k) :
    (s.head = a ∨ s.head + e.span ≤ a + 24 ∨ a + e.span ≤ s.head) ∧
      ∀ j < 256, k < j → ∀ b d, entryOf L j = some (b, d) →
        s.head + e.span ≤ b ∨ b + d.span ≤ s.head := by
  have hlo := (entryOf_found he).1.lower h
  have hne : t.all_le k ≠ 0 := by
    rw [ht, entryOf_table he]
    omega
  obtain ⟨hown, hothers⟩ := hapart k hk hne
  rw [OffSource, liveSpan_some h ht he, ht, entryOf_table he, ← hnew] at hown
  refine ⟨hown, fun j hj hkj b d hd => ?_⟩
  have hlo' := (entryOf_found hd).1.lower h
  have hne' : t.all_le j ≠ 0 := by
    rw [ht, entryOf_table hd]
    omega
  have hother := hothers j hj hkj hne'
  rwa [OffEntry, liveSpan_some h ht he, liveSpan_some h ht hd, ht, entryOf_table hd,
    ← hnew] at hother

theorem compactStep_moved (hne : s.all_le i ≠ 0) : compactStep time s i =
    { s with
      data := moved s.data (s.all_le i) s.head (time i)
      all_le := Function.update s.all_le i s.head } := by
  rw [compactStep, if_neg hne]
  rfl

theorem Compacting.step (hc : Compacting time L k s) (h : Rep t L) (ht : t.all_le = table L)
    (hapart : Apart t) (hk : k < 256) : Compacting time L (k + 1) (compactStep time s k) := by
  have hend := hc.tiled.end_eq
  have hcur := hc.ahead k le_rfl
  cases he : entryOf L k with
  | none =>
    have hskip : compactStep time s k = s := by rw [compactStep, if_pos (hc.dead k he)]
    rw [hskip]
    refine ⟨?_, fun j hj => hc.rest j (by omega), fun j hj => hc.ahead j (by omega), hc.dead⟩
    rw [compacted, he]
    exact hc.tiled
  | some r =>
    obtain ⟨a, e⟩ := r
    have hnew : s.head = target t k := by rw [hend, target_eq h ht]
    obtain ⟨hown, hothers⟩ := apart_entries h ht hapart hk he hnew
    have hlo := (entryOf_found he).1.lower h
    have hentry := hc.rest k le_rfl hk a e he
    rw [entryOf_table he] at hcur
    have hroom : s.head + e.span < 4294967296 := by
      have hnext : spans (compacted time L (k + 1)) = spans (compacted time L k) + e.span := by
        rw [compacted, he]
        simp
      have hbound := @spans_compacted_le time L (k + 1)
      have htotal := h.tiled.end_eq
      have hlt : t.head < 4294967296 := loadWord_lt
      omega
    have hold : loadWord s.data 4 = s.head := rfl
    have hnew8 : 8 ≤ s.head := by omega
    have houtside : ∀ x, 8 ≤ x → x < s.head ∨ s.head + e.span ≤ x →
        moved s.data a s.head (time k) x = s.data x := fun x hx hout =>
      moved_outside hentry hlo hnew8 hold hown hx hout
    have hhead : loadWord (moved s.data a s.head (time k)) 4 = s.head + e.span :=
      moved_head hentry hlo hnew8 hold hown hroom
    rw [compactStep_moved (by omega), hcur]
    refine ⟨?_, ?_, ?_, ?_⟩
    · show Tiled (moved s.data a s.head (time k)) 8 (compacted time L (k + 1))
        (loadWord (moved s.data a s.head (time k)) 4)
      rw [compacted, he, hhead]
      dsimp only
      rw [tiled_append, ← hend]
      refine ⟨hc.tiled.congr fun x hx hx' => (houtside x hx (Or.inl hx')).symm, ?_, rfl⟩
      exact moved_entry hentry hlo hnew8 hold hown
    · intro j hj hj' b d hd
      have hdlo := (entryOf_found hd).1.lower h
      have hapartj := hothers j hj' (by omega) b d hd
      exact (hc.rest j (by omega) hj' b d hd).congr fun x hx hx' =>
        (houtside x (by omega) (by omega)).symm
    · intro j hj
      dsimp only
      rw [Function.update_of_ne (by omega)]
      exact hc.ahead j (by omega)
    · intro j hj
      dsimp only
      rw [Function.update_of_ne (fun hjk => by rw [hjk, he] at hj; cases hj)]
      exact hc.dead j hj

theorem compacting_start (h : Rep t L) (ht : t.all_le = table L) :
    Compacting time L 0 { t with data := storeWord t.data 4 8 } := by
  refine ⟨?_, ?_, fun j _ => congrFun ht j, fun j hj => ?_⟩
  · rw [Wfs.head, loadWord_storeWord]
    rfl
  · intro j _ _ b d hd
    have hf := (entryOf_found hd).1
    have hlo := hf.lower h
    exact (hf.entryAt h).congr fun x hx _ => (storeWord_outside (by omega)).symm
  · dsimp only
    rw [ht, entryOf_none hj]

theorem compacting_run (h : Rep t L) (ht : t.all_le = table L) (hapart : Apart t) (hk : k ≤ 256) :
    Compacting time L k
      ((List.range k).foldl (compactStep time) { t with data := storeWord t.data 4 8 }) := by
  induction k with
  | zero => exact compacting_start h ht
  | succ k ih =>
    rw [List.range_succ, List.foldl_append]
    exact (ih (by omega)).step h ht hapart (by omega)

theorem Compacting.rep (hc : Compacting time L k s) (h : Rep t L) (hk : k = 256) :
    Rep s (compacted time L k) := by
  refine ⟨hc.tiled, ?_, ?_, ?_⟩
  · intro x hx
    obtain ⟨j, hj, a, e, he, rfl⟩ := mem_compacted hx
    rw [copyEntry_number, (entryOf_found he).2]
    omega
  · intro x hx hdir
    obtain ⟨j, _, a, e, he, rfl⟩ := mem_compacted hx
    exact h.dirs e (entryOf_found he).1.mem hdir
  · intro n hn
    cases he : entryOf L n with
    | none => exact hc.dead n he
    | some r =>
      obtain ⟨a, e⟩ := r
      obtain ⟨hf, hnum⟩ := entryOf_found he
      have hlt := h.numbers e hf.mem
      have hlast := lastAt_eq_none (a := 8).mpr hn
      rw [lastAt_compacted, if_pos (by omega), he] at hlast
      cases hlast

theorem compact_rep (h : Rep t L) (ht : t.all_le = table L) (hapart : Apart t) :
    Rep (compact time t) (compacted time L 256) :=
  (compacting_run h ht hapart le_rfl).rep h rfl

end Loop

def entrySnapshot (e : Entry) : Snapshot :=
  ⟨e.inode.mode, e.inode.uid, e.inode.gid, e.inode.flags, e.inode.links, e.inode.size, e.bytes⟩

/-- The outcome of a walk over the log. -/
def walkOutcome (m : Mem) (L : List Entry) (tokens : List (List UInt8)) (a : ℕ) : Run (Option ℕ) :=
  match walkLog m L tokens a with
  | .error f => .error f
  | .ok r => .ok (r.map (loadWord m))

/-- The last entry of the number is a deleted one. -/
def buried (L : List Entry) (n : ℕ) : Bool :=
  match lastAt L 8 n with
  | some (_, e) => decide (e.inode.deleted ≠ 0)
  | none => false

section Reading

variable {time : ℕ → ℕ} {s t : Wfs} {L : List Entry} {n a b : ℕ} {e : Entry} {m : Mem}
  {token : List UInt8} {rest : List (List UInt8)} {d : Dentry}

theorem get_number_inode_of_entryOf (h : Rep s L) (he : entryOf L n = some (a, e)) :
    get_number_inode s n = .ok (sync s L, some a) := by
  obtain ⟨hf, hn⟩ := entryOf_found he
  have hl := hf.last
  rw [hn] at hl
  rw [get_number_inode_rep h, hl]
  simp [hf.live]

theorem snapshot_rep (h : Rep s L) :
    snapshot s n = (entryOf L n).map fun r => entrySnapshot r.2 := by
  cases he : entryOf L n with
  | none =>
    rw [entryOf] at he
    rw [snapshot, get_number_inode_rep h]
    split at he
    next b d hl =>
      rw [hl]
      split_ifs at he with hlive
      simp [hlive]
    next hl =>
      rw [hl]
      rfl
  | some r =>
    obtain ⟨a, e⟩ := r
    have hat := (entryOf_found he).1.entryAt h
    rw [snapshot, get_number_inode_of_entryOf h he]
    simp only [snapshotAt, hat.inode, hat.size, hat.bytes, entrySnapshot, Option.map_some]

theorem buried_of_entryOf (he : entryOf L n = some (a, e)) : buried L n = false := by
  obtain ⟨hf, hn⟩ := entryOf_found he
  have hl := hf.last
  rw [hn] at hl
  simp [buried, hl, hf.live]

theorem get_number_inode_buried (h : Rep s L) :
    (∃ s', get_number_inode s n = .ok (s', none)) ↔ buried L n = true := by
  rw [get_number_inode_rep h, buried]
  cases lastAt L 8 n with
  | none => simp
  | some r =>
    obtain ⟨b, x⟩ := r
    by_cases hlive : x.inode.deleted = 0 <;> simp [hlive]

theorem get_number_inode_live (h : Rep s L) :
    (∃ s', get_number_inode s n = .ok (s', some b)) ↔ ∃ e, entryOf L n = some (b, e) := by
  rw [get_number_inode_rep h, entryOf]
  cases lastAt L 8 n with
  | none => simp
  | some r =>
    obtain ⟨c, x⟩ := r
    by_cases hlive : x.inode.deleted = 0 <;> simp [hlive]

/-- One component: lookup in the list of dentries, then the last entry of its number. -/
theorem walkOutcome_cons {ds : List Dentry} (he : EntryAt m a e) (hds : e.bytes = contents ds)
    (h0 : (0 : UInt8) ∉ token) : walkOutcome m L (token :: rest) a =
      match ds.find? (fun d => d.name = token) with
      | none => .ok none
      | some d =>
        match entryOf L d.inode_number with
        | some (b, _) => walkOutcome m L rest b
        | none => if rest = [] ∧ buried L d.inode_number then .ok none else .error .nullEntry := by
  rcases lookupDentry_dentries he hds h0 with ⟨c, d, hlook, hfind, hat⟩ | ⟨hlook, hfind⟩
  · have hsmall := d.small
    have hnum : loadLong m (c + 32) % 4294967296 = d.inode_number := by
      rw [loadLong_dentry hat, Nat.mod_eq_of_lt (by omega)]
    rw [walkOutcome, walkLog, hlook, hfind]
    dsimp only
    rw [hnum, entryOf, buried]
    cases lastAt L 8 d.inode_number with
    | none => simp
    | some r =>
      obtain ⟨b, x⟩ := r
      dsimp only
      by_cases hlive : x.inode.deleted = 0
      · rw [if_pos hlive, if_pos hlive]
        rfl
      · rw [if_neg hlive, if_neg hlive]
        by_cases hrest : rest = [] <;> simp [hrest, hlive]
  · rw [walkOutcome, walkLog, hlook, hfind]
    rfl

theorem endsDead_cons {ds : List Dentry} (h : Rep s L) (he : EntryAt s.data a e)
    (hds : e.bytes = contents ds) (h0 : (0 : UInt8) ∉ token) :
    EndsDead s (token :: rest) a ↔
      match ds.find? (fun d => d.name = token) with
      | none => False
      | some d =>
        match entryOf L d.inode_number with
        | some (b, _) => EndsDead s rest b
        | none => rest = [] ∧ buried L d.inode_number = true := by
  rcases lookupDentry_dentries he hds h0 with ⟨c, d, hlook, hfind, hat⟩ | ⟨hlook, hfind⟩
  · have hsmall := d.small
    have hnum : loadLong s.data (c + 32) % 4294967296 = d.inode_number := by
      rw [loadLong_dentry hat, Nat.mod_eq_of_lt (by omega)]
    have hunfold : EndsDead s (token :: rest) a ↔
        (rest = [] ∧ ∃ s', get_number_inode s d.inode_number = .ok (s', none)) ∨
          ∃ s' b, get_number_inode s d.inode_number = .ok (s', some b) ∧ EndsDead s rest b := by
      rw [EndsDead, hlook, ← hnum]
      simp only [Option.some.injEq, exists_eq_left']
    rw [hunfold, get_number_inode_buried h, hfind]
    dsimp only
    cases hd : entryOf L d.inode_number with
    | none =>
      constructor
      · rintro (hdead | ⟨s', b, hget, _⟩)
        · exact hdead
        · obtain ⟨x, hx⟩ := (get_number_inode_live h).mp ⟨s', hget⟩
          rw [hd] at hx
          cases hx
      · exact Or.inl
    | some r =>
      obtain ⟨b, x⟩ := r
      constructor
      · rintro (⟨_, hdead⟩ | ⟨s', b', hget, hrest⟩)
        · rw [buried_of_entryOf hd] at hdead
          cases hdead
        · obtain ⟨x', hx'⟩ := (get_number_inode_live h).mp ⟨s', hget⟩
          rw [hd] at hx'
          cases hx'
          exact hrest
      · intro hrest
        exact Or.inr ⟨sync s L, b, get_number_inode_of_entryOf h hd, hrest⟩
  · rw [hfind, EndsDead, hlook]
    simp

theorem outcome_rep (h : Rep s L) (path : List UInt8) : outcome s path =
    match entryOf L 0 with
    | none => if buried L 0 then .ok none else .error .nullEntry
    | some (root, _) =>
      if isDir s.data root then walkOutcome s.data L (strtok [] path) root else .ok none := by
  rw [outcome, get_path_inode_rep h, resolve_eq, entryOf, buried]
  cases hl : lastAt L 8 0 with
  | none => rfl
  | some r =>
    obtain ⟨root, e⟩ := r
    dsimp only
    by_cases hlive : e.inode.deleted = 0
    · by_cases hdir : isDir s.data root = true
      · rw [if_neg (by simp [hlive, hdir]), if_pos hlive]
        dsimp only
        rw [if_pos hdir, walkOutcome]
        cases walkLog s.data L (strtok [] path) root with
        | error f => rfl
        | ok o => rfl
      · rw [if_pos (by simp [hdir]), if_pos hlive]
        dsimp only
        rw [if_neg hdir]
        rfl
    · rw [if_pos (by simp [hlive]), if_neg hlive]
      simp [hlive]

/-- Compaction changes where a live entry is, and its times. -/
theorem entryOf_compacted (h : Rep t L) : ∃ f : ℕ → ℕ, ∀ n,
    entryOf (compacted time L 256) n =
      (entryOf L n).map fun r => (f n, copyEntry (time n) r.2) := by
  refine ⟨fun n => 8 + spans (compacted time L n), fun n => ?_⟩
  have hlast := @lastAt_compacted time L 256 n
  cases he : entryOf L n with
  | none =>
    rw [he] at hlast
    rw [entryOf, hlast]
    split_ifs <;> rfl
  | some r =>
    obtain ⟨a, e⟩ := r
    obtain ⟨hf, hn⟩ := entryOf_found he
    have hlt := h.numbers e hf.mem
    rw [he, if_pos (by omega)] at hlast
    rw [entryOf, hlast]
    exact if_pos hf.live

/-- The compacted log holds live entries only. -/
theorem buried_compacted : buried (compacted time L 256) n = false := by
  rw [buried, lastAt_compacted]
  cases he : entryOf L n with
  | none => split_ifs <;> rfl
  | some r =>
    obtain ⟨a, e⟩ := r
    split_ifs
    · simp [copyEntry, stamped, (entryOf_found he).1.live]
    · rfl

/-- Walks have the same outcome on both logs, unless they end at a deleted inode. -/
theorem walkOutcome_compacted (h : Rep t L) {t' : Wfs} {L' : List Entry} (h' : Rep t' L')
    {f : ℕ → ℕ} (hL' : ∀ n, entryOf L' n = (entryOf L n).map fun r =>
      (f n, copyEntry (time n) r.2)) (hclear : ∀ n, buried L' n = false)
    {tokens : List (List UInt8)} (h0 : ∀ token ∈ tokens, (0 : UInt8) ∉ token)
    (he : entryOf L n = some (a, e)) (hw : WholeWalk t tokens a) :
    walkOutcome t'.data L' tokens (f n) = walkOutcome t.data L tokens a ↔
      ¬ EndsDead t tokens a := by
  have hat := (entryOf_found he).1.entryAt h
  have he' : entryOf L' n = some (f n, copyEntry (time n) e) := by rw [hL', he]; rfl
  have hat' := (entryOf_found he').1.entryAt h'
  induction tokens generalizing n a e with
  | nil =>
    simp [walkOutcome, walkLog, hat.number_eq, hat'.number_eq, EndsDead]
  | cons token rest ih =>
    obtain ⟨⟨ds, hds⟩, hnext⟩ := hw
    rw [hat.size_eq, hat.bytes] at hds
    rw [List.forall_mem_cons] at h0
    rw [walkOutcome_cons hat hds h0.1, walkOutcome_cons hat' hds h0.1, endsDead_cons h hat hds h0.1]
    cases hfind : ds.find? fun d => d.name = token with
    | none => simp
    | some d =>
      dsimp only
      rw [hL']
      cases hd : entryOf L d.inode_number with
      | none =>
        -- The number is missing from the compacted log; it made a difference if its deleted
        -- entry was there and the walk ended with it.
        simp only [Option.map_none, hclear, Bool.false_eq_true, and_false, if_false]
        split_ifs with hdead
        · simp [hdead]
        · simp [hdead]
      | some r =>
        obtain ⟨b, x⟩ := r
        have hx' : entryOf L' d.inode_number =
            some (f d.inode_number, copyEntry (time d.inode_number) x) := by rw [hL', hd]; rfl
        have hwalk : WholeWalk t rest b := by
          rcases lookupDentry_dentries hat hds h0.1 with ⟨c, d', hlook, hfind', hc⟩ | ⟨_, hnone⟩
          · rw [hfind] at hfind'
            cases hfind'
            have hsmall := d.small
            refine hnext c (sync t L) b hlook ?_
            rw [loadLong_dentry hc, Nat.mod_eq_of_lt (by omega), get_number_inode_of_entryOf h hd]
          · rw [hfind] at hnone
            cases hnone
        exact ih h0.2 hd hwalk ((entryOf_found hd).1.entryAt h) hx'
          ((entryOf_found hx').1.entryAt h')

/-- The outcome for one path. -/
theorem outcome_compacted (h : Rep t L) (ht : t.all_le = table L) (hapart : Apart t) (path : Path)
    (hwhole : WholePath t path) :
    outcome (compact time t) path = outcome t path ↔
      (∀ s', get_number_inode t 0 ≠ .ok (s', none)) ∧
        ∀ s' root, get_number_inode t 0 = .ok (s', some root) → isDir t.data root = true →
          ¬ EndsDead t (strtok [] path) root := by
  have h' := @compact_rep time _ _ h ht hapart
  obtain ⟨f, hf⟩ := @entryOf_compacted time _ _ h
  rw [outcome_rep h', outcome_rep h, hf, buried_compacted]
  cases he : entryOf L 0 with
  | none =>
    have hnever : ∀ s' root, get_number_inode t 0 ≠ .ok (s', some root) := fun s' root hget => by
      obtain ⟨x, hx⟩ := (get_number_inode_live h).mp ⟨s', hget⟩
      rw [he] at hx
      cases hx
    have hburied := @get_number_inode_buried _ _ 0 h
    by_cases hb : buried L 0 = true
    · obtain ⟨s', hs'⟩ := hburied.mpr hb
      simp [hb, hs']
    · have hnone : ∀ s', get_number_inode t 0 ≠ .ok (s', none) := fun s' hs' =>
        hb (hburied.mp ⟨s', hs'⟩)
      simp [hb, hnone, hnever]
  | some r =>
    obtain ⟨root, e⟩ := r
    have hget := get_number_inode_of_entryOf h he
    have he' : entryOf (compacted time L 256) 0 = some (f 0, copyEntry (time 0) e) := by
      rw [hf, he]
      rfl
    have hdir : isDir (compact time t).data (f 0) = isDir t.data root := by
      rw [((entryOf_found he').1.entryAt h').isDir_eq, ((entryOf_found he).1.entryAt h).isDir_eq]
      rfl
    have hclean : ∀ token ∈ strtok [] path, (0 : UInt8) ∉ token := fun token hmem hzero =>
      path.2 (by simpa using mem_strtok hmem hzero)
    have hsame := walkOutcome_compacted h h' hf (fun _ => buried_compacted) hclean he
      (hwhole _ _ hget)
    simp only [Option.map_some, hdir, hget]
    by_cases hisDir : isDir t.data root = true
    · simp [hisDir, hsame]
    · simp [hisDir]

theorem compact_preserved_iff (h : Rep t L) (ht : t.all_le = table L) (hapart : Apart t) :
    Preserved t (compact time t) ↔ Linked t := by
  have h' := @compact_rep time _ _ h ht hapart
  obtain ⟨f, hf⟩ := @entryOf_compacted time _ _ h
  have hsnap : ∀ n < 256, snapshot (compact time t) n = snapshot t n := fun n _ => by
    rw [snapshot_rep h', snapshot_rep h, hf]
    cases entryOf L n <;> rfl
  constructor
  · rintro ⟨_, _, hpaths⟩
    refine ⟨fun s' hs' => ?_, fun path s' root hwhole hget hdir => ?_⟩
    · have hwhole : WholePath t [slash] := fun s'' a hget => by
        rw [hs'] at hget
        cases hget
      have hroot := (outcome_compacted h ht hapart ⟨[slash], by decide⟩ hwhole).mp
        (hpaths ⟨[slash], by decide⟩ hwhole)
      exact hroot.1 s' hs'
    · exact ((outcome_compacted h ht hapart path hwhole).mp (hpaths path hwhole)).2 s' root hget hdir
  · rintro ⟨hroot, hlinked⟩
    refine ⟨⟨_, h'⟩, hsnap, fun path hwhole => ?_⟩
    exact (outcome_compacted h ht hapart path hwhole).mpr
      ⟨hroot, fun s' root => hlinked path s' root hwhole⟩

/-- Every number a whole live entry names is live, and so is the root. -/
def NamesLive (s : Wfs) : Prop :=
  s.all_le 0 ≠ 0 ∧ ∀ i < 256, s.all_le i ≠ 0 →
    ∀ k < (loadWord s.data (s.all_le i + 24) + 39) / 40, 40 ∣ loadWord s.data (s.all_le i + 24) →
      s.all_le (loadLong s.data (s.all_le i + 44 + 40 * k + 32) % 4294967296) ≠ 0

theorem contents_dvd (ds : List Dentry) : 40 ∣ (contents ds).length := by
  rw [contents_length]
  exact dvd_mul_right 40 _

/-- A walk among live names does not end at a deleted inode. -/
theorem NamesLive.not_endsDead (hn : NamesLive t) (h : Rep t L) (ht : t.all_le = table L)
    {tokens : List (List UInt8)} (he : entryOf L n = some (a, e)) (hw : WholeWalk t tokens a) :
    ¬ EndsDead t tokens a := by
  induction tokens generalizing n a e with
  | nil => exact not_false
  | cons token rest ih =>
    obtain ⟨⟨ds, hds⟩, hnext⟩ := hw
    have hf := (entryOf_found he).1
    have hlo := hf.lower h
    have hnum := h.numbers e hf.mem
    have hat : t.all_le n = a := by rw [ht, entryOf_table he]
    have hdvd : 40 ∣ loadWord t.data (a + 24) := by
      have hlen := congrArg List.length hds
      rw [loadBytes_length] at hlen
      exact hlen ▸ contents_dvd ds
    rintro ⟨d, hlook, ⟨_, hdead⟩ | ⟨s', b, hget, hrest⟩⟩
    · obtain ⟨hlt, _, k, hk⟩ := findDentry_some hlook
      have hlive := hn.2 n ((entryOf_found he).2 ▸ hnum) (by omega) k
        (by rw [hat]; omega) (by rw [hat]; exact hdvd)
      rw [hat, ← hk, ht] at hlive
      have hgone := (get_number_inode_buried h).mp hdead
      rw [table_eq] at hlive
      rw [buried] at hgone
      split at hgone
      next b x hl =>
        rw [hl] at hlive
        dsimp only at hlive
        rw [if_neg (of_decide_eq_true hgone)] at hlive
        exact hlive rfl
      next => cases hgone
    · obtain ⟨x, hx⟩ := (get_number_inode_live h).mp ⟨s', hget⟩
      exact ih hx (hnext d s' b hlook hget) hrest

theorem linked_of_namesLive (h : Rep t L) (ht : t.all_le = table L) (hn : NamesLive t) :
    Linked t := by
  refine ⟨fun s' hs' => ?_, fun path s' root hwhole hget _ => ?_⟩
  · have hgone := (get_number_inode_buried h).mp ⟨s', hs'⟩
    have hroot := hn.1
    rw [ht, table_eq] at hroot
    rw [buried] at hgone
    split at hgone
    next b x hl =>
      rw [hl] at hroot
      exact hroot (if_neg (of_decide_eq_true hgone))
    next => cases hgone
  · obtain ⟨x, hx⟩ := (get_number_inode_live h).mp ⟨s', hget⟩
    exact hn.not_endsDead h ht hx (hwhole s' root hget)

/-- The image `fsck.wfs` starts from, after a run. -/
theorem scanned_rep {disk : Mem} {total_size : ℕ} {clock : ℕ → ℕ} {es : List Event}
    {root : Option ℕ} (hroom : Along RoomyStep (mkfs disk total_size clock) es)
    (hrun : run (mkfs disk total_size clock) es = some s)
    (hget : get_number_inode s 0 = .ok (t, root)) : ∃ L, Rep t L ∧ t.all_le = table L := by
  obtain ⟨L, h⟩ := run_rep (mkfs_rep disk total_size clock) hroom hrun
  rw [get_number_inode_rep h] at hget
  split at hget
  next => cases hget
  next =>
    simp only [Except.ok.injEq, Prod.mk.injEq] at hget
    obtain ⟨rfl, _⟩ := hget
    exact ⟨L, h.sync, rfl⟩

end Reading

instance instDecidableNamesLive (s : Wfs) : Decidable (NamesLive s) :=
  instDecidableAnd

/-- On every reachable image whose live entries are far enough apart, compaction preserves
the file system exactly when no name of a deleted inode is left. -/
theorem apart_compaction_preserved {disk : Mem} {total_size : ℕ} {time clock : ℕ → ℕ}
    {es : List Event} {s t : Wfs} {root : Option ℕ}
    (hroom : Along RoomyStep (mkfs disk total_size time) es)
    (hrun : run (mkfs disk total_size time) es = some s)
    (hget : get_number_inode s 0 = .ok (t, root)) (hapart : Apart t) :
    Preserved t (compact clock t) ↔ Linked t := by
  obtain ⟨L, h, ht⟩ := scanned_rep hroom hrun hget
  exact compact_preserved_iff h ht hapart

/-- A write of five bytes to `/a`. -/
def writeA : Event :=
  ⟨quietEnv, .write ⟨[slash, 97], zero_notMem_pathA⟩ [104, 101, 108, 108, 111] 0⟩

/-- Two files and a write: the obsolete root and the obsolete version of the file leave
enough room. -/
theorem written_file_preserved : ∃ s t, run (zeroDisk 1000) [mknodA, writeA, mknodB] = some s ∧
    get_number_inode s 0 = .ok (t, some 229) ∧ Apart t ∧ Linked t ∧
      Preserved t (compact (fun _ => 7) t) := by
  have hroom : Along RoomyStep (zeroDisk 1000) [mknodA, writeA, mknodB] := by
    refine ⟨?_, fun s hs => ⟨?_, fun s' hs' => ⟨?_, fun _ _ => trivial⟩⟩⟩
    · unfold RoomyStep Roomy
      decide +kernel
    · rw [next_getD hs]
      unfold RoomyStep Roomy
      decide +kernel
    · rw [next_getD hs', next_getD hs]
      unfold RoomyStep Roomy
      decide +kernel
  have hsome : ((run (zeroDisk 1000) [mknodA, writeA, mknodB]).any fun s =>
      (get_number_inode s 0).toOption.any fun r =>
        decide (r.2 = some 229) && decide (Apart r.1 ∧ NamesLive r.1)) = true := by
    decide +kernel
  obtain ⟨s, hs, hst⟩ := (Option.any_eq_true _ _).mp hsome
  obtain ⟨⟨t, root⟩, hget, hst⟩ := Runs.exists_ok_of_any hst
  rw [Bool.and_eq_true, decide_eq_true_eq, decide_eq_true_eq] at hst
  dsimp only at hst
  obtain ⟨rfl, hapart, hlive⟩ := hst
  obtain ⟨L, h, ht⟩ := scanned_rep hroom hs hget
  have hlinked := linked_of_namesLive h ht hlive
  exact ⟨s, t, hs, hget, hapart, hlinked,
    (apart_compaction_preserved hroom hs hget hapart).mpr hlinked⟩

/-- After one `mknod` the new root lies at 52. Its copy at 8 runs over the size field at 76
before the loop reads it again, and the next copy lands in the dentries. -/
theorem small_root_destroyed : ∃ s t, run (zeroDisk 1000) [mknodA] = some s ∧
    get_number_inode s 0 = .ok (t, some 52) ∧
    (snapshot t 0).map Snapshot.bytes ≠ (snapshot (compact (fun _ => 7) t) 0).map Snapshot.bytes ∧
    ¬ Preserved t (compact (fun _ => 7) t) := by
  have hsome : ((run (zeroDisk 1000) [mknodA]).any fun s =>
      (get_number_inode s 0).toOption.any fun r =>
        decide (r.2 = some 52) && decide ((snapshot r.1 0).map Snapshot.bytes ≠
          (snapshot (compact (fun _ => 7) r.1) 0).map Snapshot.bytes)) = true := by
    decide +kernel
  obtain ⟨s, hs, hst⟩ := (Option.any_eq_true _ _).mp hsome
  obtain ⟨⟨t, root⟩, hget, hst⟩ := Runs.exists_ok_of_any hst
  rw [Bool.and_eq_true, decide_eq_true_eq, decide_eq_true_eq] at hst
  dsimp only at hst
  obtain ⟨rfl, hne⟩ := hst
  refine ⟨s, t, hs, hget, hne, fun hkept => hne ?_⟩
  rw [hkept.2.1 0 (by decide)]

end WfsCompaction
