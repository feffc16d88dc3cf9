import OsProjects.FileCalls
import OsProjects.NameTrees

/-! # Files with names

What the directories of the file system make together: a tree of names, in which the link count of
an inode is the number of its entries. Each change that a system call makes keeps it. -/
namespace NamedFiles

open ByteMemory CStrings DiskBlocks FileStore Directories PathNames FileCalls NameTrees

section Purpose

variable (sb : SuperBlock) (f : ℕ → File)

/-- The inodes with a name. -/
def alive : Finset ℕ :=
  (Finset.range sb.ninodes).filter fun i => (f i).type ≠ 0 ∧ (f i).nlink ≠ 0

def dirs : Finset ℕ := (alive sb f).filter fun i => (f i).type = T_DIR

/-- Slot 1 of a directory leads up. -/
abbrev up : ℕ := 1

/-- The slot is an entry, and not `.`. -/
def Holds (d : List UInt8) (k inum : ℕ) : Prop :=
  up ≤ k ∧ k < slots d ∧ inum ≠ 0 ∧ (slot d k).inum = inum

/-- The entries of the directories, but for `.`. -/
def entries : Finset (Entry ℕ ℕ) :=
  (dirs sb f).biUnion fun d =>
    ((Finset.Ico up (slots (f d).bytes)).filter fun k => (slot (f d).bytes k).inum ≠ 0).image
      fun k => ⟨d, k, (slot (f d).bytes k).inum⟩

/-- An element of a path, as far as the kernel looks at it. -/
structure Text (t : List UInt8) : Prop where
  nonempty : t ≠ []
  short : t.length ≤ DIRSIZ
  nonzero : 0 ∉ t
  element : slash ∉ t

structure Shape (d : ℕ) : Prop where
  dir : IsDir sb f d
  two_le : 2 ≤ slots (f d).bytes
  dot : slot (f d).bytes 0 = ⟨d, strncpy DIRSIZ FileCalls.dot⟩
  dotdot : (slot (f d).bytes up).inum ≠ 0 ∧
    (slot (f d).bytes up).name = strncpy DIRSIZ FileCalls.dotdot
  text : ∀ k < slots (f d).bytes, (slot (f d).bytes k).inum ≠ 0 →
    ∃ t, Text t ∧ (slot (f d).bytes k).name = strncpy DIRSIZ t
  once : ∀ k < slots (f d).bytes, ∀ k' < slots (f d).bytes,
    (slot (f d).bytes k).inum ≠ 0 → (slot (f d).bytes k').inum ≠ 0 →
    (slot (f d).bytes k).name = (slot (f d).bytes k').name → k = k'

structure Named : Prop where
  tree : Tree ROOTINO up (dirs sb f) (alive sb f) (entries sb f)
  count : ∀ i ∈ alive sb f, (f i).nlink = links (entries sb f) i
  shape : ∀ d ∈ dirs sb f, Shape sb f d

end Purpose

variable {sb : SuperBlock} {f g : ℕ → File} {d dp i inum k k' n : ℕ} {t name : List UInt8}
  {e : Entry ℕ ℕ}

section Membership

theorem mem_alive : i ∈ alive sb f ↔ Live sb f i := by
  rw [alive, Finset.mem_filter, Finset.mem_range]
  exact ⟨fun h => ⟨h.1, h.2.1, h.2.2⟩, fun h => ⟨h.inode, h.type, h.named⟩⟩

theorem mem_dirs : d ∈ dirs sb f ↔ Live sb f d ∧ (f d).type = T_DIR := by
  rw [dirs, Finset.mem_filter, mem_alive]

theorem mem_entries :
    e ∈ entries sb f ↔ e.dir ∈ dirs sb f ∧ Holds (f e.dir).bytes e.label e.node := by
  rw [entries, Finset.mem_biUnion]
  constructor
  · rintro ⟨d, hd, he⟩
    obtain ⟨k, hk, rfl⟩ := Finset.mem_image.mp he
    obtain ⟨hk, h0⟩ := Finset.mem_filter.mp hk
    obtain ⟨hle, hlt⟩ := Finset.mem_Ico.mp hk
    exact ⟨hd, hle, hlt, h0, rfl⟩
  · rintro ⟨hd, hle, hlt, h0, hnode⟩
    refine ⟨e.dir, hd, Finset.mem_image.mpr ⟨e.label, ?_, ?_⟩⟩
    · exact Finset.mem_filter.mpr ⟨Finset.mem_Ico.mpr ⟨hle, hlt⟩, hnode ▸ h0⟩
    · rw [hnode]

theorem Shape.congr (h : Shape sb f d) (htype : (g d).type = (f d).type)
    (hbytes : (g d).bytes = (f d).bytes) : Shape sb g d := by
  refine ⟨⟨h.dir.inode, htype.trans h.dir.type, ?_, ?_⟩, ?_, ?_, ?_, ?_, ?_⟩
  all_goals rw [hbytes]
  · exact h.dir.whole
  · exact h.dir.small
  · exact h.two_le
  · exact h.dot
  · exact h.dotdot
  · exact h.text
  · exact h.once

theorem live_iff : Live sb f i ↔ i < sb.ninodes ∧ (f i).type ≠ 0 ∧ (f i).nlink ≠ 0 :=
  ⟨fun h => ⟨h.inode, h.type, h.named⟩, fun h => ⟨h.1, h.2.1, h.2.2⟩⟩

theorem Named.of {D A : Finset ℕ} {E : Finset (Entry ℕ ℕ)} (halive : ∀ i, Live sb f i ↔ i ∈ A)
    (hdirs : ∀ d, d ∈ D ↔ d ∈ A ∧ (f d).type = T_DIR)
    (hentries : ∀ e, e ∈ E ↔ e.dir ∈ D ∧ Holds (f e.dir).bytes e.label e.node)
    (htree : Tree ROOTINO up D A E) (hcount : ∀ i ∈ A, (f i).nlink = links E i)
    (hshape : ∀ d ∈ D, Shape sb f d) : Named sb f := by
  have ha : alive sb f = A := Finset.ext fun i => mem_alive.trans (halive i)
  have hd : dirs sb f = D := Finset.ext fun i => by rw [mem_dirs, halive, hdirs]
  have he : entries sb f = E := Finset.ext fun e => by rw [mem_entries, hd, hentries]
  refine ⟨?_, ?_, ?_⟩
  · rw [ha, hd, he]
    exact htree
  · rw [ha, he]
    exact hcount
  · rw [hd]
    exact hshape

/-- The files with names decide what the names are. -/
theorem Named.congr (h : Named sb f) (halive : ∀ i, Live sb g i ↔ Live sb f i)
    (hsame : ∀ i, Live sb f i → (g i).type = (f i).type ∧ (g i).nlink = (f i).nlink)
    (hbytes : ∀ d ∈ dirs sb f, (g d).bytes = (f d).bytes) : Named sb g := by
  refine .of (fun i => (halive i).trans mem_alive.symm) (fun d => ?_) (fun e => ?_) h.tree
    (fun i hi => ?_) fun d hd => ?_
  · rw [mem_dirs, mem_alive]
    exact and_congr_right fun hd => by rw [(hsame d hd).1]
  · rw [mem_entries]
    exact and_congr_right fun hd => by rw [hbytes _ hd]
  · exact (hsame i (mem_alive.mp hi)).2.trans (h.count i hi)
  · exact (h.shape d hd).congr (hsame d (mem_dirs.mp hd).1).1 (hbytes d hd)

theorem Named.ne_zero (h : Named sb f) (hi : Live sb f i) : i ≠ 0 := by
  cases h.tree.reached i (mem_alive.mpr hi) with
  | root => decide
  | entry he _ _ => exact (mem_entries.mp he).2.2.2.1

theorem Named.root (h : Named sb f) : Live sb f ROOTINO :=
  mem_alive.mp (h.tree.subset h.tree.root_dir)

/-- What `namex` asks of the directories. -/
theorem Named.closed (h : Named sb f) : Closed sb f := by
  refine ⟨fun d hd ht => (h.shape d (mem_dirs.mpr ⟨hd, ht⟩)).dir, fun d hd ht k hk h0 => ?_,
    h.root⟩
  have hdir := mem_dirs.mpr ⟨hd, ht⟩
  cases k with
  | zero =>
    rw [(h.shape d hdir).dot]
    exact hd
  | succ k =>
    exact mem_alive.mp (h.tree.node ⟨d, k + 1, _⟩
      (mem_entries.mpr ⟨hdir, Nat.succ_le_succ k.zero_le, hk, h0, rfl⟩))

end Membership

section Slots

variable {d : List UInt8}

theorem slot_beyond (hd : DIRENT ∣ d.length) (hk : slots d ≤ k) : (slot d k).inum = 0 := by
  have hlen : DIRENT * slots d = d.length := Nat.mul_div_cancel' hd
  have hmul : DIRENT * slots d ≤ DIRENT * k := Nat.mul_le_mul_left _ hk
  rw [slot, List.drop_eq_nil_of_le (by omega)]
  rfl

theorem vacant_inum (hd : DIRENT ∣ d.length) : (slot d (vacant d)).inum = 0 := by
  rw [vacant]
  cases hfind : (List.range (slots d)).find? fun k => (slot d k).inum = 0 with
  | none => exact slot_beyond hd (Nat.le_refl _)
  | some k => simpa using List.find?_some hfind

/-- The directory with a slot that is cleared. -/
def cleared (d : List UInt8) (k : ℕ) : List UInt8 :=
  splice d (DIRENT * k) (List.replicate DIRENT 0)

theorem encode_zero : Dirent.encode ⟨0, List.replicate DIRSIZ 0⟩ = List.replicate DIRENT 0 := by
  decide

theorem slot_linked (hd : DIRENT ∣ d.length) (hi : inum < 65536) :
    slot (linked d name inum) k =
      if k = vacant d then ⟨inum, strncpy DIRSIZ name⟩ else slot d k :=
  slot_splice hd vacant_le ⟨hi, strncpy_length⟩

theorem slots_linked (name : List UInt8) (hd : DIRENT ∣ d.length) (hi : inum < 65536) :
    DIRENT ∣ (linked d name inum).length ∧
      slots (linked d name inum) = max (slots d) (vacant d + 1) :=
  slots_splice hd vacant_le ⟨hi, strncpy_length⟩

theorem fits_zero : Dirent.Fits ⟨0, List.replicate DIRSIZ 0⟩ := ⟨by decide, List.length_replicate⟩

theorem slot_cleared (hd : DIRENT ∣ d.length) (hk : k < slots d) :
    slot (cleared d k) k' = if k' = k then ⟨0, List.replicate DIRSIZ 0⟩ else slot d k' := by
  rw [cleared, ← encode_zero]
  exact slot_splice hd hk.le fits_zero

theorem slots_cleared (hd : DIRENT ∣ d.length) (hk : k < slots d) :
    DIRENT ∣ (cleared d k).length ∧ slots (cleared d k) = slots d := by
  have h := slots_splice hd hk.le fits_zero
  rw [encode_zero] at h
  exact ⟨h.1, h.2.trans (max_eq_left hk)⟩

theorem find_none {d : List UInt8} (h : find d name = none) (hk : k < slots d)
    (hused : (slot d k).inum ≠ 0) : namecmp name (slot d k).name ≠ 0 := by
  have hnot := List.find?_eq_none.mp h k (List.mem_range.mpr hk)
  rw [decide_eq_true_iff] at hnot
  exact fun hname => hnot ⟨hused, hname⟩

theorem namecmp_self : namecmp t t = 0 := by
  have h : ∀ n, strncmp n t t = 0 := by
    intro n
    induction n generalizing t with
    | zero => rfl
    | succ n ih =>
      rw [strncmp]
      split_ifs
      · exact ih
      · exact sub_self _
  exact h DIRSIZ

end Slots

section Shapes

/-- A name that is not found is a name that no slot has. -/
theorem Shape.name_ne (h : find (f d).bytes name = none) (hk : k < slots (f d).bytes)
    (hused : (slot (f d).bytes k).inum ≠ 0) :
    (slot (f d).bytes k).name ≠ strncpy DIRSIZ name := by
  intro hs
  have hne := find_none h hk hused
  rw [hs, namecmp_strncpy] at hne
  exact hne namecmp_self

/-- The first slot that is not in use is none of the first two. -/
theorem Shape.two_le_vacant (h : Shape sb f d) (h0 : d ≠ 0) : 2 ≤ vacant (f d).bytes := by
  have hzero := vacant_inum h.dir.whole
  rcases hv : vacant (f d).bytes with _ | _ | n
  · rw [hv, h.dot] at hzero
    exact absurd hzero h0
  · rw [hv] at hzero
    exact absurd hzero h.dotdot.1
  · omega

/-- A directory with an entry more. -/
theorem Shape.linked (h : Shape sb f d) (h0 : d ≠ 0) (hfind : find (f d).bytes name = none)
    (htext : Text name) (hinum : inum < 65536)
    (hsmall : (linked (f d).bytes name inum).length ≤ PageCache.MAXSIZE)
    (htype : (g d).type = (f d).type) (hbytes : (g d).bytes = linked (f d).bytes name inum) :
    Shape sb g d := by
  obtain ⟨hwhole, hslots⟩ := slots_linked name h.dir.whole hinum
  have hslot : ∀ k, slot (g d).bytes k = if k = vacant (f d).bytes then
      ⟨inum, strncpy DIRSIZ name⟩ else slot (f d).bytes k := fun k => by
    rw [hbytes, slot_linked h.dir.whole hinum]
  have hvacant := h.two_le_vacant h0
  have htwo := h.two_le
  have hold : ∀ k, k < slots (g d).bytes → k ≠ vacant (f d).bytes → k < slots (f d).bytes :=
    fun k hk hne => by
      rw [hbytes, hslots] at hk
      have := vacant_le (d := (f d).bytes)
      omega
  refine ⟨⟨h.dir.inode, htype.trans h.dir.type, hbytes ▸ hwhole, hbytes ▸ hsmall⟩, ?_, ?_, ?_, ?_,
    ?_⟩
  · rw [hbytes, hslots]
    omega
  · rw [hslot, if_neg (by omega)]
    exact h.dot
  · rw [hslot, if_neg (Nat.ne_of_lt hvacant)]
    exact h.dotdot
  · intro k hk hused
    rw [hslot] at hused ⊢
    split_ifs at hused ⊢ with hv
    · exact ⟨name, htext, rfl⟩
    · exact h.text k (hold k hk hv) hused
  · intro k hk k' hk' hused hused' hname
    rw [hslot] at hused hname
    rw [hslot k'] at hused' hname
    split_ifs at hused hused' hname with hv hv' hv'
    · rw [hv, hv']
    · exact absurd hname.symm (Shape.name_ne hfind (hold k' hk' hv') hused')
    · exact absurd hname (Shape.name_ne hfind (hold k hk hv) hused)
    · exact h.once k (hold k hk hv) k' (hold k' hk' hv') hused hused' hname

/-- A directory with an entry less. -/
theorem Shape.cleared (h : Shape sb f d) (hk : 2 ≤ n) (hlt : n < slots (f d).bytes)
    (htype : (g d).type = (f d).type) (hbytes : (g d).bytes = cleared (f d).bytes n) :
    Shape sb g d := by
  obtain ⟨hwhole, hslots⟩ := slots_cleared h.dir.whole hlt
  have hslot : ∀ k, slot (g d).bytes k = if k = n then ⟨0, List.replicate DIRSIZ 0⟩ else
      slot (f d).bytes k := fun k => by
    rw [hbytes, slot_cleared h.dir.whole hlt]
  have hused : ∀ k, (slot (g d).bytes k).inum ≠ 0 → slot (g d).bytes k = slot (f d).bytes k := by
    intro k hk
    rw [hslot] at hk ⊢
    split_ifs at hk ⊢ with hn
    · exact absurd rfl hk
    · rfl
  have hlen : (g d).bytes.length = (f d).bytes.length := by
    rw [slots, slots] at hslots
    rw [← Nat.div_mul_cancel h.dir.whole, ← hslots, hbytes, Nat.div_mul_cancel hwhole]
  refine ⟨⟨h.dir.inode, htype.trans h.dir.type, hbytes ▸ hwhole, hlen ▸ h.dir.small⟩, ?_, ?_, ?_,
    ?_, ?_⟩
  · rw [hbytes, hslots]
    exact h.two_le
  · rw [hslot, if_neg (by omega)]
    exact h.dot
  · rw [hslot, if_neg (Nat.ne_of_lt hk)]
    exact h.dotdot
  · intro k hk hu
    have hsame := hused k hu
    rw [hbytes, hslots] at hk
    rw [hsame] at hu ⊢
    exact h.text k hk hu
  · intro k hk k' hk' hu hu' hname
    have hsame := hused k hu
    have hsame' := hused k' hu'
    rw [hbytes, hslots] at hk hk'
    rw [hsame] at hu hname
    rw [hsame'] at hu' hname
    exact h.once k hk k' hk' hu hu' hname

theorem holds_linked (h : Shape sb f d) (h0 : d ≠ 0) (hinum : inum < 65536) (hi : inum ≠ 0) :
    Holds (linked (f d).bytes name inum) k n ↔
      k = vacant (f d).bytes ∧ n = inum ∨ Holds (f d).bytes k n := by
  have htwo := h.two_le_vacant h0
  have hle := vacant_le (d := (f d).bytes)
  have hzero := vacant_inum h.dir.whole
  simp only [Holds, up, slot_linked h.dir.whole hinum, (slots_linked _ h.dir.whole hinum).2]
  constructor
  · rintro ⟨hk, hlt, hn, hslot⟩
    split_ifs at hslot with hv
    · exact .inl ⟨hv, hslot.symm⟩
    · exact .inr ⟨hk, by omega, hn, hslot⟩
  · rintro (⟨rfl, rfl⟩ | ⟨hk, hlt, hn, hslot⟩)
    · exact ⟨by omega, by omega, hi, by rw [if_pos rfl]⟩
    · have hv : k ≠ vacant (f d).bytes := by
        rintro rfl
        exact hn (hslot ▸ hzero)
      exact ⟨hk, by omega, hn, by rw [if_neg hv, hslot]⟩

theorem holds_cleared (h : Shape sb f d) (hlt : k' < slots (f d).bytes) :
    Holds (cleared (f d).bytes k') k n ↔ k ≠ k' ∧ Holds (f d).bytes k n := by
  simp only [Holds, slot_cleared h.dir.whole hlt, (slots_cleared h.dir.whole hlt).2]
  constructor
  · rintro ⟨hk, hlt, hn, hslot⟩
    split_ifs at hslot with hv
    · exact absurd hslot.symm hn
    · exact ⟨hv, hk, hlt, hn, hslot⟩
  · rintro ⟨hv, hk, hlt, hn, hslot⟩
    exact ⟨hk, hlt, hn, by rw [if_neg hv, hslot]⟩

end Shapes

section NewDirectories

/-- What `create` writes into a new directory. -/
def dots (inum dp : ℕ) : List UInt8 :=
  linked (linked [] FileCalls.dot inum) FileCalls.dotdot dp

theorem text_dot : Text FileCalls.dot :=
  ⟨by decide, by decide, by decide, by decide⟩

theorem text_dotdot : Text FileCalls.dotdot :=
  ⟨by decide, by decide, by decide, by decide⟩

variable (hinum : inum < 65536) (hi : inum ≠ 0) (hdp : dp < 65536)

include hinum hi

theorem vacant_one : vacant (linked [] FileCalls.dot inum) = 1 := by
  have hnil : DIRENT ∣ ([] : List UInt8).length := dvd_zero _
  have hslots : slots (linked [] FileCalls.dot inum) = 1 :=
    (slots_linked _ hnil hinum).2
  have hslot : (slot (linked [] FileCalls.dot inum) 0).inum = inum := by
    rw [slot_linked hnil hinum]
    rfl
  have hfind : (List.range 1).find?
      (fun k => (slot (linked [] FileCalls.dot inum) k).inum = 0) = none := by
    rw [List.range_one, List.find?_singleton, hslot, if_neg (by simpa using hi)]
  rw [vacant, hslots, hfind]
  rfl

include hdp

theorem slots_dots : DIRENT ∣ (dots inum dp).length ∧ slots (dots inum dp) = 2 := by
  have hnil : DIRENT ∣ ([] : List UInt8).length := dvd_zero _
  obtain ⟨hwhole, hslots⟩ := slots_linked FileCalls.dot hnil hinum
  obtain ⟨hwhole', hslots'⟩ := slots_linked FileCalls.dotdot hwhole hdp
  refine ⟨hwhole', hslots'.trans ?_⟩
  rw [hslots, vacant_one hinum hi]
  rfl

theorem slot_dots : slot (dots inum dp) k =
    if k = 1 then ⟨dp, strncpy DIRSIZ FileCalls.dotdot⟩
    else if k = 0 then ⟨inum, strncpy DIRSIZ FileCalls.dot⟩ else slot [] k := by
  have hnil : DIRENT ∣ ([] : List UInt8).length := dvd_zero _
  rw [dots, slot_linked (slots_linked _ hnil hinum).1 hdp, vacant_one hinum hi,
    slot_linked hnil hinum]
  rfl

theorem holds_dots (hdp0 : dp ≠ 0) : Holds (dots inum dp) k n ↔ k = up ∧ n = dp := by
  rw [Holds, (slots_dots hinum hi hdp).2, slot_dots hinum hi hdp]
  constructor
  · rintro ⟨hk, hlt, -, hslot⟩
    obtain rfl : k = up := by
      simp only [up] at *
      omega
    exact ⟨rfl, hslot.symm⟩
  · rintro ⟨rfl, rfl⟩
    exact ⟨Nat.le_refl _, by decide, hdp0, rfl⟩

theorem Shape.dots (hdp0 : dp ≠ 0) (hlt : inum < sb.ninodes) (htype : (f inum).type = T_DIR)
    (hbytes : (f inum).bytes = dots inum dp) : Shape sb f inum := by
  obtain ⟨hwhole, hslots⟩ := slots_dots hinum hi hdp
  have hlen : (NamedFiles.dots inum dp).length = DIRENT * 2 := by
    rw [← hslots, slots, Nat.mul_div_cancel' hwhole]
  have hslot := fun k => slot_dots (k := k) hinum hi hdp
  have hne : strncpy DIRSIZ FileCalls.dot ≠ strncpy DIRSIZ FileCalls.dotdot := by decide
  refine ⟨⟨hlt, htype, hbytes ▸ hwhole, ?_⟩, ?_, ?_, ?_, ?_, ?_⟩
  all_goals rw [hbytes]
  · rw [hlen]
    decide
  · exact hslots.ge
  · rw [hslot]
    rfl
  · rw [hslot]
    exact ⟨hdp0, rfl⟩
  · rw [hslots]
    intro k hk _
    obtain rfl | rfl := Nat.le_one_iff_eq_zero_or_eq_one.mp (Nat.le_of_lt_succ hk)
    · exact ⟨_, text_dot, by rw [hslot]; rfl⟩
    · exact ⟨_, text_dotdot, by rw [hslot]; rfl⟩
  · rw [hslots]
    intro k hk k' hk' _ _ hname
    rw [hslot, hslot] at hname
    obtain rfl | rfl := Nat.le_one_iff_eq_zero_or_eq_one.mp (Nat.le_of_lt_succ hk)
    · obtain rfl | rfl := Nat.le_one_iff_eq_zero_or_eq_one.mp (Nat.le_of_lt_succ hk')
      · rfl
      · exact absurd hname hne
    · obtain rfl | rfl := Nat.le_one_iff_eq_zero_or_eq_one.mp (Nat.le_of_lt_succ hk')
      · exact absurd hname.symm hne
      · rfl

end NewDirectories

/-- A disk with a root directory and no other file. -/
theorem Named.of_root {major minor : ℕ} (hlt : ROOTINO < sb.ninodes)
    (hroot : f ROOTINO = ⟨T_DIR, major, minor, 1, dots ROOTINO ROOTINO⟩)
    (hrest : ∀ i < sb.ninodes, i ≠ ROOTINO → (f i).type = 0) : Named sb f := by
  have hsmall : ROOTINO < 65536 := by decide
  have hne : ROOTINO ≠ 0 := by decide
  refine .of (A := {ROOTINO}) (D := {ROOTINO}) (fun i => ?_) (fun d => ?_) (fun e => ?_)
    Tree.single (fun i hi => ?_) fun d hd => ?_
  · rw [Finset.mem_singleton, live_iff]
    constructor
    · rintro ⟨hi, ht, -⟩
      by_contra hc
      exact ht (hrest i hi hc)
    · rintro rfl
      rw [hroot]
      exact ⟨hlt, (by decide : T_DIR ≠ 0), Nat.one_ne_zero⟩
  · rw [Finset.mem_singleton]
    refine ⟨?_, fun h => h.1⟩
    rintro rfl
    rw [hroot]
    exact ⟨rfl, rfl⟩
  · rw [Finset.mem_singleton, Finset.mem_singleton]
    constructor
    · rintro rfl
      rw [hroot, holds_dots hsmall hne hsmall hne]
      exact ⟨rfl, rfl, rfl⟩
    · rintro ⟨hd, hh⟩
      rw [hd, hroot, holds_dots hsmall hne hsmall hne] at hh
      obtain ⟨d, k, n⟩ := e
      obtain ⟨rfl, rfl⟩ := hh
      rw [show d = ROOTINO from hd]
  · rw [Finset.mem_singleton.mp hi, hroot]
    rfl
  · rw [Finset.mem_singleton.mp hd]
    exact Shape.dots hsmall hne hsmall hne hlt (by rw [hroot]) (by rw [hroot])

section Changes

/-- A new entry for `inum`, which is `ip` now. -/
def entered (f : ℕ → File) (dp nlink : ℕ) (name : List UInt8) (inum : ℕ) (ip : File) : ℕ → File :=
  Function.update (Function.update f inum ip) dp
    { f dp with nlink := nlink, bytes := linked (f dp).bytes name inum }

/-- An entry less for `inum`. -/
def removed (f : ℕ → File) (dp nlink k inum nlink' : ℕ) : ℕ → File :=
  Function.update (Function.update f dp
    { f dp with nlink := nlink, bytes := cleared (f dp).bytes k })
    inum { f inum with nlink := nlink' }

variable {ip : File} {nlink nlink' major minor : ℕ}

theorem entered_dir : entered f dp nlink name inum ip dp =
    { f dp with nlink := nlink, bytes := linked (f dp).bytes name inum } :=
  Function.update_self _ _ _

theorem entered_new (hne : inum ≠ dp) : entered f dp nlink name inum ip inum = ip := by
  rw [entered, Function.update_of_ne hne, Function.update_self]

theorem entered_other (hi : i ≠ inum) (hdp : i ≠ dp) : entered f dp nlink name inum ip i = f i := by
  rw [entered, Function.update_of_ne hdp, Function.update_of_ne hi]

theorem removed_gone : removed f dp nlink k inum nlink' inum = { f inum with nlink := nlink' } :=
  Function.update_self _ _ _

theorem removed_dir (hne : dp ≠ inum) : removed f dp nlink k inum nlink' dp =
    { f dp with nlink := nlink, bytes := cleared (f dp).bytes k } := by
  rw [removed, Function.update_of_ne hne, Function.update_self]

theorem removed_other (hi : i ≠ inum) (hdp : i ≠ dp) : removed f dp nlink k inum nlink' i = f i := by
  rw [removed, Function.update_of_ne hi, Function.update_of_ne hdp]

/-- The slot that `dirlink` fills has no entry. -/
theorem vacant_free (h : Named sb f) (hdp : dp ∈ dirs sb f) :
    ∀ e ∈ entries sb f, e.dir = dp → e.label ≠ vacant (f dp).bytes := by
  rintro e he rfl hlabel
  obtain ⟨-, -, -, h0, hnode⟩ := mem_entries.mp he
  rw [hlabel, vacant_inum (h.shape _ hdp).dir.whole] at hnode
  exact h0 hnode.symm

theorem live_dir (h : dp ∈ dirs sb f) : Live sb f dp ∧ (f dp).type = T_DIR := mem_dirs.mp h

section Links

variable (h : Named sb f) (hdp : dp ∈ dirs sb f) (hfind : find (f dp).bytes name = none)
  (htext : Text name) (hsmall : (linked (f dp).bytes name inum).length ≤ PageCache.MAXSIZE)
  (hinum : inum < 65536) (hlt : inum < sb.ninodes) (h0 : inum ≠ 0)

include h hdp hfind htext hsmall hinum hlt h0

/-- A name for an inode that is no directory. -/
theorem Named.link (hfile : inum ∉ dirs sb f) (htype : ip.type ≠ 0) (hnot : ip.type ≠ T_DIR)
    (hcount : ip.nlink = links (entries sb f) inum + 1) :
    Named sb (entered f dp (f dp).nlink name inum ip) := by
  obtain ⟨hlive, hdir⟩ := mem_dirs.mp hdp
  have hne : inum ≠ dp := fun he => hfile (he ▸ hdp)
  have hshape := h.shape dp hdp
  have hdp0 := h.ne_zero hlive
  have hs : vacant (f dp).bytes ≠ up := (Nat.ne_of_lt (hshape.two_le_vacant hdp0)).symm
  have hsame : ∀ i, i ≠ inum →
      (entered f dp (f dp).nlink name inum ip i).type = (f i).type ∧
      (entered f dp (f dp).nlink name inum ip i).nlink = (f i).nlink := by
    intro i hi
    obtain rfl | hi' := eq_or_ne i dp
    · rw [entered_dir]
      exact ⟨rfl, rfl⟩
    · rw [entered_other hi hi']
      exact ⟨rfl, rfl⟩
  have hbytes : ∀ d ∈ dirs sb f, d ≠ dp →
      (entered f dp (f dp).nlink name inum ip d).bytes = (f d).bytes := by
    intro d hd hd'
    have hdi : d ≠ inum := fun he => hfile (he ▸ hd)
    rw [entered_other hdi hd']
  have htree := h.tree.insert_file hdp hs (vacant_free h hdp) hfile
  refine .of (fun i => ?_) (fun d => ?_) (fun e => ?_) htree (fun i hi => ?_) fun d hd => ?_
  · rw [Finset.mem_insert, mem_alive]
    obtain rfl | hi := eq_or_ne i inum
    · rw [live_iff, entered_new hne, hcount]
      simp [hlt, htype]
    · rw [live_iff, (hsame i hi).1, (hsame i hi).2, ← live_iff]
      simp [hi]
  · rw [Finset.mem_insert, mem_dirs, mem_alive]
    obtain rfl | hd := eq_or_ne d inum
    · rw [entered_new hne]
      rw [mem_dirs] at hfile
      simp [hnot, hfile]
    · rw [(hsame d hd).1]
      simp [hd]
  · rw [Finset.mem_insert, mem_entries]
    obtain ⟨d, k, n⟩ := e
    by_cases hd : d = dp
    · subst hd
      rw [entered_dir, holds_linked hshape hdp0 hinum h0]
      simp [hdp]
    · have hdir : d ∈ dirs sb f ∧ Holds (f d).bytes k n ↔ d ∈ dirs sb f ∧
          Holds (entered f dp (f dp).nlink name inum ip d).bytes k n :=
        and_congr_right fun hdir => by rw [hbytes d hdir hd]
      rw [← hdir]
      simp [hd]
  · rw [links_insert fun hm => vacant_free h hdp _ hm rfl rfl]
    obtain rfl | hi' := eq_or_ne i inum
    · rw [entered_new hne, hcount, if_pos rfl]
    · rw [(hsame i hi').2, if_neg hi'.symm, Nat.add_zero]
      exact h.count i (Finset.mem_of_mem_insert_of_ne hi hi')
  · obtain rfl | hd' := eq_or_ne d dp
    · exact hshape.linked hdp0 hfind htext hinum hsmall (by rw [entered_dir]) (by rw [entered_dir])
    · have hdi : d ≠ inum := fun he => hfile (he ▸ hd)
      exact (h.shape d hd).congr (hsame d hdi).1 (hbytes d hd hd')

/-- A new directory. -/
theorem Named.mkdir (hnew : inum ∉ alive sb f) (hdp' : dp < 65536) :
    Named sb (entered f dp ((f dp).nlink + 1) name inum ⟨T_DIR, major, minor, 1, dots inum dp⟩) := by
  set g := entered f dp ((f dp).nlink + 1) name inum ⟨T_DIR, major, minor, 1, dots inum dp⟩
    with hg
  obtain ⟨hlive, hdir⟩ := mem_dirs.mp hdp
  have hne : inum ≠ dp := fun he => hnew (he ▸ mem_alive.mpr hlive)
  have hshape := h.shape dp hdp
  have hdp0 := h.ne_zero hlive
  have hs : vacant (f dp).bytes ≠ up := (Nat.ne_of_lt (hshape.two_le_vacant hdp0)).symm
  have hgdp : g dp = { f dp with
    nlink := (f dp).nlink + 1, bytes := linked (f dp).bytes name inum } := entered_dir
  have hgi : g inum = ⟨T_DIR, major, minor, 1, dots inum dp⟩ := entered_new hne
  have hgo : ∀ i, i ≠ inum → i ≠ dp → g i = f i := fun i hi hi' => entered_other hi hi'
  have htree := h.tree.insert_dir hdp hs (vacant_free h hdp) hnew
  have hnotin : (⟨inum, up, dp⟩ : Entry ℕ ℕ) ∉
      insert ⟨dp, vacant (f dp).bytes, inum⟩ (entries sb f) := by
    intro hm
    obtain he | hm := Finset.mem_insert.mp hm
    · exact hne (congrArg Entry.dir he)
    · exact hnew (h.tree.subset (h.tree.dir _ hm))
  refine .of (fun i => ?_) (fun d => ?_) (fun e => ?_) htree (fun i hi => ?_) fun d hd => ?_
  · rw [Finset.mem_insert, mem_alive]
    obtain rfl | hi := eq_or_ne i inum
    · rw [live_iff, hgi]
      simp [hlt, Kind.code]
    · obtain rfl | hi' := eq_or_ne i dp
      · rw [live_iff, hgdp]
        simp [hlive, hlive.inode, hlive.type]
      · rw [live_iff, hgo i hi hi', ← live_iff]
        simp [hi]
  · rw [Finset.mem_insert, Finset.mem_insert, mem_dirs, mem_alive]
    obtain rfl | hi := eq_or_ne d inum
    · rw [hgi]
      simp
    · obtain rfl | hi' := eq_or_ne d dp
      · rw [hgdp]
        simp [hi]
      · rw [hgo d hi hi']
        simp [hi]
  · rw [Finset.mem_insert, Finset.mem_insert, Finset.mem_insert, mem_entries]
    obtain ⟨d, k, n⟩ := e
    obtain rfl | hi := eq_or_ne d inum
    · rw [hgi, holds_dots hinum h0 hdp' hdp0]
      have hnot : d ∉ dirs sb f := fun hd => hnew (h.tree.subset hd)
      simp [hne, hnot]
    · obtain rfl | hi' := eq_or_ne d dp
      · rw [hgdp, holds_linked hshape hdp0 hinum h0]
        simp [hdp, hi]
      · rw [hgo d hi hi']
        simp [hi, hi']
  · rw [links_insert hnotin, links_insert fun hm => vacant_free h hdp _ hm rfl rfl]
    obtain rfl | hi' := eq_or_ne i inum
    · have hzero : links (entries sb f) i = 0 := by
        by_contra hc
        obtain ⟨e, he, rfl⟩ := links_ne_zero.mp hc
        exact hnew (h.tree.node e he)
      rw [hgi, hzero, if_pos rfl, if_neg hne.symm]
    · have hcount := h.count i (Finset.mem_of_mem_insert_of_ne hi hi')
      obtain rfl | hdp' := eq_or_ne i dp
      · rw [hgdp, if_pos rfl, if_neg hi'.symm, hcount]
      · rw [hgo i hi' hdp', if_neg hi'.symm, if_neg hdp'.symm]
        exact hcount
  · obtain rfl | hi' := eq_or_ne d inum
    · exact Shape.dots hinum h0 hdp' hdp0 hlt (by rw [hgi]) (by rw [hgi])
    · have hd := Finset.mem_of_mem_insert_of_ne hd hi'
      obtain rfl | hdp' := eq_or_ne d dp
      · exact hshape.linked hdp0 hfind htext hinum hsmall (by rw [hgdp]) (by rw [hgdp])
      · exact (h.shape d hd).congr (by rw [hgo d hi' hdp']) (by rw [hgo d hi' hdp'])

end Links

section Unlinks

variable (h : Named sb f) (hentry : ⟨dp, k, inum⟩ ∈ entries sb f) (hk : 2 ≤ k)

include h hentry hk

/-- One of the names of an inode that is no directory goes. -/
theorem Named.unlink_file (hfile : inum ∉ dirs sb f) :
    Named sb (removed f dp (f dp).nlink k inum ((f inum).nlink - 1)) := by
  set g := removed f dp (f dp).nlink k inum ((f inum).nlink - 1) with hg
  have hdp := h.tree.dir _ hentry
  have hi := mem_alive.mp (h.tree.node _ hentry)
  have hne : dp ≠ inum := fun he => hfile (he ▸ hdp)
  have hshape := h.shape dp hdp
  have hlt : k < slots (f dp).bytes := (mem_entries.mp hentry).2.2.1
  have hgi : g inum = { f inum with nlink := (f inum).nlink - 1 } := removed_gone
  have hgdp : g dp = { f dp with bytes := cleared (f dp).bytes k } := removed_dir hne
  have hgo : ∀ i, i ≠ inum → i ≠ dp → g i = f i := fun i hi hi' => removed_other hi hi'
  have hsame : ∀ i, i ≠ inum → (g i).type = (f i).type ∧ (g i).nlink = (f i).nlink := by
    intro i hi
    obtain rfl | hi' := eq_or_ne i dp
    · rw [hgdp]
      exact ⟨rfl, rfl⟩
    · rw [hgo i hi hi']
      exact ⟨rfl, rfl⟩
  have hcount : (f inum).nlink - 1 = links ((entries sb f).erase ⟨dp, k, inum⟩) inum := by
    have herase := links_erase (n := inum) hentry
    rw [if_pos rfl, ← h.count inum (h.tree.node _ hentry)] at herase
    omega
  have hup : k ≠ up := (Nat.ne_of_lt hk).symm
  refine .of (A := (alive sb f).filter fun n => n = inum →
    links ((entries sb f).erase ⟨dp, k, inum⟩) n ≠ 0) (fun i => ?_) (fun d => ?_) (fun e => ?_)
    (h.tree.erase_file hentry hup hfile fun n => Finset.mem_filter) (fun i hi => ?_) fun d hd => ?_
  · rw [Finset.mem_filter, mem_alive]
    obtain rfl | hi' := eq_or_ne i inum
    · rw [live_iff, hgi, hcount]
      simp [hi, hi.inode, hi.type]
    · rw [live_iff, (hsame i hi').1, (hsame i hi').2, ← live_iff]
      simp [hi']
  · rw [Finset.mem_filter, mem_dirs, mem_alive]
    obtain rfl | hd := eq_or_ne d inum
    · rw [mem_dirs] at hfile
      rw [hgi]
      tauto
    · rw [(hsame d hd).1]
      simp [hd]
  · rw [Finset.mem_erase, mem_entries]
    obtain ⟨d, k', n⟩ := e
    by_cases hd : d = dp
    · subst hd
      rw [hgdp, holds_cleared hshape hlt]
      have hslot : Holds (f d).bytes k inum := (mem_entries.mp hentry).2
      constructor
      · rintro ⟨hne, hdir, hh⟩
        refine ⟨hdir, fun hs => hne ?_, hh⟩
        subst hs
        exact congrArg (Entry.mk d k') (hh.2.2.2.symm.trans hslot.2.2.2)
      · rintro ⟨hdir, hk', hh⟩
        exact ⟨fun he => hk' (congrArg Entry.label he), hdir, hh⟩
    · have hother : (⟨d, k', n⟩ : Entry ℕ ℕ) ≠ ⟨dp, k, inum⟩ := fun he =>
        hd (congrArg Entry.dir he)
      simp only [ne_eq, hother, not_false_eq_true, true_and]
      refine and_congr_right fun hdir => ?_
      have hdi : d ≠ inum := fun he => hfile (he ▸ hdir)
      rw [hgo d hdi hd]
  · have hi := Finset.mem_of_mem_filter i hi
    obtain rfl | hi' := eq_or_ne i inum
    · rw [hgi, hcount]
    · have herase := links_erase (n := i) hentry
      rw [if_neg hi'.symm, Nat.add_zero] at herase
      rw [(hsame i hi').2, herase]
      exact h.count i hi
  · obtain rfl | hd' := eq_or_ne d dp
    · exact hshape.cleared hk hlt (by rw [hgdp]) (by rw [hgdp])
    · have hdi : d ≠ inum := fun he => hfile (he ▸ hd)
      exact (h.shape d hd).congr (hsame d hdi).1 (by rw [hgo d hdi hd'])

/-- An empty directory goes. -/
theorem Named.unlink_dir (hdir : inum ∈ dirs sb f)
    (hempty : ∀ k < slots (f inum).bytes, 2 ≤ k → (slot (f inum).bytes k).inum = 0) :
    (f inum).nlink = 1 ∧ dp ≠ inum ∧ Live sb (removed f dp ((f dp).nlink - 1) k inum 0) dp ∧
      Named sb (removed f dp ((f dp).nlink - 1) k inum 0) := by
  set g := removed f dp ((f dp).nlink - 1) k inum 0 with hg
  have hdp := h.tree.dir _ hentry
  have hlive := mem_alive.mp (h.tree.subset hdp)
  have hup : k ≠ up := (Nat.ne_of_lt hk).symm
  have hslot : Holds (f dp).bytes k inum := (mem_entries.mp hentry).2
  have hlt : k < slots (f dp).bytes := hslot.2.1
  have hleaf : ∀ e ∈ entries sb f, e.dir = inum → e.label = up := by
    rintro e he rfl
    obtain ⟨-, hle, hlt, h0, hnode⟩ := mem_entries.mp he
    by_contra hne
    exact h0 (hnode ▸ hempty _ hlt (Nat.lt_of_le_of_ne hle (Ne.symm hne)))
  have hne : dp ≠ inum := fun he => hup (hleaf _ hentry he)
  have hone : (f inum).nlink = 1 := by
    rw [h.count inum (h.tree.node _ hentry)]
    exact h.tree.links_eq_one hentry hup hdir hleaf
  have hshape := h.shape dp hdp
  have hgi : g inum = { f inum with nlink := 0 } := removed_gone
  have hgdp : g dp = { f dp with
    nlink := (f dp).nlink - 1, bytes := cleared (f dp).bytes k } := removed_dir hne
  have hgo : ∀ i, i ≠ inum → i ≠ dp → g i = f i := fun i hi hi' => removed_other hi hi'
  have htree := h.tree.erase_dir hentry hup hdir hleaf
  have hparent : (⟨inum, up, dp⟩ : Entry ℕ ℕ) ∈ (entries sb f).erase ⟨dp, k, inum⟩ :=
    Finset.mem_erase.mpr
      ⟨fun he => hne (congrArg Entry.dir he).symm, h.tree.parent _ hentry hup hdir⟩
  have hlinks : ∀ i ∈ alive sb f, i ≠ inum → (g i).nlink =
      links (((entries sb f).erase ⟨dp, k, inum⟩).erase ⟨inum, up, dp⟩) i := by
    intro i hi hi'
    have hcount := h.count i hi
    have herase := links_erase (n := i) hentry
    have herase' := links_erase (n := i) hparent
    rw [if_neg hi'.symm, Nat.add_zero] at herase
    obtain rfl | hd := eq_or_ne i dp
    · rw [if_pos rfl] at herase'
      rw [hgdp]
      dsimp only
      omega
    · rw [if_neg hd.symm, Nat.add_zero] at herase'
      rw [hgo i hi' hd, hcount, ← herase, herase']
  have hgtype : ∀ i, (g i).type = (f i).type := by
    intro i
    obtain rfl | hi := eq_or_ne i inum
    · rw [hgi]
    · obtain rfl | hi' := eq_or_ne i dp
      · rw [hgdp]
      · rw [hgo i hi hi']
  have halive : ∀ i, Live sb g i ↔ i ∈ (alive sb f).erase inum := by
    intro i
    rw [Finset.mem_erase]
    obtain rfl | hi := eq_or_ne i inum
    · rw [live_iff, hgi]
      simp
    · rw [live_iff, hgtype]
      constructor
      · rintro ⟨hlt, ht, hn⟩
        refine ⟨hi, mem_alive.mpr ⟨hlt, ht, ?_⟩⟩
        obtain rfl | hi' := eq_or_ne i dp
        · exact hlive.named
        · exact hgo i hi hi' ▸ hn
      · rintro ⟨-, hm⟩
        have hl := mem_alive.mp hm
        refine ⟨hl.inode, hl.type, ?_⟩
        rw [hlinks i hm hi]
        exact htree.linked (Finset.mem_erase.mpr ⟨hi, hm⟩)
  refine ⟨hone, hne, (halive dp).mpr (Finset.mem_erase.mpr ⟨hne, h.tree.subset hdp⟩),
    .of halive (fun d => ?_) (fun e => ?_) htree (fun i hi => ?_) fun d hd => ?_⟩
  · rw [Finset.mem_erase, Finset.mem_erase, mem_dirs, mem_alive, hgtype, and_assoc]
  · rw [Finset.mem_erase, Finset.mem_erase, Finset.mem_erase, mem_entries]
    obtain ⟨d, k', n⟩ := e
    constructor
    · rintro ⟨hu, hs, hd, hh⟩
      have hdi : d ≠ inum := by
        rintro rfl
        have he : (⟨d, k', n⟩ : Entry ℕ ℕ) ∈ entries sb f := mem_entries.mpr ⟨hd, hh⟩
        exact hu (h.tree.label _ he _ (Finset.mem_of_mem_erase hparent) rfl (hleaf _ he rfl))
      refine ⟨⟨hdi, hd⟩, ?_⟩
      by_cases hdd : d = dp
      · subst hdd
        rw [hgdp, holds_cleared hshape hlt]
        refine ⟨fun hk' => hs ?_, hh⟩
        subst hk'
        exact congrArg (Entry.mk d k') (hh.2.2.2.symm.trans hslot.2.2.2)
      · rw [hgo d hdi hdd]
        exact hh
    · rintro ⟨⟨hdi, hd⟩, hh⟩
      refine ⟨fun he => hdi (congrArg Entry.dir he), ?_, hd, ?_⟩
      · intro he
        obtain ⟨rfl, rfl, rfl⟩ := Entry.mk.inj he
        rw [hgdp, holds_cleared hshape hlt] at hh
        exact hh.1 rfl
      · by_cases hdd : d = dp
        · subst hdd
          rw [hgdp, holds_cleared hshape hlt] at hh
          exact hh.2
        · rw [hgo d hdi hdd] at hh
          exact hh
  · obtain ⟨hi', hi⟩ := Finset.mem_erase.mp hi
    exact hlinks i hi hi'
  · obtain ⟨hdi, hd⟩ := Finset.mem_erase.mp hd
    obtain rfl | hd' := eq_or_ne d dp
    · exact hshape.cleared hk hlt (hgtype d) (by rw [hgdp])
    · exact (h.shape d hd).congr (hgtype d) (by rw [hgo d hdi hd'])

end Unlinks

end Changes

end NamedFiles
