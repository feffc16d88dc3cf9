import OsProjects.FileContents

/-! # The store of files

`itrunc`, and the operations of `fs.c` one after another. What the kernel keeps in blocks, bits and
inodes is a list of bytes for every inode. -/
namespace FileStore

open ByteMemory WordArrays BitMaps DiskBlocks DiskInodes FileBlocks FileContents Ownership

section Code

variable (sb : SuperBlock)

/-- `bfree` of the numbers that are not 0. -/
def freeAll (d : Disk) (bs : List ℕ) : Option Disk :=
  bs.foldlM (fun d b => if b = 0 then some d else bfree sb d b) d

/-- The places in the order of the loops of `itrunc`. -/
def places (inum : ℕ) : List Place :=
  (List.finRange NDIRECT).map (fun k => .addr inum k.castSucc) ++
    ((List.range NINDIRECT).map fun j => .entry inum j) ++ [.indirect inum]

def itrunc (fs : Fs) (inum : ℕ) : Option Fs :=
  -- the numbers in the indirect block are not looked at when there is none
  (freeAll sb fs.disk ((places inum).map (block fs))).map fun d =>
    let ip := { fs.inode inum with addrs := fun _ => 0, size := 0 }
    iupdate sb (Fs.set { fs with disk := d } inum ip) inum

/-- The branch of `iput` for the last reference to an inode without links. -/
def iput (fs : Fs) (inum : ℕ) : Option Fs :=
  (itrunc sb fs inum).map fun fs =>
    let fs := iupdate sb (fs.set inum { fs.inode inum with type := 0 }) inum
    -- ip->valid = 0
    ilock sb fs inum

inductive Kind where
  | T_DIR
  | T_FILE
  | T_DEV
  deriving DecidableEq

def Kind.code : Kind → ℕ
  | .T_DIR => 1
  | .T_FILE => 2
  | .T_DEV => 3

inductive Op where
  | ialloc (kind : Kind)
  /-- What a caller reads of `*ip`. -/
  | stat (inum : ℕ)
  /-- The caller changes `ip->nlink` and calls `iupdate`. -/
  | links (inum nlink : ℕ)
  /-- The caller fills in a new inode and calls `iupdate`. -/
  | node (inum major minor nlink : ℕ)
  | writei (inum off : ℕ) (src : List UInt8)
  | readi (inum off n : ℕ)
  | iput (inum : ℕ)
  /-- The cache entry was used for another inode in between. -/
  | ilock (inum : ℕ)

inductive Result where
  | inum (inum : ℕ)
  | stat (type nlink size : ℕ)
  | wrote (ok : Bool)
  | bytes (bytes : Option (List UInt8))
  | done
  deriving DecidableEq

/-- `ilock` panics at other inodes. -/
def allocated (fs : Fs) (inum : ℕ) : Bool := inum < sb.ninodes && (fs.inode inum).type ≠ 0

def next (fs : Fs) : Op → Option (Fs × Result)
  | .ialloc kind => (ialloc sb fs kind.code).map fun r => (r.1, .inum r.2)
  | .links inum nlink =>
    if allocated sb fs inum then
      some (iupdate sb (fs.set inum { fs.inode inum with nlink := nlink }) inum, .done)
    else none
  | .stat inum =>
    if allocated sb fs inum then
      let ip := fs.inode inum
      some (fs, .stat ip.type ip.nlink ip.size)
    else none
  | .node inum major minor nlink =>
    if allocated sb fs inum then
      let ip := { fs.inode inum with major := major, minor := minor, nlink := nlink }
      some (iupdate sb (fs.set inum ip) inum, .done)
    else none
  | .writei inum off src =>
    if allocated sb fs inum && (fs.inode inum).type ≠ Kind.T_DEV.code then
      (writei sb fs inum off src).map fun r => (r.1, .wrote r.2)
    else none
  | .readi inum off n =>
    if allocated sb fs inum && (fs.inode inum).type ≠ Kind.T_DEV.code then
      (readi sb fs inum off n).map fun r => (r.1, .bytes r.2)
    else none
  | .iput inum =>
    if allocated sb fs inum && (fs.inode inum).nlink = 0 then
      (iput sb fs inum).map fun fs => (fs, .done)
    else none
  | .ilock inum => if allocated sb fs inum then some (ilock sb fs inum, .done) else none

def run (fs : Fs) : List Op → Option (Fs × List Result)
  | [] => some (fs, [])
  | op :: ops =>
    (next sb fs op).bind fun r => (run r.1 ops).map fun rs => (rs.1, r.2 :: rs.2)

/-- The numbers are those of C. -/
def Op.Fits : Op → Prop
  | .links _ nlink => nlink < 65536
  | .node _ major minor nlink => major < 65536 ∧ minor < 65536 ∧ nlink < 65536
  | .writei _ _ src => src.length < 4294967296
  | .readi _ _ n => n < 4294967296
  | _ => True

end Code

section Purpose

/-- What an inode is for. Type 0 is no file. -/
structure File where
  type : ℕ
  major : ℕ
  minor : ℕ
  nlink : ℕ
  bytes : List UInt8

def File.none : File := ⟨0, 0, 0, 0, []⟩

def file (fs : Fs) (inum : ℕ) : File :=
  let ip := fs.inode inum
  ⟨ip.type, ip.major, ip.minor, ip.nlink, contents fs inum⟩

def Correct (ninodes : ℕ) (f : ℕ → File) : Op → Result → Prop
  | .ialloc _, .inum inum => inum < ninodes ∧ (f inum).type = 0
  | .stat inum, .stat type nlink size =>
    type = (f inum).type ∧ nlink = (f inum).nlink ∧ size = (f inum).bytes.length
  | .writei inum off src, .wrote ok => ok = (PageCache.writei (f inum).bytes off src).isSome
  | .readi inum off n, .bytes bytes => bytes = PageCache.readi (f inum).bytes off n
  | .links _ _, .done | .node _ _ _ _, .done | .iput _, .done | .ilock _, .done => True
  | _, _ => False

def apply (f : ℕ → File) : Op → Result → ℕ → File
  | .ialloc kind, .inum inum => Function.update f inum { File.none with type := kind.code }
  | .links inum nlink, _ => Function.update f inum { f inum with nlink := nlink }
  | .node inum major minor nlink, _ =>
    Function.update f inum { f inum with major := major, minor := minor, nlink := nlink }
  | .writei inum off src, _ => Function.update f inum { f inum with
      bytes := (PageCache.writei (f inum).bytes off src).getD (f inum).bytes }
  | .iput inum, _ => Function.update f inum { f inum with type := 0, bytes := [] }
  | _, _ => f

/-- The operations with these results take the first files to the last. -/
inductive Does (ninodes : ℕ) : (ℕ → File) → List Op → List Result → (ℕ → File) → Prop where
  | nil (f : ℕ → File) : Does ninodes f [] [] f
  | cons {f g : ℕ → File} {op : Op} {r : Result} {ops : List Op} {rs : List Result} :
    Correct ninodes f op r → Does ninodes (apply f op r) ops rs g →
    Does ninodes f (op :: ops) (r :: rs) g

end Purpose

section Truncation

variable {sb : SuperBlock} {fs fs' : Fs} {inum : ℕ} {d : Disk} {q : Place}

theorem freeAll_spec {bs : List ℕ} (hused : ∀ b ∈ bs, b ≠ 0 → b < sb.size ∧ used sb d b = true)
    (hnodup : (bs.filter (· ≠ 0)).Nodup) :
    ∃ d', freeAll sb d bs = some d' ∧
      (∀ c, used sb d' c = true ↔ (c = 0 ∨ c ∉ bs) ∧ used sb d c = true) ∧
      ∀ c, Plain sb c → d' c = d c := by
  induction bs generalizing d with
  | nil => exact ⟨d, rfl, fun c => by simp, fun _ _ => rfl⟩
  | cons b bs ih =>
    by_cases h0 : b = 0
    · subst h0
      rw [List.filter_cons_of_neg (by simp)] at hnodup
      obtain ⟨d', hd, hbits, hplain⟩ := ih
        (fun b hb => hused b (List.mem_cons_of_mem _ hb)) hnodup
      refine ⟨d', ?_, fun c => ?_, hplain⟩
      · rw [freeAll, List.foldlM_cons, if_pos rfl]
        exact hd
      · rw [hbits c, List.mem_cons]
        tauto
    · rw [List.filter_cons_of_pos (by simpa using h0), List.nodup_cons] at hnodup
      obtain ⟨hsize, hb⟩ := hused b List.mem_cons_self h0
      obtain ⟨d₁, hd₁, hfreed⟩ := bfree_spec hsize hb
      have hnotin : b ∉ bs := fun hm => hnodup.1 (List.mem_filter.mpr ⟨hm, by simpa using h0⟩)
      obtain ⟨d', hd, hbits, hplain⟩ := ih (d := d₁) (fun c hc hc0 => by
        obtain ⟨hsize, hc'⟩ := hused c (List.mem_cons_of_mem _ hc) hc0
        have hne : b ≠ c := by
          rintro rfl
          exact hnotin hc
        refine ⟨hsize, ?_⟩
        rw [hfreed.cleared, decide_eq_false hne, hc']
        rfl) hnodup.2
      refine ⟨d', ?_, fun c => ?_, fun c hc => ?_⟩
      · rw [freeAll, List.foldlM_cons, if_neg h0, hd₁]
        exact hd
      · rw [hbits c, hfreed.cleared, List.mem_cons, Bool.and_eq_true, Bool.not_eq_true',
          decide_eq_false_iff_not]
        by_cases hc : b = c
        · subst hc
          simp [h0]
        · simp [hc, Ne.symm hc]
      · rw [hplain c hc, hfreed.others c hc]

theorem mem_places : q ∈ places inum ↔
    (∃ k, q = .addr inum k) ∨ ∃ j < NINDIRECT, q = .entry inum j := by
  simp only [places, List.mem_append, List.mem_map, List.mem_finRange, List.mem_range,
    List.mem_singleton, true_and]
  constructor
  · rintro ((⟨k, rfl⟩ | ⟨j, hj, rfl⟩) | rfl)
    · exact .inl ⟨_, rfl⟩
    · exact .inr ⟨j, hj, rfl⟩
    · exact .inl ⟨_, rfl⟩
  · rintro (⟨k, rfl⟩ | ⟨j, hj, rfl⟩)
    · obtain rfl | ⟨k, rfl⟩ := k.eq_castSucc_or_eq_last.symm
      · exact .inr rfl
      · exact .inl (.inl ⟨k, rfl⟩)
    · exact .inl (.inr ⟨j, hj, rfl⟩)

theorem places_nodup : (places inum).Nodup := by
  rw [places, List.nodup_append, List.nodup_append]
  refine ⟨⟨?_, ?_, ?_⟩, List.nodup_singleton _, ?_⟩
  · exact (List.nodup_finRange _).map fun k k' h =>
      Fin.castSucc_injective _ (Place.addr.inj h).2
  · exact List.nodup_range.map fun j j' h => (Place.entry.inj h).2
  · rintro _ hk _ hj rfl
    obtain ⟨k, -, rfl⟩ := List.mem_map.mp hk
    obtain ⟨j, -, hj⟩ := List.mem_map.mp hj
    cases hj
  · rintro q hq _ hi rfl
    obtain rfl := List.mem_singleton.mp hi
    obtain hq | hq := List.mem_append.mp hq
    · obtain ⟨k, -, hk⟩ := List.mem_map.mp hq
      exact (Fin.castSucc_lt_last k).ne (Place.addr.inj hk).2
    · obtain ⟨j, -, hj⟩ := List.mem_map.mp hq
      cases hj

theorem valid_of_mem_places (hi : inum < sb.ninodes) (hq : q ∈ places inum) : q.Valid sb := by
  obtain ⟨k, rfl⟩ | ⟨j, hj, rfl⟩ := mem_places.mp hq
  · exact hi
  · exact ⟨hi, hj⟩

/-- The blocks of one file are different blocks. -/
theorem blocks_nodup (h : Sound sb fs) (hi : inum < sb.ninodes) :
    (((places inum).map (block fs)).filter (· ≠ 0)).Nodup := by
  rw [List.filter_map]
  refine List.Nodup.map_on ?_ (places_nodup.filter _)
  intro p hp q hq he
  rw [List.mem_filter] at hp hq
  refine h.unique (valid_of_mem_places hi hp.1) (valid_of_mem_places hi hq.1) ?_ he
  simpa using hp.2

theorem block_truncated (h : Sound sb fs) (hplain : ∀ c, Plain sb c → d c = fs.disk c)
    {ip : Inode} (haddrs : ∀ k, ip.addrs k = 0) (hq : q.Valid sb) :
    block (Fs.set { fs with disk := d } inum ip) q = if q ∈ places inum then 0 else block fs q := by
  have hself : (Fs.set { fs with disk := d } inum ip).inode inum = ip := Function.update_self _ _ _
  have hother : ∀ i, i ≠ inum → (Fs.set { fs with disk := d } inum ip).inode i = fs.inode i :=
    fun i hne => Function.update_of_ne hne _ _
  cases q with
  | addr i k =>
    obtain rfl | hne := eq_or_ne i inum
    · rw [if_pos (mem_places.mpr (.inl ⟨k, rfl⟩)), block, hself, haddrs]
    · have hnot : Place.addr i k ∉ places inum := by
        rintro hm
        obtain ⟨k', hk⟩ | ⟨j, -, hj⟩ := mem_places.mp hm
        · exact hne (Place.addr.inj hk).1
        · cases hj
      rw [if_neg hnot, block, hother i hne, block]
  | entry i j =>
    obtain rfl | hne := eq_or_ne i inum
    · rw [if_pos (mem_places.mpr (.inr ⟨j, hq.2, rfl⟩)), block, indirect, hself, haddrs, if_pos rfl]
    · have hnot : Place.entry i j ∉ places inum := by
        rintro hm
        obtain ⟨k', hk⟩ | ⟨j', -, hj⟩ := mem_places.mp hm
        · cases hk
        · exact hne (Place.entry.inj hj).1
      have hindirect : indirect (Fs.set { fs with disk := d } inum ip) i = indirect fs i := by
        rw [indirect, hother i hne, indirect]
      rw [if_neg hnot, block, hindirect, block]
      by_cases h0 : indirect fs i = 0
      · rw [if_pos h0, if_pos h0]
      · have hvi : (Place.indirect i).Valid sb := hq.1
        rw [if_neg h0, if_neg h0]
        exact congrArg (loadWord · (4 * j)) (hplain (indirect fs i) (h.plain hvi h0))

theorem content_not_mem {i bn : ℕ} (hne : i ≠ inum) : Place.content i bn ∉ places inum := by
  intro hm
  obtain ⟨k, hk⟩ | ⟨j, -, hj⟩ := mem_places.mp hm
  · exact addr_ne hne.symm hk.symm
  · rw [Place.content] at hj
    split_ifs at hj
    exact hne (Place.entry.inj hj).1

theorem indirect_not_mem {i : ℕ} (hne : i ≠ inum) : Place.indirect i ∉ places inum := by
  intro hm
  obtain ⟨k, hk⟩ | ⟨j, -, hj⟩ := mem_places.mp hm
  · exact hne (Place.addr.inj hk).1
  · cases hj

theorem Fs.set_set {ip : Inode} : (fs.set inum ip).set inum ip = fs.set inum ip := by
  simp only [Fs.set, Function.update_idem]

/-- `itrunc` never frees a free block. The file is empty afterwards, its blocks are free, and the
other files are as they were. -/
theorem itrunc_spec (h : Regular sb fs) (hi : inum < sb.ninodes) :
    ∃ fs', itrunc sb fs inum = some fs' ∧ Regular sb fs' ∧ contents fs' inum = [] ∧
      (∀ i < sb.ninodes, i ≠ inum → contents fs' i = contents fs i) ∧
      fs'.inode =
        Function.update fs.inode inum { fs.inode inum with addrs := fun _ => 0, size := 0 } := by
  have hblocks : ∀ b ∈ (places inum).map (block fs), b ≠ 0 →
      b < sb.size ∧ datastart sb ≤ b ∧ used sb fs.disk b = true := by
    intro b hb h0
    obtain ⟨q, hq, rfl⟩ := List.mem_map.mp hb
    exact h.sound.mem_inUse (valid_of_mem_places hi hq) h0
  obtain ⟨d, hd, hbits, hplain⟩ := freeAll_spec
    (fun b hb h0 => ⟨(hblocks b hb h0).1, (hblocks b hb h0).2.2⟩) (blocks_nodup h.sound hi)
  set ip : Inode := { fs.inode inum with addrs := fun _ => 0, size := 0 } with hip
  set fs₁ : Fs := Fs.set { fs with disk := d } inum ip with hfs₁
  have hblock : ∀ q, q.Valid sb → block fs₁ q = if q ∈ places inum then 0 else block fs q :=
    fun q hq => block_truncated h.sound hplain (fun _ => rfl) hq
  have hinode : ∀ i, i ≠ inum → fs₁.inode i = fs.inode i := fun i hne =>
    Function.update_of_ne hne _ _
  have hself : fs₁.inode inum = ip := Function.update_self _ _ _
  have hcontent : ∀ i < sb.ninodes, i ≠ inum → ∀ bn < MAXFILE,
      blockAt fs₁ i bn = blockAt fs i bn := fun i hi' hne bn hbn =>
    (hblock _ (content_valid hi' hbn)).trans (if_neg (content_not_mem hne))
  have hindirect : ∀ i < sb.ninodes, i ≠ inum → indirect fs₁ i = indirect fs i :=
    fun i hi' hne => (hblock (.indirect i) hi').trans (if_neg (indirect_not_mem hne))
  have hsound : Sound sb fs₁ := by
    refine ⟨fun c hc => (hbits c).mpr ⟨?_, h.sound.system c hc⟩, ?_⟩
    · by_contra hor
      rw [not_or, not_not] at hor
      exact Nat.not_le.mpr hc (hblocks c hor.2 hor.1).2.1
    · refine h.sound.owned.dropAll (· ∈ places inum) (fun q hq => ?_) (fun q hq => ?_) fun b => ?_
      · refine if_neg fun hc => hc.2 ?_
        rw [hblock q hc.1, if_pos hq]
      · by_cases hv : q.Valid sb
        · rw [holder, holder, hblock q hv, if_neg hq]
        · rw [holder, holder, if_neg fun hc => hv hc.1, if_neg fun hc => hv hc.1]
      · rw [mem_inUse, mem_inUse, show fs₁.disk = d from rfl, hbits b]
        constructor
        · rintro ⟨hsize, hdata, hfree, hused⟩
          refine ⟨⟨hsize, hdata, hused⟩, fun q hq hq' => ?_⟩
          obtain ⟨-, -, he⟩ := holder_eq_some hq'
          exact hfree.resolve_left (ne_zero_of_data hdata) (he ▸ List.mem_map_of_mem hq)
        · rintro ⟨⟨hsize, hdata, hused⟩, hnone⟩
          refine ⟨hsize, hdata, .inr fun hm => ?_, hused⟩
          obtain ⟨q, hq, he⟩ := List.mem_map.mp hm
          have h0 : block fs q ≠ 0 := he ▸ ne_zero_of_data hdata
          exact hnone q hq (he ▸ holder_eq (valid_of_mem_places hi hq) h0)
  have hbut : RegularBut sb fs₁ inum := by
    refine ⟨hsound, fun i hi' hne => ?_, fun i hi' hne => ?_, fun i hi' hne => ?_⟩
    · rw [hinode i hne]
      exact (h.sized i hi').congr (hcontent i hi' hne) (hindirect i hi' hne)
    · rw [hinode i hne]
      exact h.small i hi'
    · rw [hinode i hne, ← h.synced i hi']
      exact dinode_congr (hplain _ (plain_iblock hi'))
  have hsized : SizedTo fs₁ inum ip.size := by
    have hzero : ∀ q ∈ places inum, block fs₁ q = 0 := fun q hq =>
      (hblock q (valid_of_mem_places hi hq)).trans (if_pos hq)
    refine ⟨fun bn hbn => ?_, ?_⟩
    · have : Place.content inum bn ∈ places inum := by
        rw [mem_places, Place.content]
        split_ifs with hdirect
        · exact .inl ⟨_, rfl⟩
        · exact .inr ⟨_, by simp only [MAXFILE, NDIRECT, NINDIRECT] at *; omega, rfl⟩
      simp only [blockAt, hzero _ this, hip, ne_eq, not_true, Nat.not_lt_zero]
    · have : indirect fs₁ inum = 0 := hzero _ (mem_places.mpr (.inl ⟨_, rfl⟩))
      simp only [this, hip, ne_eq, not_true, Nat.not_lt_zero]
  have hfits : Fits ip := by
    have := h.fits hi
    exact ⟨this.type, this.major, this.minor, this.nlink, Nat.zero_lt_succ _,
      fun _ => Nat.zero_lt_succ _⟩
  have haddrs : ip.addrs = (fs₁.inode inum).addrs := by rw [hself]
  obtain ⟨hreg, hnil, hothers⟩ := iupdate_regular hbut hi haddrs hfits hsized (Nat.zero_le _)
  rw [show fs₁.set inum ip = fs₁ from Fs.set_set] at hreg hnil hothers
  refine ⟨iupdate sb fs₁ inum, ?_, hreg, hnil, fun i hi' hne => ?_, rfl⟩
  · rw [itrunc, hd, Option.map_some]
  · rw [hothers i hi' hne, contents, contents, hinode i hne]
    refine loadBytes_byteAt_congr (h.sized i hi') (h.small i hi') fun bn hbn h0 => ?_
    exact ⟨hcontent i hi' hne bn hbn, hplain _ (h.sound.plain (content_valid hi' hbn) h0)⟩

end Truncation

section Steps

variable {sb : SuperBlock} {fs fs' : Fs} {inum : ℕ} {f : ℕ → File} {op : Op} {r : Result}

structure Invariant (sb : SuperBlock) (fs : Fs) : Prop where
  regular : Regular sb fs
  blank : ∀ i < sb.ninodes, (fs.inode i).type = 0 → (fs.inode i).size = 0

def Shows (sb : SuperBlock) (fs : Fs) (f : ℕ → File) : Prop := ∀ i < sb.ninodes, file fs i = f i

theorem Regular.but (h : Regular sb fs) : RegularBut sb fs inum :=
  ⟨h.sound, fun i hi _ => h.sized i hi, fun i hi _ => h.small i hi, fun i hi _ => h.synced i hi⟩

theorem ilock_eq (h : Regular sb fs) (hi : inum < sb.ninodes) : ilock sb fs inum = fs := by
  rw [ilock, h.synced inum hi, Fs.set, Function.update_eq_self]

/-- An inode that is written with its size and blocks as they were. -/
theorem iupdate_step {ip : Inode} (h : Invariant sb fs) (hi : inum < sb.ninodes)
    (haddrs : ip.addrs = (fs.inode inum).addrs) (hsize : ip.size = (fs.inode inum).size)
    (hfits : Fits ip) (hblank : ip.type = 0 → ip.size = 0) :
    Invariant sb (iupdate sb (fs.set inum ip) inum) ∧
      ∀ i < sb.ninodes, file (iupdate sb (fs.set inum ip) inum) i =
        if i = inum then ⟨ip.type, ip.major, ip.minor, ip.nlink, contents fs inum⟩ else file fs i := by
  obtain ⟨hreg, hself, hothers⟩ := iupdate_regular (Regular.but h.regular) hi haddrs hfits
    (hsize ▸ h.regular.sized inum hi) (hsize ▸ h.regular.small inum hi)
  have hinode : (iupdate sb (fs.set inum ip) inum).inode = Function.update fs.inode inum ip := rfl
  refine ⟨⟨hreg, fun i hi' ht => ?_⟩, fun i hi' => ?_⟩
  · rw [hinode, Function.update_apply] at ht ⊢
    split_ifs at ht ⊢ with hc
    · exact hblank ht
    · exact h.blank i hi' ht
  · rw [file, hinode, Function.update_apply]
    split_ifs with hc
    · rw [hc, hself, hsize, contents]
    · rw [hothers i hi' hc, file]

theorem fits_of_type {n : ℕ} {ip : Inode} (h : Fits ip) (hn : n < 65536) :
    Fits { ip with type := n } := ⟨hn, h.major, h.minor, h.nlink, h.size, h.addrs⟩

theorem fits_of_node {major minor nlink : ℕ} {ip : Inode} (h : Fits ip) (hmajor : major < 65536)
    (hminor : minor < 65536) (hlinks : nlink < 65536) :
    Fits { ip with major := major, minor := minor, nlink := nlink } :=
  ⟨h.type, hmajor, hminor, hlinks, h.size, h.addrs⟩

/-- Everything but type, size and blocks may change. -/
theorem node_step {major minor nlink : ℕ} (h : Invariant sb fs) (hi : inum < sb.ninodes)
    (htype : (fs.inode inum).type ≠ 0) (hmajor : major < 65536) (hminor : minor < 65536)
    (hlinks : nlink < 65536) :
    let ip := { fs.inode inum with major := major, minor := minor, nlink := nlink }
    Invariant sb (iupdate sb (fs.set inum ip) inum) ∧
      ∀ i < sb.ninodes, file (iupdate sb (fs.set inum ip) inum) i =
        if i = inum then { file fs inum with major := major, minor := minor, nlink := nlink }
        else file fs i := by
  intro ip
  have haddrs : ip.addrs = (fs.inode inum).addrs := rfl
  have hfits : Fits ip := fits_of_node (h.regular.fits hi) hmajor hminor hlinks
  exact iupdate_step h hi haddrs rfl hfits fun ht => absurd ht htype

theorem iput_step (h : Invariant sb fs) (hi : inum < sb.ninodes) :
    ∃ fs', iput sb fs inum = some fs' ∧ Invariant sb fs' ∧
      ∀ i < sb.ninodes, file fs' i =
        if i = inum then { file fs inum with type := 0, bytes := [] } else file fs i := by
  obtain ⟨fs₁, htrunc, hreg, hnil, hothers, hinode⟩ := itrunc_spec h.regular hi
  have hself : fs₁.inode inum = { fs.inode inum with addrs := fun _ => 0, size := 0 } := by
    rw [hinode, Function.update_self]
  have hinv : Invariant sb fs₁ := by
    refine ⟨hreg, fun i hi' ht => ?_⟩
    rw [hinode, Function.update_apply] at ht ⊢
    split_ifs at ht ⊢
    · rfl
    · exact h.blank i hi' ht
  have hfits : Fits { fs₁.inode inum with type := 0 } := fits_of_type (hreg.fits hi) (by decide)
  have haddrs : ({ fs₁.inode inum with type := 0 } : Inode).addrs = (fs₁.inode inum).addrs := rfl
  obtain ⟨hinv', hfile⟩ := iupdate_step hinv hi haddrs rfl hfits fun _ => by rw [hself]
  refine ⟨_, by rw [iput, htrunc, Option.map_some], ?_, fun i hi' => ?_⟩
  · dsimp only
    rw [ilock_eq hinv'.regular hi]
    exact hinv'
  · dsimp only
    rw [ilock_eq hinv'.regular hi, hfile i hi']
    split_ifs with hc
    · rw [hnil, hself, file]
    · rw [file, file, hothers i hi' hc, hinode, Function.update_of_ne hc]

theorem ialloc_step {kind : Kind} (h : Invariant sb fs)
    (ha : ialloc sb fs kind.code = some (fs', inum)) :
    inum < sb.ninodes ∧ (fs.inode inum).type = 0 ∧ Invariant sb fs' ∧
      ∀ i < sb.ninodes, file fs' i =
        if i = inum then { File.none with type := kind.code } else file fs i := by
  have hcode : 0 < kind.code ∧ kind.code < 65536 := by cases kind <;> decide
  obtain ⟨hi, htype, hinode, hload, ⟨data, hdisk⟩, hloads⟩ := ialloc_spec hcode.2 ha
  rw [h.regular.synced inum hi] at htype
  have hsized := h.regular.sized inum hi
  rw [h.blank inum hi htype] at hsized
  -- a free inode has no blocks, so that none is lost
  have haddrs : (fs.inode inum).addrs = fun _ => 0 := by
    funext k
    by_cases hk : (k : ℕ) < NDIRECT
    · have hplace : Place.content inum k = .addr inum k := by
        rw [Place.content, if_pos hk]
        congr 1
        exact Fin.ext (Nat.mod_eq_of_lt k.isLt)
      have hc := hsized.content k (Nat.lt_trans hk (by decide))
      rw [blockAt, hplace] at hc
      have h0 : block fs (.addr inum k) = 0 := by simpa using hc
      exact h0
    · have hlast : k = Fin.last NDIRECT := by
        apply Fin.ext
        have := k.isLt
        simp only [Fin.val_last]
        omega
      have hc := hsized.indirect
      rw [hlast]
      simpa [indirect] using hc
  have hsame : ∀ i, (fs'.inode i).addrs = (fs.inode i).addrs := by
    intro i
    rw [hinode, Function.update_apply]
    split_ifs with hc
    · rw [hc, haddrs]
    · rfl
  obtain ⟨hblock, hsound⟩ := system_spec h.regular.sound (iblock_lt_bmapstart hi) data hsame
  rw [← hdisk] at hblock hsound
  have hcontent : ∀ i < sb.ninodes, ∀ bn < MAXFILE, blockAt fs' i bn = blockAt fs i bn :=
    fun i hi' bn hbn => hblock _ (content_valid hi' hbn)
  have hindirect : ∀ i < sb.ninodes, indirect fs' i = indirect fs i :=
    fun i hi' => hblock (.indirect i) hi'
  have hother : ∀ i, i ≠ inum → fs'.inode i = fs.inode i := fun i hne => by
    rw [hinode, Function.update_of_ne hne]
  have hself : fs'.inode inum = ⟨kind.code, 0, 0, 0, 0, fun _ => 0⟩ := by
    rw [hinode, Function.update_self]
  refine ⟨hi, htype, ⟨⟨hsound, fun i hi' => ?_, fun i hi' => ?_, fun i hi' => ?_⟩,
    fun i hi' ht => ?_⟩, fun i hi' => ?_⟩
  · obtain rfl | hne := eq_or_ne i inum
    · rw [hself]
      exact hsized.congr (hcontent i hi') (hindirect i hi')
    · rw [hother i hne]
      exact (h.regular.sized i hi').congr (hcontent i hi') (hindirect i hi')
  · obtain rfl | hne := eq_or_ne i inum
    · rw [hself]
      exact Nat.zero_le _
    · rw [hother i hne]
      exact h.regular.small i hi'
  · obtain rfl | hne := eq_or_ne i inum
    · rw [hself, hload]
    · rw [hother i hne, hloads i hne.symm, h.regular.synced i hi']
  · obtain rfl | hne := eq_or_ne i inum
    · rw [hself]
    · rw [hother i hne] at ht ⊢
      exact h.blank i hi' ht
  · split_ifs with hc
    · rw [file, hc, contents, hself]
      rfl
    · rw [file, file, contents, contents, hother i hc]
      congr 1
      refine loadBytes_byteAt_congr (h.regular.sized i hi') (h.regular.small i hi')
        fun bn hbn h0 => ⟨hcontent i hi' bn hbn, ?_⟩
      rw [hdisk]
      refine Function.update_of_ne (Nat.ne_of_gt ?_) _ _
      exact Nat.lt_of_lt_of_le (iblock_lt_datastart hi)
        (h.regular.sound.mem_inUse (content_valid hi' hbn) h0).2.1

theorem allocated_iff : allocated sb fs inum = true ↔
    inum < sb.ninodes ∧ (fs.inode inum).type ≠ 0 := by
  rw [allocated, Bool.and_eq_true, decide_eq_true_eq, decide_eq_true_eq]

theorem shows_update {g : File} (hshows : Shows sb fs f)
    (h : ∀ i < sb.ninodes, file fs' i = if i = inum then g else file fs i) :
    Shows sb fs' (Function.update f inum g) := by
  intro i hi
  rw [h i hi, Function.update_apply, hshows i hi]

theorem next_spec (h : Invariant sb fs) (hshows : Shows sb fs f) (hfits : op.Fits)
    (hn : next sb fs op = some (fs', r)) :
    Correct sb.ninodes f op r ∧ Invariant sb fs' ∧ Shows sb fs' (apply f op r) := by
  cases op with
  | ialloc kind =>
    obtain ⟨⟨fs₁, inum⟩, ha, he⟩ := Option.map_eq_some_iff.mp hn
    obtain ⟨rfl, rfl⟩ := Prod.mk.inj he
    obtain ⟨hi, htype, hinv, hfile⟩ := ialloc_step h ha
    refine ⟨⟨hi, ?_⟩, hinv, shows_update hshows hfile⟩
    rw [← hshows inum hi]
    exact htype
  | stat inum =>
    rw [next, Option.ite_none_right_eq_some, allocated_iff] at hn
    obtain ⟨⟨hi, -⟩, he⟩ := hn
    obtain ⟨rfl, rfl⟩ := Prod.mk.inj (Option.some.inj he)
    refine ⟨?_, h, hshows⟩
    rw [Correct, ← hshows inum hi, file, contents, loadBytes_length]
    exact ⟨rfl, rfl, rfl⟩
  | links inum nlink =>
    rw [next, Option.ite_none_right_eq_some, allocated_iff] at hn
    obtain ⟨⟨hi, htype⟩, he⟩ := hn
    obtain ⟨rfl, rfl⟩ := Prod.mk.inj (Option.some.inj he)
    have hold := h.regular.fits hi
    obtain ⟨hinv, hfile⟩ := node_step h hi htype hold.major hold.minor hfits
    refine ⟨trivial, hinv, shows_update hshows fun i hi' => ?_⟩
    rw [← hshows inum hi]
    exact hfile i hi'
  | node inum major minor nlink =>
    rw [next, Option.ite_none_right_eq_some, allocated_iff] at hn
    obtain ⟨⟨hi, htype⟩, he⟩ := hn
    obtain ⟨rfl, rfl⟩ := Prod.mk.inj (Option.some.inj he)
    obtain ⟨hinv, hfile⟩ := node_step h hi htype hfits.1 hfits.2.1 hfits.2.2
    refine ⟨trivial, hinv, shows_update hshows fun i hi' => ?_⟩
    rw [← hshows inum hi]
    exact hfile i hi'
  | writei inum off src =>
    rw [next, Option.ite_none_right_eq_some, Bool.and_eq_true, allocated_iff] at hn
    obtain ⟨⟨⟨hi, htype⟩, -⟩, hn⟩ := hn
    obtain ⟨⟨fs₁, ok⟩, hw, he⟩ := Option.map_eq_some_iff.mp hn
    obtain ⟨rfl, rfl⟩ := Prod.mk.inj he
    obtain ⟨hreg, hok, hcontents, hothers, hnames⟩ := writei_spec h.regular hi hfits hw
    have hf : f inum = file fs inum := (hshows inum hi).symm
    refine ⟨?_, ⟨hreg, fun i hi' ht => ?_⟩, shows_update hshows fun i hi' => ?_⟩
    · change ok = _
      rw [hok, hf, file]
    · obtain ⟨addrs, size, hnode⟩ := hnames i hi'
      rw [hnode] at ht
      have hne : i ≠ inum := by
        rintro rfl
        exact htype ht
      have hlen := congrArg List.length (hothers i hi' hne)
      rw [contents, contents, loadBytes_length, loadBytes_length] at hlen
      rw [hlen, h.blank i hi' ht]
    · obtain ⟨addrs, size, hnode⟩ := hnames i hi'
      rw [file, hf]
      split_ifs with hc
      · subst hc
        rw [hcontents, hnode, file]
      · rw [hothers i hi' hc, hnode, file]
  | readi inum off n =>
    rw [next, Option.ite_none_right_eq_some, Bool.and_eq_true, allocated_iff] at hn
    obtain ⟨⟨⟨hi, -⟩, -⟩, hn⟩ := hn
    rw [readi_spec (h.regular.sized inum hi) (h.regular.small inum hi) hfits,
      Option.map_some] at hn
    obtain ⟨rfl, rfl⟩ := Prod.mk.inj (Option.some.inj hn)
    refine ⟨?_, h, hshows⟩
    change PageCache.readi _ _ _ = _
    rw [← hshows inum hi, file]
  | iput inum =>
    rw [next, Option.ite_none_right_eq_some, Bool.and_eq_true, allocated_iff] at hn
    obtain ⟨⟨⟨hi, -⟩, -⟩, hn⟩ := hn
    obtain ⟨fs₁, hput, hinv, hfile⟩ := iput_step h hi
    rw [hput, Option.map_some] at hn
    obtain ⟨rfl, rfl⟩ := Prod.mk.inj (Option.some.inj hn)
    refine ⟨trivial, hinv, shows_update hshows fun i hi' => ?_⟩
    rw [← hshows inum hi]
    exact hfile i hi'
  | ilock inum =>
    rw [next, Option.ite_none_right_eq_some, allocated_iff] at hn
    obtain ⟨⟨hi, -⟩, he⟩ := hn
    rw [ilock_eq h.regular hi] at he
    obtain ⟨rfl, rfl⟩ := Prod.mk.inj (Option.some.inj he)
    exact ⟨trivial, h, hshows⟩

theorem run_spec {ops : List Op} {rs : List Result} (h : Invariant sb fs) (hshows : Shows sb fs f)
    (hfits : ∀ op ∈ ops, op.Fits) (hr : run sb fs ops = some (fs', rs)) :
    Invariant sb fs' ∧ ∃ f', Does sb.ninodes f ops rs f' ∧ Shows sb fs' f' := by
  induction ops generalizing fs f rs with
  | nil =>
    obtain ⟨rfl, rfl⟩ := Prod.mk.inj (Option.some.inj hr)
    exact ⟨h, f, .nil f, hshows⟩
  | cons op ops ih =>
    obtain ⟨⟨fs₁, r⟩, hn, hr⟩ := Option.bind_eq_some_iff.mp hr
    obtain ⟨⟨fs₂, rs'⟩, hrest, he⟩ := Option.map_eq_some_iff.mp hr
    obtain ⟨rfl, rfl⟩ := Prod.mk.inj he
    obtain ⟨hcorrect, hinv, hshows'⟩ := next_spec h hshows (hfits op List.mem_cons_self) hn
    obtain ⟨hinv', f', hdoes, hshows''⟩ := ih hinv hshows'
      (fun op hop => hfits op (List.mem_cons_of_mem _ hop)) hrest
    exact ⟨hinv', f', .cons hcorrect hdoes, hshows''⟩

end Steps

section Blank

variable {sb : SuperBlock} {d : Disk} {b c n inum : ℕ}

/-- The blocks before `n` marked one after another. -/
def marked (sb : SuperBlock) (d : Disk) (n : ℕ) : Disk := (List.range n).foldl (mark sb) d

theorem marked_succ : marked sb d (n + 1) = mark sb (marked sb d n) n := by
  rw [marked, List.range_succ, List.foldl_append]
  rfl

theorem used_marked : used sb (marked sb d n) b = (decide (b < n) || used sb d b) := by
  induction n with
  | zero => rfl
  | succ n ih =>
    rw [marked_succ, used_mark, ih, ← Bool.or_assoc]
    congr 1
    rw [Bool.eq_iff_iff, Bool.or_eq_true, decide_eq_true_iff, decide_eq_true_iff,
      decide_eq_true_iff]
    omega

theorem marked_plain (hn : n ≤ sb.size) (hc : Plain sb c) : marked sb d n c = d c := by
  induction n with
  | zero => rfl
  | succ n ih =>
    rw [marked_succ, mark, Function.update_of_ne (plain_ne_bblock hc hn), ih (Nat.le_of_lt hn)]

/-- No inodes, and no blocks in use but those of the file system itself. -/
def blank (sb : SuperBlock) : Fs :=
  ⟨marked sb (fun _ _ => 0) (datastart sb), fun _ => ⟨0, 0, 0, 0, 0, fun _ => 0⟩⟩

theorem loadDinode_zero {a : ℕ} : loadDinode (fun _ => 0) a = ⟨0, 0, 0, 0, 0, fun _ => 0⟩ := by
  simp only [loadDinode, loadHalf_of_zero (m := fun _ => 0) fun _ _ _ => rfl,
    loadWord_of_zero (m := fun _ => 0) fun _ _ _ => rfl]

theorem block_blank (q : Place) : block (blank sb) q = 0 := by
  cases q with
  | addr inum k => rfl
  | entry inum j => rfl

theorem used_zero : used sb (fun _ _ => 0) b = false := by
  simp [used, getBit]

theorem blank_invariant : Invariant sb (blank sb) := by
  have hsize : datastart sb ≤ sb.size := Nat.sub_le _ _
  have hused : ∀ b, used sb (blank sb).disk b = decide (b < datastart sb) := fun b => by
    rw [blank, used_marked, used_zero, Bool.or_false]
  refine ⟨⟨⟨fun b hb => ?_, ?_⟩, fun i _ => ?_, fun _ _ => Nat.zero_le _, fun i hi => ?_⟩,
    fun _ _ _ => rfl⟩
  · rw [hused, decide_eq_true hb]
  · have hholder : holder sb (blank sb) = fun _ => none := by
      funext q
      rw [holder, if_neg fun hc => hc.2 (block_blank q)]
    have hin : inUse sb (blank sb).disk = ∅ := by
      refine Finset.eq_empty_of_forall_notMem fun b hb => ?_
      obtain ⟨-, hdata, hb⟩ := mem_inUse.mp hb
      rw [hused, decide_eq_true_iff] at hb
      omega
    rw [hholder, hin]
    exact Owned.empty
  · refine ⟨fun bn _ => ⟨fun h0 => absurd (block_blank _) h0, fun h => ?_⟩,
      fun h0 => absurd rfl h0, fun h => ?_⟩
    · exact absurd h (Nat.not_lt_zero _)
    · exact absurd h (Nat.not_lt_zero _)
  · have hblock : (blank sb).disk (IBLOCK sb i) = fun _ => 0 :=
      marked_plain hsize (plain_iblock hi)
    rw [dinode, hblock, loadDinode_zero]
    rfl

end Blank

section Results

variable {sb : SuperBlock} {fs fs' : Fs} {ops : List Op} {rs : List Result}

/-- The files of the disk are lists of bytes: in every run the operations do to the blocks, bits
and inodes what they do to the lists, and return what is in the lists. -/
theorem runs_refine_files (h : Invariant sb fs) (hfits : ∀ op ∈ ops, op.Fits)
    (hr : run sb fs ops = some (fs', rs)) :
    ∃ f', Does sb.ninodes (file fs) ops rs f' ∧ Shows sb fs' f' :=
  (run_spec h (fun _ _ => rfl) hfits hr).2

theorem inodes_tiny : 2 + 8 / IPB < 4 := by decide

theorem bitmap_tiny : 4 + 20 / BPB < 20 - 14 := by decide

theorem word_tiny : 20 < 2147483648 := by decide

def tiny : SuperBlock := ⟨20, 14, 8, 2, 4, inodes_tiny, bitmap_tiny, word_tiny⟩

/-- A file is made, and linked, written and read. It is unlinked, and another takes its inode. -/
def reuse : List Op :=
  [.ialloc .T_FILE, .links 1 1, .writei 1 0 [72, 105, 33], .ilock 1, .writei 1 1 [111], .readi 1 0 9,
    .writei 1 4 [46], .links 1 0, .iput 1, .ialloc .T_DIR, .readi 1 0 9]

theorem fits_reuse : ∀ op ∈ reuse, op.Fits := by
  simp [reuse, Op.Fits]

def reuseResults : List Result :=
  [.inum 1, .done, .wrote true, .done, .wrote true, .bytes (some [72, 111, 33]), .wrote false,
    .done, .done, .inum 1, .bytes (some [])]

theorem run_reuse : ∃ fs, run tiny (blank tiny) reuse = some (fs, reuseResults) := by
  have h : (run tiny (blank tiny) reuse).map Prod.snd = some reuseResults := by
    decide +kernel
  obtain ⟨⟨fs, rs⟩, hr, rfl⟩ := Option.map_eq_some_iff.mp h
  exact ⟨fs, hr⟩

theorem runs_refine_files_reuse :
    ∃ fs f, run tiny (blank tiny) reuse = some (fs, reuseResults) ∧
      Does 8 (file (blank tiny)) reuse reuseResults f ∧ Shows tiny fs f := by
  obtain ⟨fs, hr⟩ := run_reuse
  obtain ⟨f, hdoes, hshows⟩ := runs_refine_files blank_invariant fits_reuse hr
  exact ⟨fs, f, hr, hdoes, hshows⟩

/-- In every state of every run, the bit map has a block in use if and only if one place of one
file has its number, and no other. No number leads out of the data blocks. -/
theorem blocks_have_one_place (h : Invariant sb fs) (hfits : ∀ op ∈ ops, op.Fits)
    (hr : run sb fs ops = some (fs', rs)) :
    (∀ b, datastart sb ≤ b → b < sb.size →
      (used sb fs'.disk b = true ↔ ∃! p : Place, p.Valid sb ∧ block fs' p = b)) ∧
    ∀ p : Place, p.Valid sb → block fs' p ≠ 0 →
      datastart sb ≤ block fs' p ∧ block fs' p < sb.size := by
  have hsound := (run_spec h (fun _ _ => rfl) hfits hr).1.regular.sound
  refine ⟨fun b hdata hsize => ⟨fun hused => ?_, ?_⟩, fun p hp h0 => ?_⟩
  · obtain ⟨p, hp⟩ := hsound.owned.complete (mem_inUse.mpr ⟨hsize, hdata, hused⟩)
    obtain ⟨hvalid, h0, rfl⟩ := holder_eq_some hp
    refine ⟨p, ⟨hvalid, rfl⟩, fun q hq => ?_⟩
    exact (hsound.unique hvalid hq.1 h0 hq.2.symm).symm
  · rintro ⟨p, ⟨hvalid, rfl⟩, -⟩
    exact (hsound.mem_inUse hvalid (ne_zero_of_data hdata)).2.2
  · obtain ⟨hsize, hdata, -⟩ := hsound.mem_inUse hp h0
    exact ⟨hdata, hsize⟩

theorem blocks_have_one_place_reuse :
    ∃ fs, run tiny (blank tiny) reuse = some (fs, reuseResults) ∧
      (∀ b, datastart tiny ≤ b → b < tiny.size →
        (used tiny fs.disk b = true ↔ ∃! p : Place, p.Valid tiny ∧ block fs p = b)) ∧
      ∀ p : Place, p.Valid tiny → block fs p ≠ 0 →
        datastart tiny ≤ block fs p ∧ block fs p < tiny.size := by
  obtain ⟨fs, hr⟩ := run_reuse
  exact ⟨fs, hr, blocks_have_one_place blank_invariant fits_reuse hr⟩

end Results

end FileStore
