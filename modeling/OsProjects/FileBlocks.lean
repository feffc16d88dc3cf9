import OsProjects.DiskInodes
import OsProjects.Ownership

/-! # The blocks of files

`bmap` of `fs.c`, and the books of the disk: every block that the bit map has in use, and that is
not for the file system itself, belongs to one place of one file. -/
namespace FileBlocks

open ByteMemory WordArrays DiskBlocks DiskInodes Ownership

abbrev NINDIRECT : ℕ := 128
abbrev MAXFILE : ℕ := 140

/-- Where the number of a block stands: in an inode, or in the indirect block of a file. -/
inductive Place where
  | addr (inum : ℕ) (k : Fin (NDIRECT + 1))
  | entry (inum : ℕ) (j : ℕ)
  deriving DecidableEq

/-- The place of the indirect block. -/
def Place.indirect (inum : ℕ) : Place := .addr inum (Fin.last NDIRECT)

/-- The place of a block of the file's content. -/
def Place.content (inum bn : ℕ) : Place :=
  if bn < NDIRECT then .addr inum (Fin.ofNat (NDIRECT + 1) bn) else .entry inum (bn - NDIRECT)

section Code

variable (sb : SuperBlock)

def indirect (fs : Fs) (inum : ℕ) : ℕ := (fs.inode inum).addrs (Fin.last NDIRECT)

/-- 0 when there is no block. -/
def block (fs : Fs) : Place → ℕ
  | .addr inum k => (fs.inode inum).addrs k
  | .entry inum j =>
    if indirect fs inum = 0 then 0 else loadWord (fs.disk (indirect fs inum)) (4 * j)

def put (fs : Fs) (p : Place) (b : ℕ) : Fs :=
  match p with
  | .addr inum k =>
    let ip := fs.inode inum
    fs.set inum { ip with addrs := Function.update ip.addrs k b }
  | .entry inum j =>
    let bp := fs.disk (indirect fs inum)
    { fs with disk := Function.update fs.disk (indirect fs inum) (storeWord bp (4 * j) b) }

/-- The number at the place, which gets a new block when it is 0. -/
def fill (fs : Fs) (p : Place) : Option (Fs × ℕ) :=
  if block fs p = 0 then
    (balloc sb fs.disk).map fun r => (put { fs with disk := r.1 } p r.2, r.2)
  else some (fs, block fs p)

def bmap (fs : Fs) (inum bn : ℕ) : Option (Fs × ℕ) :=
  if bn < NDIRECT then fill sb fs (.addr inum (Fin.ofNat (NDIRECT + 1) bn))
  else if bn - NDIRECT < NINDIRECT then
    (fill sb fs (.addr inum (Fin.last NDIRECT))).bind fun r =>
      fill sb r.1 (.entry inum (bn - NDIRECT))
  else
    -- panics
    none

end Code

section Books

variable (sb : SuperBlock)

def Place.Valid : Place → Prop
  | .addr inum _ => inum < sb.ninodes
  | .entry inum j => inum < sb.ninodes ∧ j < NINDIRECT

instance (p : Place) : Decidable (p.Valid sb) := by
  cases p <;> simp only [Place.Valid] <;> infer_instance

def holder (fs : Fs) (p : Place) : Option ℕ :=
  if p.Valid sb ∧ block fs p ≠ 0 then some (block fs p) else none

/-- The data blocks that the bit map has in use. -/
def inUse (d : Disk) : Finset ℕ :=
  (Finset.range sb.size).filter fun b => datastart sb ≤ b ∧ used sb d b = true

structure Sound (fs : Fs) : Prop where
  system : ∀ b < datastart sb, used sb fs.disk b = true
  owned : Owned (holder sb fs) (inUse sb fs.disk)

end Books

section Holders

variable {sb : SuperBlock} {fs fs' : Fs} {p q : Place} {d' : Disk} {b inum : ℕ}

theorem holder_eq (hp : p.Valid sb) (h0 : block fs p ≠ 0) : holder sb fs p = some (block fs p) :=
  if_pos ⟨hp, h0⟩

theorem holder_eq_some (h : holder sb fs p = some b) :
    p.Valid sb ∧ block fs p ≠ 0 ∧ block fs p = b := by
  rw [holder, Option.ite_none_right_eq_some] at h
  exact ⟨h.1.1, h.1.2, Option.some.inj h.2⟩

theorem mem_inUse {d : Disk} :
    b ∈ inUse sb d ↔ b < sb.size ∧ datastart sb ≤ b ∧ used sb d b = true := by
  rw [inUse, Finset.mem_filter, Finset.mem_range]

theorem Sound.mem_inUse (h : Sound sb fs) (hp : p.Valid sb) (h0 : block fs p ≠ 0) :
    block fs p < sb.size ∧ datastart sb ≤ block fs p ∧ used sb fs.disk (block fs p) = true :=
  FileBlocks.mem_inUse.mp (h.owned.sound (holder_eq hp h0))

theorem Sound.plain (h : Sound sb fs) (hp : p.Valid sb) (h0 : block fs p ≠ 0) :
    Plain sb (block fs p) := plain_of_data (h.mem_inUse hp h0).2.1

theorem Sound.unique (h : Sound sb fs) (hp : p.Valid sb) (hq : q.Valid sb)
    (h0 : block fs p ≠ 0) (he : block fs p = block fs q) : p = q := by
  refine h.owned.unique (holder_eq hp h0) ?_
  rw [he]
  exact holder_eq hq (he ▸ h0)

/-- The books stay right while the numbers and the bits stay. -/
theorem Sound.congr (h : Sound sb fs) (hblock : ∀ q, q.Valid sb → block fs' q = block fs q)
    (hbits : ∀ c < sb.size, used sb fs'.disk c = used sb fs.disk c) : Sound sb fs' := by
  have hholder : holder sb fs' = holder sb fs := by
    funext q
    by_cases hv : q.Valid sb
    · rw [holder, holder, hblock q hv]
    · rw [holder, holder, if_neg fun hc => hv hc.1, if_neg fun hc => hv hc.1]
  have hin : inUse sb fs'.disk = inUse sb fs.disk := by
    ext c
    rw [FileBlocks.mem_inUse, FileBlocks.mem_inUse]
    refine and_congr_right fun hc => ?_
    rw [hbits c hc]
  refine ⟨fun c hc => ?_, ?_⟩
  · rw [hbits c (Nat.lt_of_lt_of_le hc (Nat.sub_le _ _)), h.system c hc]
  · rw [hholder, hin]
    exact h.owned

theorem ne_zero_of_data (h : datastart sb ≤ b) : b ≠ 0 :=
  Nat.ne_of_gt (Nat.lt_of_lt_of_le datastart_pos h)

theorem Sound.addrs_lt (h : Sound sb fs) (hi : inum < sb.ninodes) (k : Fin (NDIRECT + 1)) :
    (fs.inode inum).addrs k < 4294967296 := by
  have hvalid : (Place.addr inum k).Valid sb := hi
  by_cases h0 : (fs.inode inum).addrs k = 0
  · rw [h0]
    decide
  · have : (fs.inode inum).addrs k < sb.size := (h.mem_inUse hvalid h0).1
    have := sb.word
    omega

/-- A new block is nobody's. -/
theorem Sound.ne_fresh (h : Sound sb fs) (ha : Allocated sb fs.disk d' b) (hp : p.Valid sb)
    (h0 : block fs p ≠ 0) : block fs p ≠ b := by
  intro he
  have hused := (h.mem_inUse hp h0).2.2
  rw [he, ha.fresh] at hused
  cases hused

theorem block_indirect : block fs (.indirect inum) = indirect fs inum := rfl

/-- The allocation alone changes no place. -/
theorem block_allocated (h : Sound sb fs) (ha : Allocated sb fs.disk d' b) (hq : q.Valid sb) :
    block { fs with disk := d' } q = block fs q := by
  cases q with
  | addr inum k => rfl
  | entry inum j =>
    change (if indirect fs inum = 0 then 0 else loadWord (d' (indirect fs inum)) (4 * j)) =
      if indirect fs inum = 0 then 0 else loadWord (fs.disk (indirect fs inum)) (4 * j)
    split_ifs with h0
    · rfl
    · have hp : (Place.indirect inum).Valid sb := hq.1
      have hsame : d' (indirect fs inum) = fs.disk (indirect fs inum) :=
        ha.others _ (h.ne_fresh ha hp h0) (h.plain hp h0)
      rw [hsame]

theorem loadWord_zero {m : Mem} {j : ℕ} (hj : j < NINDIRECT) (h : ∀ x < BSIZE, m x = 0) :
    loadWord m (4 * j) = 0 :=
  loadWord_of_zero fun x _ hx => h x (by simp only [NINDIRECT, BSIZE] at *; omega)

theorem block_put_self (hb : b < 4294967296)
    (hroom : ∀ inum j, p = .entry inum j → indirect fs inum ≠ 0) : block (put fs p b) p = b := by
  cases p with
  | addr inum k =>
    simp only [put, block, Fs.set, Function.update_self]
  | entry inum j =>
    have hi : indirect (put fs (.entry inum j) b) inum = indirect fs inum := rfl
    simp only [block, hi, if_neg (hroom inum j rfl)]
    simp only [put, Function.update_self, loadWord_storeWord]
    exact Nat.mod_eq_of_lt hb

theorem indirect_put_entry {inum' j : ℕ} :
    indirect (put fs (.entry inum' j) b) inum = indirect fs inum := rfl

/-- Putting a number at one place changes no other. An indirect block that is put has no numbers
in it yet. -/
theorem block_put_of_ne (hp : p.Valid sb) (hq : q.Valid sb) (hne : q ≠ p)
    (hunique : ∀ inum inum', inum < sb.ninodes → inum' < sb.ninodes → indirect fs inum ≠ 0 →
      indirect fs inum = indirect fs inum' → inum = inum')
    (hroom : ∀ inum j, p = .entry inum j → indirect fs inum ≠ 0)
    (hempty : ∀ inum, p = .indirect inum →
      indirect fs inum = 0 ∧ ∀ j < NINDIRECT, loadWord (fs.disk b) (4 * j) = 0) :
    block (put fs p b) q = block fs q := by
  cases p with
  | addr inum k =>
    cases q with
    | addr inum' k' =>
      simp only [put, block, Fs.set, Function.update_apply]
      split_ifs with hi
      · subst hi
        have hk : k' ≠ k := by
          rintro rfl
          exact hne rfl
        exact Function.update_of_ne hk _ _
      · rfl
    | entry inum' j =>
      by_cases hi : inum' = inum ∧ k = Fin.last NDIRECT
      · obtain ⟨rfl, rfl⟩ := hi
        obtain ⟨h0, hzero⟩ := hempty inum' rfl
        have hnew : indirect (put fs (.addr inum' (Fin.last NDIRECT)) b) inum' = b := by
          simp only [indirect, put, Fs.set, Function.update_self]
        simp only [block, hnew, h0, if_true]
        split_ifs
        · rfl
        · exact hzero j hq.2
      · have hsame : indirect (put fs (.addr inum k) b) inum' = indirect fs inum' := by
          simp only [indirect, put, Fs.set, Function.update_apply]
          split_ifs with hinum
          · subst hinum
            exact Function.update_of_ne (fun hk => hi ⟨rfl, hk.symm⟩) _ _
          · rfl
        simp only [block, hsame]
        rfl
  | entry inum j =>
    cases q with
    | addr inum' k' => rfl
    | entry inum' j' =>
      by_cases h0 : indirect fs inum' = 0
      · have hi : indirect (put fs (.entry inum j) b) inum' = 0 := h0
        exact (if_pos hi).trans (if_pos h0).symm
      · simp only [block, indirect_put_entry, if_neg h0]
        simp only [put, Function.update_apply]
        split_ifs with hi
        · have hinum := hunique inum' inum hq.1 hp.1 h0 hi
          subst hinum
          have hj : j' ≠ j := by
            rintro rfl
            exact hne rfl
          exact loadWord_storeWord_of_disjoint (by omega)
        · rfl

end Holders

section Filling

variable {sb : SuperBlock} {fs fs' : Fs} {p q : Place} {d' : Disk} {b inum bn : ℕ}

theorem Sound.indirect_unique (h : Sound sb fs) (inum inum' : ℕ) (hi : inum < sb.ninodes)
    (hi' : inum' < sb.ninodes) (h0 : indirect fs inum ≠ 0)
    (he : indirect fs inum = indirect fs inum') : inum = inum' := by
  have hi : (Place.indirect inum).Valid sb := hi
  have hi' : (Place.indirect inum').Valid sb := hi'
  exact (Place.addr.inj (h.unique hi hi' h0 he)).1

/-- What has become of the disk when a place has got a block, or has one. -/
structure Filled (sb : SuperBlock) (fs fs' : Fs) (p : Place) (b : ℕ) : Prop where
  sound : Sound sb fs'
  filled : block fs' p = b
  nonzero : b ≠ 0
  rest : ∀ q, q.Valid sb → q ≠ p → block fs' q = block fs q
  kept : ∀ q, q.Valid sb → block fs q ≠ 0 → block fs' q = block fs q
  data : ∀ q, q.Valid sb → block fs q ≠ 0 → (∀ inum j, p = .entry inum j → q ≠ .indirect inum) →
    fs'.disk (block fs q) = fs.disk (block fs q)
  system : ∀ b < sb.bmapstart, fs'.disk b = fs.disk b
  inode : ∀ inum, ∃ addrs, fs'.inode inum = { fs.inode inum with addrs := addrs }
  taken : (inUse sb fs'.disk).card = (inUse sb fs.disk).card + if block fs p = 0 then 1 else 0

/-- The disk of `put` differs from the one before in one indirect block at most. -/
theorem disk_put (h : ∀ inum j, p = .entry inum j → b ≠ indirect fs inum) {v : ℕ} :
    (put fs p v).disk b = fs.disk b := by
  cases p with
  | addr inum k => rfl
  | entry inum j => exact Function.update_of_ne (h inum j rfl) _ _

theorem inode_put {v : ℕ} :
    ∃ addrs, (put fs p v).inode inum = { fs.inode inum with addrs := addrs } := by
  cases p with
  | addr inum' k =>
    simp only [put, Fs.set, Function.update_apply]
    split_ifs with hi
    · rw [hi]
      exact ⟨_, rfl⟩
    · exact ⟨_, rfl⟩
  | entry inum' j => exact ⟨_, rfl⟩

theorem fill_spec (h : Sound sb fs) (hp : p.Valid sb)
    (hroom : ∀ inum j, p = .entry inum j → indirect fs inum ≠ 0)
    (hf : fill sb fs p = some (fs', b)) : Filled sb fs fs' p b := by
  rw [fill] at hf
  split_ifs at hf with h0
  · obtain ⟨⟨d', b'⟩, hd, he⟩ := Option.map_eq_some_iff.mp hf
    obtain ⟨rfl, rfl⟩ := Prod.mk.inj he
    have ha := balloc_spec h.system hd
    set fs₁ : Fs := { fs with disk := d' } with hfs₁
    have hb0 : b' ≠ 0 := ne_zero_of_data ha.data
    have hword : b' < 4294967296 := by
      have := ha.inside
      have := sb.word
      omega
    have hblock₁ : ∀ q, q.Valid sb → block fs₁ q = block fs q := fun q hq =>
      block_allocated h ha hq
    have hself : block (put fs₁ p b') p = b' := block_put_self hword hroom
    have hrest : ∀ q, q.Valid sb → q ≠ p → block (put fs₁ p b') q = block fs q := by
      intro q hq hne
      rw [← hblock₁ q hq]
      refine block_put_of_ne hp hq hne h.indirect_unique hroom fun inum he => ?_
      subst he
      exact ⟨h0, fun j hj => loadWord_zero hj ha.zero⟩
    -- the bit map is not where the numbers are put
    have hindirect : ∀ inum j, p = .entry inum j → datastart sb ≤ indirect fs inum := by
      rintro inum j rfl
      have hi : (Place.indirect inum).Valid sb := hp.1
      exact (h.mem_inUse hi (hroom inum j rfl)).2.1
    have hused : ∀ c < sb.size,
        used sb (put fs₁ p b').disk c = (decide (b' = c) || used sb fs.disk c) := by
      intro c hc
      rw [← ha.marked c hc]
      refine used_congr (disk_put fun inum j hpe he => bblock_not_plain hc ?_)
      rw [he]
      exact plain_of_data (hindirect inum j hpe)
    have hin : inUse sb (put fs₁ p b').disk = insert b' (inUse sb fs.disk) := by
      ext c
      rw [Finset.mem_insert, mem_inUse, mem_inUse]
      constructor
      · rintro ⟨hc, hdata, hu⟩
        rw [hused c hc, Bool.or_eq_true, decide_eq_true_iff] at hu
        exact hu.imp Eq.symm fun hu => ⟨hc, hdata, hu⟩
      · rintro (rfl | ⟨hc, hdata, hu⟩)
        · refine ⟨ha.inside, ha.data, ?_⟩
          rw [hused c ha.inside, decide_eq_true rfl, Bool.true_or]
        · refine ⟨hc, hdata, ?_⟩
          rw [hused c hc, hu, Bool.or_true]
    have hfresh : b' ∉ inUse sb fs.disk := by
      intro hm
      have := (mem_inUse.mp hm).2.2
      rw [ha.fresh] at this
      cases this
    have hsound : Sound sb (put fs₁ p b') := by
      refine ⟨fun c hc => ?_, ?_⟩
      · have hsize : c < sb.size := Nat.lt_of_lt_of_le hc (Nat.sub_le _ _)
        rw [hused c hsize, h.system c hc, Bool.or_true]
      · have hholder : holder sb (put fs₁ p b') = Function.update (holder sb fs) p (some b') := by
          funext q
          rw [Function.update_apply]
          split_ifs with hq
          · subst hq
            rw [holder_eq hp (by rwa [hself]), hself]
          · by_cases hv : q.Valid sb
            · rw [holder, holder, hrest q hv hq]
            · rw [holder, holder, if_neg fun hc => hv hc.1, if_neg fun hc => hv hc.1]
        rw [hholder, hin]
        exact h.owned.gain (if_neg fun hc => hc.2 h0) hfresh
    refine ⟨hsound, hself, hb0, hrest, fun q hq hq0 => hrest q hq ?_, fun q hq hq0 hne => ?_,
      fun c hc => ?_, fun _ => inode_put, ?_⟩
    · rintro rfl
      exact hq0 h0
    · rw [disk_put fun inum j hpe he => ?_]
      · exact ha.others _ (h.ne_fresh ha hq hq0) (h.plain hq hq0)
      · have hi : (Place.indirect inum).Valid sb := by
          subst hpe
          exact hp.1
        exact hne inum j hpe (h.unique hq hi hq0 he)
    · have hlt : c < datastart sb :=
        Nat.lt_trans hc (Nat.lt_of_le_of_lt (Nat.le_add_right _ _) sb.bitmap)
      rw [disk_put fun inum j hpe he => ?_]
      · exact ha.others c (Nat.ne_of_lt (Nat.lt_of_lt_of_le hlt ha.data)) (.inl hc)
      · exact Nat.lt_irrefl _ (Nat.lt_of_lt_of_le hlt (he ▸ hindirect inum j hpe))
    · rw [hin, Finset.card_insert_of_notMem hfresh, if_pos h0]
  · obtain ⟨rfl, rfl⟩ := Prod.mk.inj (Option.some.inj hf)
    refine ⟨h, rfl, h0, fun _ _ _ => rfl, fun _ _ _ => rfl, fun _ _ _ _ => rfl, fun _ _ => rfl,
      fun _ => ⟨_, rfl⟩, ?_⟩
    rw [if_neg h0, Nat.add_zero]

end Filling

section Mapping

variable {sb : SuperBlock} {fs fs' : Fs} {p q : Place} {b inum inum' bn bn' len : ℕ}

/-- The block of the file's content with the number, 0 when there is none. -/
def blockAt (fs : Fs) (inum bn : ℕ) : ℕ := block fs (.content inum bn)

theorem content_valid (hi : inum < sb.ninodes) (hbn : bn < MAXFILE) :
    (Place.content inum bn).Valid sb := by
  simp only [MAXFILE] at hbn
  rw [Place.content]
  split_ifs with h
  · exact hi
  · refine ⟨hi, ?_⟩
    simp only [NINDIRECT, NDIRECT] at *
    omega

theorem content_injective (h : Place.content inum bn = Place.content inum' bn') :
    inum = inum' ∧ bn = bn' := by
  rw [Place.content, Place.content] at h
  split_ifs at h with h₁ h₂ h₂
  · obtain ⟨hi, hk⟩ := Place.addr.inj h
    refine ⟨hi, ?_⟩
    have hval := congrArg Fin.val hk
    simp only [Fin.ofNat, NDIRECT] at *
    omega
  · obtain ⟨hi, hj⟩ := Place.entry.inj h
    refine ⟨hi, ?_⟩
    simp only [NDIRECT] at *
    omega

theorem content_ne_indirect : Place.content inum bn ≠ .indirect inum' := by
  rw [Place.content, Place.indirect]
  split_ifs with h
  · intro he
    have hval := congrArg Fin.val (Place.addr.inj he).2
    simp only [Fin.ofNat, Fin.last, NDIRECT] at *
    omega
  · rintro ⟨⟩

/-- What has become of the disk when `bmap` returns a block. -/
structure Mapped (sb : SuperBlock) (fs fs' : Fs) (inum bn b : ℕ) : Prop where
  sound : Sound sb fs'
  mapped : blockAt fs' inum bn = b
  nonzero : b ≠ 0
  rest : ∀ q, q.Valid sb → q ≠ .content inum bn → q ≠ .indirect inum → block fs' q = block fs q
  kept : ∀ q, q.Valid sb → block fs q ≠ 0 → block fs' q = block fs q
  indirect : indirect fs' inum ≠ 0 ↔ indirect fs inum ≠ 0 ∨ NDIRECT ≤ bn
  data : ∀ q, q.Valid sb → block fs q ≠ 0 → q ≠ .indirect inum →
    fs'.disk (block fs q) = fs.disk (block fs q)
  system : ∀ b < sb.bmapstart, fs'.disk b = fs.disk b
  inode : ∀ inum, ∃ addrs, fs'.inode inum = { fs.inode inum with addrs := addrs }

theorem bmap_spec (h : Sound sb fs) (hi : inum < sb.ninodes) (hbn : bn < MAXFILE)
    (hf : bmap sb fs inum bn = some (fs', b)) : Mapped sb fs fs' inum bn b := by
  have hvalid := content_valid hi hbn
  rw [bmap] at hf
  split_ifs at hf with hd hn
  · have hplace : Place.content inum bn = .addr inum (Fin.ofNat (NDIRECT + 1) bn) := if_pos hd
    rw [← hplace] at hf
    have hfill := fill_spec h hvalid (fun _ _ he => by rw [hplace] at he; cases he) hf
    refine ⟨hfill.sound, hfill.filled, hfill.nonzero, fun q hq hne _ => hfill.rest q hq hne,
      hfill.kept, ?_, fun q hq h0 _ => hfill.data q hq h0 fun _ _ he => ?_, hfill.system, hfill.inode⟩
    · have hsame := hfill.rest (.indirect inum) hi content_ne_indirect.symm
      rw [block_indirect, block_indirect] at hsame
      rw [hsame]
      exact ⟨.inl, fun hor => hor.resolve_right (Nat.not_le.mpr hd)⟩
    · rw [hplace] at he
      cases he
  · have hplace : Place.content inum bn = .entry inum (bn - NDIRECT) := if_neg hd
    obtain ⟨⟨fs₁, b₁⟩, hf₁, hf⟩ := Option.bind_eq_some_iff.mp hf
    have hfill₁ : Filled sb fs fs₁ (.indirect inum) b₁ :=
      fill_spec h hi (fun _ _ he => by cases he) hf₁
    have hroom : FileBlocks.indirect fs₁ inum ≠ 0 := by
      rw [← block_indirect, hfill₁.filled]
      exact hfill₁.nonzero
    rw [← hplace] at hf
    have hfill : Filled sb fs₁ fs' (.content inum bn) b := by
      refine fill_spec hfill₁.sound hvalid (fun inum' j he => ?_) hf
      rw [hplace] at he
      obtain ⟨rfl, -⟩ := Place.entry.inj he
      exact hroom
    refine ⟨hfill.sound, hfill.filled, hfill.nonzero, fun q hq hne hni => ?_, fun q hq h0 => ?_, ?_,
      fun q hq h0 hni => ?_, fun c hc => ?_, fun i => ?_⟩
    · rw [hfill.rest q hq hne, hfill₁.rest q hq hni]
    · have hkept := hfill₁.kept q hq h0
      rw [hfill.kept q hq (by rwa [hkept]), hkept]
    · have hsame := hfill.rest (.indirect inum) hi content_ne_indirect.symm
      rw [block_indirect, block_indirect] at hsame
      rw [hsame]
      exact ⟨fun _ => .inr (Nat.le_of_not_lt hd), fun _ => hroom⟩
    · have hb := hfill₁.rest q hq hni
      rw [← hfill₁.data q hq h0 (fun _ _ he => by cases he), ← hb]
      refine hfill.data q hq (by rwa [hb]) fun inum' j he => ?_
      rw [hplace] at he
      obtain ⟨rfl, -⟩ := Place.entry.inj he
      exact hni
    · rw [hfill.system c hc, hfill₁.system c hc]
    · obtain ⟨addrs₁, h₁⟩ := hfill₁.inode i
      obtain ⟨addrs, h₂⟩ := hfill.inode i
      exact ⟨addrs, by rw [h₂, h₁]⟩

theorem fill_existing (h0 : block fs p ≠ 0) : fill sb fs p = some (fs, block fs p) := if_neg h0

/-- A block that is there is returned, and nothing changes. -/
theorem bmap_existing (hbn : bn < MAXFILE) (h0 : blockAt fs inum bn ≠ 0) :
    bmap sb fs inum bn = some (fs, blockAt fs inum bn) := by
  rw [blockAt, Place.content] at h0 ⊢
  rw [bmap]
  split_ifs at h0 ⊢ with hd hn
  · exact fill_existing h0
  · have hi : block fs (.addr inum (Fin.last NDIRECT)) ≠ 0 := fun hi => h0 (if_pos hi)
    rw [fill_existing hi, Option.bind_some]
    exact fill_existing h0
  · simp only [MAXFILE, NINDIRECT, NDIRECT] at *
    omega

/-- The file has the blocks that a file of this length needs, and no others. -/
structure SizedTo (fs : Fs) (inum len : ℕ) : Prop where
  content : ∀ bn < MAXFILE, blockAt fs inum bn ≠ 0 ↔ bn * BSIZE < len
  indirect : indirect fs inum ≠ 0 ↔ NDIRECT * BSIZE < len

theorem SizedTo.congr (h : SizedTo fs inum len)
    (hc : ∀ bn < MAXFILE, blockAt fs' inum bn = blockAt fs inum bn)
    (hi : FileBlocks.indirect fs' inum = FileBlocks.indirect fs inum) : SizedTo fs' inum len :=
  ⟨fun bn hbn => by rw [hc bn hbn, h.content bn hbn], by rw [hi, h.indirect]⟩

theorem Mapped.sizedTo (h : Mapped sb fs fs' inum bn b) (hs : SizedTo fs inum len)
    (hi : inum < sb.ninodes) (hbn : bn < MAXFILE) (hlen : bn * BSIZE ≤ len) :
    SizedTo fs' inum (max len (bn * BSIZE + 1)) := by
  refine ⟨fun bn' hbn' => ?_, ?_⟩
  · obtain rfl | hne := eq_or_ne bn' bn
    · refine ⟨fun _ => ?_, fun _ => by rw [h.mapped]; exact h.nonzero⟩
      exact Nat.lt_of_lt_of_le (Nat.lt_succ_self _) (Nat.le_max_right _ _)
    · have hsame : blockAt fs' inum bn' = blockAt fs inum bn' :=
        h.rest _ (content_valid hi hbn') (fun he => hne (content_injective he).2)
          content_ne_indirect
      rw [hsame, hs.content bn' hbn']
      simp only [BSIZE] at *
      omega
  · rw [h.indirect, hs.indirect]
    simp only [BSIZE, NDIRECT] at *
    omega

end Mapping

end FileBlocks
