import Mathlib.Algebra.BigOperators.Group.Finset.Basic
import Mathlib.Algebra.Order.BigOperators.Group.Finset
import Mathlib.Order.Interval.Finset.Nat
import OsProjects.FileStore

/-! # Room on the disk

The blocks that the files need, and when the operations of the file system panic. -/
namespace DiskSpace

open ByteMemory DiskBlocks DiskInodes FileBlocks FileContents FileStore

/-- The blocks of a file of this length, with the indirect block. -/
def need (len : ℕ) : ℕ := (len + (BSIZE - 1)) / BSIZE + if NDIRECT * BSIZE < len then 1 else 0

section Taking

variable {sb : SuperBlock} {fs fs' : Fs} {p : Place} {d : Disk} {inum bn b len off : ℕ}
  {src : List UInt8}

theorem nblocks_le : sb.nblocks ≤ sb.size := by
  have := sb.bitmap
  simp only [BPB] at this
  omega

theorem inUse_subset : inUse sb d ⊆ Finset.Ico (datastart sb) sb.size := by
  intro b hb
  obtain ⟨hsize, hdata, -⟩ := mem_inUse.mp hb
  exact Finset.mem_Ico.mpr ⟨hdata, hsize⟩

theorem card_data : (Finset.Ico (datastart sb) sb.size).card = sb.nblocks := by
  have : sb.nblocks ≤ sb.size := nblocks_le
  rw [Nat.card_Ico, datastart]
  omega

theorem card_inUse_le : (inUse sb d).card ≤ sb.nblocks :=
  card_data ▸ Finset.card_le_card inUse_subset

theorem inUse_update {data : Mem} (hb : Plain sb b) :
    inUse sb (Function.update d b data) = inUse sb d := by
  ext c
  rw [mem_inUse, mem_inUse]
  refine and_congr_right fun hc => ?_
  rw [used_congr (Function.update_of_ne (plain_ne_bblock hb hc).symm _ _)]

theorem balloc_eq_none (h : Sound sb fs) :
    balloc sb fs.disk = none ↔ sb.nblocks ≤ (inUse sb fs.disk).card := by
  rw [balloc_eq_none_iff, ← card_data]
  constructor
  · intro hall
    refine Finset.card_le_card fun b hb => ?_
    obtain ⟨hdata, hsize⟩ := Finset.mem_Ico.mp hb
    exact mem_inUse.mpr ⟨hsize, hdata, hall b hsize⟩
  · intro hcard b hb
    by_cases hdata : datastart sb ≤ b
    · have hsub : inUse sb fs.disk ⊆ Finset.Ico (datastart sb) sb.size := inUse_subset
      have heq := Finset.eq_of_subset_of_card_le hsub hcard
      exact (mem_inUse.mp (heq ▸ Finset.mem_Ico.mpr ⟨hdata, hb⟩)).2.2
    · exact h.system b (Nat.lt_of_not_le hdata)

theorem fill_eq_none (h : Sound sb fs) :
    fill sb fs p = none ↔
      sb.nblocks < (inUse sb fs.disk).card + if block fs p = 0 then 1 else 0 := by
  rw [fill]
  split_ifs with h0
  · rw [Option.map_eq_none_iff, balloc_eq_none h, Nat.lt_succ_iff]
  · simp only [false_iff, Nat.not_lt, Nat.add_zero]
    exact card_inUse_le

/-- The blocks that `bmap` allocates. -/
def cost (fs : Fs) (inum bn : ℕ) : ℕ :=
  (if blockAt fs inum bn = 0 then 1 else 0) +
    if NDIRECT ≤ bn ∧ indirect fs inum = 0 then 1 else 0

theorem bmap_taken (h : Sound sb fs) (hi : inum < sb.ninodes) (hbn : bn < MAXFILE) :
    (bmap sb fs inum bn = none ↔ sb.nblocks < (inUse sb fs.disk).card + cost fs inum bn) ∧
      ∀ fs' b, bmap sb fs inum bn = some (fs', b) →
        (inUse sb fs'.disk).card = (inUse sb fs.disk).card + cost fs inum bn := by
  have hvalid := content_valid hi hbn
  rw [bmap, cost]
  by_cases hd : bn < NDIRECT
  · have hplace : Place.content inum bn = .addr inum (Fin.ofNat (NDIRECT + 1) bn) := if_pos hd
    have hnot : ¬ (NDIRECT ≤ bn ∧ indirect fs inum = 0) := fun hc => Nat.not_le.mpr hd hc.1
    rw [if_pos hd, ← hplace, if_neg hnot, Nat.add_zero]
    exact ⟨fill_eq_none h, fun fs' b hf =>
      (fill_spec h hvalid (fun _ _ he => by rw [hplace] at he; cases he) hf).taken⟩
  · have hplace : Place.content inum bn = .entry inum (bn - NDIRECT) := if_neg hd
    have hn : bn - NDIRECT < NINDIRECT := by
      simp only [MAXFILE, NDIRECT, NINDIRECT] at *
      omega
    have hroom : ∀ {fs₁ b₁}, fill sb fs (.indirect inum) = some (fs₁, b₁) →
        Filled sb fs fs₁ (.indirect inum) b₁ := fun hf =>
      fill_spec h hi (fun _ _ he => by cases he) hf
    rw [if_neg hd, if_pos hn, ← hplace, ← Place.indirect]
    cases hf₁ : fill sb fs (.indirect inum) with
    | none =>
      have hfull := (fill_eq_none h).mp hf₁
      rw [block_indirect] at hfull
      refine ⟨⟨fun _ => ?_, fun _ => rfl⟩, fun fs' b hf => by cases hf⟩
      simp only [Nat.le_of_not_lt hd, true_and]
      omega
    | some r =>
      obtain ⟨fs₁, b₁⟩ := r
      have hfilled := hroom hf₁
      have htaken := hfilled.taken
      have hsame : block fs₁ (.content inum bn) = blockAt fs inum bn :=
        hfilled.rest _ hvalid content_ne_indirect
      have hnonzero : indirect fs₁ inum ≠ 0 := by
        rw [← block_indirect, hfilled.filled]
        exact hfilled.nonzero
      rw [block_indirect] at htaken
      simp only [Nat.le_of_not_lt hd, true_and, Option.bind_some]
      refine ⟨?_, fun fs' b hf => ?_⟩
      · rw [fill_eq_none hfilled.sound, htaken, hsame]
        omega
      · have hfilled' := fill_spec hfilled.sound hvalid (fun inum' j he => ?_) hf
        · rw [hfilled'.taken, htaken, hsame]
          omega
        · rw [hplace] at he
          obtain ⟨rfl, -⟩ := Place.entry.inj he
          exact hnonzero

theorem need_mono {len' : ℕ} (h : len ≤ len') : need len ≤ need len' := by
  simp only [need, BSIZE, NDIRECT]
  split_ifs <;> omega

theorem need_add_cost (hs : SizedTo fs inum len) (hoff : off ≤ len) (hmax : off / BSIZE < MAXFILE)
    {m : ℕ} (hpos : 0 < m) (hm : off % BSIZE + m ≤ BSIZE) :
    need len + cost fs inum (off / BSIZE) = need (max len (off + m)) := by
  have hcontent := hs.content _ hmax
  have hindirect := hs.indirect
  rw [need, need, cost]
  by_cases hc : blockAt fs inum (off / BSIZE) = 0
  · have hc' := mt hcontent.mpr (not_not.mpr hc)
    rw [if_pos hc]
    by_cases hi : indirect fs inum = 0
    · have hi' := mt hindirect.mpr (not_not.mpr hi)
      simp only [hi, and_true]
      simp only [BSIZE, NDIRECT, MAXFILE] at *
      split_ifs <;> omega
    · have hi' := hindirect.mp hi
      simp only [hi, and_false, if_false]
      simp only [BSIZE, NDIRECT, MAXFILE] at *
      split_ifs <;> omega
  · have hc' := hcontent.mp hc
    rw [if_neg hc]
    by_cases hi : indirect fs inum = 0
    · have hi' := mt hindirect.mpr (not_not.mpr hi)
      simp only [hi, and_true]
      simp only [BSIZE, NDIRECT, MAXFILE] at *
      split_ifs <;> omega
    · have hi' := hindirect.mp hi
      simp only [hi, and_false, if_false]
      simp only [BSIZE, NDIRECT, MAXFILE] at *
      split_ifs <;> omega

/-- The loop of `writei` runs out of blocks when the file needs more than are free. -/
theorem writeLoop_eq_none {fuel : ℕ} (h : Sound sb fs) (hi : inum < sb.ninodes)
    (hs : SizedTo fs inum len) (hlen : len ≤ MAXFILE * BSIZE) (hoff : off ≤ len)
    (hmax : off + src.length ≤ MAXFILE * BSIZE) (hfuel : src.length ≤ fuel) :
    writeLoop sb inum fuel fs off src = none ↔
      sb.nblocks + need len < (inUse sb fs.disk).card + need (max len (off + src.length)) := by
  have hcard : (inUse sb fs.disk).card ≤ sb.nblocks := card_inUse_le
  induction fuel generalizing fs off src len with
  | zero =>
    obtain rfl := List.length_eq_zero_iff.mp (Nat.le_zero.mp hfuel)
    simp only [writeLoop, reduceCtorEq, false_iff, List.length_nil, Nat.add_zero,
      Nat.max_eq_left hoff]
    omega
  | succ fuel ih =>
    rw [writeLoop]
    split_ifs with hnil
    · subst hnil
      simp only [false_iff, List.length_nil, Nat.add_zero, Nat.max_eq_left hoff]
      omega
    · have hpos := List.length_pos_iff.mpr hnil
      set m := min src.length (BSIZE - off % BSIZE) with hm
      have htake : (src.take m).length = m := by
        rw [List.length_take]
        omega
      have hdrop : (src.drop m).length = src.length - m := List.length_drop
      have hmod : off % BSIZE < BSIZE := Nat.mod_lt _ (by decide)
      have hbn : off / BSIZE < MAXFILE := Nat.div_lt_of_lt_mul (by rw [Nat.mul_comm]; omega)
      have hm₀ : 0 < m := by omega
      have hm₁ : off % BSIZE + m ≤ BSIZE := by omega
      have hneed := need_add_cost hs hoff hbn hm₀ hm₁
      have hmono : need (max len (off + m)) ≤ need (max len (off + src.length)) :=
        need_mono (by omega)
      obtain ⟨hnone, hsome⟩ := bmap_taken h hi hbn
      cases hb : bmap sb fs inum (off / BSIZE) with
      | none =>
        have hfull := hnone.mp hb
        simp only [Option.bind_none, true_iff]
        omega
      | some r =>
        obtain ⟨fs₁, b⟩ := r
        have htaken := hsome fs₁ b hb
        have hpos' : 0 < (src.take m).length := by omega
        have hin : off % BSIZE + (src.take m).length ≤ BSIZE := by omega
        have hstep := write_step h hi hs hlen hoff hbn hpos' hin hb
        have hrest : max (max len (off + m)) (off + m + (src.drop m).length) =
            max len (off + src.length) := by omega
        set fs₂ : Fs := { fs₁ with
          disk := Function.update fs₁.disk b (storeBytes (fs₁.disk b) (off % BSIZE) (src.take m)) }
          with hfs₂
        have hcard₂ : (inUse sb fs₂.disk).card = (inUse sb fs₁.disk).card := by
          have hmapped := bmap_spec h hi hbn hb
          have h0 : blockAt fs₁ inum (off / BSIZE) ≠ 0 := hmapped.mapped.symm ▸ hmapped.nonzero
          have hplain : Plain sb b :=
            hmapped.mapped ▸ hmapped.sound.plain (content_valid hi hbn) h0
          exact congrArg Finset.card (inUse_update hplain)
        have hsized : SizedTo fs₂ inum (max len (off + m)) := htake ▸ hstep.sized
        rw [Option.bind_some]
        dsimp only
        have hloop : writeLoop sb inum fuel fs₂ (off + m) (src.drop m) = none ↔
            sb.nblocks + need (max len (off + m)) < (inUse sb fs₂.disk).card +
              need (max (max len (off + m)) (off + m + (src.drop m).length)) :=
          ih hstep.sound hsized (by omega) (by omega) (by omega) (by omega) card_inUse_le
        rw [hrest, hcard₂, htaken] at hloop
        refine hloop.trans ?_
        omega

end Taking

section Totals

variable {sb : SuperBlock} {fs fs' : Fs} {inum off : ℕ} {f : ℕ → File} {op : Op} {r : Result}
  {src : List UInt8} {kind : Kind} {ops : List Op} {rs : List Result}

/-- All places of one file. -/
def slots (inum : ℕ) : Finset Place :=
  insert (.indirect inum) ((Finset.range MAXFILE).image (.content inum))

theorem mem_slots {q : Place} (hq : q.Valid sb) : ∃ i < sb.ninodes, q ∈ slots i := by
  cases q with
  | addr i k =>
    refine ⟨i, hq, Finset.mem_insert.mpr ?_⟩
    obtain rfl | ⟨k, rfl⟩ := k.eq_castSucc_or_eq_last.symm
    · exact .inl rfl
    · refine .inr (Finset.mem_image.mpr ⟨k, Finset.mem_range.mpr ?_, ?_⟩)
      · exact Nat.lt_trans k.isLt (by decide)
      · rw [Place.content, if_pos k.isLt]
        congr 1
        exact Fin.ext (Nat.mod_eq_of_lt (Nat.lt_succ_of_lt k.isLt))
  | entry i j =>
    refine ⟨i, hq.1, Finset.mem_insert.mpr (.inr (Finset.mem_image.mpr ⟨NDIRECT + j, ?_, ?_⟩))⟩
    · have := hq.2
      simp only [Finset.mem_range, MAXFILE, NDIRECT, NINDIRECT] at *
      omega
    · rw [Place.content, if_neg (by omega), Nat.add_sub_cancel_left]

theorem inum_of_mem_slots {q : Place} {i i' : ℕ} (h : q ∈ slots i) (h' : q ∈ slots i') :
    i = i' := by
  simp only [slots, Finset.mem_insert, Finset.mem_image] at h h'
  obtain rfl | ⟨bn, -, rfl⟩ := h
  · obtain he | ⟨bn, -, he⟩ := h'
    · exact (Place.addr.inj he).1
    · exact absurd he content_ne_indirect
  · obtain he | ⟨bn', -, he⟩ := h'
    · exact absurd he content_ne_indirect
    · exact (content_injective he).1.symm

theorem card_slots (hs : SizedTo fs inum len) (hi : inum < sb.ninodes)
    (hlen : len ≤ MAXFILE * BSIZE) :
    ((slots inum).filter fun q => (holder sb fs q).isSome).card = need len := by
  have hsome : ∀ q : Place, q.Valid sb → ((holder sb fs q).isSome = true ↔ block fs q ≠ 0) := by
    intro q hq
    rw [holder]
    split_ifs with hc
    · exact ⟨fun _ => hc.2, fun _ => rfl⟩
    · exact ⟨fun h => absurd h Bool.false_ne_true, fun h => absurd ⟨hq, h⟩ hc⟩
  have hcontents : ((Finset.range MAXFILE).image (Place.content inum)).filter
      (fun q => (holder sb fs q).isSome) =
      (Finset.range ((len + (BSIZE - 1)) / BSIZE)).image (Place.content inum) := by
    ext q
    simp only [Finset.mem_filter, Finset.mem_image, Finset.mem_range]
    constructor
    · rintro ⟨⟨bn, hbn, rfl⟩, hq⟩
      rw [hsome _ (content_valid hi hbn)] at hq
      have := (hs.content bn hbn).mp hq
      exact ⟨bn, by simp only [BSIZE] at *; omega, rfl⟩
    · rintro ⟨bn, hbn, rfl⟩
      have hmax : bn < MAXFILE := by
        simp only [BSIZE, MAXFILE] at *
        omega
      refine ⟨⟨bn, hmax, rfl⟩, (hsome _ (content_valid hi hmax)).mpr ((hs.content bn hmax).mpr ?_)⟩
      simp only [BSIZE] at *
      omega
  have hinj : Function.Injective (Place.content inum) := fun bn bn' he => (content_injective he).2
  have hnotin : ∀ n, Place.indirect inum ∉ (Finset.range n).image (Place.content inum) := by
    intro n hm
    obtain ⟨bn, -, he⟩ := Finset.mem_image.mp hm
    exact content_ne_indirect he
  rw [slots, Finset.filter_insert, hcontents, need]
  split_ifs with hind hlarge hlarge
  · rw [Finset.card_insert_of_notMem (hnotin _), Finset.card_image_of_injective _ hinj,
      Finset.card_range]
  · exact absurd (hs.indirect.mp ((hsome (.indirect inum) hi).mp hind)) hlarge
  · exact absurd ((hsome (.indirect inum) hi).mpr (hs.indirect.mpr hlarge)) hind
  · rw [Finset.card_image_of_injective _ hinj, Finset.card_range, Nat.add_zero]

/-- The blocks in use are those that the files need. -/
theorem card_inUse (h : Regular sb fs) :
    (inUse sb fs.disk).card = ∑ i ∈ Finset.range sb.ninodes, need (contents fs i).length := by
  have hplaces : ∀ q, (holder sb fs q).isSome = true →
      q ∈ (Finset.range sb.ninodes).biUnion slots := by
    intro q hq
    obtain ⟨b, hb⟩ := Option.isSome_iff_exists.mp hq
    obtain ⟨i, hi, hm⟩ := mem_slots (holder_eq_some hb).1
    exact Finset.mem_biUnion.mpr ⟨i, Finset.mem_range.mpr hi, hm⟩
  rw [h.sound.owned.card hplaces, Finset.filter_biUnion, Finset.card_biUnion]
  · refine Finset.sum_congr rfl fun i hi => ?_
    rw [Finset.mem_range] at hi
    rw [card_slots (h.sized i hi) hi (h.small i hi), contents, loadBytes_length]
  · intro i _ i' _ hne
    refine Finset.disjoint_left.mpr fun q hq hq' => hne ?_
    exact inum_of_mem_slots (Finset.mem_filter.mp hq).1 (Finset.mem_filter.mp hq').1

/-- The blocks that the files need together. -/
def total (sb : SuperBlock) (f : ℕ → File) : ℕ :=
  ∑ i ∈ Finset.range sb.ninodes, need (f i).bytes.length

theorem total_update {g : File} (hi : inum < sb.ninodes) :
    total sb (Function.update f inum g) + need (f inum).bytes.length =
      total sb f + need g.bytes.length := by
  have hmem : inum ∈ Finset.range sb.ninodes := Finset.mem_range.mpr hi
  have hrest : ∀ i ∈ (Finset.range sb.ninodes).erase inum,
      need (Function.update f inum g i).bytes.length = need (f i).bytes.length := fun i hi => by
    rw [Function.update_of_ne (Finset.ne_of_mem_erase hi)]
  rw [total, total, ← Finset.add_sum_erase _ _ hmem, ← Finset.add_sum_erase _ _ hmem,
    Finset.sum_congr rfl hrest, Function.update_self]
  omega

theorem card_inUse_eq_total (h : Invariant sb fs) (hshows : Shows sb fs f) :
    (inUse sb fs.disk).card = total sb f := by
  rw [card_inUse h.regular, total]
  refine Finset.sum_congr rfl fun i hi => ?_
  rw [← hshows i (Finset.mem_range.mp hi), file]

/-- `writei` runs out of blocks if and only if the files would need more than there are. -/
theorem writei_eq_none (h : Invariant sb fs) (hshows : Shows sb fs f) (hi : inum < sb.ninodes)
    (hlen : src.length < 4294967296) :
    writei sb fs inum off src = none ↔
      sb.nblocks < total sb (apply f (.writei inum off src) r) := by
  have hsize : (f inum).bytes.length = (fs.inode inum).size := by
    rw [← hshows inum hi, file, contents, loadBytes_length]
  have hsmall := h.regular.small inum hi
  have hcard := card_inUse_eq_total h hshows
  have hle : (inUse sb fs.disk).card ≤ sb.nblocks := card_inUse_le
  set bytes := (PageCache.writei (f inum).bytes off src).getD (f inum).bytes with hbytes
  have hsum := total_update (f := f) (g := { f inum with bytes := bytes }) hi
  rw [show apply f (.writei inum off src) r =
    Function.update f inum { f inum with bytes := bytes } from rfl]
  rw [PageCache.writei, hsize] at hbytes
  rw [hsize] at hsum
  rw [writei]
  dsimp only at hsum hbytes ⊢
  split_ifs at hbytes ⊢ with hout hmax hmax' hmax'
  · have hlength : bytes.length = (fs.inode inum).size := by rw [hbytes, Option.getD_none, hsize]
    rw [hlength] at hsum
    simp only [false_iff]
    omega
  · have hlength : bytes.length = (fs.inode inum).size := by rw [hbytes, Option.getD_none, hsize]
    rw [hlength] at hsum
    simp only [false_iff]
    omega
  · exact absurd hmax hmax'
  · exact absurd hmax' hmax
  · have hoff : off ≤ (fs.inode inum).size := by omega
    have hend : off + src.length ≤ MAXFILE * BSIZE := by
      simp only [MAXFILE, BSIZE] at *
      omega
    have hloop := writeLoop_eq_none h.regular.sound hi (h.regular.sized inum hi) hsmall hoff hend
      (Nat.le_refl _)
    have hlength : bytes.length = max (fs.inode inum).size (off + src.length) := by
      rw [hbytes, Option.getD_some, splice_length src (by omega), hsize]
    rw [hlength] at hsum
    rw [Option.map_eq_none_iff, hloop]
    omega

theorem ialloc_eq_none (h : Invariant sb fs) (hshows : Shows sb fs f) {type : ℕ} :
    ialloc sb fs type = none ↔ ∀ i < sb.ninodes, i ≠ 0 → (f i).type ≠ 0 := by
  have htype : ∀ i < sb.ninodes, (dinode sb fs.disk i).type = (f i).type := fun i hi => by
    rw [h.regular.synced i hi, ← hshows i hi, file]
  rw [ialloc]
  split
  · rename_i inum hfind
    have hmem := List.mem_range'_1.mp (List.mem_of_find?_eq_some hfind)
    have hfree : (dinode sb fs.disk inum).type = 0 := by simpa using List.find?_some hfind
    simp only [reduceCtorEq, false_iff]
    intro hall
    rw [htype inum (by omega)] at hfree
    exact hall inum (by omega) (by omega) hfree
  · rename_i hnone
    simp only [true_iff]
    intro i hi h0
    have hmem : i ∈ List.range' 1 (sb.ninodes - 1) := List.mem_range'_1.mpr (by omega)
    have := List.find?_eq_none.mp hnone i hmem
    rw [htype i hi, decide_eq_true_iff] at this
    exact this

/-- The operations at which `balloc`, `bfree`, `bmap` or `ialloc` panics, and those that never come
to the blocks of a file: the inode is not allocated, a device is read or written, or `iput` finds
links left. -/
def Blocked (sb : SuperBlock) (f : ℕ → File) : Op → Prop
  | .ialloc _ => ∀ i < sb.ninodes, i ≠ 0 → (f i).type ≠ 0
  | .writei inum off src =>
    ¬ (inum < sb.ninodes ∧ (f inum).type ≠ 0 ∧ (f inum).type ≠ Kind.T_DEV.code) ∨
      sb.nblocks < total sb (apply f (.writei inum off src) .done)
  | .readi inum _ _ =>
    ¬ (inum < sb.ninodes ∧ (f inum).type ≠ 0 ∧ (f inum).type ≠ Kind.T_DEV.code)
  | .iput inum => ¬ (inum < sb.ninodes ∧ (f inum).type ≠ 0 ∧ (f inum).nlink = 0)
  | .stat inum | .links inum _ | .node inum _ _ _ | .ilock inum =>
    ¬ (inum < sb.ninodes ∧ (f inum).type ≠ 0)

theorem next_eq_none (h : Invariant sb fs) (hshows : Shows sb fs f) (hfits : op.Fits) :
    next sb fs op = none ↔ Blocked sb f op := by
  have hallocated : ∀ inum, allocated sb fs inum = true ↔
      inum < sb.ninodes ∧ (f inum).type ≠ 0 := fun inum => by
    rw [allocated_iff]
    refine and_congr_right fun hi => ?_
    rw [← hshows inum hi, file]
  have hregular : ∀ inum, (allocated sb fs inum && (fs.inode inum).type ≠ Kind.T_DEV.code) = true ↔
      inum < sb.ninodes ∧ (f inum).type ≠ 0 ∧ (f inum).type ≠ Kind.T_DEV.code := fun inum => by
    rw [Bool.and_eq_true, hallocated, decide_eq_true_iff, and_assoc]
    refine and_congr_right fun hi => ?_
    rw [← hshows inum hi, file]
  cases op with
  | ialloc kind => rw [next, Option.map_eq_none_iff, ialloc_eq_none h hshows, Blocked]
  | links inum nlink =>
    rw [next, ite_eq_right_iff, hallocated, Blocked]
    simp only [reduceCtorEq, imp_false]
  | stat inum =>
    rw [next, ite_eq_right_iff, hallocated, Blocked]
    simp only [reduceCtorEq, imp_false]
  | node inum major minor nlink =>
    rw [next, ite_eq_right_iff, hallocated, Blocked]
    simp only [reduceCtorEq, imp_false]
  | ilock inum =>
    rw [next, ite_eq_right_iff, hallocated, Blocked]
    simp only [reduceCtorEq, imp_false]
  | writei inum off src =>
    rw [next, ite_eq_right_iff, hregular, Blocked, ← imp_iff_not_or]
    refine imp_congr_right fun hc => ?_
    rw [Option.map_eq_none_iff, writei_eq_none h hshows hc.1 hfits]
  | readi inum off n =>
    rw [next, ite_eq_right_iff, hregular, Blocked, ← imp_false]
    refine imp_congr_right fun hc => ?_
    rw [readi_spec (h.regular.sized inum hc.1) (h.regular.small inum hc.1) hfits]
    simp only [Option.map_some, reduceCtorEq]
  | iput inum =>
    have hunlinked : (allocated sb fs inum && (fs.inode inum).nlink = 0) = true ↔
        inum < sb.ninodes ∧ (f inum).type ≠ 0 ∧ (f inum).nlink = 0 := by
      rw [Bool.and_eq_true, hallocated, decide_eq_true_iff, and_assoc]
      refine and_congr_right fun hi => ?_
      rw [← hshows inum hi, file]
    rw [next, ite_eq_right_iff, hunlinked, Blocked, ← imp_false]
    refine imp_congr_right fun hc => ?_
    obtain ⟨fs₁, hput, -⟩ := iput_step h hc.1
    simp only [hput, Option.map_some, reduceCtorEq]

end Totals

section Results

variable {sb : SuperBlock} {fs fs' : Fs} {ops : List Op} {rs : List Result} {op : Op}

/-- In every state of every run, `balloc`, `bfree`, `bmap` or `ialloc` panics at the next operation on
allocated inodes if and only if a new file finds no inode, or a write would make the files need more
blocks than the disk has. -/
theorem panics_iff_full (h : Invariant sb fs) (hfits : ∀ op ∈ ops, op.Fits) (hop : op.Fits)
    (hr : run sb fs ops = some (fs', rs)) :
    ∃ f', Does sb.ninodes (file fs) ops rs f' ∧ total sb f' ≤ sb.nblocks ∧
      (next sb fs' op = none ↔ Blocked sb f' op) := by
  obtain ⟨hinv, f', hdoes, hshows⟩ := run_spec h (fun _ _ => rfl) hfits hr
  exact ⟨f', hdoes, card_inUse_eq_total hinv hshows ▸ card_inUse_le, next_eq_none hinv hshows hop⟩

theorem fits_write : (Op.writei 1 0 [46]).Fits := by
  simp [Op.Fits]

theorem panics_iff_full_reuse :
    ∃ fs f, run tiny (blank tiny) reuse = some (fs, reuseResults) ∧
      Does 8 (file (blank tiny)) reuse reuseResults f ∧ total tiny f ≤ 14 ∧
      (next tiny fs (.writei 1 0 [46]) = none ↔ Blocked tiny f (.writei 1 0 [46])) := by
  obtain ⟨fs, hr⟩ := run_reuse
  obtain ⟨f, hdoes, htotal, hnext⟩ := panics_iff_full blank_invariant fits_reuse fits_write hr
  exact ⟨fs, f, hr, hdoes, htotal, hnext⟩

end Results

end DiskSpace
