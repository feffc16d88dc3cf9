import Mathlib.Data.List.GetD
import OsProjects.FileBlocks
import OsProjects.PageCache

/-! # The contents of files

`readi` and `writei` of `fs.c`, from block to block, and the files as lists of bytes that
`PageCache.readi` and `PageCache.writei` have. Inodes of devices, which their drivers read and
write, are not here. -/
namespace FileContents

open ByteMemory DiskBlocks DiskInodes FileBlocks

section Code

variable (sb : SuperBlock)

def readLoop (inum : ℕ) : ℕ → Fs → ℕ → ℕ → Option (Fs × List UInt8)
  | 0, fs, _, _ => some (fs, [])
  | fuel + 1, fs, off, n =>
    if n = 0 then some (fs, [])
    else
      (bmap sb fs inum (off / BSIZE)).bind fun r =>
        let m := min n (BSIZE - off % BSIZE)
        let bs := loadBytes (r.1.disk r.2) (off % BSIZE) m
        (readLoop inum fuel r.1 (off + m) (n - m)).map fun r => (r.1, bs ++ r.2)

/-- -1 is `none`. -/
def readi (fs : Fs) (inum off n : ℕ) : Option (Fs × Option (List UInt8)) :=
  let size := (fs.inode inum).size
  if off > size ∨ (off + n) % 4294967296 < off then some (fs, none)
  else
    let n := if (off + n) % 4294967296 > size then size - off else n
    (readLoop sb inum n fs off n).map fun r => (r.1, some r.2)

def writeLoop (inum : ℕ) : ℕ → Fs → ℕ → List UInt8 → Option Fs
  | 0, fs, _, _ => some fs
  | fuel + 1, fs, off, src =>
    if src = [] then some fs
    else
      (bmap sb fs inum (off / BSIZE)).bind fun r =>
        let m := min src.length (BSIZE - off % BSIZE)
        let data := storeBytes (r.1.disk r.2) (off % BSIZE) (src.take m)
        writeLoop inum fuel { r.1 with disk := Function.update r.1.disk r.2 data } (off + m)
          (src.drop m)

/-- -1 is `false`. -/
def writei (fs : Fs) (inum off : ℕ) (src : List UInt8) : Option (Fs × Bool) :=
  let size := (fs.inode inum).size
  if off > size ∨ (off + src.length) % 4294967296 < off then some (fs, false)
  else if (off + src.length) % 4294967296 > MAXFILE * BSIZE then some (fs, false)
  else
    (writeLoop sb inum src.length fs off src).map fun fs =>
      let off := off + src.length
      if 0 < src.length ∧ (fs.inode inum).size < off then
        (iupdate sb (fs.set inum { fs.inode inum with size := off }) inum, true)
      else (fs, true)

end Code

def byteAt (fs : Fs) (inum k : ℕ) : UInt8 := fs.disk (blockAt fs inum (k / BSIZE)) (k % BSIZE)

def contents (fs : Fs) (inum : ℕ) : List UInt8 :=
  loadBytes (byteAt fs inum) 0 (fs.inode inum).size

section Frames

variable {sb : SuperBlock} {fs fs' fs'' : Fs} {q : Place} {inum bn b len : ℕ}

/-- What is left alone by an operation on the content of one file. -/
structure Beside (sb : SuperBlock) (fs fs' : Fs) (inum : ℕ) : Prop where
  kept : ∀ q, q.Valid sb → block fs q ≠ 0 → block fs' q = block fs q
  blocks : ∀ i < sb.ninodes, i ≠ inum → ∀ bn < MAXFILE, blockAt fs' i bn = blockAt fs i bn ∧
    (blockAt fs i bn ≠ 0 → fs'.disk (blockAt fs i bn) = fs.disk (blockAt fs i bn))
  indirects : ∀ i < sb.ninodes, i ≠ inum → indirect fs' i = indirect fs i
  inodes : ∀ i < sb.ninodes, i ≠ inum → fs'.inode i = fs.inode i
  inode : ∃ addrs, fs'.inode inum = { fs.inode inum with addrs := addrs }
  system : ∀ b < sb.bmapstart, fs'.disk b = fs.disk b

theorem Beside.refl : Beside sb fs fs inum :=
  ⟨fun _ _ _ => rfl, fun _ _ _ _ _ => ⟨rfl, fun _ => rfl⟩, fun _ _ _ => rfl, fun _ _ _ => rfl,
    ⟨_, rfl⟩, fun _ _ => rfl⟩

theorem Beside.trans (h : Beside sb fs fs' inum) (h' : Beside sb fs' fs'' inum) :
    Beside sb fs fs'' inum := by
  refine ⟨fun q hq h0 => ?_, fun i hi hne bn hbn => ?_, fun i hi hne => ?_, fun i hi hne => ?_, ?_,
    fun b hb => ?_⟩
  · have hsame := h.kept q hq h0
    rw [h'.kept q hq (by rwa [hsame]), hsame]
  · obtain ⟨hb, hd⟩ := h.blocks i hi hne bn hbn
    obtain ⟨hb', hd'⟩ := h'.blocks i hi hne bn hbn
    refine ⟨hb'.trans hb, fun h0 => ?_⟩
    rw [hb] at hd'
    rw [hd' h0, hd h0]
  · rw [h'.indirects i hi hne, h.indirects i hi hne]
  · rw [h'.inodes i hi hne, h.inodes i hi hne]
  · obtain ⟨addrs, ha⟩ := h.inode
    obtain ⟨addrs', ha'⟩ := h'.inode
    exact ⟨addrs', by rw [ha', ha]⟩
  · rw [h'.system b hb, h.system b hb]

theorem content_ne {i bn' : ℕ} (hne : i ≠ inum) : Place.content i bn' ≠ .content inum bn :=
  fun he => hne (content_injective he).1

theorem indirect_ne {i : ℕ} (hne : i ≠ inum) : Place.indirect i ≠ .indirect inum :=
  fun he => hne (Place.addr.inj he).1

theorem addr_ne {i : ℕ} {k : Fin (NDIRECT + 1)} (hne : i ≠ inum) :
    Place.addr i k ≠ .content inum bn := by
  rw [Place.content]
  split_ifs
  · exact fun he => hne (Place.addr.inj he).1
  · rintro ⟨⟩

theorem mapped_beside (h : Mapped sb fs fs' inum bn b) : Beside sb fs fs' inum := by
  refine ⟨h.kept, fun i hi hne bn' hbn' => ⟨?_, fun h0 => ?_⟩, fun i hi hne => ?_,
    fun i hi hne => ?_, h.inode inum, h.system⟩
  · exact h.rest _ (content_valid hi hbn') (content_ne hne) content_ne_indirect
  · exact h.data _ (content_valid hi hbn') h0 content_ne_indirect
  · exact h.rest (.indirect i) hi content_ne_indirect.symm (indirect_ne hne)
  · obtain ⟨addrs, ha⟩ := h.inode i
    have haddrs : ∀ k, (fs'.inode i).addrs k = (fs.inode i).addrs k := fun k =>
      h.rest (.addr i k) hi (addr_ne hne) fun he => hne (Place.addr.inj he).1
    rw [ha] at haddrs ⊢
    rw [show addrs = (fs.inode i).addrs from funext haddrs]

/-- New data in a block of content. -/
theorem store_spec (h : Sound sb fs) (hi : inum < sb.ninodes) (hbn : bn < MAXFILE)
    (h0 : blockAt fs inum bn ≠ 0) (data : Mem) :
    (∀ q, q.Valid sb →
      block { fs with disk := Function.update fs.disk (blockAt fs inum bn) data } q = block fs q) ∧
    Sound sb { fs with disk := Function.update fs.disk (blockAt fs inum bn) data } ∧
    Beside sb fs { fs with disk := Function.update fs.disk (blockAt fs inum bn) data } inum := by
  set fs' : Fs := { fs with disk := Function.update fs.disk (blockAt fs inum bn) data } with hfs'
  have hvalid := content_valid hi hbn
  obtain ⟨hsize, hdata, hused⟩ := h.mem_inUse hvalid h0
  have hdisk : ∀ c, c ≠ blockAt fs inum bn → fs'.disk c = fs.disk c :=
    fun c hc => Function.update_of_ne hc _ _
  have hblock : ∀ q, q.Valid sb → block fs' q = block fs q := by
    intro q hq
    cases q with
    | addr i k => rfl
    | entry i j =>
      by_cases hz : indirect fs i = 0
      · exact (if_pos hz).trans (if_pos hz).symm
      · have hvi : (Place.indirect i).Valid sb := hq.1
        have hne : indirect fs i ≠ blockAt fs inum bn := fun he =>
          content_ne_indirect (h.unique hvi hvalid hz he).symm
        refine (if_neg hz).trans (Eq.trans ?_ (if_neg hz).symm)
        exact congrArg (loadWord · (4 * j)) (hdisk _ hne)
  have hbits : ∀ c < sb.size, used sb fs'.disk c = used sb fs.disk c := fun c hc =>
    used_congr (hdisk _ (plain_ne_bblock (plain_of_data hdata) hc).symm)
  refine ⟨hblock, h.congr hblock hbits, ?_⟩
  refine ⟨fun q hq _ => hblock q hq, fun i hi' hne bn' hbn' => ⟨?_, fun h0' => ?_⟩,
    fun _ _ _ => rfl, fun _ _ _ => rfl, ⟨_, rfl⟩, fun c hc => hdisk c ?_⟩
  · exact hblock _ (content_valid hi' hbn')
  · exact hdisk _ fun he => content_ne hne (h.unique (content_valid hi' hbn') hvalid h0' he)
  · have hlt : sb.bmapstart < datastart sb :=
      Nat.lt_of_le_of_lt (Nat.le_add_right _ _) sb.bitmap
    exact Nat.ne_of_lt (Nat.lt_trans hc (Nat.lt_of_lt_of_le hlt hdata))

end Frames

section Writing

variable {sb : SuperBlock} {fs fs₁ fs' : Fs} {inum off len b : ℕ} {src xs ys : List UInt8}

/-- The file, which had length `len`, has `src` at `off` now. -/
structure Written (sb : SuperBlock) (fs fs' : Fs) (inum off : ℕ) (src : List UInt8) (len : ℕ) :
    Prop where
  sound : Sound sb fs'
  sized : SizedTo fs' inum (max len (off + src.length))
  bytes : ∀ k < max len (off + src.length), byteAt fs' inum k =
    if off ≤ k ∧ k < off + src.length then src.getD (k - off) 0 else byteAt fs inum k
  beside : Beside sb fs fs' inum

theorem Written.nil (h : Sound sb fs) (hs : SizedTo fs inum len) (hoff : off ≤ len) :
    Written sb fs fs inum off [] len := by
  refine ⟨h, ?_, fun k _ => ?_, .refl⟩
  · rwa [List.length_nil, Nat.add_zero, Nat.max_eq_left hoff]
  · rw [List.length_nil, if_neg (by omega)]

theorem Written.append (h : Written sb fs fs₁ inum off xs len)
    (h' : Written sb fs₁ fs' inum (off + xs.length) ys (max len (off + xs.length))) :
    Written sb fs fs' inum off (xs ++ ys) len := by
  have hmax : max (max len (off + xs.length)) (off + xs.length + ys.length) =
      max len (off + (xs ++ ys).length) := by
    rw [List.length_append]
    omega
  refine ⟨h'.sound, hmax ▸ h'.sized, fun k hk => ?_, h.beside.trans h'.beside⟩
  rw [h'.bytes k (hmax.symm ▸ hk), List.length_append]
  by_cases hy : off + xs.length ≤ k ∧ k < off + xs.length + ys.length
  · rw [if_pos hy, if_pos (by omega), List.getD_append_right _ _ _ _ (by omega), Nat.sub_sub]
  · rw [List.length_append] at hk
    rw [if_neg hy, h.bytes k (by omega)]
    by_cases hx : off ≤ k ∧ k < off + xs.length
    · rw [if_pos hx, if_pos (by omega), List.getD_append _ _ _ _ (by omega)]
    · rw [if_neg hx, if_neg (by omega)]

/-- One round of the loop of `writei`. -/
theorem write_step (h : Sound sb fs) (hi : inum < sb.ninodes) (hs : SizedTo fs inum len)
    (hlen : len ≤ MAXFILE * BSIZE) (hoff : off ≤ len) (hmax : off / BSIZE < MAXFILE)
    (hpos : 0 < xs.length) (hxs : off % BSIZE + xs.length ≤ BSIZE)
    (hb : bmap sb fs inum (off / BSIZE) = some (fs₁, b)) :
    Written sb fs { fs₁ with
      disk := Function.update fs₁.disk b (storeBytes (fs₁.disk b) (off % BSIZE) xs) }
      inum off xs len := by
  have hm := bmap_spec h hi hmax hb
  have hdiv : off / BSIZE * BSIZE ≤ len := Nat.le_trans (Nat.div_mul_le_self _ _) hoff
  have hs₁ := hm.sizedTo hs hi hmax hdiv
  have h0 : blockAt fs₁ inum (off / BSIZE) ≠ 0 := hm.mapped.symm ▸ hm.nonzero
  obtain ⟨hblock, hsound, hbeside⟩ := store_spec hm.sound hi hmax h0
    (storeBytes (fs₁.disk b) (off % BSIZE) xs)
  rw [hm.mapped] at hblock hsound hbeside
  set fs₂ : Fs := { fs₁ with
    disk := Function.update fs₁.disk b (storeBytes (fs₁.disk b) (off % BSIZE) xs) } with hfs₂
  refine ⟨hsound, ?_, fun k hk => ?_, (mapped_beside hm).trans hbeside⟩
  · refine SizedTo.congr ?_ (fun bn hbn => hblock _ (content_valid hi hbn))
      (hblock (.indirect inum) hi)
    refine ⟨fun bn hbn => ?_, ?_⟩
    · rw [hs₁.content bn hbn]
      simp only [BSIZE] at *
      omega
    · rw [hs₁.indirect]
      simp only [BSIZE, NDIRECT] at *
      omega
  · have hkb : k / BSIZE < MAXFILE := by
      simp only [BSIZE, MAXFILE] at *
      omega
    have hat : blockAt fs₂ inum (k / BSIZE) = blockAt fs₁ inum (k / BSIZE) :=
      hblock _ (content_valid hi hkb)
    rw [byteAt, hat]
    by_cases hkn : k / BSIZE = off / BSIZE
    · rw [hkn, hm.mapped]
      have hself : fs₂.disk b = storeBytes (fs₁.disk b) (off % BSIZE) xs := Function.update_self ..
      rw [hself]
      by_cases hin : off ≤ k ∧ k < off + xs.length
      · obtain ⟨j, rfl⟩ := Nat.exists_eq_add_of_le hin.1
        have hj : (off + j) % BSIZE = off % BSIZE + j := by
          simp only [BSIZE] at *
          omega
        have hjl : j < xs.length := by omega
        rw [if_pos hin, hj, storeBytes_inside hjl, Nat.add_sub_cancel_left]
        simp [hjl]
      · rw [if_neg hin, storeBytes_outside (by simp only [BSIZE] at *; omega), byteAt, hkn]
        -- the block was there before, or all of it up to the new end is written
        have hold : blockAt fs inum (off / BSIZE) ≠ 0 := by
          rw [hs.content _ hmax]
          simp only [BSIZE] at *
          omega
        have hkept : blockAt fs₁ inum (off / BSIZE) = blockAt fs inum (off / BSIZE) :=
          hm.kept _ (content_valid hi hmax) hold
        have hdata := hm.data _ (content_valid hi hmax) hold content_ne_indirect
        rw [← hm.mapped, hkept]
        exact congrFun hdata _
    · have hout : ¬ (off ≤ k ∧ k < off + xs.length) := by
        simp only [BSIZE] at *
        omega
      have hne : Place.content inum (k / BSIZE) ≠ .content inum (off / BSIZE) :=
        fun he => hkn (content_injective he).2
      have hkept : blockAt fs₁ inum (k / BSIZE) = blockAt fs inum (k / BSIZE) :=
        hm.rest _ (content_valid hi hkb) hne content_ne_indirect
      have hold : blockAt fs inum (k / BSIZE) ≠ 0 := by
        rw [hs.content _ hkb]
        simp only [BSIZE] at *
        omega
      have hdata := hm.data _ (content_valid hi hkb) hold content_ne_indirect
      have hapart : blockAt fs₁ inum (k / BSIZE) ≠ b := by
        rw [← hm.mapped]
        refine fun he => hne (hm.sound.unique (content_valid hi hkb) (content_valid hi hmax) ?_ he)
        exact fun hz => hold (hkept.symm.trans hz)
      rw [if_neg hout, show fs₂.disk (blockAt fs₁ inum (k / BSIZE)) = fs₁.disk _ from
        Function.update_of_ne hapart _ _, hkept, byteAt]
      exact congrFun hdata _

theorem writeLoop_spec {fuel : ℕ} (h : Sound sb fs) (hi : inum < sb.ninodes)
    (hs : SizedTo fs inum len) (hlen : len ≤ MAXFILE * BSIZE) (hoff : off ≤ len)
    (hmax : off + src.length ≤ MAXFILE * BSIZE) (hfuel : src.length ≤ fuel)
    (hw : writeLoop sb inum fuel fs off src = some fs') : Written sb fs fs' inum off src len := by
  induction fuel generalizing fs off src len with
  | zero =>
    obtain rfl := List.length_eq_zero_iff.mp (Nat.le_zero.mp hfuel)
    obtain rfl := Option.some.inj hw
    exact .nil h hs hoff
  | succ fuel ih =>
    rw [writeLoop] at hw
    split_ifs at hw with hnil
    · obtain rfl := Option.some.inj hw
      subst hnil
      exact .nil h hs hoff
    · obtain ⟨⟨fs₁, b⟩, hb, hw⟩ := Option.bind_eq_some_iff.mp hw
      have hpos := List.length_pos_iff.mpr hnil
      set m := min src.length (BSIZE - off % BSIZE) with hm
      have htake : (src.take m).length = m := by
        rw [List.length_take]
        omega
      have hdrop : (src.drop m).length = src.length - m := List.length_drop
      have hmod : off % BSIZE < BSIZE := Nat.mod_lt _ (by decide)
      have hm₀ : 0 < (src.take m).length := by omega
      have hm₁ : off % BSIZE + (src.take m).length ≤ BSIZE := by omega
      have hstep := write_step h hi hs hlen hoff
        (Nat.div_lt_of_lt_mul (by rw [Nat.mul_comm]; omega)) hm₀ hm₁ hb
      have hrest := ih hstep.sound hstep.sized (by rw [htake]; omega) (by rw [htake]; omega)
        (by omega) (by omega) hw
      have := hstep.append (by rw [htake]; rw [htake] at hrest; exact hrest)
      rwa [List.take_append_drop] at this

end Writing

section Reading

variable {sb : SuperBlock} {fs : Fs} {inum off n len : ℕ}

theorem readLoop_spec {fuel : ℕ} (hs : SizedTo fs inum len) (hlen : len ≤ MAXFILE * BSIZE)
    (hn : off + n ≤ len) (hfuel : n ≤ fuel) :
    readLoop sb inum fuel fs off n = some (fs, loadBytes (byteAt fs inum) off n) := by
  induction fuel generalizing off n with
  | zero =>
    obtain rfl := Nat.le_zero.mp hfuel
    rfl
  | succ fuel ih =>
    rw [readLoop]
    split_ifs with h0
    · subst h0
      rfl
    · have hmod : off % BSIZE < BSIZE := Nat.mod_lt _ (by decide)
      have hbn : off / BSIZE < MAXFILE :=
        Nat.div_lt_of_lt_mul (by rw [Nat.mul_comm]; omega)
      have hblock : blockAt fs inum (off / BSIZE) ≠ 0 := by
        rw [hs.content _ hbn]
        simp only [BSIZE] at *
        omega
      set m := min n (BSIZE - off % BSIZE) with hm
      have hchunk : loadBytes (fs.disk (blockAt fs inum (off / BSIZE))) (off % BSIZE) m =
          loadBytes (byteAt fs inum) off m := by
        apply List.map_congr_left
        intro j hj
        rw [List.mem_range] at hj
        have hdiv : (off + j) / BSIZE = off / BSIZE := by
          simp only [BSIZE] at *
          omega
        have hoff : (off + j) % BSIZE = off % BSIZE + j := by
          simp only [BSIZE] at *
          omega
        rw [byteAt, hdiv, hoff]
      have hrest : readLoop sb inum fuel fs (off + m) (n - m) =
          some (fs, loadBytes (byteAt fs inum) (off + m) (n - m)) := ih (by omega) (by omega)
      have hsum : m + (n - m) = n := by omega
      rw [bmap_existing hbn hblock, Option.bind_some]
      dsimp only
      rw [hrest, Option.map_some, hchunk, ← loadBytes_append, hsum]

theorem drop_take_loadBytes {m : Mem} {k size : ℕ} :
    ((loadBytes m 0 size).drop off).take k = loadBytes m off (min k (size - off)) := by
  apply List.ext_getElem
  · simp
  · intro j hj hj'
    rw [List.getElem_take, List.getElem_drop, loadBytes_getElem, loadBytes_getElem, Nat.zero_add]

/-- `readi` of a file whose blocks are there returns a piece of the list, and changes nothing. -/
theorem readi_spec (hs : SizedTo fs inum (fs.inode inum).size)
    (hsize : (fs.inode inum).size ≤ MAXFILE * BSIZE) (hn : n < 4294967296) :
    readi sb fs inum off n = some (fs, PageCache.readi (contents fs inum) off n) := by
  have hlength : (contents fs inum).length = (fs.inode inum).size := loadBytes_length
  rw [readi, PageCache.readi, hlength]
  split_ifs with hout hend
  · rfl
  · dsimp only
    rw [readLoop_spec hs hsize (by omega) (Nat.le_refl _), Option.map_some, contents,
      drop_take_loadBytes, Nat.min_eq_right (by omega)]
  · dsimp only
    rw [readLoop_spec hs hsize (by omega) (Nat.le_refl _), Option.map_some, contents,
      drop_take_loadBytes, Nat.min_eq_left (by omega)]

end Reading

section Regularity

variable {sb : SuperBlock} {fs fs' : Fs} {inum off c : ℕ} {src : List UInt8} {ok : Bool}

/-- The file system between two operations. The inode cache is write-through. -/
structure Regular (sb : SuperBlock) (fs : Fs) : Prop where
  sound : Sound sb fs
  sized : ∀ i < sb.ninodes, SizedTo fs i (fs.inode i).size
  small : ∀ i < sb.ninodes, (fs.inode i).size ≤ MAXFILE * BSIZE
  synced : ∀ i < sb.ninodes, dinode sb fs.disk i = fs.inode i

theorem Regular.fits (h : Regular sb fs) (hi : inum < sb.ninodes) : Fits (fs.inode inum) := by
  rw [← h.synced inum hi]
  exact fits_loadDinode

theorem iblock_lt_bmapstart (hi : inum < sb.ninodes) : IBLOCK sb inum < sb.bmapstart := by
  have hdiv : inum / IPB ≤ sb.ninodes / IPB := Nat.div_le_div_right hi.le
  have := sb.inodes
  simp only [IBLOCK]
  omega

/-- What is written in front of the bit map, and new sizes, do not matter to the blocks. -/
theorem system_spec (h : Sound sb fs) (hc : c < sb.bmapstart) (data : Mem) {inode : ℕ → Inode}
    (hinode : ∀ i, (inode i).addrs = (fs.inode i).addrs) :
    (∀ q, q.Valid sb → block ⟨Function.update fs.disk c data, inode⟩ q = block fs q) ∧
    Sound sb ⟨Function.update fs.disk c data, inode⟩ := by
  set fs' : Fs := ⟨Function.update fs.disk c data, inode⟩ with hfs'
  have hlt : c < datastart sb :=
    Nat.lt_trans hc (Nat.lt_of_le_of_lt (Nat.le_add_right _ _) sb.bitmap)
  have hdisk : ∀ b, b ≠ c → fs'.disk b = fs.disk b := fun b hb => Function.update_of_ne hb _ _
  have hindirect : ∀ i, indirect fs' i = indirect fs i := fun i => congrFun (hinode i) _
  have hblock : ∀ q, q.Valid sb → block fs' q = block fs q := by
    intro q hq
    cases q with
    | addr i k => exact congrFun (hinode i) k
    | entry i j =>
      rw [block, block, hindirect]
      split_ifs with h0
      · rfl
      · have hvi : (Place.indirect i).Valid sb := hq.1
        have hdata : datastart sb ≤ indirect fs i := (h.mem_inUse hvi h0).2.1
        rw [hdisk _ (Nat.ne_of_gt (Nat.lt_of_lt_of_le hlt hdata))]
  have hbits : ∀ b < sb.size, used sb fs'.disk b = used sb fs.disk b := fun b hb =>
    used_congr (hdisk _ (plain_ne_bblock (.inl hc) hb).symm)
  exact ⟨hblock, h.congr hblock hbits⟩

end Regularity

section Results

variable {sb : SuperBlock} {fs fs₁ fs' : Fs} {inum off len c : ℕ} {src : List UInt8} {ok : Bool}

theorem byteAt_congr {i k : ℕ} (hb : blockAt fs' i (k / BSIZE) = blockAt fs i (k / BSIZE))
    (hd : fs'.disk (blockAt fs i (k / BSIZE)) = fs.disk (blockAt fs i (k / BSIZE))) :
    byteAt fs' i k = byteAt fs i k := by rw [byteAt, hb, hd, byteAt]

theorem SizedTo.block_ne_zero {i k : ℕ} (hs : SizedTo fs i len) (hk : k < len)
    (hlen : len ≤ MAXFILE * BSIZE) : k / BSIZE < MAXFILE ∧ blockAt fs i (k / BSIZE) ≠ 0 := by
  have hbn : k / BSIZE < MAXFILE := Nat.div_lt_of_lt_mul (by rw [Nat.mul_comm]; omega)
  refine ⟨hbn, (hs.content _ hbn).mpr ?_⟩
  exact Nat.lt_of_le_of_lt (Nat.div_mul_le_self _ _) hk

theorem loadBytes_byteAt_congr {i : ℕ} (hs : SizedTo fs i len) (hlen : len ≤ MAXFILE * BSIZE)
    (h : ∀ bn < MAXFILE, blockAt fs i bn ≠ 0 →
      blockAt fs' i bn = blockAt fs i bn ∧ fs'.disk (blockAt fs i bn) = fs.disk (blockAt fs i bn)) :
    loadBytes (byteAt fs' i) 0 len = loadBytes (byteAt fs i) 0 len := by
  refine loadBytes_congr fun k _ hk => ?_
  obtain ⟨hbn, h0⟩ := SizedTo.block_ne_zero hs (k := k) (by omega) hlen
  exact byteAt_congr (h _ hbn h0).1 (h _ hbn h0).2

theorem Beside.sizedTo {i : ℕ} (h : Beside sb fs fs' inum) (hi : i < sb.ninodes) (hne : i ≠ inum)
    (hs : SizedTo fs i len) : SizedTo fs' i len :=
  hs.congr (fun bn hbn => (h.blocks i hi hne bn hbn).1) (h.indirects i hi hne)

theorem Beside.contents {i : ℕ} (h : Beside sb fs fs' inum) (hreg : Regular sb fs)
    (hi : i < sb.ninodes) (hne : i ≠ inum) : contents fs' i = contents fs i := by
  simp only [FileContents.contents, h.inodes i hi hne]
  refine loadBytes_byteAt_congr (hreg.sized i hi) (hreg.small i hi) fun bn hbn h0 => ?_
  exact ⟨(h.blocks i hi hne bn hbn).1, (h.blocks i hi hne bn hbn).2 h0⟩

theorem Written.contents (h : Written sb fs fs' inum off src (fs.inode inum).size)
    (hoff : off ≤ (fs.inode inum).size) :
    loadBytes (byteAt fs' inum) 0 (max (fs.inode inum).size (off + src.length)) =
      splice (contents fs inum) off src := by
  have hlength : (FileContents.contents fs inum).length = (fs.inode inum).size := loadBytes_length
  have hoff' : off ≤ (FileContents.contents fs inum).length := hlength.symm ▸ hoff
  apply List.ext_getElem
  · rw [loadBytes_length, splice_length src hoff', hlength]
  · intro j hj hj'
    have hget := @splice_getD _ src _ hoff' j
    rw [List.getD_eq_getElem _ _ hj'] at hget
    rw [loadBytes_length] at hj
    rw [loadBytes_getElem, Nat.zero_add, h.bytes j hj, hget]
    split_ifs with hin
    · rfl
    · have hjs : j < (FileContents.contents fs inum).length := by omega
      have hbyte : (FileContents.contents fs inum)[j] = byteAt fs inum (0 + j) :=
        loadBytes_getElem hjs
      rw [List.getD_eq_getElem _ _ hjs, hbyte, Nat.zero_add]

/-- A write inside the file gets no block. -/
theorem Written.inode_eq (h : Written sb fs fs' inum off src len) (hi : inum < sb.ninodes)
    (hs : SizedTo fs inum len) (hend : off + src.length ≤ len) :
    fs'.inode inum = fs.inode inum := by
  obtain ⟨addrs, ha⟩ := h.beside.inode
  have hsized := h.sized
  rw [Nat.max_eq_left hend] at hsized
  -- what was 0 is 0
  have hcontent : ∀ bn < MAXFILE, blockAt fs' inum bn = blockAt fs inum bn := by
    intro bn hbn
    by_cases h0 : blockAt fs inum bn = 0
    · have : ¬ blockAt fs' inum bn ≠ 0 := by rw [hsized.content bn hbn, ← hs.content bn hbn]; simpa
      rw [h0, not_not.mp this]
    · exact h.beside.kept _ (content_valid hi hbn) h0
  have hindirect : indirect fs' inum = indirect fs inum := by
    by_cases h0 : indirect fs inum = 0
    · have : ¬ indirect fs' inum ≠ 0 := by rw [hsized.indirect, ← hs.indirect]; simpa
      rw [h0, not_not.mp this]
    · exact h.beside.kept (.indirect inum) hi h0
  have haddrs : (fs'.inode inum).addrs = (fs.inode inum).addrs := by
    funext k
    by_cases hk : (k : ℕ) < NDIRECT
    · have hplace : Place.content inum k = .addr inum k := by
        rw [Place.content, if_pos hk]
        congr 1
        exact Fin.ext (Nat.mod_eq_of_lt k.isLt)
      have := hcontent k (Nat.lt_trans hk (by decide))
      rwa [blockAt, blockAt, hplace] at this
    · have hlast : k = Fin.last NDIRECT := by
        apply Fin.ext
        have := k.isLt
        simp only [Fin.val_last]
        omega
      rw [hlast]
      exact hindirect
  rw [ha] at haddrs ⊢
  rw [show addrs = (fs.inode inum).addrs from haddrs]

/-- The file system but for one inode, which is about to be written to the disk. -/
structure RegularBut (sb : SuperBlock) (fs : Fs) (inum : ℕ) : Prop where
  sound : Sound sb fs
  sized : ∀ i < sb.ninodes, i ≠ inum → SizedTo fs i (fs.inode i).size
  small : ∀ i < sb.ninodes, i ≠ inum → (fs.inode i).size ≤ MAXFILE * BSIZE
  synced : ∀ i < sb.ninodes, i ≠ inum → dinode sb fs.disk i = fs.inode i

theorem Beside.regularBut (h : Beside sb fs fs' inum) (hreg : Regular sb fs)
    (hsound : Sound sb fs') : RegularBut sb fs' inum := by
  refine ⟨hsound, fun i hi hne => ?_, fun i hi hne => ?_, fun i hi hne => ?_⟩
  · rw [h.inodes i hi hne]
    exact h.sizedTo hi hne (hreg.sized i hi)
  · rw [h.inodes i hi hne]
    exact hreg.small i hi
  · rw [h.inodes i hi hne, ← hreg.synced i hi]
    exact dinode_congr (h.system _ (iblock_lt_bmapstart hi))

/-- The inode is written, with a size that its blocks are for. -/
theorem iupdate_regular {ip : Inode} (h : RegularBut sb fs inum) (hi : inum < sb.ninodes)
    (haddrs : ip.addrs = (fs.inode inum).addrs) (hfits : Fits ip) (hs : SizedTo fs inum ip.size)
    (hsmall : ip.size ≤ MAXFILE * BSIZE) :
    Regular sb (iupdate sb (fs.set inum ip) inum) ∧
      contents (iupdate sb (fs.set inum ip) inum) inum = loadBytes (byteAt fs inum) 0 ip.size ∧
      ∀ i < sb.ninodes, i ≠ inum →
        contents (iupdate sb (fs.set inum ip) inum) i = contents fs i := by
  have hinodes : ∀ i, ((fs.set inum ip).inode i).addrs = (fs.inode i).addrs := by
    intro i
    simp only [Fs.set, Function.update_apply]
    split_ifs with hc
    · rw [hc, haddrs]
    · rfl
  obtain ⟨hblock, hsound⟩ := system_spec h.sound (iblock_lt_bmapstart hi)
    (storeDinode (fs.disk (IBLOCK sb inum)) (place inum) ((fs.set inum ip).inode inum)) hinodes
  set fs' := iupdate sb (fs.set inum ip) inum with hfs'
  have hself : fs'.inode inum = ip := Function.update_self _ _ _
  have hother : ∀ i, i ≠ inum → fs'.inode i = fs.inode i := fun i hne =>
    Function.update_of_ne hne _ _
  have hcontent : ∀ i < sb.ninodes, ∀ bn < MAXFILE, blockAt fs' i bn = blockAt fs i bn :=
    fun i hi bn hbn => hblock _ (content_valid hi hbn)
  have hindirect : ∀ i < sb.ninodes, indirect fs' i = indirect fs i :=
    fun i hi => hblock (.indirect i) hi
  have hdisk : ∀ i < sb.ninodes, ∀ bn < MAXFILE, blockAt fs i bn ≠ 0 →
      fs'.disk (blockAt fs i bn) = fs.disk (blockAt fs i bn) := by
    intro i hi' bn hbn h0
    refine Function.update_of_ne (Nat.ne_of_gt ?_) _ _
    exact Nat.lt_of_lt_of_le (iblock_lt_datastart hi)
      (h.sound.mem_inUse (content_valid hi' hbn) h0).2.1
  refine ⟨⟨hsound, fun i hi' => ?_, fun i hi' => ?_, fun i hi' => ?_⟩, ?_, fun i hi' hne => ?_⟩
  · obtain rfl | hne := eq_or_ne i inum
    · rw [hself]
      exact hs.congr (hcontent i hi') (hindirect i hi')
    · rw [hother i hne]
      exact (h.sized i hi' hne).congr (hcontent i hi') (hindirect i hi')
  · obtain rfl | hne := eq_or_ne i inum
    · rwa [hself]
    · rw [hother i hne]
      exact h.small i hi' hne
  · obtain rfl | hne := eq_or_ne i inum
    · rw [hself]
      refine (dinode_iupdate_self ?_).trans (Function.update_self _ _ _)
      rwa [show (fs.set i ip).inode i = ip from hself]
    · rw [hother i hne, ← h.synced i hi' hne]
      exact dinode_iupdate_of_ne hne.symm
  · rw [contents, hself]
    exact loadBytes_byteAt_congr hs hsmall fun bn hbn h0 =>
      ⟨hcontent inum hi bn hbn, hdisk inum hi bn hbn h0⟩
  · simp only [contents, hother i hne]
    exact loadBytes_byteAt_congr (h.sized i hi' hne) (h.small i hi' hne) fun bn hbn h0 =>
      ⟨hcontent i hi' bn hbn, hdisk i hi' bn hbn h0⟩

/-- `writei` does to the files what `PageCache.writei` does to lists. -/
theorem writei_spec (h : Regular sb fs) (hi : inum < sb.ninodes)
    (hlen : src.length < 4294967296) (hw : writei sb fs inum off src = some (fs', ok)) :
    Regular sb fs' ∧
      ok = (PageCache.writei (contents fs inum) off src).isSome ∧
      contents fs' inum =
        (PageCache.writei (contents fs inum) off src).getD (contents fs inum) ∧
      (∀ i < sb.ninodes, i ≠ inum → contents fs' i = contents fs i) ∧
      ∀ i < sb.ninodes, ∃ addrs size,
        fs'.inode i = { fs.inode i with addrs := addrs, size := size } := by
  have hlength : (contents fs inum).length = (fs.inode inum).size := loadBytes_length
  rw [writei] at hw
  rw [PageCache.writei, hlength]
  dsimp only at hw
  split_ifs at hw ⊢ with hout hmax hmax' hmax'
  · obtain ⟨rfl, rfl⟩ := Prod.mk.inj (Option.some.inj hw)
    exact ⟨h, rfl, rfl, fun _ _ _ => rfl, fun _ _ => ⟨_, _, rfl⟩⟩
  · obtain ⟨rfl, rfl⟩ := Prod.mk.inj (Option.some.inj hw)
    exact ⟨h, rfl, rfl, fun _ _ _ => rfl, fun _ _ => ⟨_, _, rfl⟩⟩
  · exact absurd hmax hmax'
  · exact absurd hmax' hmax
  · obtain ⟨fs₁, hloop, hw⟩ := Option.map_eq_some_iff.mp hw
    have hwritten := writeLoop_spec h.sound hi (h.sized inum hi) (h.small inum hi) (by omega)
      (by simp only [MAXFILE, BSIZE] at *; omega) (Nat.le_refl _) hloop
    have hbut := hwritten.beside.regularBut h hwritten.sound
    have hcontents := hwritten.contents (by omega)
    obtain ⟨addrs, ha⟩ := hwritten.beside.inode
    have hsize : (fs₁.inode inum).size = (fs.inode inum).size := by rw [ha]
    have hnames : ∀ i < sb.ninodes, ∃ addrs size,
        fs₁.inode i = { fs.inode i with addrs := addrs, size := size } := by
      intro i hi'
      obtain rfl | hne := eq_or_ne i inum
      · exact ⟨addrs, _, ha⟩
      · exact ⟨_, _, hwritten.beside.inodes i hi' hne⟩
    split_ifs at hw with hgrow
    · obtain ⟨rfl, rfl⟩ := Prod.mk.inj hw
      have hnew : max (fs.inode inum).size (off + src.length) = off + src.length :=
        Nat.max_eq_right (by omega)
      have hfits : Fits { fs₁.inode inum with size := off + src.length } := by
        have hold := h.fits hi
        refine ⟨?_, ?_, ?_, ?_, ?_, hwritten.sound.addrs_lt hi⟩
        · rw [ha]
          exact hold.type
        · rw [ha]
          exact hold.major
        · rw [ha]
          exact hold.minor
        · rw [ha]
          exact hold.nlink
        · simp only [MAXFILE, BSIZE] at *
          omega
      have hlarge : off + src.length ≤ MAXFILE * BSIZE := by
        simp only [MAXFILE, BSIZE] at *
        omega
      have haddrs : ({ fs₁.inode inum with size := off + src.length } : Inode).addrs =
          (fs₁.inode inum).addrs := rfl
      obtain ⟨hreg, hself, hothers⟩ := iupdate_regular hbut hi haddrs hfits
        (hnew ▸ hwritten.sized) hlarge
      refine ⟨hreg, rfl, ?_, fun i hi' hne => ?_, fun i hi' => ?_⟩
      · rw [hself, Option.getD_some, ← hcontents, hnew]
      · rw [hothers i hi' hne, hwritten.beside.contents h hi' hne]
      · simp only [iupdate, Fs.set, Function.update_apply]
        split_ifs with hc
        · rw [hc, ha]
          exact ⟨_, _, rfl⟩
        · exact hnames i hi'
    · obtain ⟨rfl, rfl⟩ := Prod.mk.inj hw
      have hend : off + src.length ≤ (fs.inode inum).size := by omega
      have hinode := hwritten.inode_eq hi (h.sized inum hi) hend
      have hsized := hwritten.sized
      rw [Nat.max_eq_left hend] at hsized hcontents
      refine ⟨⟨hwritten.sound, fun i hi' => ?_, fun i hi' => ?_, fun i hi' => ?_⟩, rfl, ?_,
        fun i hi' hne => hwritten.beside.contents h hi' hne, hnames⟩
      · obtain rfl | hne := eq_or_ne i inum
        · rwa [hinode]
        · exact hbut.sized i hi' hne
      · obtain rfl | hne := eq_or_ne i inum
        · rw [hinode]
          exact h.small i hi'
        · exact hbut.small i hi' hne
      · obtain rfl | hne := eq_or_ne i inum
        · rw [hinode, ← h.synced i hi']
          exact dinode_congr (hwritten.beside.system _ (iblock_lt_bmapstart hi'))
        · exact hbut.synced i hi' hne
      · rw [contents, hinode, hcontents, Option.getD_some]

end Results

end FileContents
