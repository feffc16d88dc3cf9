import OsProjects.BitMaps

/-! # Blocks of the file system

`bzero`, `balloc` and `bfree` of `fs.c`. The disk is what the processes see of it through the
buffer cache and the log. -/
namespace DiskBlocks

open ByteMemory BitMaps

abbrev BSIZE : ℕ := 512
abbrev BPB : ℕ := 4096
abbrev IPB : ℕ := 8

/-- `mkfs` puts the inodes, the bit map and the data one behind the other. -/
structure SuperBlock where
  size : ℕ
  nblocks : ℕ
  ninodes : ℕ
  inodestart : ℕ
  bmapstart : ℕ
  inodes : inodestart + ninodes / IPB < bmapstart
  bitmap : bmapstart + size / BPB < size - nblocks
  word : size < 2147483648

abbrev Disk := ℕ → Mem

section Code

variable (sb : SuperBlock)

def BBLOCK (b : ℕ) : ℕ := b / BPB + sb.bmapstart
def IBLOCK (inum : ℕ) : ℕ := inum / IPB + sb.inodestart

/-- The first block that is not for the superblock, the log, the inodes or the bit map. -/
def datastart : ℕ := sb.size - sb.nblocks

def used (d : Disk) (b : ℕ) : Bool := getBit (d (BBLOCK sb b)) (b % BPB)

def bzero (d : Disk) (b : ℕ) : Disk :=
  Function.update d b fun x => if x < BSIZE then 0 else d b x

def mark (d : Disk) (b : ℕ) : Disk :=
  Function.update d (BBLOCK sb b) (setBit (d (BBLOCK sb b)) (b % BPB))

/-- The two loops together go through the blocks in their order. -/
def balloc (d : Disk) : Option (Disk × ℕ) :=
  match (List.range sb.size).find? fun b => !used sb d b with
  | some b => some (bzero (mark sb d b) b, b)
  | none =>
    -- panics
    none

def bfree (d : Disk) (b : ℕ) : Option Disk :=
  if used sb d b then
    some (Function.update d (BBLOCK sb b) (clearBit (d (BBLOCK sb b)) (b % BPB)))
  else
    -- panics
    none

end Code

section Specs

variable {sb : SuperBlock} {d d' : Disk} {b c : ℕ}

/-- The blocks that are neither bit map nor boot block. -/
def Plain (sb : SuperBlock) (b : ℕ) : Prop := b < sb.bmapstart ∨ datastart sb ≤ b

theorem bblock_not_plain (hb : b < sb.size) : ¬ Plain sb (BBLOCK sb b) := by
  have hdiv : b / BPB ≤ sb.size / BPB := Nat.div_le_div_right hb.le
  have := sb.bitmap
  simp only [Plain, BBLOCK, datastart, BPB] at *
  omega

theorem plain_ne_bblock (hc : Plain sb c) (hb : b < sb.size) : c ≠ BBLOCK sb b := by
  rintro rfl
  exact bblock_not_plain hb hc

theorem plain_of_data (hb : datastart sb ≤ b) : Plain sb b := .inr hb

theorem plain_iblock {inum : ℕ} (h : inum < sb.ninodes) : Plain sb (IBLOCK sb inum) := by
  have hdiv : inum / IPB ≤ sb.ninodes / IPB := Nat.div_le_div_right h.le
  have := sb.inodes
  simp only [Plain, IBLOCK, IPB] at *
  omega

theorem iblock_lt_datastart {inum : ℕ} (h : inum < sb.ninodes) :
    IBLOCK sb inum < datastart sb := by
  have hdiv : inum / IPB ≤ sb.ninodes / IPB := Nat.div_le_div_right h.le
  have := sb.inodes
  have := sb.bitmap
  simp only [IBLOCK, datastart, IPB, BPB] at *
  omega

theorem datastart_pos : 0 < datastart sb := by
  exact Nat.lt_of_le_of_lt (Nat.zero_le _) sb.bitmap

theorem same_bit (h : BBLOCK sb b = BBLOCK sb c) : b % BPB = c % BPB ↔ b = c := by
  simp only [BBLOCK, BPB] at *
  omega

theorem used_mark : used sb (mark sb d b) c = (decide (b = c) || used sb d c) := by
  rw [used, mark, Function.update_apply]
  split_ifs with h
  · rw [getBit_setBit, used, h]
    congr 1
    exact decide_eq_decide.mpr (same_bit h.symm)
  · have hne : b ≠ c := by
      rintro rfl
      exact h rfl
    rw [decide_eq_false hne, Bool.false_or, used]

theorem used_congr (h : d (BBLOCK sb b) = d' (BBLOCK sb b)) : used sb d b = used sb d' b := by
  rw [used, used, h]

/-- What `balloc` has done to the disk. -/
structure Allocated (sb : SuperBlock) (d d' : Disk) (b : ℕ) : Prop where
  fresh : used sb d b = false
  data : datastart sb ≤ b
  inside : b < sb.size
  marked : ∀ c < sb.size, used sb d' c = (decide (b = c) || used sb d c)
  zero : ∀ x < BSIZE, d' b x = 0
  others : ∀ c, c ≠ b → Plain sb c → d' c = d c

theorem balloc_spec (hmeta : ∀ c < datastart sb, used sb d c = true)
    (h : balloc sb d = some (d', b)) : Allocated sb d d' b := by
  rw [balloc] at h
  split at h
  · rename_i b' hb'
    obtain ⟨rfl, rfl⟩ := Prod.mk.inj (Option.some.inj h)
    have hfresh : used sb d b' = false := by simpa using List.find?_some hb'
    have hinside : b' < sb.size := List.mem_range.mp (List.mem_of_find?_eq_some hb')
    have hdata : datastart sb ≤ b' := Nat.le_of_not_lt fun hlt => by
      rw [hmeta b' hlt] at hfresh
      cases hfresh
    have hzeroed : ∀ c, c ≠ b' → bzero (mark sb d b') b' c = mark sb d b' c :=
      fun c hc => Function.update_of_ne hc _ _
    refine ⟨hfresh, hdata, hinside, fun c hc => ?_, fun x hx => ?_, fun c hc hp => ?_⟩
    · rw [← used_mark]
      exact used_congr (hzeroed _ (plain_ne_bblock (plain_of_data hdata) hc).symm)
    · rw [bzero, Function.update_self, if_pos hx]
    · rw [hzeroed c hc, mark, Function.update_of_ne (plain_ne_bblock hp hinside)]
  · cases h

theorem balloc_eq_none_iff : balloc sb d = none ↔ ∀ b < sb.size, used sb d b = true := by
  rw [balloc]
  split
  · rename_i b hb
    have hfresh : used sb d b = false := by simpa using List.find?_some hb
    have hinside : b < sb.size := List.mem_range.mp (List.mem_of_find?_eq_some hb)
    refine ⟨fun h => absurd h (Option.some_ne_none _), fun h => ?_⟩
    rw [h b hinside] at hfresh
    cases hfresh
  · rename_i hnone
    refine ⟨fun _ b hb => ?_, fun _ => rfl⟩
    simpa using List.find?_eq_none.mp hnone b (List.mem_range.mpr hb)

/-- What `bfree` has done to the disk. -/
structure Freed (sb : SuperBlock) (d d' : Disk) (b : ℕ) : Prop where
  cleared : ∀ c, used sb d' c = (!decide (b = c) && used sb d c)
  others : ∀ c, Plain sb c → d' c = d c

theorem bfree_spec (hb : b < sb.size) (h : used sb d b = true) :
    ∃ d', bfree sb d b = some d' ∧ Freed sb d d' b := by
  refine ⟨_, if_pos h, fun c => ?_, fun c hc => Function.update_of_ne (plain_ne_bblock hc hb) _ _⟩
  rw [used, Function.update_apply]
  split_ifs with hbc
  · rw [getBit_clearBit, used, hbc]
    congr 2
    exact decide_eq_decide.mpr (same_bit hbc.symm)
  · have hne : b ≠ c := by
      rintro rfl
      exact hbc rfl
    rw [decide_eq_false hne, Bool.not_false, Bool.true_and, used]

end Specs

end DiskBlocks
