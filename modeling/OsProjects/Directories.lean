import OsProjects.CStrings
import OsProjects.FileMachine

/-! # Directories

`dirlookup` and `dirlink` of `fs.c` and `isdirempty` of `sysfile.c`, as programs over the operations
of the files. A directory is a row of slots, each with a name and the number of an inode. The inode
cache is taken to have room for what is found. -/
namespace Directories

open ByteMemory CStrings Programs DiskBlocks FileStore

abbrev DIRSIZ : ℕ := 14

/-- `sizeof(struct dirent)`. -/
abbrev DIRENT : ℕ := 2 + DIRSIZ

structure Dirent where
  inum : ℕ
  name : List UInt8
  deriving DecidableEq

def Dirent.encode (de : Dirent) : List UInt8 := leBytes 2 de.inum ++ de.name

def Dirent.decode (bs : List UInt8) : Dirent := ⟨leValue (bs.take 2), bs.drop 2⟩

/-- Both loops of `strncpy`; behind the text there is a zero. -/
def strncpy : ℕ → List UInt8 → List UInt8
  | 0, _ => []
  | n + 1, t => t.headD 0 :: strncpy n t.tail

section Code

abbrev Call := Prog Op Result

structure Stat where
  type : ℕ
  nlink : ℕ
  size : ℕ

def stat (inum : ℕ) : Call Stat := .call (.stat inum) fun
  | .stat type nlink size => .ret ⟨type, nlink, size⟩
  | _ => .fail

def readi (inum off n : ℕ) : Call (Option (List UInt8)) := .call (.readi inum off n) fun
  | .bytes bs => .ret bs
  | _ => .fail

def writei (inum off : ℕ) (src : List UInt8) : Call Bool := .call (.writei inum off src) fun
  | .wrote ok => .ret ok
  | _ => .fail

/-- The callers panic when the read is short. -/
def readDirent (dp off : ℕ) : Call Dirent := do
  match ← readi dp off DIRENT with
  | some bs => if bs.length = DIRENT then pure (.decode bs) else .fail
  | none => .fail

def namecmp (s t : List UInt8) : ℤ := strncmp DIRSIZ s t

/-- The offsets that the loops over a directory go through. -/
def offsets (size : ℕ) : List ℕ := (List.range ((size + (DIRENT - 1)) / DIRENT)).map (DIRENT * ·)

def lookupLoop (dp : ℕ) (name : List UInt8) : List ℕ → Call (Option (ℕ × ℕ))
  | [] => pure none
  | off :: offs => do
    let de ← readDirent dp off
    if de.inum = 0 then lookupLoop dp name offs
    else if namecmp name de.name = 0 then pure (some (de.inum, off))
    else lookupLoop dp name offs

/-- The inode's number, and `*poff`. -/
def dirlookup (dp : ℕ) (name : List UInt8) : Call (Option (ℕ × ℕ)) := do
  let ip ← stat dp
  if ip.type ≠ Kind.T_DIR.code then .fail else lookupLoop dp name (offsets ip.size)

def emptyLoop (dp last : ℕ) : List ℕ → Call ℕ
  | [] => pure last
  | off :: offs => do
    let de ← readDirent dp off
    if de.inum = 0 then pure off else emptyLoop dp last offs

/-- -1 is `false`. The inode that is found then was not locked, so that `iput` leaves it alone. -/
def dirlink (dp : ℕ) (name : List UInt8) (inum : ℕ) : Call Bool := do
  match ← dirlookup dp name with
  | some _ => pure false
  | none =>
    let ip ← stat dp
    let off ← emptyLoop dp (DIRENT * ((ip.size + (DIRENT - 1)) / DIRENT)) (offsets ip.size)
    let ok ← writei dp off (Dirent.encode ⟨inum, strncpy DIRSIZ name⟩)
    if ok then pure true else .fail

def isemptyLoop (dp : ℕ) : List ℕ → Call Bool
  | [] => pure true
  | off :: offs => do
    let de ← readDirent dp off
    if de.inum ≠ 0 then pure false else isemptyLoop dp offs

def isdirempty (dp : ℕ) : Call Bool := do
  let ip ← stat dp
  isemptyLoop dp ((offsets ip.size).drop 2)

end Code

section Slots

variable {d : List UInt8} {de : Dirent} {k k' : ℕ} {s t : List UInt8}

/-- The slot with the number. -/
def slot (d : List UInt8) (k : ℕ) : Dirent := .decode ((d.drop (DIRENT * k)).take DIRENT)

def slots (d : List UInt8) : ℕ := d.length / DIRENT

def Dirent.Fits (de : Dirent) : Prop := de.inum < 65536 ∧ de.name.length = DIRSIZ

/-- The first slot in use with the name. -/
def find (d : List UInt8) (name : List UInt8) : Option ℕ :=
  (List.range (slots d)).find? fun k => (slot d k).inum ≠ 0 ∧ namecmp name (slot d k).name = 0

/-- The first slot that is not in use, or the end. -/
def vacant (d : List UInt8) : ℕ :=
  ((List.range (slots d)).find? fun k => (slot d k).inum = 0).getD (slots d)

theorem encode_length (h : de.Fits) : de.encode.length = DIRENT := by
  rw [Dirent.encode, List.length_append, leBytes_length, h.2]

theorem decode_encode (h : de.Fits) : Dirent.decode de.encode = de := by
  have hlen : (leBytes 2 de.inum).length = 2 := leBytes_length 2 _
  have hmod : de.inum % 256 ^ 2 = de.inum := Nat.mod_eq_of_lt h.1
  rw [Dirent.decode, Dirent.encode, List.take_left' hlen, List.drop_left' hlen, leValue_leBytes,
    hmod]

theorem strncpy_length {n : ℕ} : (strncpy n t).length = n := by
  induction n generalizing t with
  | zero => rfl
  | succ n ih => rw [strncpy, List.length_cons, ih]

theorem namecmp_strncpy : namecmp s (strncpy DIRSIZ t) = namecmp s t := by
  have h : ∀ n, strncmp n s (strncpy n t) = strncmp n s t := by
    intro n
    induction n generalizing s t with
    | zero => rfl
    | succ n ih => rw [strncmp, strncmp, strncpy, List.headD_cons, List.tail_cons, ih]
  exact h DIRSIZ

/-- What is written into a slot is in that slot, and in no other. -/
theorem slot_splice (hd : DIRENT ∣ d.length) (hk : k ≤ slots d) (h : de.Fits) :
    slot (splice d (DIRENT * k) de.encode) k' = if k' = k then de else slot d k' := by
  obtain ⟨n, hn⟩ := hd
  have hlen := encode_length h
  rw [slots, hn, Nat.mul_div_cancel_left _ (by decide)] at hk
  have hoff : DIRENT * k ≤ d.length := by
    rw [hn]
    exact Nat.mul_le_mul_left _ hk
  have hfront : (d.take (DIRENT * k)).length = DIRENT * k := List.length_take_of_le hoff
  rw [slot, splice]
  split_ifs with he
  · subst he
    rw [List.append_assoc, List.drop_left' hfront, List.take_left' hlen, decode_encode h]
  · rw [slot]
    congr 1
    obtain hlt | hgt := Nat.lt_or_gt_of_ne he
    · have hle : DIRENT * k' + DIRENT ≤ DIRENT * k := Nat.mul_le_mul_left DIRENT hlt
      rw [List.append_assoc, List.drop_append_of_le_length (by omega), List.drop_take,
        List.take_append_of_le_length, List.take_take, Nat.min_eq_left (by omega)]
      rw [List.length_take, List.length_drop]
      omega
    · have hle : DIRENT * k + DIRENT ≤ DIRENT * k' := Nat.mul_le_mul_left DIRENT hgt
      have hboth : (d.take (DIRENT * k) ++ de.encode).length = DIRENT * k + DIRENT := by
        rw [List.length_append, hfront, hlen]
      rw [List.drop_append, List.drop_eq_nil_of_le (by omega), List.nil_append, List.drop_drop,
        hboth, hlen]
      congr 2
      omega

theorem slots_splice (hd : DIRENT ∣ d.length) (hk : k ≤ slots d) (h : de.Fits) :
    DIRENT ∣ (splice d (DIRENT * k) de.encode).length ∧
      slots (splice d (DIRENT * k) de.encode) = max (slots d) (k + 1) := by
  obtain ⟨n, hn⟩ := hd
  have hlen := encode_length h
  rw [slots, hn, Nat.mul_div_cancel_left _ (by decide)] at hk
  have hoff : DIRENT * k ≤ d.length := by
    rw [hn]
    exact Nat.mul_le_mul_left _ hk
  have hnew : (splice d (DIRENT * k) de.encode).length = DIRENT * max n (k + 1) := by
    rw [splice_length _ hoff, hlen, hn, ← Nat.mul_succ, Nat.mul_max_mul_left]
  refine ⟨⟨_, hnew⟩, ?_⟩
  rw [slots, hnew, slots, hn, Nat.mul_div_cancel_left _ (by decide),
    Nat.mul_div_cancel_left _ (by decide)]

end Slots

section Specs

variable {sb : SuperBlock} {f f' : ℕ → File} {dp inum off n k : ℕ} {name : List UInt8} {ok : Bool}

structure IsDir (sb : SuperBlock) (f : ℕ → File) (dp : ℕ) : Prop where
  inode : dp < sb.ninodes
  type : (f dp).type = Kind.T_DIR.code
  whole : DIRENT ∣ (f dp).bytes.length
  small : (f dp).bytes.length ≤ PageCache.MAXSIZE

theorem IsDir.allocated (h : IsDir sb f dp) : (f dp).type ≠ 0 := by
  rw [h.type]
  decide

theorem IsDir.regular (h : IsDir sb f dp) : (f dp).type ≠ Kind.T_DEV.code := by
  rw [h.type]
  decide

theorem IsDir.length (h : IsDir sb f dp) :
    (f dp).bytes.length = DIRENT * slots (f dp).bytes := (Nat.mul_div_cancel' h.whole).symm

theorem exec_stat (hi : inum < sb.ninodes) (ht : (f inum).type ≠ 0) :
    exec (FileMachine.next sb) (stat inum) f =
      some (f, ⟨(f inum).type, (f inum).nlink, (f inum).bytes.length⟩) := by
  have hblocked : ¬ DiskSpace.Blocked sb f (.stat inum) := fun hb => hb ⟨hi, ht⟩
  rw [stat, exec, FileMachine.next, if_neg hblocked]
  rfl

theorem exec_readi (h : IsDir sb f dp) : exec (FileMachine.next sb) (readi dp off n) f =
    some (f, PageCache.readi (f dp).bytes off n) := by
  have hblocked : ¬ DiskSpace.Blocked sb f (.readi dp off n) :=
    fun hb => hb ⟨h.inode, h.allocated, h.regular⟩
  rw [readi, exec, FileMachine.next, if_neg hblocked]
  rfl

theorem exec_readDirent (h : IsDir sb f dp) (hk : k < slots (f dp).bytes) :
    exec (FileMachine.next sb) (readDirent dp (DIRENT * k)) f =
      some (f, slot (f dp).bytes k) := by
  have hlen := h.length
  have hsmall := h.small
  have hmul : DIRENT * k + DIRENT ≤ (f dp).bytes.length := hlen ▸ Nat.mul_le_mul_left DIRENT hk
  have hread : PageCache.readi (f dp).bytes (DIRENT * k) DIRENT =
      some (((f dp).bytes.drop (DIRENT * k)).take DIRENT) := by
    refine if_neg (not_or.mpr ⟨by omega, ?_⟩)
    simp only [PageCache.MAXSIZE, DIRENT, DIRSIZ] at *
    omega
  have hfull : (((f dp).bytes.drop (DIRENT * k)).take DIRENT).length = DIRENT := by
    rw [List.length_take, List.length_drop]
    omega
  rw [readDirent, exec_bind, exec_readi h, Option.bind_some, hread]
  dsimp only
  rw [if_pos hfull, exec_pure, slot]

theorem offsets_eq (h : IsDir sb f dp) :
    offsets (f dp).bytes.length = (List.range (slots (f dp).bytes)).map (DIRENT * ·) := by
  have hlen := h.length
  rw [offsets]
  congr 2
  rw [slots]
  simp only [DIRENT, DIRSIZ] at *
  omega

theorem exec_lookupLoop (h : IsDir sb f dp) {ks : List ℕ} (hks : ∀ k ∈ ks, k < slots (f dp).bytes) :
    exec (FileMachine.next sb) (lookupLoop dp name (ks.map (DIRENT * ·))) f =
      some (f, (ks.find? fun k => (slot (f dp).bytes k).inum ≠ 0 ∧
        namecmp name (slot (f dp).bytes k).name = 0).map fun k =>
          ((slot (f dp).bytes k).inum, DIRENT * k)) := by
  induction ks with
  | nil => rfl
  | cons k ks ih =>
    have ih := ih fun k hk => hks k (List.mem_cons_of_mem _ hk)
    rw [List.map_cons, lookupLoop, exec_bind, exec_readDirent h (hks k List.mem_cons_self),
      Option.bind_some]
    dsimp only
    split_ifs with hused hname
    · rw [ih, List.find?_cons_of_neg (by simp [hused])]
    · rw [List.find?_cons_of_pos (by simp [hused, hname])]
      rfl
    · rw [ih, List.find?_cons_of_neg (by simp [hname])]

/-- `dirlookup` finds the first slot in use that has the name. -/
theorem exec_dirlookup (h : IsDir sb f dp) : exec (FileMachine.next sb) (dirlookup dp name) f =
    some (f, (find (f dp).bytes name).map fun k =>
      ((slot (f dp).bytes k).inum, DIRENT * k)) := by
  rw [dirlookup, exec_bind, exec_stat h.inode h.allocated, Option.bind_some]
  dsimp only
  rw [if_neg (not_not.mpr h.type), offsets_eq h]
  exact exec_lookupLoop h fun k hk => List.mem_range.mp hk

theorem exec_emptyLoop (h : IsDir sb f dp) {ks : List ℕ} (hks : ∀ k ∈ ks, k < slots (f dp).bytes) :
    exec (FileMachine.next sb) (emptyLoop dp (DIRENT * n) (ks.map (DIRENT * ·))) f =
      some (f, DIRENT * (ks.find? fun k => (slot (f dp).bytes k).inum = 0).getD n) := by
  induction ks with
  | nil => rfl
  | cons k ks ih =>
    have ih := ih fun k hk => hks k (List.mem_cons_of_mem _ hk)
    rw [List.map_cons, emptyLoop, exec_bind, exec_readDirent h (hks k List.mem_cons_self),
      Option.bind_some]
    dsimp only
    split_ifs with hused
    · rw [List.find?_cons_of_pos (by simp [hused])]
      rfl
    · rw [ih, List.find?_cons_of_neg (by simp [hused])]

theorem exec_isdirempty (h : IsDir sb f dp) : exec (FileMachine.next sb) (isdirempty dp) f =
    some (f, decide (∀ k < slots (f dp).bytes, 2 ≤ k → (slot (f dp).bytes k).inum = 0)) := by
  have hloop : ∀ ks : List ℕ, (∀ k ∈ ks, k < slots (f dp).bytes) →
      exec (FileMachine.next sb) (isemptyLoop dp (ks.map (DIRENT * ·))) f =
        some (f, decide (∀ k ∈ ks, (slot (f dp).bytes k).inum = 0)) := by
    intro ks hks
    induction ks with
    | nil => rfl
    | cons k ks ih =>
      have ih := ih fun k hk => hks k (List.mem_cons_of_mem _ hk)
      rw [List.map_cons, isemptyLoop, exec_bind, exec_readDirent h (hks k List.mem_cons_self),
        Option.bind_some]
      dsimp only
      split_ifs with hused
      · simp [hused]
      · rw [ih]
        simp only [ne_eq, not_not] at hused
        simp [hused]
  rw [isdirempty, exec_bind, exec_stat h.inode h.allocated, Option.bind_some]
  dsimp only
  rw [offsets_eq h, ← List.map_drop, hloop _ fun k hk => List.mem_range.mp (List.mem_of_mem_drop hk)]
  have hdrop : ∀ k, k ∈ (List.range (slots (f dp).bytes)).drop 2 ↔
      k < slots (f dp).bytes ∧ 2 ≤ k := by
    intro k
    rw [List.range_eq_range', List.drop_range', List.mem_range'_1]
    omega
  simp only [hdrop, and_imp]

theorem exec_writei {src : List UInt8}
    (he : exec (FileMachine.next sb) (writei dp off src) f = some (f', ok)) :
    ok = (PageCache.writei (f dp).bytes off src).isSome ∧
      f' = Function.update f dp { f dp with
        bytes := (PageCache.writei (f dp).bytes off src).getD (f dp).bytes } := by
  rw [writei, exec, FileMachine.next] at he
  split_ifs at he with hblocked
  · cases he
  · obtain ⟨rfl, rfl⟩ := Prod.mk.inj (Option.some.inj he)
    exact ⟨rfl, rfl⟩

/-- The directory with an entry more. -/
def linked (d : List UInt8) (name : List UInt8) (inum : ℕ) : List UInt8 :=
  splice d (DIRENT * vacant d) (Dirent.encode ⟨inum, strncpy DIRSIZ name⟩)

theorem vacant_le {d : List UInt8} : vacant d ≤ slots d := by
  rw [vacant]
  cases hfind : (List.range (slots d)).find? fun k => (slot d k).inum = 0 with
  | none => exact Nat.le_refl _
  | some k => exact (List.mem_range.mp (List.mem_of_find?_eq_some hfind)).le

theorem writei_entry {d : List UInt8} {de : Dirent} (hd : d.length ≤ PageCache.MAXSIZE)
    (h : de.Fits) (hoff : off ≤ d.length) : PageCache.writei d off de.encode =
      if off + DIRENT > PageCache.MAXSIZE then none else some (splice d off de.encode) := by
  have hmod : (off + DIRENT) % 4294967296 = off + DIRENT := by
    simp only [PageCache.MAXSIZE, DIRENT, DIRSIZ] at *
    omega
  rw [PageCache.writei, encode_length h, hmod, if_neg (not_or.mpr ⟨by omega, by omega⟩)]

/-- `dirlink` refuses a name that is there. Else it writes one slot, or panics. -/
theorem exec_dirlink (h : IsDir sb f dp) (hinum : inum < 65536)
    (he : exec (FileMachine.next sb) (dirlink dp name inum) f = some (f', ok)) :
    (ok = false ∧ (find (f dp).bytes name).isSome = true ∧ f' = f) ∨
      (ok = true ∧ find (f dp).bytes name = none ∧
        (linked (f dp).bytes name inum).length ≤ PageCache.MAXSIZE ∧
        f' = Function.update f dp { f dp with bytes := linked (f dp).bytes name inum }) := by
  rw [dirlink, exec_bind, exec_dirlookup h, Option.bind_some] at he
  cases hfind : find (f dp).bytes name with
  | some k =>
    rw [hfind] at he
    obtain ⟨rfl, rfl⟩ := Prod.mk.inj (Option.some.inj he)
    exact .inl ⟨rfl, rfl, rfl⟩
  | none =>
    have hlen := h.length
    have hfits : (⟨inum, strncpy DIRSIZ name⟩ : Dirent).Fits := ⟨hinum, strncpy_length⟩
    have hsize : DIRENT * (((f dp).bytes.length + (DIRENT - 1)) / DIRENT) =
        DIRENT * slots (f dp).bytes := by
      rw [slots]
      simp only [DIRENT, DIRSIZ] at *
      omega
    rw [hfind] at he
    simp only [Option.map_none, exec_bind, exec_stat h.inode h.allocated, Option.bind_some,
      offsets_eq h, hsize, exec_emptyLoop h fun k hk => List.mem_range.mp hk] at he
    rw [← vacant] at he
    obtain ⟨⟨f₁, written⟩, hw, he⟩ := Option.bind_eq_some_iff.mp he
    obtain ⟨hok, rfl⟩ := exec_writei hw
    have hoff : DIRENT * vacant (f dp).bytes ≤ (f dp).bytes.length :=
      hlen ▸ Nat.mul_le_mul_left DIRENT vacant_le
    rw [writei_entry h.small hfits hoff] at hok he
    dsimp only at he
    by_cases hmax : DIRENT * vacant (f dp).bytes + DIRENT > PageCache.MAXSIZE
    · rw [if_pos hmax] at hok
      rw [hok] at he
      cases he
    · rw [if_neg hmax] at hok he
      rw [hok] at he
      obtain ⟨rfl, rfl⟩ := Prod.mk.inj (Option.some.inj he)
      refine .inr ⟨rfl, rfl, ?_, rfl⟩
      rw [linked, splice_length _ hoff, encode_length hfits]
      have := h.small
      omega

end Specs

end Directories
