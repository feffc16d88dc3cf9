import Mathlib.Algebra.BigOperators.Ring.Finset
import OsProjects.NamedFiles

/-! # Link counts

What the system calls on names do to the files, and that in every run the link count of an inode is
the number of its names. An inode without names is kept exactly as long as it is in use. -/
namespace LinkCounts

open ByteMemory Programs DiskBlocks Directories PathNames FileCalls NameTrees NamedFiles
  Tokens
open DiskSpace hiding slots
open FileStore hiding iput

variable {sb : SuperBlock} {f f' : ℕ → File} {refs : ℕ → ℕ} {inum dp cwd i k n : ℕ}
  {name path : List UInt8} {ok : Bool} {kind : Kind}

section Operations

variable (hi : inum < sb.ninodes) (ht : (f inum).type ≠ 0)

include hi ht

theorem exec_links : exec (FileMachine.next sb) (links inum n) f =
    some (Function.update f inum { f inum with nlink := n % 65536 }, ()) := by
  have hblocked : ¬ Blocked sb f (.links inum (n % 65536)) := fun hb => hb ⟨hi, ht⟩
  rw [FileCalls.links, exec, FileMachine.next, if_neg hblocked]
  rfl

theorem exec_node {major minor : ℕ} : exec (FileMachine.next sb) (node inum major minor n) f =
    some (Function.update f inum { f inum with
      major := major % 65536, minor := minor % 65536, nlink := n }, ()) := by
  have hblocked : ¬ Blocked sb f (.node inum (major % 65536) (minor % 65536) n) :=
    fun hb => hb ⟨hi, ht⟩
  rw [node, exec, FileMachine.next, if_neg hblocked]
  rfl

/-- The inode after the last reference to it may have gone. -/
def settled (f : ℕ → File) (inum others : ℕ) : ℕ → File :=
  if (f inum).nlink = 0 ∧ others = 0 then
    Function.update f inum { f inum with type := 0, bytes := [] }
  else f

theorem exec_put {others : ℕ} : exec (FileMachine.next sb) (iput others inum) f =
    some (settled f inum others, ()) := by
  rw [iput, exec_bind, exec_stat hi ht, Option.bind_some, settled]
  dsimp only
  split_ifs with hlast
  · have hblocked : ¬ Blocked sb f (.iput inum) := fun hb => hb ⟨hi, ht, hlast.1⟩
    rw [exec, FileMachine.next, if_neg hblocked]
    rfl
  · rfl

end Operations

/-- A new inode was free before. -/
theorem exec_ialloc (he : exec (FileMachine.next sb) (ialloc kind) f = some (f', inum)) :
    inum < sb.ninodes ∧ inum ≠ 0 ∧ (f inum).type = 0 ∧
      f' = Function.update f inum { File.none with type := kind.code } := by
  rw [ialloc, exec, FileMachine.next] at he
  split_ifs at he with hblocked
  · cases he
  · obtain ⟨rfl, rfl⟩ := Prod.mk.inj (Option.some.inj he)
    cases hfind : (List.range' 1 (sb.ninodes - 1)).find? fun i => (f i).type = 0 with
    | none =>
      exfalso
      refine hblocked fun i hi h0 ht => ?_
      have hmem : i ∈ List.range' 1 (sb.ninodes - 1) := List.mem_range'_1.mpr (by omega)
      simpa [ht] using List.find?_eq_none.mp hfind i hmem
    | some i =>
      have hmem := List.mem_range'_1.mp (List.mem_of_find?_eq_some hfind)
      have hfree := List.find?_some hfind
      have hanswer : FileMachine.answer sb f (.ialloc kind) = .inum i := by
        rw [FileMachine.answer, hfind, Option.getD_some]
      rw [Option.getD_some, hanswer]
      exact ⟨by omega, by omega, by simpa using hfree, rfl⟩

section Paths

/-- Where a path starts there is a name. -/
def Starts (sb : SuperBlock) (f : ℕ → File) (cwd : ℕ) (path : List UInt8) : Prop :=
  path.head? = some slash ∨ Live sb f cwd

/-- What `namex` returns. -/
structure Found (sb : SuperBlock) (f : ℕ → File) (path : List UInt8) (nameiparent : Bool)
    (inum : ℕ) (name : List UInt8) : Prop where
  live : Live sb f inum
  dir : nameiparent = true → (f inum).type = T_DIR
  text : nameiparent = true → 0 ∉ path → Text name

theorem text_of_run {ts : List (List UInt8)} {t : List UInt8}
    (hts : MaximalRuns (· = slash) path ts) (ht : t ∈ ts) (hzero : 0 ∉ path) :
    Text (t.take DIRSIZ) := by
  obtain ⟨runs, rfl, -, hruns⟩ := hts
  obtain ⟨r, hr, rfl⟩ := List.mem_map.mp ht
  obtain ⟨a, b, rfl, -, hne, hslash, -, -⟩ := (hruns r).mp hr
  refine ⟨?_, ?_, ?_, ?_⟩
  · rw [ne_eq, List.take_eq_nil_iff]
    exact fun hc => hc.elim (by decide) hne
  · rw [List.length_take]
    exact Nat.min_le_left _ _
  · intro hm
    refine hzero (List.mem_append_left _ (List.mem_append_right _ (List.mem_of_mem_take hm)))
  · intro hm
    exact hslash _ (List.mem_of_mem_take hm) rfl

theorem resolve_text {ts : List (List UInt8)} (hr : resolve f true dp ts = some (inum, name)) :
    ∃ t ∈ ts, name = t.take DIRSIZ := by
  induction ts generalizing dp with
  | nil => cases hr
  | cons t ts ih =>
    rw [resolve] at hr
    split_ifs at hr with htype hparent
    · obtain ⟨-, rfl⟩ := Prod.mk.inj (Option.some.inj hr)
      exact ⟨t, List.mem_cons_self, rfl⟩
    · obtain ⟨next, -, hr⟩ := Option.bind_eq_some_iff.mp hr
      obtain ⟨u, hu, hname⟩ := ih hr
      exact ⟨u, List.mem_cons_of_mem _ hu, hname⟩

/-- `namex` changes nothing, and does not panic. -/
theorem exec_found (refs : ℕ → ℕ) (nameiparent : Bool) (h : Closed sb f)
    (hs : Starts sb f cwd path) :
    ∃ found, exec (FileMachine.next sb) (namex refs cwd path nameiparent) f = some (f, found) ∧
      ∀ inum name, found = some (inum, name) → Found sb f path nameiparent inum name := by
  obtain ⟨ts, hts⟩ := exists_maximalRuns (p := (· = slash)) path
  refine ⟨_, exec_namex h hs hts, fun inum name hr => ?_⟩
  have hd : Live sb f (if path.head? = some slash then ROOTINO else cwd) := by
    split_ifs with hslash
    · exact h.root
    · exact hs.resolve_left hslash
  obtain ⟨hlive, hdir⟩ := resolve_live h hd hr
  refine ⟨hlive, hdir, fun hparent hzero => ?_⟩
  subst hparent
  obtain ⟨t, ht, rfl⟩ := resolve_text hr
  exact text_of_run hts ht hzero

end Paths

section Bounds

/-- The inode numbers fit into the entries, and no link count leaves the range of a `short`. -/
structure Small (sb : SuperBlock) : Prop where
  inodes : sb.ninodes ≤ 65536
  blocks : sb.nblocks < 1024

theorem slots_le {d : List UInt8} : slots d ≤ 32 * need d.length := by
  simp only [slots, need, DIRENT, DIRSIZ, BSIZE]
  split_ifs <;> omega

theorem card_entries_le : (entries sb f).card ≤ 32 * total sb f := by
  have hdir : ∀ d ∈ dirs sb f, (((Finset.Ico up (slots (f d).bytes)).filter fun k =>
      (slot (f d).bytes k).inum ≠ 0).image fun k =>
        (⟨d, k, (slot (f d).bytes k).inum⟩ : Entry ℕ ℕ)).card ≤ 32 * need (f d).bytes.length := by
    intro d _
    refine (Finset.card_image_le.trans (Finset.card_filter_le _ _)).trans ?_
    rw [Nat.card_Ico]
    exact (Nat.sub_le _ _).trans slots_le
  have hsub : dirs sb f ⊆ Finset.range sb.ninodes := fun d hd =>
    Finset.mem_range.mpr (mem_dirs.mp hd).1.inode
  rw [total, Finset.mul_sum]
  calc (entries sb f).card
      ≤ ∑ d ∈ dirs sb f, 32 * need (f d).bytes.length :=
        Finset.card_biUnion_le.trans (Finset.sum_le_sum hdir)
    _ ≤ ∑ d ∈ Finset.range sb.ninodes, 32 * need (f d).bytes.length :=
        Finset.sum_le_sum_of_subset hsub

theorem nlink_lt (h : Named sb f) (hsmall : Small sb) (hroom : total sb f ≤ sb.nblocks)
    (hi : Live sb f i) : (f i).nlink < 32768 := by
  have hlinks : links (entries sb f) i ≤ (entries sb f).card := links_le
  have hcard : (entries sb f).card ≤ 32 * total sb f := card_entries_le
  have hblocks := hsmall.blocks
  rw [h.count i (mem_alive.mpr hi)]
  omega

end Bounds

section Link

variable (h : Named sb f) (hsmall : Small sb) (hroom : total sb f ≤ sb.nblocks)

theorem closed_congr {g : ℕ → File} (h : Closed sb f) (hlive : ∀ i, Live sb g i ↔ Live sb f i)
    (hsame : ∀ i, (g i).type = (f i).type ∧ (g i).bytes = (f i).bytes) : Closed sb g := by
  refine ⟨fun d hd ht => ?_, fun d hd ht k hk h0 => ?_, (hlive _).mpr h.root⟩
  · rw [(hsame d).1] at ht
    have hdir := h.dirs d ((hlive d).mp hd) ht
    refine ⟨hdir.inode, (hsame d).1.trans ht, ?_, ?_⟩
    · rw [(hsame d).2]
      exact hdir.whole
    · rw [(hsame d).2]
      exact hdir.small
  · rw [(hsame d).1] at ht
    rw [(hsame d).2] at hk h0 ⊢
    exact (hlive _).mpr (h.targets d ((hlive d).mp hd) ht k hk h0)

/-- What a successful `sys_link` did. -/
structure Linked (sb : SuperBlock) (f f' : ℕ → File) (dp : ℕ) (name : List UInt8) (inum : ℕ) :
    Prop where
  dir : dp ∈ dirs sb f
  free : find (f dp).bytes name = none
  text : Text name
  small : (linked (f dp).bytes name inum).length ≤ PageCache.MAXSIZE
  live : Live sb f inum
  file : (f inum).type ≠ T_DIR
  files : f' = entered f dp (f dp).nlink name inum { f inum with nlink := (f inum).nlink + 1 }

include h hsmall hroom

/-- The label `bad` of `sys_link` takes the link back. -/
theorem exec_link_bad (refs : ℕ → ℕ) (hi : Live sb f inum) :
    exec (FileMachine.next sb) (link_bad refs inum)
    (Function.update f inum { f inum with nlink := (f inum).nlink + 1 }) = some (f, false) := by
  set g := Function.update f inum { f inum with nlink := (f inum).nlink + 1 } with hg
  have hgi : g inum = { f inum with nlink := (f inum).nlink + 1 } := Function.update_self _ _ _
  have ht : (g inum).type ≠ 0 := hgi ▸ hi.type
  have hlt := nlink_lt h hsmall hroom hi
  have hback : Function.update g inum { g inum with
      nlink := ((g inum).nlink + 65535) % 65536 } = f := by
    have hmod : ((f inum).nlink + 1 + 65535) % 65536 = (f inum).nlink := by omega
    rw [hgi]
    dsimp only
    rw [hmod, hg, Function.update_idem, Function.update_eq_self]
  rw [link_bad, exec_bind, exec_stat hi.inode ht, Option.bind_some]
  dsimp only
  rw [exec_bind, exec_links hi.inode ht, Option.bind_some, hback, unlink_bad, exec_bind,
    exec_iput hi, Option.bind_some, exec_pure]

theorem exec_sys_link {old new : List UInt8} (hold : Starts sb f cwd old)
    (hnew : Starts sb f cwd new) (hzero : 0 ∉ new)
    (he : exec (FileMachine.next sb) (sys_link refs cwd old new) f = some (f', ok)) :
    ok = false ∧ f' = f ∨ ok = true ∧ ∃ dp name inum, Linked sb f f' dp name inum := by
  obtain ⟨found, hexec, hfound⟩ := exec_found refs false h.closed hold
  rw [sys_link, exec_bind, hexec, Option.bind_some] at he
  cases found with
  | none =>
    obtain ⟨rfl, rfl⟩ := Prod.mk.inj (Option.some.inj he)
    exact .inl ⟨rfl, rfl⟩
  | some r =>
    obtain ⟨inum, name⟩ := r
    have hlive := (hfound inum name rfl).live
    dsimp only at he
    rw [exec_bind, exec_stat hlive.inode hlive.type, Option.bind_some] at he
    dsimp only at he
    split_ifs at he with htype
    · rw [unlink_bad, exec_bind, exec_iput hlive, Option.bind_some] at he
      obtain ⟨rfl, rfl⟩ := Prod.mk.inj (Option.some.inj he)
      exact .inl ⟨rfl, rfl⟩
    · have hlt := nlink_lt h hsmall hroom hlive
      have hmod : ((f inum).nlink + 1) % 65536 = (f inum).nlink + 1 := by omega
      rw [exec_bind, exec_links hlive.inode hlive.type, Option.bind_some, hmod] at he
      set g := Function.update f inum { f inum with nlink := (f inum).nlink + 1 } with hg
      have hgi : g inum = { f inum with nlink := (f inum).nlink + 1 } := Function.update_self _ _ _
      have hgo : ∀ i, i ≠ inum → g i = f i := fun i hne => Function.update_of_ne hne _ _
      have hsame : ∀ i, (g i).type = (f i).type ∧ (g i).bytes = (f i).bytes := by
        intro i
        obtain rfl | hne := eq_or_ne i inum
        · rw [hgi]
          exact ⟨rfl, rfl⟩
        · rw [hgo i hne]
          exact ⟨rfl, rfl⟩
      have hlives : ∀ i, Live sb g i ↔ Live sb f i := by
        intro i
        obtain rfl | hne := eq_or_ne i inum
        · rw [live_iff, hgi]
          simp [hlive, hlive.inode, hlive.type]
        · rw [live_iff, hgo i hne, live_iff]
      have hclosed := closed_congr h.closed hlives hsame
      have hback := exec_link_bad h hsmall hroom refs hlive
      have hstart : Starts sb g cwd new := hnew.imp_right (hlives cwd).mpr
      obtain ⟨found, hexec, hfound⟩ :=
        exec_found (Function.update refs inum (refs inum + 1)) true hclosed hstart
      rw [exec_bind, hexec, Option.bind_some] at he
      cases found with
      | none =>
        dsimp only at he
        rw [hback] at he
        obtain ⟨rfl, rfl⟩ := Prod.mk.inj (Option.some.inj he)
        exact .inl ⟨rfl, rfl⟩
      | some r =>
        obtain ⟨dp, name⟩ := r
        obtain ⟨hdp, hdir, htext⟩ := hfound dp name rfl
        have htext := htext rfl hzero
        have hdir := hdir rfl
        have hisdir := hclosed.dirs dp hdp hdir
        have hne : dp ≠ inum := by
          rintro rfl
          exact htype ((hsame dp).1 ▸ hdir)
        have hmem : dp ∈ dirs sb f :=
          mem_dirs.mpr ⟨(hlives dp).mp hdp, (hsame dp).1 ▸ hdir⟩
        have hinum : inum < 65536 := Nat.lt_of_lt_of_le hlive.inode hsmall.inodes
        dsimp only at he
        rw [exec_bind] at he
        obtain ⟨⟨f₁, linked⟩, hlink, he⟩ := Option.bind_eq_some_iff.mp he
        obtain ⟨rfl, hname, rfl⟩ | ⟨rfl, hname, hlen, rfl⟩ := exec_dirlink hisdir hinum hlink
        · dsimp only at he
          rw [exec_bind, exec_iput hdp, Option.bind_some] at he
          dsimp only at he
          rw [if_neg Bool.false_ne_true, hback] at he
          obtain ⟨rfl, rfl⟩ := Prod.mk.inj (Option.some.inj he)
          exact .inl ⟨rfl, rfl⟩
        · have hgdp : g dp = f dp := hgo dp hne
          have hfiles : Function.update g dp { g dp with
              bytes := Directories.linked (g dp).bytes name inum } =
              entered f dp (f dp).nlink name inum
                { f inum with nlink := (f inum).nlink + 1 } := by
            rw [hgdp]
            rfl
          rw [hfiles] at he
          rw [hgdp] at hname hlen
          have hlinked : Linked sb f _ dp name inum :=
            ⟨hmem, hname, htext, hlen, hlive, htype, rfl⟩
          have hdp' : Live sb (entered f dp (f dp).nlink name inum
              { f inum with nlink := (f inum).nlink + 1 }) dp := by
            rw [live_iff, entered_dir]
            exact live_iff.mp (mem_dirs.mp hmem).1
          have hinum' : Live sb (entered f dp (f dp).nlink name inum
              { f inum with nlink := (f inum).nlink + 1 }) inum := by
            rw [live_iff, entered_new hne.symm]
            exact ⟨hlive.inode, hlive.type, Nat.succ_ne_zero _⟩
          dsimp only at he
          rw [exec_bind, exec_iput hdp', Option.bind_some] at he
          dsimp only at he
          rw [if_pos rfl, exec_bind, exec_iput hinum', Option.bind_some] at he
          obtain ⟨rfl, rfl⟩ := Prod.mk.inj (Option.some.inj he)
          exact .inr ⟨rfl, dp, name, inum, hlinked⟩
end Link

section Unlink

variable (h : Named sb f)

/-- Only an empty directory may go. -/
def Empty (f : ℕ → File) (inum : ℕ) : Prop := (f inum).type = T_DIR →
  ∀ k < slots (f inum).bytes, 2 ≤ k → (slot (f inum).bytes k).inum = 0

/-- What a successful `sys_unlink` did. -/
structure Unlinked (sb : SuperBlock) (refs : ℕ → ℕ) (f f' : ℕ → File) (dp k inum : ℕ) : Prop where
  entry : ⟨dp, k, inum⟩ ∈ entries sb f
  proper : 2 ≤ k
  empty : Empty f inum
  files : f' = settled (removed f dp (if (f inum).type = T_DIR then (f dp).nlink - 1 else
    (f dp).nlink) k inum ((f inum).nlink - 1)) inum (refs inum)

/-- A slot of a directory is cleared in place, which takes no block. -/
theorem exec_clear (hroom : total sb f ≤ sb.nblocks) (hdir : IsDir sb f dp)
    (hk : k < slots (f dp).bytes) :
    exec (FileMachine.next sb)
        (orPanic (Directories.writei dp (DIRENT * k) (List.replicate DIRENT 0))) f =
      some (Function.update f dp { f dp with bytes := cleared (f dp).bytes k }, ()) := by
  have hend : DIRENT * k + DIRENT ≤ (f dp).bytes.length :=
    hdir.length ▸ Nat.mul_le_mul_left DIRENT hk
  have hsmall := hdir.small
  have hwrite : PageCache.writei (f dp).bytes (DIRENT * k)
      (Dirent.encode ⟨0, List.replicate DIRSIZ 0⟩) = _ :=
    writei_entry hsmall fits_zero (by omega)
  rw [if_neg (by omega), encode_zero, ← cleared] at hwrite
  have hlen : (cleared (f dp).bytes k).length = (f dp).bytes.length := by
    rw [cleared, splice_length _ (by omega), List.length_replicate]
    omega
  have happly : ∀ r, apply f (.writei dp (DIRENT * k) (List.replicate DIRENT 0)) r =
      Function.update f dp { f dp with bytes := cleared (f dp).bytes k } := fun r => by
    rw [apply, hwrite, Option.getD_some]
  have hanswer : FileMachine.answer sb f
      (.writei dp (DIRENT * k) (List.replicate DIRENT 0)) = .wrote true := by
    rw [FileMachine.answer, hwrite, Option.isSome_some]
  have hblocked : ¬ Blocked sb f (.writei dp (DIRENT * k) (List.replicate DIRENT 0)) := by
    rintro (hnot | hfull)
    · exact hnot ⟨hdir.inode, hdir.allocated, hdir.regular⟩
    · have hsum : total sb (Function.update f dp
          { f dp with bytes := cleared (f dp).bytes k }) + need (f dp).bytes.length =
          total sb f + need (cleared (f dp).bytes k).length := total_update hdir.inode
      rw [hlen] at hsum
      rw [happly] at hfull
      omega
  rw [orPanic, exec_bind, Directories.writei, exec, FileMachine.next, if_neg hblocked, hanswer,
    happly]
  rfl

include h

/-- `.` and `..` have other names. -/
theorem proper_slot (hdp : dp ∈ dirs sb f) (hname : namecmp name dot ≠ 0 ∧ namecmp name dotdot ≠ 0)
    (hfind : find (f dp).bytes name = some k) : 2 ≤ k := by
  obtain ⟨-, -, hcmp⟩ := find_some hfind
  have hshape := h.shape dp hdp
  rcases k with _ | _ | k
  · rw [hshape.dot, namecmp_strncpy] at hcmp
    exact absurd hcmp hname.1
  · rw [hshape.dotdot.2, namecmp_strncpy] at hcmp
    exact absurd hcmp hname.2
  · omega

theorem exec_unlinkable (hi : Live sb f inum) :
    ∃ ok, exec (FileMachine.next sb) (unlinkable inum (f inum).type) f = some (f, ok) ∧
      (ok = true → Empty f inum) := by
  rw [unlinkable]
  split_ifs with htype
  · refine ⟨_, exec_isdirempty (h.shape inum (mem_dirs.mpr ⟨hi, htype⟩)).dir, fun hok _ => ?_⟩
    exact of_decide_eq_true hok
  · exact ⟨true, rfl, fun _ hc => absurd hc htype⟩

/-- The tree of names without the entry. -/
theorem named_removed (hentry : ⟨dp, k, inum⟩ ∈ entries sb f) (hk : 2 ≤ k)
    (hempty : Empty f inum) {nlink : ℕ}
    (hnlink : nlink = if (f inum).type = T_DIR then (f dp).nlink - 1 else (f dp).nlink) :
    dp ≠ inum ∧ Live sb (removed f dp nlink k inum ((f inum).nlink - 1)) dp ∧
      Named sb (removed f dp nlink k inum ((f inum).nlink - 1)) := by
  have hdp := h.tree.dir _ hentry
  have hi := mem_alive.mp (h.tree.node _ hentry)
  subst hnlink
  split_ifs with htype
  · obtain ⟨hone, hne, hlive, hnamed⟩ :=
      h.unlink_dir hentry hk (mem_dirs.mpr ⟨hi, htype⟩) (hempty htype)
    rw [hone]
    exact ⟨hne, hlive, hnamed⟩
  · have hfile : inum ∉ dirs sb f := fun hm => htype (mem_dirs.mp hm).2
    have hne : dp ≠ inum := fun he => hfile (he ▸ hdp)
    refine ⟨hne, ?_, h.unlink_file hentry hk hfile⟩
    rw [live_iff, removed_dir hne]
    exact live_iff.mp (mem_dirs.mp hdp).1

variable (hsmall : Small sb) (hroom : total sb f ≤ sb.nblocks)

include hsmall hroom

theorem exec_unlink_parent (hdp : Live sb f dp) {type : ℕ} {bytes : List UInt8} :
    exec (FileMachine.next sb) (unlink_parent dp type)
      (Function.update f dp { f dp with bytes := bytes }) =
    some (Function.update f dp { f dp with
      nlink := if type = T_DIR then (f dp).nlink - 1 else (f dp).nlink, bytes := bytes }, ()) := by
  have hlt := nlink_lt h hsmall hroom hdp
  have hpos := hdp.named
  have hmod : ((f dp).nlink + 65535) % 65536 = (f dp).nlink - 1 := by omega
  set g := Function.update f dp { f dp with bytes := bytes } with hg
  have hgdp : g dp = { f dp with bytes := bytes } := Function.update_self _ _ _
  have ht : (g dp).type ≠ 0 := hgdp ▸ hdp.type
  rw [unlink_parent]
  split_ifs with htype
  · rw [exec_bind, exec_stat hdp.inode ht, Option.bind_some, exec_links hdp.inode ht, hgdp]
    dsimp only
    rw [hmod, hg, Function.update_idem]
  · rfl

/-- The entry is cleared, and the counts follow. -/
theorem exec_unlink_entry (refs : ℕ → ℕ) (hentry : ⟨dp, k, inum⟩ ∈ entries sb f) (hk : 2 ≤ k)
    (hempty : Empty f inum) : ∃ f', exec (FileMachine.next sb)
      (unlink_entry refs dp inum (DIRENT * k) (f inum).type) f = some (f', true) ∧
        Unlinked sb refs f f' dp k inum := by
  have hdp := h.tree.dir _ hentry
  have hlive := (mem_dirs.mp hdp).1
  have hi : Live sb f inum := mem_alive.mp (h.tree.node _ hentry)
  have hslot : k < slots (f dp).bytes := (mem_entries.mp hentry).2.2.1
  have hlt := nlink_lt h hsmall hroom hi
  have hpos := hi.named
  have hmod : ((f inum).nlink + 65535) % 65536 = (f inum).nlink - 1 := by omega
  obtain ⟨hne, hdead, -⟩ := named_removed h hentry hk hempty rfl
  refine ⟨_, ?_, hentry, hk, hempty, rfl⟩
  rw [unlink_entry, exec_bind, exec_clear hroom (h.shape dp hdp).dir hslot, Option.bind_some]
  dsimp only
  rw [exec_bind, exec_unlink_parent h hsmall hroom hlive, Option.bind_some]
  set nlink := if (f inum).type = T_DIR then (f dp).nlink - 1 else (f dp).nlink with hnlink
  set g := Function.update f dp { f dp with
    nlink := nlink, bytes := cleared (f dp).bytes k } with hg
  have hgdp : Live sb g dp := by
    rw [live_iff, removed_dir hne] at hdead
    rw [live_iff, hg, Function.update_self]
    exact hdead
  have hgi : g inum = f inum := Function.update_of_ne hne.symm _ _
  have ht : (g inum).type ≠ 0 := hgi ▸ hi.type
  have hremoved : Function.update g inum { f inum with nlink := (f inum).nlink - 1 } =
      removed f dp nlink k inum ((f inum).nlink - 1) := rfl
  have ht' : (removed f dp nlink k inum ((f inum).nlink - 1) inum).type ≠ 0 := by
    rw [removed_gone]
    exact hi.type
  dsimp only
  rw [exec_bind, exec_iput hgdp, Option.bind_some]
  dsimp only
  rw [exec_bind, exec_stat hi.inode ht, Option.bind_some]
  dsimp only
  rw [exec_bind, exec_links hi.inode ht, Option.bind_some, hgi, hmod]
  dsimp only
  rw [hremoved, exec_bind, exec_put hi.inode ht', Option.bind_some, exec_pure]

/-- `sys_unlink` does not panic. -/
theorem exec_sys_unlink (refs : ℕ → ℕ) (hstart : Starts sb f cwd path) :
    ∃ f' ok, exec (FileMachine.next sb) (sys_unlink refs cwd path) f = some (f', ok) ∧
      (ok = false ∧ f' = f ∨ ok = true ∧ ∃ dp k inum, Unlinked sb refs f f' dp k inum) := by
  obtain ⟨found, hexec, hfound⟩ := exec_found refs true h.closed hstart
  rw [sys_unlink, exec_bind, hexec, Option.bind_some]
  cases found with
  | none => exact ⟨f, false, rfl, .inl ⟨rfl, rfl⟩⟩
  | some r =>
    obtain ⟨dp, name⟩ := r
    obtain ⟨hlive, hdir, -⟩ := hfound dp name rfl
    have hdp : dp ∈ dirs sb f := mem_dirs.mpr ⟨hlive, hdir rfl⟩
    have hisdir := (h.shape dp hdp).dir
    have hbad : exec (FileMachine.next sb) (unlink_bad refs dp) f = some (f, false) := by
      rw [unlink_bad, exec_bind, exec_iput hlive, Option.bind_some, exec_pure]
    dsimp only
    split_ifs with hdots
    · exact ⟨f, false, hbad, .inl ⟨rfl, rfl⟩⟩
    · rw [exec_bind, exec_dirlookup hisdir, Option.bind_some]
      cases hfind : find (f dp).bytes name with
      | none => exact ⟨f, false, hbad, .inl ⟨rfl, rfl⟩⟩
      | some k =>
        obtain ⟨hk, hused, -⟩ := find_some hfind
        have hproper := proper_slot h hdp (not_or.mp hdots) hfind
        dsimp only [Option.map_some]
        set inum := (slot (f dp).bytes k).inum with hinum
        have hentry : ⟨dp, k, inum⟩ ∈ entries sb f :=
          mem_entries.mpr ⟨hdp, Nat.le_of_lt hproper, hk, hused, rfl⟩
        have hi : Live sb f inum := mem_alive.mp (h.tree.node _ hentry)
        have hlt := nlink_lt h hsmall hroom hi
        have hpos := hi.named
        have hpanic : ¬ ((f inum).nlink = 0 ∨ 32768 ≤ (f inum).nlink) := by omega
        obtain ⟨empty, hexec, hempty⟩ := exec_unlinkable h hi
        rw [exec_bind, exec_stat hi.inode hi.type, Option.bind_some]
        dsimp only
        rw [if_neg hpanic, exec_bind, hexec, Option.bind_some]
        dsimp only
        cases empty with
        | true =>
          obtain ⟨f', hf, hun⟩ := exec_unlink_entry h hsmall hroom refs hentry hproper (hempty rfl)
          rw [if_pos rfl]
          exact ⟨f', true, hf, .inr ⟨rfl, dp, k, inum, hun⟩⟩
        | false =>
          rw [if_neg Bool.false_ne_true, exec_bind, exec_iput hi, Option.bind_some]
          exact ⟨f, false, hbad, .inl ⟨rfl, rfl⟩⟩

end Unlink

section Create

variable {major minor : ℕ}

/-- What `create` did when the name was free. -/
structure Created (sb : SuperBlock) (f f' : ℕ → File) (kind : Kind) (dp : ℕ) (name : List UInt8)
    (inum : ℕ) : Prop where
  dir : dp ∈ dirs sb f
  free : find (f dp).bytes name = none
  text : Text name
  small : (linked (f dp).bytes name inum).length ≤ PageCache.MAXSIZE
  inode : inum < sb.ninodes
  proper : inum ≠ 0
  unused : (f inum).type = 0
  files : ∃ major minor, f' = if kind = .T_DIR then
      entered f dp ((f dp).nlink + 1) name inum ⟨T_DIR, major, minor, 1, dots inum dp⟩
    else entered f dp (f dp).nlink name inum ⟨kind.code, major, minor, 1, []⟩

theorem exec_enter (hdir : IsDir sb f dp) (hinum : inum < 65536)
    (he : exec (FileMachine.next sb) (orPanic (dirlink dp name inum)) f = some (f', ())) :
    find (f dp).bytes name = none ∧
      (linked (f dp).bytes name inum).length ≤ PageCache.MAXSIZE ∧
      f' = Function.update f dp { f dp with bytes := linked (f dp).bytes name inum } := by
  rw [orPanic, exec_bind] at he
  obtain ⟨⟨f₁, ok⟩, hlink, he⟩ := Option.bind_eq_some_iff.mp he
  obtain ⟨rfl, -, -⟩ | ⟨rfl, hfree, hlen, rfl⟩ := exec_dirlink hdir hinum hlink
  · cases he
  · obtain ⟨rfl, -⟩ := Prod.mk.inj (Option.some.inj he)
    exact ⟨hfree, hlen, rfl⟩

theorem code_ne_zero : kind.code ≠ 0 := by
  cases kind <;> decide

theorem Created.live_dir (hc : Created sb f f' kind dp name inum) : Live sb f' dp := by
  obtain ⟨major, minor, hf⟩ := hc.files
  have hlive := live_iff.mp (mem_dirs.mp hc.dir).1
  rw [live_iff, hf]
  split_ifs
  · rw [entered_dir]
    exact ⟨hlive.1, hlive.2.1, Nat.succ_ne_zero _⟩
  · rw [entered_dir]
    exact hlive

theorem Created.live (hc : Created sb f f' kind dp name inum) : Live sb f' inum := by
  obtain ⟨major, minor, hf⟩ := hc.files
  have hne : inum ≠ dp := fun hs => (mem_dirs.mp hc.dir).1.type (hs ▸ hc.unused)
  rw [live_iff, hf]
  refine ⟨hc.inode, ?_⟩
  split_ifs
  · rw [entered_new hne]
    exact ⟨(code_ne_zero : Kind.T_DIR.code ≠ 0), Nat.one_ne_zero⟩
  · rw [entered_new hne]
    exact ⟨code_ne_zero, Nat.one_ne_zero⟩

variable (h : Named sb f) (hsmall : Small sb) (hroom : total sb f ≤ sb.nblocks)

include h hsmall hroom

/-- The entries `.` and `..` of a new directory. -/
theorem exec_create_dots (hdp : dp ∈ dirs sb f) (hi : inum < sb.ninodes) (hne : dp ≠ inum)
    {ip : File} (htype : ip.type = kind.code) (hbytes : ip.bytes = [])
    (he : exec (FileMachine.next sb) (create_dots dp inum kind)
      (Function.update f inum ip) = some (f', ())) :
    f' = if kind = .T_DIR then Function.update (Function.update f inum
        { ip with bytes := dots inum dp }) dp { f dp with nlink := (f dp).nlink + 1 }
      else Function.update f inum ip := by
  have hlive := (mem_dirs.mp hdp).1
  have hlt := nlink_lt h hsmall hroom hlive
  have hmod : ((f dp).nlink + 1) % 65536 = (f dp).nlink + 1 := by omega
  have hinum : inum < 65536 := Nat.lt_of_lt_of_le hi hsmall.inodes
  have hdp' : dp < 65536 := Nat.lt_of_lt_of_le hlive.inode hsmall.inodes
  rw [create_dots] at he
  split_ifs at he ⊢ with hkind
  · subst hkind
    set g := Function.update f inum ip with hg
    have hgdp : g dp = f dp := Function.update_of_ne hne _ _
    have ht : (g dp).type ≠ 0 := hgdp ▸ hlive.type
    rw [exec_bind, exec_stat hlive.inode ht, Option.bind_some, hgdp] at he
    dsimp only at he
    rw [exec_bind, exec_links hlive.inode ht, Option.bind_some, hgdp, hmod] at he
    set g₁ := Function.update g dp { f dp with nlink := (f dp).nlink + 1 } with hg₁
    have hg₁i : g₁ inum = ip := by
      rw [hg₁, Function.update_of_ne hne.symm, hg, Function.update_self]
    have hdir₁ : IsDir sb g₁ inum := by
      refine ⟨hi, hg₁i ▸ htype, ?_, ?_⟩
      · rw [hg₁i, hbytes]
        exact dvd_zero _
      · rw [hg₁i, hbytes]
        exact Nat.zero_le _
    dsimp only at he
    rw [exec_bind] at he
    obtain ⟨⟨g₂, u⟩, hdot, he⟩ := Option.bind_eq_some_iff.mp he
    obtain ⟨-, hlen, rfl⟩ := exec_enter hdir₁ hinum hdot
    rw [hg₁i, hbytes] at hlen he
    set g₂ := Function.update g₁ inum { ip with bytes := linked [] dot inum } with hg₂
    have hg₂i : g₂ inum = { ip with bytes := linked [] dot inum } := Function.update_self _ _ _
    have hdir₂ : IsDir sb g₂ inum := by
      refine ⟨hi, hg₂i ▸ htype, ?_, ?_⟩
      · rw [hg₂i]
        exact (slots_linked _ (dvd_zero _) hinum).1
      · rw [hg₂i]
        exact hlen
    obtain ⟨-, -, rfl⟩ := exec_enter hdir₂ hdp' he
    rw [hg₂i, hg₂, hg₁, hg]
    funext i
    obtain rfl | hi' := eq_or_ne i inum
    · rw [Function.update_self, Function.update_of_ne hne.symm, Function.update_self]
      rfl
    · simp only [Function.update_of_ne hi']
      obtain rfl | hd := eq_or_ne i dp
      · rw [Function.update_self, Function.update_self]
      · simp only [Function.update_of_ne hd, Function.update_of_ne hi']
  · obtain ⟨rfl, -⟩ := Prod.mk.inj (Option.some.inj he)
    rfl

theorem exec_create_new (hdp : dp ∈ dirs sb f) (htext : Text name)
    (he : exec (FileMachine.next sb) (create_new dp name kind major minor) f = some (f', inum)) :
    Created sb f f' kind dp name inum := by
  have hlive := (mem_dirs.mp hdp).1
  have hisdir := (h.shape dp hdp).dir
  rw [create_new, exec_bind] at he
  obtain ⟨⟨f₁, i⟩, halloc, he⟩ := Option.bind_eq_some_iff.mp he
  obtain ⟨hi, h0, hfree, rfl⟩ := exec_ialloc halloc
  have hne : dp ≠ i := fun hs => hlive.type (hs ▸ hfree)
  have hinum : i < 65536 := Nat.lt_of_lt_of_le hi hsmall.inodes
  set g := Function.update f i { File.none with type := kind.code } with hg
  have hgi : g i = { File.none with type := kind.code } := Function.update_self _ _ _
  have ht : (g i).type ≠ 0 := by
    rw [hgi]
    exact code_ne_zero
  dsimp only at he
  rw [exec_bind, exec_node hi ht, Option.bind_some, hgi, hg, Function.update_idem] at he
  set ip : File := ⟨kind.code, major % 65536, minor % 65536, 1, []⟩ with hip
  dsimp only at he
  rw [exec_bind] at he
  obtain ⟨⟨f₂, u⟩, hdots, he⟩ := Option.bind_eq_some_iff.mp he
  have htype : ip.type = kind.code := rfl
  have hf₂ := exec_create_dots h hsmall hroom hdp hi hne htype rfl hdots
  dsimp only at he
  rw [exec_bind] at he
  obtain ⟨⟨f₃, u'⟩, henter, he⟩ := Option.bind_eq_some_iff.mp he
  obtain ⟨rfl, rfl⟩ := Prod.mk.inj (Option.some.inj he)
  have hdir₂ : (f₂ dp).type = (f dp).type ∧ (f₂ dp).bytes = (f dp).bytes := by
    rw [hf₂]
    split_ifs
    · rw [Function.update_self]
      exact ⟨rfl, rfl⟩
    · rw [Function.update_of_ne hne]
      exact ⟨rfl, rfl⟩
  have hisdir₂ : IsDir sb f₂ dp := by
    refine ⟨hlive.inode, hdir₂.1.trans hisdir.type, ?_, ?_⟩
    · rw [hdir₂.2]
      exact hisdir.whole
    · rw [hdir₂.2]
      exact hisdir.small
  obtain ⟨hname, hlen, hf₃⟩ := exec_enter hisdir₂ hinum henter
  rw [hdir₂.2] at hname hlen
  refine ⟨hdp, hname, htext, hlen, hi, h0, hfree, major % 65536, minor % 65536, ?_⟩
  rw [hf₃, hdir₂.2, hf₂]
  split_ifs with hkind
  · subst hkind
    rw [Function.update_self, Function.update_idem]
    rfl
  · rw [Function.update_of_ne hne]
    rfl

/-- `create` finds a file of that name, or makes it, or fails and changes nothing. -/
theorem exec_create (hstart : Starts sb f cwd path) (hzero : 0 ∉ path) {found : Option ℕ}
    (he : exec (FileMachine.next sb) (create refs cwd path kind major minor) f =
      some (f', found)) :
    (f' = f ∧ ∀ inum ∈ found, Live sb f inum) ∨
      ∃ dp name inum, found = some inum ∧ Created sb f f' kind dp name inum := by
  obtain ⟨start, hexec, hfound⟩ := exec_found refs true h.closed hstart
  rw [create, exec_bind, hexec, Option.bind_some] at he
  cases start with
  | none =>
    obtain ⟨rfl, rfl⟩ := Prod.mk.inj (Option.some.inj he)
    exact .inl ⟨rfl, fun _ hm => by cases hm⟩
  | some r =>
    obtain ⟨dp, name⟩ := r
    obtain ⟨hlive, hdir, htext⟩ := hfound dp name rfl
    have hdp : dp ∈ dirs sb f := mem_dirs.mpr ⟨hlive, hdir rfl⟩
    dsimp only at he
    rw [exec_bind, exec_dirlookup (h.shape dp hdp).dir, Option.bind_some] at he
    cases hfind : find (f dp).bytes name with
    | some k =>
      have hchild : child f dp name = some (slot (f dp).bytes k).inum := by
        rw [child, hfind, Option.map_some]
      have hi := live_child h.closed hlive (hdir rfl) hchild
      rw [hfind] at he
      dsimp only [Option.map_some] at he
      rw [exec_bind, exec_iput hlive, Option.bind_some] at he
      dsimp only at he
      rw [exec_bind, exec_stat hi.inode hi.type, Option.bind_some] at he
      dsimp only at he
      split_ifs at he with hfile
      · obtain ⟨rfl, rfl⟩ := Prod.mk.inj (Option.some.inj he)
        refine .inl ⟨rfl, fun inum hm => ?_⟩
        obtain rfl := Option.some.inj hm
        exact hi
      · rw [exec_bind, exec_iput hi, Option.bind_some] at he
        obtain ⟨rfl, rfl⟩ := Prod.mk.inj (Option.some.inj he)
        exact .inl ⟨rfl, fun _ hm => by cases hm⟩
    | none =>
      rw [hfind] at he
      dsimp only [Option.map_none] at he
      rw [exec_bind] at he
      obtain ⟨⟨f₁, inum⟩, hnew, he⟩ := Option.bind_eq_some_iff.mp he
      have hc := exec_create_new h hsmall hroom hdp (htext rfl hzero) hnew
      dsimp only at he
      rw [exec_bind, exec_iput hc.live_dir, Option.bind_some] at he
      obtain ⟨rfl, rfl⟩ := Prod.mk.inj (Option.some.inj he)
      exact .inr ⟨dp, name, inum, rfl, hc⟩

end Create

end LinkCounts
