import OsProjects.Directories
import OsProjects.Tokens

/-! # Path names

`skipelem` and `namex` of `fs.c`. A path is walked along its elements, which are its maximal runs
without a slash. -/
namespace PathNames

open ByteMemory Programs DiskBlocks FileStore Directories Tokens

abbrev slash : UInt8 := 47

abbrev ROOTINO : ℕ := 1

section Code

/-- The name that is copied, and the rest of the path. -/
def skipelem (path : List UInt8) : Option (List UInt8 × List UInt8) :=
  match path.dropWhile (· = slash) with
  | [] => none
  | c :: s =>
    let path := c :: s
    some ((path.takeWhile (· ≠ slash)).take DIRSIZ,
      (path.dropWhile (· ≠ slash)).dropWhile (· = slash))

/-- `iput` of an inode that was locked, to which there are other references. -/
def iput (others inum : ℕ) : Call Unit := do
  let ip ← stat inum
  if ip.nlink = 0 ∧ others = 0 then .call (.iput inum) fun _ => pure () else pure ()

/-- The loop of `namex`. `refs` are the references of others, the caller among them. The `iput` when
the path has no elements finds an inode that was not locked. -/
def namexLoop (refs : ℕ → ℕ) (nameiparent : Bool) :
    ℕ → ℕ → List UInt8 → Call (Option (ℕ × List UInt8))
  | 0, _, _ => .fail
  | fuel + 1, ip, path =>
    match skipelem path with
    | none => pure (if nameiparent then none else some (ip, []))
    | some (name, path) => do
      let st ← stat ip
      if st.type ≠ Kind.T_DIR.code then
        iput (refs ip) ip
        pure none
      else if nameiparent && path.isEmpty then pure (some (ip, name))
      else
        match ← dirlookup ip name with
        | none =>
          iput (refs ip) ip
          pure none
        | some (next, _) =>
          iput (refs ip + if next = ip then 1 else 0) ip
          namexLoop refs nameiparent fuel next path

/-- The inode, and the name for `nameiparent`. -/
def namex (refs : ℕ → ℕ) (cwd : ℕ) (path : List UInt8) (nameiparent : Bool) :
    Call (Option (ℕ × List UInt8)) :=
  namexLoop refs nameiparent (path.length + 1) (if path.head? = some slash then ROOTINO else cwd)
    path

end Code

section Elements

variable {path s t rest : List UInt8} {ts : List (List UInt8)}

theorem skipelem_eq : skipelem path =
    (cut (· = slash) path).map fun r => (r.1.take DIRSIZ, r.2.dropWhile (· = slash)) := by
  rw [skipelem, cut]
  cases path.dropWhile (· = slash) with
  | nil => rfl
  | cons c s => rfl

theorem skipelem_shorter (h : skipelem path = some (t, rest)) : rest.length < path.length := by
  rw [skipelem_eq] at h
  obtain ⟨⟨u, e⟩, hcut, he⟩ := Option.map_eq_some_iff.mp h
  obtain ⟨rfl, rfl⟩ := Prod.mk.inj he
  exact Nat.lt_of_le_of_lt (List.length_dropWhile_le _ _) (cut_shorter hcut)

theorem skipelem_none (h : skipelem path = none) : MaximalRuns (· = slash) path [] := by
  rw [skipelem_eq, Option.map_eq_none_iff] at h
  exact .nil (cut_eq_none.mp h)

/-- One call of `skipelem` takes the first element off the path. -/
theorem skipelem_some (h : skipelem path = some (t, rest))
    (hrest : MaximalRuns (· = slash) rest ts) :
    ∃ u, t = u.take DIRSIZ ∧ MaximalRuns (· = slash) path (u :: ts) := by
  rw [skipelem_eq] at h
  obtain ⟨⟨u, e⟩, hcut, he⟩ := Option.map_eq_some_iff.mp h
  obtain ⟨rfl, rfl⟩ := Prod.mk.inj he
  refine ⟨u, rfl, .cons hcut ?_⟩
  obtain ⟨-, -, -, -, -, hsep⟩ := cut_eq_some hcut
  have hdrop : e.dropWhile (· = slash) = e.tail.dropWhile (· = slash) := by
    cases e with
    | nil => rfl
    | cons c e => exact List.dropWhile_cons_of_pos (by simpa using hsep c rfl)
  have hsplit : e.tail.takeWhile (· = slash) ++ e.tail.dropWhile (· = slash) = e.tail :=
    List.takeWhile_append_dropWhile
  rw [← hsplit, ← hdrop]
  refine hrest.append fun x hx => ?_
  simpa using List.mem_takeWhile_imp hx

/-- The rest starts with the next element. -/
theorem skipelem_rest (h : skipelem path = some (t, rest)) :
    skipelem rest = none ↔ rest = [] := by
  rw [skipelem_eq] at h
  obtain ⟨⟨u, e⟩, hcut, he⟩ := Option.map_eq_some_iff.mp h
  obtain ⟨rfl, rfl⟩ := Prod.mk.inj he
  rw [skipelem_eq, Option.map_eq_none_iff, cut_eq_none]
  constructor
  · intro hall
    cases hrest : e.dropWhile (· = slash) with
    | nil => rfl
    | cons c r =>
      have hc := List.head?_dropWhile_not (fun x => decide (x = slash)) e
      rw [hrest] at hc hall
      exact absurd (hall c List.mem_cons_self) (by simpa using hc)
  · intro hnil x hx
    rw [hnil] at hx
    cases hx

end Elements

section Walks

variable {sb : SuperBlock} {f : ℕ → File} {inum dp k : ℕ}

/-- The inode behind a name in a directory. -/
def child (f : ℕ → File) (dp : ℕ) (name : List UInt8) : Option ℕ :=
  (find (f dp).bytes name).map fun k => (slot (f dp).bytes k).inum

/-- Where the elements lead to. -/
def resolve (f : ℕ → File) (nameiparent : Bool) : ℕ → List (List UInt8) → Option (ℕ × List UInt8)
  | ip, [] => if nameiparent then none else some (ip, [])
  | ip, t :: ts =>
    if (f ip).type ≠ Kind.T_DIR.code then none
    else if nameiparent && ts.isEmpty then some (ip, t.take DIRSIZ)
    else (child f ip (t.take DIRSIZ)).bind fun next => resolve f nameiparent next ts

/-- The inode has a name. -/
structure Live (sb : SuperBlock) (f : ℕ → File) (inum : ℕ) : Prop where
  inode : inum < sb.ninodes
  type : (f inum).type ≠ 0
  named : (f inum).nlink ≠ 0

/-- The directories with a name lead to inodes with a name. -/
structure Closed (sb : SuperBlock) (f : ℕ → File) : Prop where
  dirs : ∀ d, Live sb f d → (f d).type = Kind.T_DIR.code → IsDir sb f d
  targets : ∀ d, Live sb f d → (f d).type = Kind.T_DIR.code → ∀ k < slots (f d).bytes,
    (slot (f d).bytes k).inum ≠ 0 → Live sb f (slot (f d).bytes k).inum
  root : Live sb f ROOTINO

theorem exec_iput (h : Live sb f inum) {others : ℕ} :
    exec (FileMachine.next sb) (iput others inum) f = some (f, ()) := by
  rw [iput, exec_bind, exec_stat h.inode h.type, Option.bind_some]
  dsimp only
  rw [if_neg fun hc => h.named hc.1, exec_pure]

theorem find_some {d name : List UInt8} (h : find d name = some k) :
    k < slots d ∧ (slot d k).inum ≠ 0 ∧ namecmp name (slot d k).name = 0 := by
  have hk := List.mem_range.mp (List.mem_of_find?_eq_some h)
  have hp := List.find?_some h
  rw [decide_eq_true_iff] at hp
  exact ⟨hk, hp⟩

theorem live_child (h : Closed sb f) (hd : Live sb f dp) (ht : (f dp).type = Kind.T_DIR.code)
    {name : List UInt8} (hc : child f dp name = some inum) : Live sb f inum := by
  obtain ⟨k, hk, rfl⟩ := Option.map_eq_some_iff.mp hc
  obtain ⟨hlt, hused, -⟩ := find_some hk
  exact h.targets dp hd ht k hlt hused

/-- The loop of `namex` walks along the elements of the path. It changes nothing. -/
theorem exec_namexLoop (h : Closed sb f) {refs : ℕ → ℕ} {nameiparent : Bool} {fuel : ℕ}
    {path : List UInt8} {ts : List (List UInt8)} (hd : Live sb f dp) (hfuel : path.length < fuel)
    (hts : MaximalRuns (· = slash) path ts) :
    exec (FileMachine.next sb) (namexLoop refs nameiparent fuel dp path) f =
      some (f, resolve f nameiparent dp ts) := by
  induction fuel generalizing dp path ts with
  | zero => exact absurd hfuel (Nat.not_lt_zero _)
  | succ fuel ih =>
    rw [namexLoop]
    cases hskip : skipelem path with
    | none =>
      obtain rfl := hts.unique (skipelem_none hskip)
      rfl
    | some r =>
      obtain ⟨name, rest⟩ := r
      obtain ⟨us, hus⟩ := exists_maximalRuns (p := (· = slash)) rest
      obtain ⟨u, rfl, hruns⟩ := skipelem_some hskip hus
      obtain rfl := hts.unique hruns
      have hlast : rest.isEmpty = us.isEmpty := by
        rw [Bool.eq_iff_iff, List.isEmpty_iff, List.isEmpty_iff, ← skipelem_rest hskip]
        constructor
        · intro hnone
          exact hus.unique (skipelem_none hnone)
        · rintro rfl
          cases hnext : skipelem rest with
          | none => rfl
          | some r =>
            obtain ⟨vs, hvs⟩ := exists_maximalRuns (p := (· = slash)) r.2
            obtain ⟨v, -, hruns'⟩ := skipelem_some hnext hvs
            cases hus.unique hruns'
      have hshort := skipelem_shorter hskip
      dsimp only
      rw [exec_bind, exec_stat hd.inode hd.type, Option.bind_some, resolve]
      dsimp only
      rw [hlast]
      split_ifs with htype hparent
      · rw [exec_bind, exec_iput hd, Option.bind_some, exec_pure]
      · rfl
      · have hdir := h.dirs dp hd (not_not.mp htype)
        rw [exec_bind, exec_dirlookup hdir, Option.bind_some]
        cases hfind : find (f dp).bytes (u.take DIRSIZ) with
        | none =>
          have hchild : child f dp (u.take DIRSIZ) = none := by rw [child, hfind, Option.map_none]
          rw [hchild]
          dsimp only [Option.map_none]
          rw [exec_bind, exec_iput hd, Option.bind_some, exec_pure]
          rfl
        | some k =>
          have hchild : child f dp (u.take DIRSIZ) = some (slot (f dp).bytes k).inum := by
            rw [child, hfind, Option.map_some]
          have hlive := live_child h hd (not_not.mp htype) hchild
          rw [hchild]
          dsimp only [Option.map_some]
          rw [exec_bind, exec_iput hd, Option.bind_some, Option.bind_some]
          exact ih hlive (by omega) hus

/-- `namex` starts at the root when the path starts with a slash. -/
theorem exec_namex (h : Closed sb f) {refs : ℕ → ℕ} {nameiparent : Bool} {cwd : ℕ}
    {path : List UInt8} {ts : List (List UInt8)}
    (hcwd : path.head? = some slash ∨ Live sb f cwd)
    (hts : MaximalRuns (· = slash) path ts) :
    exec (FileMachine.next sb) (namex refs cwd path nameiparent) f =
      some (f, resolve f nameiparent (if path.head? = some slash then ROOTINO else cwd) ts) := by
  rw [namex]
  refine exec_namexLoop h ?_ (Nat.lt_succ_self _) hts
  split_ifs with hslash
  · exact h.root
  · exact hcwd.resolve_left hslash

theorem resolve_live (h : Closed sb f) {nameiparent : Bool} {ts : List (List UInt8)}
    {name : List UInt8} (hd : Live sb f dp)
    (hr : resolve f nameiparent dp ts = some (inum, name)) :
    Live sb f inum ∧ (nameiparent = true → (f inum).type = Kind.T_DIR.code) := by
  induction ts generalizing dp with
  | nil =>
    cases nameiparent with
    | true => cases hr
    | false =>
      obtain ⟨rfl, -⟩ := Prod.mk.inj (Option.some.inj hr)
      exact ⟨hd, fun hc => by cases hc⟩
  | cons t ts ih =>
    rw [resolve] at hr
    split_ifs at hr with htype hparent
    · obtain ⟨rfl, -⟩ := Prod.mk.inj (Option.some.inj hr)
      exact ⟨hd, fun _ => not_not.mp htype⟩
    · obtain ⟨next, hchild, hr⟩ := Option.bind_eq_some_iff.mp hr
      exact ih (live_child h hd (not_not.mp htype) hchild) hr

end Walks

end PathNames
