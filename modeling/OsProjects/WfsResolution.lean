import OsProjects.WfsScan

/-! # What a path stands for

Lookup goes through any live node as if it were a directory, and through a deleted one with a
null pointer. `Chain` is the way through directories that a path stands for, `Trail` the way
lookup takes.
-/
namespace WfsResolution

open ByteMemory WfsLookup WfsHandlers WfsLog WfsPaths WfsChange WfsRuns WfsScan

/-- The first dentry with the name, among those that begin inside the entry at `a`. -/
def FirstDentry (m : Mem) (a : ℕ) (token : List UInt8) (d : ℕ) : Prop :=
  ∃ i, d = a + 44 + 40 * i ∧ 40 * i < loadWord m (a + 24) ∧ strEq m d token = true ∧
    ∀ j < i, strEq m (a + 44 + 40 * j) token = false

/-- The last entry of inode `n` is `e` at `a`, and it is live. -/
structure Live (L : List Entry) (n a : ℕ) (e : Entry) : Prop where
  last : lastAt L 8 n = some (a, e)
  live : e.inode.deleted = 0

/-- From inode `n` the names lead through live directories to the live entry at `b`. -/
inductive Chain (m : Mem) (L : List Entry) : ℕ → List (List UInt8) → ℕ → Prop
  | final {n b : ℕ} {e : Entry} : Live L n b e → Chain m L n [] b
  | step {n a d b : ℕ} {e : Entry} {token : List UInt8} {rest : List (List UInt8)} :
      Live L n a e → e.isDir → FirstDentry m a token d → Chain m L (loadLong m (d + 32)) rest b →
      Chain m L n (token :: rest) b

/-- From inode `n` the names lead to number `k`, through live nodes of any kind read as lists
of dentries. -/
inductive Trail (m : Mem) (L : List Entry) : ℕ → List (List UInt8) → ℕ → Prop
  | nil {n : ℕ} : Trail m L n [] n
  | cons {n a d k : ℕ} {e : Entry} {token : List UInt8} {rest : List (List UInt8)} :
      Live L n a e → FirstDentry m a token d →
      Trail m L (loadLong m (d + 32) % 4294967296) rest k → Trail m L n (token :: rest) k

/-- An exactly tiled log whose live directories name inodes of the log. -/
structure WellFormed (s : Wfs) (L : List Entry) : Prop where
  tiled : Tiled s.data 8 L s.head
  named : ∀ n a e, Live L n a e → e.isDir → ∀ i, 40 * i < e.bytes.length →
    ∃ x ∈ L, x.number = loadLong s.data (a + 44 + 40 * i + 32)

/-- The lookup returns, and finds the inode that the chain of names leads to. -/
def Right (s : Wfs) (L : List Entry) (path : List UInt8) : Prop :=
  ∃ s' r, get_path_inode s path = .ok (s', r) ∧
    ∀ b, r = some b ↔ Chain s.data L 0 (strtok [] path) b

/-- Lookup of the names stands at number `k` with the names `us` still to go. -/
def Stands (m : Mem) (L : List Entry) (n : ℕ) (names : List (List UInt8)) (k : ℕ)
    (us : List (List UInt8)) : Prop :=
  ∃ ts, names = ts ++ us ∧ Trail m L n ts k

/-- All nodes in front of the last name are directories. -/
def ThroughDirs (m : Mem) (L : List Entry) (n : ℕ) (names : List (List UInt8)) : Prop :=
  ∀ k us a e, Stands m L n names k us → us ≠ [] → lastAt L 8 k = some (a, e) → e.isDir

/-- The trail of the names runs into no number without an entry and into no deleted node before
its end, and if it ends at a live node it is one of directories. -/
structure Straight (m : Mem) (L : List Entry) (n : ℕ) (names : List (List UInt8)) : Prop where
  present : ∀ k us, Stands m L n names k us → lastAt L 8 k ≠ none
  live : ∀ k us a e, Stands m L n names k us → us ≠ [] → lastAt L 8 k = some (a, e) →
    e.inode.deleted = 0
  dirs : ∀ k b x, Trail m L n names k → Live L k b x → ThroughDirs m L n names

/-- The condition on image and path. -/
structure Sane (s : Wfs) (L : List Entry) (path : List UInt8) : Prop where
  numbers : ∀ e ∈ L, e.number < 256
  root : ∃ e ∈ L, e.number = 0
  bare : strtok [] path = [] → ∀ a e, Live L 0 a e → e.isDir
  straight : (∃ a e, Live L 0 a e ∧ e.isDir) → Straight s.data L 0 (strtok [] path)

section Dentries

variable {m : Mem} {token : List UInt8} {stop fuel a b : ℕ}

theorem findDentry_iff : findDentry m token stop fuel a = some b ↔
    ∃ i < fuel, b = a + 40 * i ∧ b < stop ∧ strEq m b token = true ∧
      ∀ j < i, strEq m (a + 40 * j) token = false := by
  induction fuel generalizing a with
  | zero => simp [findDentry]
  | succ fuel ih =>
    rw [findDentry]
    split_ifs with hstop heq
    · constructor
      · intro h
        cases h
        exact ⟨0, Nat.succ_pos _, rfl, hstop, heq, fun j hj => absurd hj (Nat.not_lt_zero j)⟩
      · rintro ⟨i, -, rfl, -, -, hbefore⟩
        rcases i with _ | i
        · rfl
        · have hfirst := hbefore 0 (Nat.succ_pos i)
          rw [Nat.mul_zero, Nat.add_zero, heq] at hfirst
          cases hfirst
    · rw [ih]
      constructor
      · rintro ⟨i, hi, rfl, hb, hs, hbefore⟩
        refine ⟨i + 1, by omega, by omega, hb, hs, fun j hj => ?_⟩
        rcases j with _ | j
        · simpa using heq
        · have hskip := hbefore j (by omega)
          rwa [show a + 40 + 40 * j = a + 40 * (j + 1) by omega] at hskip
      · rintro ⟨i, hi, rfl, hb, hs, hbefore⟩
        rcases i with _ | i
        · exact absurd hs heq
        · refine ⟨i, by omega, by omega, hb, hs, fun j hj => ?_⟩
          have hskip := hbefore (j + 1) (by omega)
          rwa [show a + 40 * (j + 1) = a + 40 + 40 * j by omega] at hskip
    · refine iff_of_false (fun h => by cases h) ?_
      rintro ⟨i, -, rfl, hb, -⟩
      omega

theorem lookupDentry_iff : lookupDentry m a token = some b ↔ FirstDentry m a token b := by
  simp only [lookupDentry, findDentry_iff, FirstDentry]
  constructor
  · rintro ⟨i, hi, rfl, hb, hs, hbefore⟩
    exact ⟨i, rfl, by omega, hs, hbefore⟩
  · rintro ⟨i, rfl, hi, hs, hbefore⟩
    exact ⟨i, by omega, rfl, by omega, hs, hbefore⟩

theorem FirstDentry.unique (h : FirstDentry m a token b) {c : ℕ} (hc : FirstDentry m a token c) :
    b = c :=
  Option.some.inj ((lookupDentry_iff.mpr h).symm.trans (lookupDentry_iff.mpr hc))

end Dentries

section Trails

variable {m : Mem} {L : List Entry} {n k a b d : ℕ} {e x : Entry} {token : List UInt8}
  {names us rest : List (List UInt8)}

theorem Live.unique (h : Live L n a e) (h' : Live L n b x) : a = b ∧ e = x := by
  have heq := h.last.symm.trans h'.last
  simpa using heq

theorem trail_nil_iff : Trail m L n [] k ↔ k = n := by
  constructor
  · intro h
    cases h
    rfl
  · rintro rfl
    exact .nil

theorem trail_cons_iff (hl : Live L n a e) (hd : FirstDentry m a token d) :
    Trail m L n (token :: rest) k ↔ Trail m L (loadLong m (d + 32) % 4294967296) rest k := by
  constructor
  · intro h
    cases h with
    | cons hl' hd' htrail =>
      obtain ⟨rfl, rfl⟩ := hl.unique hl'
      rwa [hd.unique hd']
  · exact .cons hl hd

theorem trail_missing (hl : Live L n a e) (hd : ∀ d, ¬ FirstDentry m a token d) :
    ¬ Trail m L n (token :: rest) k := by
  intro h
  cases h with
  | cons hl' hd' htrail =>
    obtain ⟨rfl, rfl⟩ := hl.unique hl'
    exact hd _ hd'

theorem trail_dead (hl : lastAt L 8 n = some (a, e)) (hdead : e.inode.deleted ≠ 0) :
    ¬ Trail m L n (token :: rest) k := by
  intro h
  cases h with
  | cons hl' hd' htrail =>
    obtain ⟨hat, hlive⟩ := hl'
    rw [hl] at hat
    cases hat
    exact hdead hlive

theorem Trail.entry (h : Trail m L n names k) (hx : Live L k b x) : lastAt L 8 n ≠ none := by
  cases h with
  | nil =>
    rw [hx.last]
    exact Option.some_ne_none _
  | cons hl _ _ =>
    rw [hl.last]
    exact Option.some_ne_none _

theorem stands_cons : Stands m L n (token :: rest) k us ↔
    us = token :: rest ∧ k = n ∨
      ∃ ts, rest = ts ++ us ∧ Trail m L n (token :: ts) k := by
  constructor
  · rintro ⟨ts, hts, htrail⟩
    rcases ts with _ | ⟨t, ts⟩
    · exact Or.inl ⟨hts.symm, trail_nil_iff.mp htrail⟩
    · rw [List.cons_append, List.cons.injEq] at hts
      obtain ⟨rfl, hts⟩ := hts
      exact Or.inr ⟨ts, hts, htrail⟩
  · rintro (⟨rfl, rfl⟩ | ⟨ts, rfl, htrail⟩)
    · exact ⟨[], rfl, .nil⟩
    · exact ⟨token :: ts, rfl, htrail⟩

theorem stands_step (hl : Live L n a e) (hd : FirstDentry m a token d) :
    Stands m L n (token :: rest) k us ↔
      us = token :: rest ∧ k = n ∨ Stands m L (loadLong m (d + 32) % 4294967296) rest k us := by
  rw [stands_cons]
  simp only [trail_cons_iff hl hd, Stands]

theorem stands_stuck (htrail : ∀ ts, ¬ Trail m L n (token :: ts) k) :
    Stands m L n (token :: rest) k us ↔ us = token :: rest ∧ k = n := by
  rw [stands_cons]
  constructor
  · rintro (h | ⟨ts, _, hts⟩)
    · exact h
    · exact absurd hts (htrail ts)
  · exact Or.inl

theorem throughDirs_nil : ThroughDirs m L n [] := by
  rintro k us a e ⟨ts, hts, _⟩ hus
  obtain ⟨_, rfl⟩ := List.append_eq_nil_iff.mp hts.symm
  exact absurd rfl hus

theorem throughDirs_step (hl : Live L n a e) (hd : FirstDentry m a token d) :
    ThroughDirs m L n (token :: rest) ↔
      e.isDir ∧ ThroughDirs m L (loadLong m (d + 32) % 4294967296) rest := by
  constructor
  · intro h
    refine ⟨h n _ a e ⟨[], rfl, .nil⟩ (List.cons_ne_nil _ _) hl.last, fun k us b x hk => ?_⟩
    exact h k us b x ((stands_step hl hd).mpr (Or.inr hk))
  · rintro ⟨hdir, hrest⟩ k us b x hk hus hlast
    rcases (stands_step hl hd).mp hk with ⟨rfl, rfl⟩ | hk
    · rw [hl.last] at hlast
      cases hlast
      exact hdir
    · exact hrest k us b x hk hus hlast

/-- The walk runs through exactly when the trail meets entries only and no deleted node before
its end. -/
theorem walkLog_ok_iff (hl : Live L n a e) : (∃ r, walkLog m L names a = .ok r) ↔
    (∀ k us, Stands m L n names k us → lastAt L 8 k ≠ none) ∧
      ∀ k us b x, Stands m L n names k us → us ≠ [] → lastAt L 8 k = some (b, x) →
        x.inode.deleted = 0 := by
  induction names generalizing n a e with
  | nil =>
    refine iff_of_true ⟨_, rfl⟩ ⟨?_, ?_⟩
    · rintro k us ⟨ts, hts, htrail⟩
      obtain ⟨rfl, rfl⟩ := List.append_eq_nil_iff.mp hts.symm
      rw [trail_nil_iff.mp htrail, hl.last]
      exact Option.some_ne_none _
    · rintro k us b x ⟨ts, hts, _⟩ hus
      obtain ⟨_, rfl⟩ := List.append_eq_nil_iff.mp hts.symm
      exact absurd rfl hus
  | cons token rest ih =>
    rw [walkLog]
    split
    next hd =>
      have hmiss : ∀ d, ¬ FirstDentry m a token d := fun d h => by
        rw [lookupDentry_iff.mpr h] at hd
        cases hd
      refine iff_of_true ⟨_, rfl⟩ ⟨fun k us hk => ?_, fun k us b x hk _ hlast => ?_⟩
      · rw [((stands_stuck fun ts => trail_missing hl hmiss).mp hk).2, hl.last]
        exact Option.some_ne_none _
      · rw [((stands_stuck fun ts => trail_missing hl hmiss).mp hk).2, hl.last] at hlast
        cases hlast
        exact hl.live
    next d hd =>
      have hfirst := lookupDentry_iff.mp hd
      split
      next hnone =>
        refine iff_of_false (by rintro ⟨r, hr⟩; cases hr) fun h => ?_
        exact h.1 _ rest ((stands_step hl hfirst).mpr (Or.inr ⟨[], rfl, .nil⟩)) hnone
      next b x hlast =>
        split_ifs with hlive hend
        · rw [ih ⟨hlast, hlive⟩]
          constructor
          · rintro ⟨hpresent, hbefore⟩
            refine ⟨fun k us hk => ?_, fun k us c y hk hus hc => ?_⟩
            · rcases (stands_step hl hfirst).mp hk with ⟨rfl, rfl⟩ | hk
              · rw [hl.last]
                exact Option.some_ne_none _
              · exact hpresent k us hk
            · rcases (stands_step hl hfirst).mp hk with ⟨rfl, rfl⟩ | hk
              · rw [hl.last] at hc
                cases hc
                exact hl.live
              · exact hbefore k us c y hk hus hc
          · rintro ⟨hpresent, hbefore⟩
            exact ⟨fun k us hk => hpresent k us ((stands_step hl hfirst).mpr (Or.inr hk)),
              fun k us c y hk => hbefore k us c y ((stands_step hl hfirst).mpr (Or.inr hk))⟩
        · -- The last name leads to a deleted node: no name is left to be looked up in it.
          subst hend
          refine iff_of_true ⟨_, rfl⟩ ⟨fun k us hk => ?_, fun k us c y hk hus hc => ?_⟩
          · rcases (stands_step hl hfirst).mp hk with ⟨rfl, rfl⟩ | ⟨ts, hts, htrail⟩
            · rw [hl.last]
              exact Option.some_ne_none _
            · obtain ⟨rfl, rfl⟩ := List.append_eq_nil_iff.mp hts.symm
              rw [trail_nil_iff.mp htrail, hlast]
              exact Option.some_ne_none _
          · rcases (stands_step hl hfirst).mp hk with ⟨rfl, rfl⟩ | ⟨ts, hts, htrail⟩
            · rw [hl.last] at hc
              cases hc
              exact hl.live
            · obtain ⟨_, rfl⟩ := List.append_eq_nil_iff.mp hts.symm
              exact absurd rfl hus
        · refine iff_of_false (by rintro ⟨r, hr⟩; cases hr) fun h => ?_
          exact hlive (h.2 _ rest b x ((stands_step hl hfirst).mpr (Or.inr ⟨[], rfl, .nil⟩)) hend
            hlast)

theorem walkLog_some_iff (hl : Live L n a e) : walkLog m L names a = .ok (some b) ↔
    ∃ k x, Trail m L n names k ∧ Live L k b x := by
  induction names generalizing n a e with
  | nil =>
    simp only [walkLog, Except.ok.injEq, Option.some.injEq, trail_nil_iff]
    constructor
    · rintro rfl
      exact ⟨n, e, rfl, hl⟩
    · rintro ⟨k, x, rfl, hx⟩
      exact (hl.unique hx).1
  | cons token rest ih =>
    rw [walkLog]
    split
    next hd =>
      refine iff_of_false (fun h => by cases h) ?_
      rintro ⟨k, x, htrail, _⟩
      refine trail_missing hl (fun d h => ?_) htrail
      rw [lookupDentry_iff.mpr h] at hd
      cases hd
    next d hd =>
      simp only [trail_cons_iff hl (lookupDentry_iff.mp hd)]
      split
      next hnone =>
        refine iff_of_false (fun h => by cases h) ?_
        rintro ⟨k, x, htrail, hx⟩
        exact htrail.entry hx hnone
      next c y hlast =>
        split_ifs with hlive hend
        · exact ih ⟨hlast, hlive⟩
        · refine iff_of_false (fun h => by cases h) ?_
          rintro ⟨k, x, htrail, hx⟩
          subst hend
          rw [trail_nil_iff] at htrail
          rw [htrail] at hx
          rw [hx.last] at hlast
          cases hlast
          exact hlive hx.live
        · refine iff_of_false (fun h => by cases h) ?_
          rintro ⟨k, x, htrail, hx⟩
          cases rest with
          | nil => exact hend rfl
          | cons t rest => exact trail_dead hlast hlive htrail

end Trails

section Lookup

variable {s : Wfs} {L : List Entry} {n a b : ℕ} {e : Entry} {names : List (List UInt8)}
  {path : List UInt8}

theorem get_number_inode_tiled (h : Tiled s.data 8 L s.head) (hn : ∀ e ∈ L, e.number < 256) :
    get_number_inode s n =
      match lastAt L 8 n with
      | none => .error .nullEntry
      | some (b, e) => .ok
        ({ s with all_le := refresh L 8 s.all_le, nLogEntry := maxNumber L s.nLogEntry },
          if e.inode.deleted ≠ 0 then none else some b) := by
  have hfuel : L.length ≤ s.head := by
    have hend := h.end_eq
    have hlen := length_le_spans L
    omega
  rw [get_number_inode, scan_tiled h hn hfuel]
  cases hl : lastAt L 8 n with
  | none => rfl
  | some r => simp only [(h.lastAt hl).1.deleted_eq]

theorem walk_tiled (h : Tiled s.data 8 L s.head) (hn : ∀ e ∈ L, e.number < 256) :
    (walk names a s).map Prod.snd = walkLog s.data L names a := by
  induction names generalizing s a with
  | nil => rfl
  | cons token rest ih =>
    rw [walk, walkLog]
    cases lookupDentry s.data a token with
    | none => rfl
    | some d =>
      simp only [get_number_inode_tiled h hn]
      cases lastAt L 8 (loadLong s.data (d + 32) % 4294967296) with
      | none => rfl
      | some r =>
        obtain ⟨b, e⟩ := r
        dsimp only
        by_cases hd : e.inode.deleted = 0
        · rw [if_neg (not_not.mpr hd), if_pos hd]
          exact ih (s := { s with
            all_le := refresh L 8 s.all_le, nLogEntry := maxNumber L s.nLogEntry }) h
        · rw [if_pos hd, if_neg hd]
          by_cases hr : rest = []
          · simp only [if_pos hr]
            rfl
          · simp only [if_neg hr]
            rfl

theorem get_path_inode_tiled (h : Tiled s.data 8 L s.head) (hn : ∀ e ∈ L, e.number < 256) :
    (get_path_inode s path).map Prod.snd = resolve s.data L path := by
  rw [get_path_inode, get_number_inode_tiled h hn, resolve]
  cases lastAt L 8 0 with
  | none => rfl
  | some r =>
    obtain ⟨root, e⟩ := r
    dsimp only
    by_cases hd : e.inode.deleted = 0
    · rw [if_neg (not_not.mpr hd)]
      dsimp only
      by_cases hdir : isDir s.data root = false
      · rw [if_pos hdir, if_pos (Or.inr hdir)]
        rfl
      · rw [if_neg hdir, if_neg (not_or.mpr ⟨not_not.mpr hd, hdir⟩)]
        by_cases hp : path = [slash]
        · rw [if_pos hp, if_pos hp]
          rfl
        · rw [if_neg hp, if_neg hp]
          exact walk_tiled (s := { s with
            all_le := refresh L 8 s.all_le, nLogEntry := maxNumber L s.nLogEntry }) h hn
    · rw [if_pos hd, if_pos (Or.inl hd)]
      rfl

/-- A number behind the end of `all_le` stops every scan. -/
theorem scan_wide {cnm head fuel lookup : ℕ} {found : Option ℕ} (h : Tiled s.data lookup L head)
    (hwide : ∃ e ∈ L, ¬ e.number < 256) (hf : L.length ≤ fuel) :
    scan cnm head fuel lookup found s = .error .indexOutOfRange := by
  induction L generalizing lookup found s fuel with
  | nil =>
    obtain ⟨e, he, _⟩ := hwide
    cases he
  | cons e es ih =>
    obtain ⟨he, ht⟩ := h
    cases fuel with
    | zero => exact absurd hf (by simp)
    | succ fuel =>
      have hspan : e.span = 44 + e.bytes.length := rfl
      have hend := ht.end_eq
      rw [scan, if_pos (by omega)]
      simp only [he.number_eq, he.size_eq]
      by_cases hn : e.number < 256
      · rw [if_pos hn, Nat.add_assoc, ← hspan]
        obtain ⟨x, hx, hbig⟩ := hwide
        rcases List.mem_cons.mp hx with rfl | hx
        · exact absurd hn hbig
        · exact ih (s := { s with
            all_le := Function.update s.all_le e.number
              (if loadWord s.data (lookup + 4) = 0 then lookup else 0)
            nLogEntry := if e.number > s.nLogEntry then e.number else s.nLogEntry })
            ht ⟨x, hx, hbig⟩ (by simpa using hf)
      · rw [if_neg hn]

theorem get_path_inode_wide (h : Tiled s.data 8 L s.head) (hwide : ∃ e ∈ L, ¬ e.number < 256) :
    get_path_inode s path = .error .indexOutOfRange := by
  have hfuel : L.length ≤ s.head := by
    have hend := h.end_eq
    have hlen := length_le_spans L
    omega
  rw [get_path_inode, get_number_inode, scan_wide h hwide hfuel]

theorem right_iff (h : Tiled s.data 8 L s.head) (hn : ∀ e ∈ L, e.number < 256) :
    Right s L path ↔ ∃ r, resolve s.data L path = .ok r ∧
      ∀ b, r = some b ↔ Chain s.data L 0 (strtok [] path) b := by
  rw [Right, ← get_path_inode_tiled h hn]
  cases get_path_inode s path with
  | error f =>
    refine iff_of_false ?_ ?_
    · rintro ⟨s', r, hr, _⟩
      cases hr
    · rintro ⟨r, hr, _⟩
      cases hr
  | ok p =>
    obtain ⟨s', r⟩ := p
    constructor
    · rintro ⟨t, q, hr, hq⟩
      cases hr
      exact ⟨_, rfl, hq⟩
    · rintro ⟨q, hr, hq⟩
      cases hr
      exact ⟨s', _, rfl, hq⟩

/-- The number in a dentry of a live directory fits its four bytes. -/
theorem dentry_number (h : WellFormed s L) (hn : ∀ e ∈ L, e.number < 256) {token : List UInt8}
    {d : ℕ} (hl : Live L n a e) (hdir : e.isDir) (hd : FirstDentry s.data a token d) :
    loadLong s.data (d + 32) % 4294967296 = loadLong s.data (d + 32) := by
  obtain ⟨i, rfl, hi, _⟩ := hd
  rw [(h.tiled.lastAt hl.last).1.size_eq] at hi
  obtain ⟨x, hx, hnum⟩ := h.named n a e hl hdir i hi
  have hsmall := hn x hx
  omega

/-- A chain is a trail of directories. -/
theorem chain_iff (h : WellFormed s L) (hn : ∀ e ∈ L, e.number < 256) :
    Chain s.data L n names b ↔ ThroughDirs s.data L n names ∧
      ∃ k x, Trail s.data L n names k ∧ Live L k b x := by
  induction names generalizing n with
  | nil =>
    constructor
    · intro hc
      cases hc with
      | final hl => exact ⟨throughDirs_nil, n, _, .nil, hl⟩
    · rintro ⟨_, k, x, htrail, hl⟩
      rw [trail_nil_iff] at htrail
      subst htrail
      exact .final hl
  | cons token rest ih =>
    constructor
    · intro hc
      cases hc with
      | @step _ a d _ e _ _ hl hdir hd hrest =>
        rw [← dentry_number h hn hl hdir hd] at hrest
        obtain ⟨hdirs, k, x, htrail, hx⟩ := ih.mp hrest
        exact ⟨(throughDirs_step hl hd).mpr ⟨hdir, hdirs⟩, k, x,
          (trail_cons_iff hl hd).mpr htrail, hx⟩
    · rintro ⟨hdirs, k, x, htrail, hx⟩
      cases htrail with
      | @cons _ a d _ e _ _ hl hd hrest =>
        obtain ⟨hdir, hthrough⟩ := (throughDirs_step hl hd).mp hdirs
        have hchain := ih.mpr ⟨hthrough, k, x, hrest, hx⟩
        rw [dentry_number h hn hl hdir hd] at hchain
        exact .step hl hdir hd hchain

theorem chain_live (h : Chain s.data L n names b) : ∃ a e, Live L n a e ∧ (names ≠ [] → e.isDir) := by
  cases h with
  | final hl => exact ⟨_, _, hl, fun h => absurd rfl h⟩
  | step hl hdir _ _ => exact ⟨_, _, hl, fun _ => hdir⟩

/-- Below a live root directory. -/
theorem walk_right_iff (h : WellFormed s L) (hn : ∀ e ∈ L, e.number < 256) (hl : Live L n a e) :
    (∃ r, walkLog s.data L names a = .ok r ∧ ∀ b, r = some b ↔ Chain s.data L n names b) ↔
      Straight s.data L n names := by
  constructor
  · rintro ⟨r, hr, hright⟩
    obtain ⟨hpresent, hlive⟩ := (walkLog_ok_iff hl).mp ⟨r, hr⟩
    refine ⟨hpresent, hlive, fun k b x htrail hx => ?_⟩
    have hsome := (walkLog_some_iff hl).mpr ⟨k, x, htrail, hx⟩
    rw [hr] at hsome
    exact ((chain_iff h hn).mp ((hright b).mp (Except.ok.inj hsome))).1
  · intro hs
    obtain ⟨r, hr⟩ := (walkLog_ok_iff hl).mpr ⟨hs.present, hs.live⟩
    refine ⟨r, hr, fun b => ?_⟩
    have hsome : walkLog s.data L names a = .ok (some b) ↔ _ := walkLog_some_iff hl
    rw [hr, Except.ok.injEq] at hsome
    rw [hsome, chain_iff h hn]
    constructor
    · rintro ⟨k, x, htrail, hx⟩
      exact ⟨hs.dirs k b x htrail hx, k, x, htrail, hx⟩
    · rintro ⟨_, hend⟩
      exact hend

theorem Live.root (h : Live L 0 a e) : ∃ x ∈ L, x.number = 0 := by
  obtain ⟨hz, pre, post, rfl, _⟩ := lastAt_some h.last
  exact ⟨e, List.mem_append_right pre List.mem_cons_self, hz⟩

/-- With a deleted root nothing is found, and there is no chain. -/
theorem right_of_dead (h : Tiled s.data 8 L s.head) (hn : ∀ e ∈ L, e.number < 256)
    (hl : lastAt L 8 0 = some (a, e)) (hdead : e.inode.deleted ≠ 0) :
    Right s L path ∧ ∀ b x, ¬ Live L 0 b x := by
  have hno : ∀ b x, ¬ Live L 0 b x := fun b x hx => by
    have hlast := hl.symm.trans hx.last
    cases hlast
    exact hdead hx.live
  refine ⟨(right_iff h hn).mpr ⟨none, ?_, fun b => ?_⟩, hno⟩
  · rw [resolve_eq, hl]
    exact if_pos (Or.inl hdead)
  · refine iff_of_false (fun h => by cases h) fun hc => ?_
    obtain ⟨c, x, hx, _⟩ := chain_live hc
    exact hno c x hx

/-- A live root that is no directory is still where the path without names leads. -/
theorem right_iff_of_file (h : Tiled s.data 8 L s.head) (hn : ∀ e ∈ L, e.number < 256)
    (hl : Live L 0 a e) (hfile : ¬ e.isDir) : Right s L path ↔ strtok [] path ≠ [] := by
  have hres : resolve s.data L path = .ok none := by
    rw [resolve_eq, hl.last]
    refine if_pos (Or.inr ?_)
    rw [(h.lastAt hl.last).1.isDir_eq]
    simpa using hfile
  rw [right_iff h hn, hres]
  constructor
  · rintro ⟨r, hr, hright⟩ hnil
    cases hr
    rw [hnil] at hright
    cases (hright a).mpr (.final hl)
  · refine fun hnames => ⟨none, rfl, fun b => iff_of_false (fun h => by cases h) fun hc => ?_⟩
    obtain ⟨c, x, hx, hdir⟩ := chain_live hc
    obtain ⟨rfl, rfl⟩ := hl.unique hx
    exact hfile (hdir hnames)

theorem right_iff_of_dir (h : WellFormed s L) (hn : ∀ e ∈ L, e.number < 256) (hl : Live L 0 a e)
    (hdir : e.isDir) : Right s L path ↔ Straight s.data L 0 (strtok [] path) := by
  have hres : resolve s.data L path = walkLog s.data L (strtok [] path) a := by
    rw [resolve_eq, hl.last]
    refine if_neg (not_or.mpr ⟨not_not.mpr hl.live, ?_⟩)
    rw [(h.tiled.lastAt hl.last).1.isDir_eq, hdir]
    exact Bool.noConfusion
  rw [right_iff h.tiled hn, hres, walk_right_iff h hn hl]

/-- Lookup follows the directories of a path, and neither faults nor finds anything else,
exactly when image and path are sane. -/
theorem path_resolution_iff (h : WellFormed s L) : Right s L path ↔ Sane s L path := by
  by_cases hn : ∀ e ∈ L, e.number < 256
  · cases hlast : lastAt L 8 0 with
    | none =>
      rw [right_iff h.tiled hn, resolve_eq, hlast]
      refine iff_of_false (by rintro ⟨r, hr, _⟩; cases hr) fun hs => ?_
      obtain ⟨e, he, hzero⟩ := hs.root
      exact lastAt_eq_none.mp hlast e he hzero
    | some r =>
      obtain ⟨a, e⟩ := r
      by_cases hdead : e.inode.deleted = 0
      · have hl : Live L 0 a e := ⟨hlast, hdead⟩
        by_cases hdir : e.isDir
        · rw [right_iff_of_dir h hn hl hdir]
          constructor
          · refine fun hs => ⟨hn, hl.root, fun _ b x hx => ?_, fun _ => hs⟩
            obtain ⟨rfl, rfl⟩ := hl.unique hx
            exact hdir
          · exact fun hs => hs.straight ⟨a, e, hl, hdir⟩
        · rw [right_iff_of_file h.tiled hn hl hdir]
          constructor
          · refine fun hnames => ⟨hn, hl.root, fun hnil => absurd hnil hnames, ?_⟩
            rintro ⟨b, x, hx, hxdir⟩
            obtain ⟨rfl, rfl⟩ := hl.unique hx
            exact absurd hxdir hdir
          · exact fun hs hnil => hdir (hs.bare hnil a e hl)
      · obtain ⟨hright, hno⟩ : Right s L path ∧ _ := right_of_dead h.tiled hn hlast hdead
        refine iff_of_true hright ⟨hn, ?_, fun _ b x hx => absurd hx (hno b x), ?_⟩
        · obtain ⟨hz, pre, post, rfl, _⟩ := lastAt_some hlast
          exact ⟨e, List.mem_append_right pre List.mem_cons_self, hz⟩
        · rintro ⟨b, x, hx, _⟩
          exact absurd hx (hno b x)
  · refine iff_of_false ?_ fun hs => hn hs.numbers
    rintro ⟨s', r, hr, _⟩
    simp only [not_forall] at hn
    obtain ⟨e, he, hbig⟩ := hn
    rw [get_path_inode_wide h.tiled ⟨e, he, hbig⟩] at hr
    cases hr

end Lookup

/-- A dentry "b" for inode 0, written as the contents of the file "/a". -/
def writeDentry : Event :=
  ⟨quietEnv, .write ⟨[slash, 97], zero_notMem_pathA⟩ (98 :: List.replicate 39 0) 0⟩

/-- The image after `mknod("/a")` and the write. -/
def forged : Wfs := (run (zeroDisk 1000) [mknodA, writeDentry]).getD (zeroDisk 1000)

def entryIn (m : Mem) (a : ℕ) : Entry := ⟨loadInode m a, loadBytes m (a + 44) (loadWord m (a + 24))⟩

theorem entryIn_at {m : Mem} {a : ℕ} : EntryAt m a (entryIn m a) := by
  have hlen : (entryIn m a).bytes.length = loadWord m (a + 24) := loadBytes_length
  exact ⟨rfl, hlen.symm, by rw [hlen]; rfl⟩

theorem tiled_of_consecutive {m : Mem} {as : List ℕ} {a b : ℕ} (h : Consecutive m a as b) :
    Tiled m a (as.map (entryIn m)) b := by
  induction as generalizing a with
  | nil => exact h
  | cons x as ih =>
    obtain ⟨rfl, hrest⟩ := h
    refine ⟨entryIn_at, ?_⟩
    rw [Entry.span, ← entryIn_at.size_eq, ← Nat.add_assoc]
    exact ih hrest

def forgedLog : List Entry := [8, 52, 136, 180].map (entryIn forged.data)

theorem forged_root : Live forgedLog 0 52 (entryIn forged.data 52) :=
  ⟨by decide +kernel, by decide +kernel⟩

theorem forged_file : Live forgedLog 1 180 (entryIn forged.data 180) :=
  ⟨by decide +kernel, by decide +kernel⟩

theorem forged_wellFormed : WellFormed forged forgedLog := by
  have hhead : forged.head = 264 := by decide +kernel
  refine ⟨?_, fun n a e hl hdir i hi => ?_⟩
  · rw [hhead]
    refine tiled_of_consecutive ?_
    simp only [Consecutive]
    decide +kernel
  · obtain ⟨hnumber, pre, post, hsplit, _⟩ := lastAt_some hl.last
    have hmem : e ∈ forgedLog := by
      rw [hsplit]
      exact List.mem_append_right pre List.mem_cons_self
    have hfew : ∀ x ∈ forgedLog, x.number = 0 ∨ x.number = 1 := by decide +kernel
    have hlen : (entryIn forged.data 52).bytes.length = 40 := by decide +kernel
    rw [← hnumber] at hl
    rcases hfew e hmem with h | h
    · rw [h] at hl
      obtain ⟨rfl, rfl⟩ := hl.unique forged_root
      obtain rfl : i = 0 := by omega
      exact ⟨entryIn forged.data 136, by simp [forgedLog], by decide +kernel⟩
    · rw [h] at hl
      obtain ⟨rfl, rfl⟩ := hl.unique forged_file
      exact absurd hdir (by decide +kernel)

/-- Path "/a" leads through the root only. -/
theorem file_right_iff_sane : WellFormed forged forgedLog ∧
    (Right forged forgedLog [slash, 97] ↔ Sane forged forgedLog [slash, 97]) :=
  ⟨forged_wellFormed, path_resolution_iff forged_wellFormed⟩

/-- The contents of "/a" are read as a directory: "/a/b" is found, and is the root. -/
theorem file_as_directory : WellFormed forged forgedLog ∧
    located forged [slash, 97, slash, 98] = some 52 ∧
    ¬ Right forged forgedLog [slash, 97, slash, 98] := by
  have hloc : located forged [slash, 97, slash, 98] = some 52 := by decide +kernel
  refine ⟨forged_wellFormed, hloc, ?_⟩
  rintro ⟨s', r, hr, hright⟩
  rw [located, hr] at hloc
  have hchain := (hright 52).mp hloc
  have hn : ∀ e ∈ forgedLog, e.number < 256 := by decide +kernel
  have hdirs := ((chain_iff forged_wellFormed hn).mp hchain).1
  -- The trail stands at number 1, the file, with "b" still to go.
  have hdentry : FirstDentry forged.data 52 [97] 96 := lookupDentry_iff.mp (by decide +kernel)
  have hnumber : loadLong forged.data (96 + 32) % 4294967296 = 1 := by decide +kernel
  have htrail : Trail forged.data forgedLog 0 [[97]] 1 := by
    refine .cons forged_root hdentry ?_
    rw [hnumber]
    exact .nil
  have hdir := hdirs 1 [[98]] 180 _ ⟨[[97]], by decide +kernel, htrail⟩ (List.cons_ne_nil _ _)
    forged_file.last
  exact absurd hdir (by decide +kernel)

end WfsResolution
