import OsProjects.WfsLookup

/-! # The log as a list of entries

`Tiled` reads a stretch of the image as consecutive entries. On a tiled log the scan of
`get_number_inode` finds the last entry of each inode, and path lookup becomes a function
of the bytes and the list.
-/
namespace WfsLog

open ByteMemory WfsLookup

structure Entry where
  inode : Inode
  bytes : List UInt8
  deriving DecidableEq, Repr

def Entry.number (e : Entry) : ℕ := e.inode.inode_number

/-- The length of the entry in the image. -/
def Entry.span (e : Entry) : ℕ := 44 + e.bytes.length

def Entry.isDir (e : Entry) : Bool := e.inode.mode &&& S_IFDIR ≠ 0

structure EntryAt (m : Mem) (a : ℕ) (e : Entry) : Prop where
  inode : loadInode m a = e.inode
  size : e.inode.size = e.bytes.length
  bytes : loadBytes m (a + 44) e.bytes.length = e.bytes

def Tiled (m : Mem) : ℕ → List Entry → ℕ → Prop
  | a, [], b => a = b
  | a, e :: es, b => EntryAt m a e ∧ Tiled m (a + e.span) es b

def spans (es : List Entry) : ℕ := (es.map Entry.span).sum

/-- Address and contents of the last entry with number `n`, the list starting at `a`. -/
def lastAt : List Entry → ℕ → ℕ → Option (ℕ × Entry)
  | [], _, _ => none
  | e :: es, a, n =>
    match lastAt es (a + e.span) n with
    | some r => some r
    | none => if e.number = n then some (a, e) else none

section Tiled

variable {m m' : Mem} {a b c n : ℕ} {e : Entry} {es es' : List Entry}

theorem loadInode_congr (h : AgreeOn m m' a (a + 44)) : loadInode m a = loadInode m' a := by
  have hw : ∀ k, k + 4 ≤ 44 → loadWord m (a + k) = loadWord m' (a + k) := fun k hk =>
    loadWord_congr fun x hx hx' => h x (by omega) (by omega)
  simp only [loadInode, hw 4 (by omega), hw 8 (by omega), hw 12 (by omega), hw 16 (by omega),
    hw 20 (by omega), hw 24 (by omega), hw 28 (by omega), hw 32 (by omega), hw 36 (by omega),
    hw 40 (by omega), show loadWord m a = loadWord m' a from hw 0 (by omega)]

theorem EntryAt.congr (he : EntryAt m a e) (h : AgreeOn m m' a (a + e.span)) :
    EntryAt m' a e := by
  have hspan : e.span = 44 + e.bytes.length := rfl
  refine ⟨?_, he.size, ?_⟩
  · rw [← he.inode]
    exact (loadInode_congr fun x hx hx' => h x hx (by omega)).symm
  · rw [← loadBytes_congr fun x hx hx' => h x (by omega) (by omega)]
    exact he.bytes

theorem EntryAt.number_eq (he : EntryAt m a e) : loadWord m a = e.number :=
  congrArg Inode.inode_number he.inode

theorem EntryAt.deleted_eq (he : EntryAt m a e) : loadWord m (a + 4) = e.inode.deleted :=
  congrArg Inode.deleted he.inode

theorem EntryAt.mode_eq (he : EntryAt m a e) : loadWord m (a + 8) = e.inode.mode :=
  congrArg Inode.mode he.inode

theorem EntryAt.isDir_eq (he : EntryAt m a e) : isDir m a = e.isDir := by
  rw [isDir, he.mode_eq, Entry.isDir]

theorem EntryAt.size_eq (he : EntryAt m a e) : loadWord m (a + 24) = e.bytes.length :=
  (congrArg Inode.size he.inode).trans he.size

@[simp] theorem spans_nil : spans [] = 0 := rfl

@[simp] theorem spans_cons : spans (e :: es) = e.span + spans es := rfl

@[simp] theorem spans_append : spans (es ++ es') = spans es + spans es' := by
  simp [spans, List.map_append]

theorem Tiled.end_eq (h : Tiled m a es b) : b = a + spans es := by
  induction es generalizing a with
  | nil => exact h.symm
  | cons e es ih =>
    rw [ih h.2, spans_cons]
    omega

theorem Tiled.congr (h : Tiled m a es b) (hm : AgreeOn m m' a b) : Tiled m' a es b := by
  induction es generalizing a with
  | nil => exact h
  | cons e es ih =>
    have hb := h.2.end_eq
    refine ⟨h.1.congr fun x hx hx' => hm x hx (by omega), ih h.2 fun x hx hx' => ?_⟩
    exact hm x (by omega) hx'

theorem tiled_append : Tiled m a (es ++ es') c ↔
    Tiled m a es (a + spans es) ∧ Tiled m (a + spans es) es' c := by
  induction es generalizing a with
  | nil => simp [Tiled]
  | cons e es ih =>
    rw [List.cons_append, Tiled, ih, spans_cons, ← Nat.add_assoc, Tiled, and_assoc]

theorem lastAt_append : lastAt (es ++ es') a n =
    match lastAt es' (a + spans es) n with
    | some r => some r
    | none => lastAt es a n := by
  induction es generalizing a with
  | nil =>
    rw [List.nil_append, spans_nil, Nat.add_zero]
    cases lastAt es' a n <;> rfl
  | cons e es ih =>
    rw [List.cons_append, lastAt, ih, spans_cons, ← Nat.add_assoc]
    cases lastAt es' (a + e.span + spans es) n <;> rfl

theorem lastAt_concat : lastAt (es ++ [e]) a n =
    if e.number = n then some (a + spans es, e) else lastAt es a n := by
  rw [lastAt_append]
  by_cases hn : e.number = n <;> simp [lastAt, hn]

theorem lastAt_eq_none : lastAt es a n = none ↔ ∀ e ∈ es, e.number ≠ n := by
  induction es generalizing a with
  | nil => simp [lastAt]
  | cons e es ih =>
    rw [lastAt, List.forall_mem_cons]
    cases hr : lastAt es (a + e.span) n with
    | some r =>
      have hne : ¬ ∀ x ∈ es, x.number ≠ n := fun h => by
        rw [ih.mpr h] at hr
        cases hr
      simp [hne]
    | none => simpa using fun _ => ih.mp hr

/-- The last entry of a number splits the list. -/
theorem lastAt_some (h : lastAt es a n = some (b, e)) :
    e.number = n ∧ ∃ pre post, es = pre ++ e :: post ∧ b = a + spans pre ∧
      ∀ x ∈ post, x.number ≠ n := by
  induction es generalizing a with
  | nil => cases h
  | cons d es ih =>
    rw [lastAt] at h
    cases hr : lastAt es (a + d.span) n with
    | some r =>
      rw [hr] at h
      cases h
      obtain ⟨hn, pre, post, rfl, rfl, hpost⟩ := ih hr
      exact ⟨hn, d :: pre, post, rfl, by rw [spans_cons, ← Nat.add_assoc], hpost⟩
    | none =>
      rw [hr] at h
      dsimp only at h
      split_ifs at h with hd
      cases h
      exact ⟨hd, [], es, rfl, rfl, lastAt_eq_none.mp hr⟩

theorem Tiled.entryAt (h : Tiled m a (es ++ e :: es') b) : EntryAt m (a + spans es) e :=
  (tiled_append.mp h).2.1

theorem Tiled.lastAt (h : Tiled m a es c) (hl : lastAt es a n = some (b, e)) :
    EntryAt m b e ∧ a ≤ b ∧ b + e.span ≤ c ∧ e.number = n := by
  obtain ⟨hn, pre, post, rfl, rfl, _⟩ := lastAt_some hl
  have hc := h.end_eq
  rw [spans_append, spans_cons] at hc
  exact ⟨h.entryAt, by omega, by omega, hn⟩

end Tiled

/-- What a scan leaves in `all_le`: the last entry of each number it met, if live. -/
def refresh (es : List Entry) (a : ℕ) (t : ℕ → ℕ) : ℕ → ℕ := fun n =>
  match lastAt es a n with
  | some (b, e) => if e.inode.deleted = 0 then b else 0
  | none => t n

def maxNumber (es : List Entry) (k : ℕ) : ℕ :=
  es.foldl (fun k e => if e.number > k then e.number else k) k

theorem refresh_cons {e : Entry} {es : List Entry} {a : ℕ} {t : ℕ → ℕ} :
    refresh (e :: es) a t =
      refresh es (a + e.span) (Function.update t e.number (if e.inode.deleted = 0 then a else 0)) := by
  funext n
  simp only [refresh, lastAt]
  cases lastAt es (a + e.span) n with
  | some r => rfl
  | none =>
    by_cases hn : e.number = n
    · subst hn
      simp
    · simp [hn, Ne.symm hn]

theorem scan_tiled {cnm head fuel : ℕ} {es : List Entry} {lookup : ℕ} {found : Option ℕ} {s : Wfs}
    (h : Tiled s.data lookup es head) (hn : ∀ e ∈ es, e.number < 256) (hf : es.length ≤ fuel) :
    scan cnm head fuel lookup found s =
      .ok ({ s with all_le := refresh es lookup s.all_le, nLogEntry := maxNumber es s.nLogEntry },
        match lastAt es lookup cnm with
        | some r => some r.1
        | none => found) := by
  induction es generalizing lookup found s fuel with
  | nil =>
    have hend : lookup = head := h
    cases fuel with
    | zero => rfl
    | succ fuel =>
      rw [scan, if_neg (by omega)]
      rfl
  | cons e es ih =>
    obtain ⟨he, ht⟩ := h
    cases fuel with
    | zero => exact absurd hf (by simp)
    | succ fuel =>
      have hlt : lookup < head := by
        have := ht.end_eq
        have hspan : e.span = 44 + e.bytes.length := rfl
        omega
      rw [scan, if_pos hlt]
      simp only [he.number_eq, he.deleted_eq, he.size_eq]
      rw [if_pos (hn e List.mem_cons_self), Nat.add_assoc, ← Entry.span]
      have htail : ∀ x ∈ es, x.number < 256 := fun x hx => hn x (List.mem_cons_of_mem e hx)
      have hfuel : es.length ≤ fuel := by simpa using hf
      rw [refresh_cons, lastAt]
      refine (ih (s := { s with
        all_le := Function.update s.all_le e.number (if e.inode.deleted = 0 then lookup else 0)
        nLogEntry := if e.number > s.nLogEntry then e.number else s.nLogEntry })
        ht htail hfuel).trans ?_
      congr 2
      cases lastAt es (lookup + e.span) cnm with
      | some r => rfl
      | none =>
        by_cases hc : e.number = cnm <;> simp [hc]

/-- The image holds exactly the entries `L`, and `all_le` knows no number but theirs. -/
structure Rep (s : Wfs) (L : List Entry) : Prop where
  tiled : Tiled s.data 8 L s.head
  numbers : ∀ e ∈ L, e.number < 256
  dirs : ∀ e ∈ L, e.isDir → 40 ∣ e.bytes.length
  absent : ∀ n, (∀ e ∈ L, e.number ≠ n) → s.all_le n = 0

def table (L : List Entry) : ℕ → ℕ := refresh L 8 fun _ => 0

/-- The state after a scan. -/
def sync (s : Wfs) (L : List Entry) : Wfs :=
  { s with all_le := table L, nLogEntry := maxNumber L s.nLogEntry }

section Scan

variable {s : Wfs} {L : List Entry} {n a : ℕ}

@[simp] theorem sync_data : (sync s L).data = s.data := rfl

@[simp] theorem sync_all_le : (sync s L).all_le = table L := rfl

@[simp] theorem sync_total : (sync s L).total_size = s.total_size := rfl

@[simp] theorem sync_head : (sync s L).head = s.head := rfl

theorem table_of_absent (h : ∀ e ∈ L, e.number ≠ n) : table L n = 0 := by
  rw [table, refresh, lastAt_eq_none.mpr h]

theorem table_eq : table L n =
    match lastAt L 8 n with
    | some (b, e) => if e.inode.deleted = 0 then b else 0
    | none => 0 := by
  rw [table, refresh]

theorem table_concat {e : Entry} : table (L ++ [e]) n =
    if e.number = n then if e.inode.deleted = 0 then 8 + spans L else 0 else table L n := by
  rw [table_eq, lastAt_concat, table_eq]
  by_cases hn : e.number = n <;> simp [hn]

theorem Rep.refresh_eq (h : Rep s L) : refresh L 8 s.all_le = table L := by
  funext n
  cases hl : lastAt L 8 n with
  | some r => simp only [table, refresh, hl]
  | none => simp only [table, refresh, hl, h.absent n (lastAt_eq_none.mp hl)]

theorem Rep.sync (h : Rep s L) : Rep (sync s L) L :=
  ⟨h.tiled, h.numbers, h.dirs, fun _ hn => table_of_absent hn⟩

theorem Rep.eight_le (h : Rep s L) : 8 ≤ s.head := by
  have hend := h.tiled.end_eq
  omega

theorem maxNumber_le {es : List Entry} {k : ℕ} :
    k ≤ maxNumber es k ∧ ∀ e ∈ es, e.number ≤ maxNumber es k := by
  induction es generalizing k with
  | nil => exact ⟨le_rfl, by simp⟩
  | cons e es ih =>
    obtain ⟨hk, hes⟩ := ih (k := if e.number > k then e.number else k)
    rw [List.forall_mem_cons]
    refine ⟨le_trans ?_ hk, le_trans ?_ hk, hes⟩ <;> split_ifs <;> omega

theorem maxNumber_of_le {es : List Entry} {k : ℕ} (h : ∀ e ∈ es, e.number ≤ k) :
    maxNumber es k = k := by
  induction es with
  | nil => rfl
  | cons e es ih =>
    rw [List.forall_mem_cons] at h
    rw [maxNumber, List.foldl_cons, if_neg (by omega)]
    exact ih h.2

theorem sync_sync : sync (sync s L) L = sync s L := by
  simp only [sync, maxNumber_of_le maxNumber_le.2]

theorem length_le_spans (es : List Entry) : es.length ≤ spans es := by
  induction es with
  | nil => simp
  | cons e es ih =>
    have hspan : e.span = 44 + e.bytes.length := rfl
    rw [spans_cons, List.length_cons]
    omega

theorem get_number_inode_rep (h : Rep s L) : get_number_inode s n =
    match lastAt L 8 n with
    | none => .error .nullEntry
    | some (b, e) => .ok (sync s L, if e.inode.deleted ≠ 0 then none else some b) := by
  have hfuel : L.length ≤ s.head := by
    have h₁ := h.tiled.end_eq
    have h₂ := length_le_spans L
    omega
  rw [get_number_inode, scan_tiled h.tiled h.numbers hfuel, h.refresh_eq]
  cases hl : lastAt L 8 n with
  | none => rfl
  | some r =>
    obtain ⟨b, e⟩ := r
    simp only [(h.tiled.lastAt hl).1.deleted_eq, sync]

/-- The token loop without the state it threads through. -/
def walkLog (m : Mem) (L : List Entry) : List (List UInt8) → ℕ → Run (Option ℕ)
  | [], curDir => .ok (some curDir)
  | token :: rest, curDir =>
    match lookupDentry m curDir token with
    | none => .ok none
    | some d =>
      match lastAt L 8 (loadLong m (d + 32) % 4294967296) with
      | none => .error .nullEntry
      | some (b, e) =>
        if e.inode.deleted = 0 then walkLog m L rest b
        else if rest = [] then .ok none else .error .nullEntry

/-- Path lookup on a tiled log. -/
def resolve (m : Mem) (L : List Entry) (path : List UInt8) : Run (Option ℕ) :=
  match lastAt L 8 0 with
  | none => .error .nullEntry
  | some (root, e) =>
    if e.inode.deleted ≠ 0 ∨ isDir m root = false then .ok none
    else if path = [slash] then .ok (some root)
    else walkLog m L (strtok [] path) root

theorem walk_rep (h : Rep s L) (tokens : List (List UInt8)) :
    walk tokens a (sync s L) =
      match walkLog s.data L tokens a with
      | .error f => .error f
      | .ok r => .ok (sync s L, r) := by
  induction tokens generalizing a with
  | nil => rfl
  | cons token rest ih =>
    simp only [walk, walkLog, sync_data]
    cases lookupDentry s.data a token with
    | none => rfl
    | some d =>
      dsimp only
      rw [get_number_inode_rep h.sync, sync_sync]
      cases lastAt L 8 (loadLong s.data (d + 32) % 4294967296) with
      | none => rfl
      | some r =>
        obtain ⟨b, e⟩ := r
        dsimp only
        by_cases hd : e.inode.deleted = 0
        · rw [if_neg (not_not.mpr hd), if_pos hd]
          exact ih
        · rw [if_pos hd, if_neg hd]
          by_cases hr : rest = [] <;> simp [hr]

theorem get_path_inode_rep (h : Rep s L) (path : List UInt8) :
    get_path_inode s path =
      match resolve s.data L path with
      | .error f => .error f
      | .ok r => .ok (sync s L, r) := by
  rw [get_path_inode, get_number_inode_rep h, resolve]
  cases lastAt L 8 0 with
  | none => rfl
  | some r =>
    obtain ⟨root, e⟩ := r
    dsimp only
    by_cases hd : e.inode.deleted = 0
    · rw [if_neg (not_not.mpr hd)]
      dsimp only
      by_cases hdir : isDir s.data root = false
      · rw [if_pos (show isDir (sync s L).data root = false from hdir), if_pos (Or.inr hdir)]
      · rw [if_neg (show ¬ isDir (sync s L).data root = false from hdir),
          if_neg (not_or.mpr ⟨not_not.mpr hd, hdir⟩)]
        by_cases hp : path = [slash]
        · rw [if_pos hp, if_pos hp]
        · rw [if_neg hp, if_neg hp]
          exact walk_rep h _
    · rw [if_pos hd, if_pos (Or.inl hd)]

/-- Lookup returns live entries only. -/
theorem walkLog_live {m : Mem} {tokens : List (List UInt8)} {b : ℕ}
    (ha : ∃ n e, lastAt L 8 n = some (a, e) ∧ e.inode.deleted = 0)
    (h : walkLog m L tokens a = .ok (some b)) :
    ∃ n e, lastAt L 8 n = some (b, e) ∧ e.inode.deleted = 0 := by
  induction tokens generalizing a with
  | nil =>
    cases h
    exact ha
  | cons token rest ih =>
    rw [walkLog] at h
    split at h
    next => cases h
    next d _ =>
      split at h
      next => cases h
      next c e hl =>
        split_ifs at h with hd hr
        · exact ih ⟨_, e, hl, hd⟩ h
        · cases h

theorem resolve_live {m : Mem} {path : List UInt8} {b : ℕ}
    (h : resolve m L path = .ok (some b)) :
    ∃ n e, lastAt L 8 n = some (b, e) ∧ e.inode.deleted = 0 := by
  rw [resolve] at h
  split at h
  next => cases h
  next root e hl =>
    split_ifs at h with hbad hroot
    · cases h
    · cases h
      exact ⟨0, e, hl, by tauto⟩
    · exact walkLog_live ⟨0, e, hl, by tauto⟩ h

end Scan

end WfsLog
