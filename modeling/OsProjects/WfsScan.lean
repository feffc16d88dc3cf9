import OsProjects.WfsRuns

/-! # The scan over the log

Every state of a run is tiled by the entries that `mkfs.wfs` and the handlers appended, and
the loop of `get_number_inode` visits exactly these, in the order they were appended, and
stops at the head.
-/
namespace WfsScan

open ByteMemory WfsLookup WfsHandlers WfsLog WfsAppend WfsChange WfsRuns

/-- The cursors at which the loop of `get_number_inode` runs its body, and the cursor with
which it ends. -/
def cursors (m : Mem) (head : ℕ) : ℕ → ℕ → List ℕ × ℕ
  | 0, lookup => ([], lookup)
  | fuel + 1, lookup =>
    if lookup < head then
      let r := cursors m head fuel (lookup + 44 + loadWord m (lookup + 24))
      (lookup :: r.1, r.2)
    else ([], lookup)

/-- The body of the loop. -/
def visit (inode_cnm : ℕ) (r : Wfs × Option ℕ) (lookup : ℕ) : Run (Wfs × Option ℕ) :=
  let number := loadWord r.1.data lookup
  if number < 256 then
    .ok ({ r.1 with
      all_le := Function.update r.1.all_le number
        (if loadWord r.1.data (lookup + 4) = 0 then lookup else 0)
      nLogEntry := if number > r.1.nLogEntry then number else r.1.nLogEntry },
      if number = inode_cnm then some lookup else r.2)
  else .error .indexOutOfRange

/-- Entries one behind the other, each as long as its size field says. -/
def Consecutive (m : Mem) : ℕ → List ℕ → ℕ → Prop
  | a, [], b => a = b
  | a, x :: xs, b => a = x ∧ Consecutive m (a + 44 + loadWord m (a + 24)) xs b

structure ExactlyTiled (s : Wfs) (as : List ℕ) : Prop where
  consecutive : Consecutive s.data 8 as s.head
  dirs : ∀ a ∈ as, isDir s.data a = true → 40 ∣ loadWord s.data (a + 24)
  scanned : cursors s.data s.head s.head 8 = (as, s.head)
  once : as.Pairwise (· < ·)

/-- Where a creation puts the copy of the parent and the new node. -/
def createdAt (s : Wfs) (path : List UInt8) : List ℕ :=
  match parentDir s path with
  | none => []
  | some (dir, _) => [s.head, s.head + 84 + fileSize s dir]

/-- Where a call that appends puts its entries. -/
def placesOf (s : Wfs) : Call → List ℕ
  | .mknod path => createdAt s path
  | .mkdir path => createdAt s path
  | _ => [s.head]

/-- Where a call that led to `s'` has put its entries. -/
def appendedAt (s s' : Wfs) (call : Call) : List ℕ :=
  if s'.head = s.head then [] else placesOf s call

/-- The addresses of everything a run appends, in the order of the calls. -/
def appendLog (s : Wfs) : List Event → List ℕ
  | [] => []
  | e :: es =>
    match next s e with
    | none => []
    | some s' => appendedAt s s' e.call ++ appendLog s' es

/-- The loop is its body run over the cursors. -/
theorem scan_eq_foldlM {inode_cnm head fuel lookup : ℕ} {found : Option ℕ} {s : Wfs} :
    scan inode_cnm head fuel lookup found s =
      (cursors s.data head fuel lookup).1.foldlM (visit inode_cnm) (s, found) := by
  induction fuel generalizing lookup found s with
  | zero => rfl
  | succ fuel ih =>
    rw [scan, cursors]
    by_cases hlt : lookup < head
    · rw [if_pos hlt, if_pos hlt, List.foldlM_cons]
      by_cases hn : loadWord s.data lookup < 256
      · simp only [visit, if_pos hn]
        exact ih
      · simp only [visit, if_neg hn]
        rfl
    · rw [if_neg hlt, if_neg hlt]
      rfl

/-- The addresses of entries that lie one behind the other. -/
def addresses : List Entry → ℕ → List ℕ
  | [], _ => []
  | e :: es, a => a :: addresses es (a + e.span)

section Addresses

variable {m : Mem} {a b : ℕ} {es es' : List Entry} {e : Entry}

theorem addresses_append : addresses (es ++ es') a =
    addresses es a ++ addresses es' (a + spans es) := by
  induction es generalizing a with
  | nil => rfl
  | cons e es ih =>
    rw [List.cons_append, addresses, addresses, ih, spans_cons, ← Nat.add_assoc, List.cons_append]

theorem addresses_modifyAt {f : Inode → Inode} {c : ℕ} :
    addresses (modifyAt f c es a) a = addresses es a := by
  induction es generalizing a with
  | nil => rfl
  | cons e es ih =>
    have hspan : (if a = c then (⟨f e.inode, e.bytes⟩ : Entry) else e).span = e.span := by
      split_ifs <;> rfl
    rw [modifyAt, addresses, addresses, hspan, ih]

theorem addresses_ge (h : b ∈ addresses es a) : a ≤ b := by
  induction es generalizing a with
  | nil => cases h
  | cons e es ih =>
    rcases List.mem_cons.mp h with rfl | h
    · exact le_rfl
    · exact le_trans (Nat.le_add_right a _) (ih h)

theorem addresses_pairwise : (addresses es a).Pairwise (· < ·) := by
  induction es generalizing a with
  | nil => exact List.Pairwise.nil
  | cons e es ih =>
    rw [addresses, List.pairwise_cons]
    refine ⟨fun b hb => ?_, ih⟩
    have hspan : e.span = 44 + e.bytes.length := rfl
    have hge := addresses_ge hb
    omega

theorem mem_addresses (h : Tiled m a es b) {c : ℕ} (hc : c ∈ addresses es a) :
    ∃ e ∈ es, EntryAt m c e := by
  induction es generalizing a with
  | nil => cases hc
  | cons e es ih =>
    rcases List.mem_cons.mp hc with rfl | hc
    · exact ⟨e, List.mem_cons_self, h.1⟩
    · obtain ⟨x, hx, hat⟩ := ih h.2 hc
      exact ⟨x, List.mem_cons_of_mem e hx, hat⟩

theorem consecutive_of_tiled (h : Tiled m a es b) : Consecutive m a (addresses es a) b := by
  induction es generalizing a with
  | nil => exact h
  | cons e es ih =>
    refine ⟨rfl, ?_⟩
    rw [h.1.size_eq, Nat.add_assoc]
    exact ih h.2

theorem cursors_of_tiled {fuel : ℕ} (h : Tiled m a es b) (hf : es.length ≤ fuel) :
    cursors m b fuel a = (addresses es a, b) := by
  induction es generalizing a fuel with
  | nil =>
    have hend : a = b := h
    cases fuel with
    | zero => rw [cursors, hend, addresses]
    | succ fuel => rw [cursors, if_neg (by omega), hend, addresses]
  | cons e es ih =>
    cases fuel with
    | zero => exact absurd hf (by simp)
    | succ fuel =>
      have hspan : e.span = 44 + e.bytes.length := rfl
      have hend := h.2.end_eq
      rw [cursors, if_pos (by omega), h.1.size_eq, Nat.add_assoc, ← hspan,
        ih h.2 (by simpa using hf), addresses]

end Addresses

section Steps

variable {env : Env} {s s' : Wfs} {L L' : List Entry} {call : Call} {ret : ℤ}

theorem exactlyTiled_of_rep (h : Rep s L) : ExactlyTiled s (addresses L 8) := by
  refine ⟨consecutive_of_tiled h.tiled, fun a ha hdir => ?_, cursors_of_tiled h.tiled ?_,
    addresses_pairwise⟩
  · obtain ⟨e, he, hat⟩ := mem_addresses h.tiled ha
    rw [hat.size_eq]
    exact h.dirs e he (hat.isDir_eq ▸ hdir)
  · have hend := h.tiled.end_eq
    have hlen := length_le_spans L
    omega

theorem head_eq_iff (h : Rep s L) (h' : Rep s' L') : s'.head = s.head ↔ spans L' = spans L := by
  have hend := h.tiled.end_eq
  have hend' := h'.tiled.end_eq
  omega

theorem change_appends (hc : Change env s L call ret s' L') (h : Rep s L) (hroom : Roomy s call) :
    addresses L' 8 = addresses L 8 ++ appendedAt s s' call := by
  have hiff := head_eq_iff h (hc.rep h hroom)
  have hend := h.tiled.end_eq
  -- Nothing appended: the head stays. Something appended: the spans have grown.
  have hsame : spans L' = spans L → appendedAt s s' call = [] := fun hs => if_pos (hiff.mpr hs)
  have hgrown : spans L' ≠ spans L → appendedAt s s' call = placesOf s call := fun hs =>
    if_neg fun heq => hs (hiff.mp heq)
  cases hc with
  | quiet hq hneg => rw [hsame rfl, List.append_nil]
  | touched hres hf hfile => rw [hsame spans_modifyAt, List.append_nil, addresses_modifyAt]
  | @created _ path name mode dir d r hcall hres hin hspace hnumber =>
    have hat : createdAt s path = [s.head, s.head + 84 + d.bytes.length] := by
      rw [createdAt, hin.parentDir_eq h]
      simp only [fileSize, (hin.found.entryAt h).size_eq]
    have hplaces : placesOf s call = createdAt s path := by
      cases call <;> simp only [creates, Option.some.injEq, Prod.mk.injEq, reduceCtorEq] at hcall
      · rw [placesOf, hcall.1]
      · rw [placesOf, hcall.1]
    rw [hgrown (by simp only [spans_append, spans_cons, Entry.span]; omega), addresses_append,
      hplaces, hat, ← hend]
    simp only [addresses, Entry.span, dirEntry, List.length_append, nameField_length,
      leBytes_length]
    congr 3
    omega
  | headed hres hf hfile hoff hspace => rw [hsame rfl, List.append_nil]
  | written hres hf hfile hoff hspace =>
    rw [hgrown (by simp only [spans_append, spans_cons, Entry.span]; omega), addresses_append,
      ← hend]
    rfl
  | missed hres hf hin hfound => rw [hsame rfl, List.append_nil]
  | unlinked hres hf hin hfound =>
    rw [hgrown (by simp only [spans_append, spans_cons, spans_modifyAt, Entry.span]; omega),
      addresses_append, addresses_modifyAt, spans_modifyAt, ← hend]
    rfl

theorem run_appends {es : List Event} (h : Rep s L) (hroom : Along RoomyStep s es)
    (hr : run s es = some s') : ∃ L', Rep s' L' ∧ addresses L' 8 = addresses L 8 ++ appendLog s es := by
  induction es generalizing s L with
  | nil =>
    cases hr
    exact ⟨L, h, (List.append_nil _).symm⟩
  | cons e es ih =>
    obtain ⟨t, hn, hr⟩ := Option.bind_eq_some_iff.mp hr
    obtain ⟨r, hh⟩ := next_some hn
    obtain ⟨L₁, hc⟩ := handle_change h hroom.1 hh
    obtain ⟨L', hrep, haddr⟩ := ih (hc.rep h hroom.1) (hroom.2 t hn) hr
    refine ⟨L', hrep, ?_⟩
    rw [haddr, change_appends hc h hroom.1, List.append_assoc, appendLog, hn]

end Steps

/-- In every state of a run from a fresh image the log is tiled by the root that `mkfs.wfs`
wrote and what the calls appended, and the scan visits these in turn. -/
theorem run_exactly_tiled {disk : Mem} {total_size : ℕ} {time : ℕ → ℕ} {es : List Event} {s : Wfs}
    (hroom : Along RoomyStep (mkfs disk total_size time) es)
    (hr : run (mkfs disk total_size time) es = some s) :
    ExactlyTiled s (8 :: appendLog (mkfs disk total_size time) es) := by
  obtain ⟨L, hrep, haddr⟩ := run_appends (mkfs_rep disk total_size time) hroom hr
  have htiled := exactlyTiled_of_rep hrep
  rw [haddr] at htiled
  exact htiled

theorem two_files_tiled : Along RoomyStep (zeroDisk 1000) [mknodA, mknodB] ∧
    ∃ s, run (zeroDisk 1000) [mknodA, mknodB] = some s ∧ ExactlyTiled s [8, 52, 136, 180, 304] := by
  have hroom : Along RoomyStep (zeroDisk 1000) [mknodA, mknodB] := by
    refine ⟨?_, fun s hs => ⟨?_, fun _ _ => trivial⟩⟩
    · unfold RoomyStep Roomy
      decide +kernel
    · rw [next_getD hs]
      unfold RoomyStep Roomy
      decide +kernel
  have hsome : (run (zeroDisk 1000) [mknodA, mknodB]).isSome = true := by decide +kernel
  obtain ⟨s, hs⟩ := Option.isSome_iff_exists.mp hsome
  have hlog : 8 :: appendLog (zeroDisk 1000) [mknodA, mknodB] = [8, 52, 136, 180, 304] := by
    decide +kernel
  exact ⟨hroom, s, hs, hlog ▸ run_exactly_tiled hroom hs⟩

/-- The state a lookup leaves behind. -/
def afterLookup (s : Wfs) (path : List UInt8) : Wfs :=
  match get_path_inode s path with
  | .ok (s', _) => s'
  | .error _ => s

/-- The image after zeros were written over zeros, at the start of the empty file at `a`. -/
def zerosImage (env : Env) (s : Wfs) (a n : ℕ) : Mem :=
  let m := wfsincpy s.data a s.head (env.time 0)
  let m := storeWord m (s.head + 24) n
  let m := storeWord m (s.head + 36) (env.time 1)
  let m := storeWord m (s.head + 32) (env.time 1)
  storeWord m 4 (loadWord m 4 + 44 + loadWord m (s.head + 24))

section Zeros

variable {env : Env} {s s' : Wfs} {L L' : List Entry} {call : Call} {ret : ℤ} {a n : ℕ}

theorem lookup_of_located {path : List UInt8} (h : located s path = some a) :
    get_path_inode s path = .ok (afterLookup s path, some a) := by
  rw [located] at h
  rw [afterLookup]
  cases hr : get_path_inode s path with
  | error f =>
    rw [hr] at h
    cases h
  | ok r =>
    obtain ⟨s', o⟩ := r
    rw [hr] at h
    dsimp only at h
    rw [h]

theorem storeBytes_zeros {m : Mem} (h : ∀ x, a ≤ x → m x = 0) :
    storeBytes m a (List.replicate n 0) = m := by
  funext x
  rw [storeBytes]
  split_ifs with hx
  · rw [h x hx.1, List.getD_eq_getElem?_getD, List.getElem?_replicate]
    split_ifs <;> rfl
  · rfl

theorem appendWrite_zeros (hempty : loadWord s.data (a + 24) = 0) (hlo : 8 ≤ a)
    (hhi : a + 44 ≤ s.head) (hspace : s.head + 44 + n ≤ s.total_size)
    (hzero : ∀ x, s.head + 44 ≤ x → s.data x = 0) :
    appendWrite env s a (List.replicate n 0) 0 =
      ({ s with data := zerosImage env s a n }, intOfSize n) := by
  unfold appendWrite
  extract_lets modified m1 n1 m2 m3 n3 m4 m5 m6 m7
  have h1 : m1 = wfsincpy s.data a s.head (env.time 0) := rfl
  have hm1 : ∀ x, x < s.head ∨ s.head + 44 ≤ x → m1 x = s.data x := by
    intro x hx
    rw [h1, wfsincpy_eq (Or.inl hhi), storeWords_outside (by rw [words_length]; omega)]
  have hn1 : n1 = 0 := by
    rw [← hempty]
    exact loadWord_congr fun x _ hx => hm1 x (by omega)
  have h2 : m2 = m1 := by
    have hcopy : m2 = copyBytes m1 (s.head + 44) (a + 44) n1 := rfl
    rw [hcopy, hn1, copyBytes]
    funext x
    exact storeBytes_outside (by simp; omega)
  have h3 : m3 = m1 := by
    have hstore : m3 = storeBytes m2 (s.head + 44 + 0) (List.replicate n 0) := rfl
    rw [hstore, h2]
    exact storeBytes_zeros fun x hx => (hm1 x (by omega)).trans (hzero x (by omega))
  have hn3 : n3 = 0 := by
    have hload : n3 = loadWord m3 (a + 24) := rfl
    rw [hload, h3, ← hn1]
  have h4 : m4 = storeWord m1 (s.head + 24) n := by
    have hstore : m4 = storeWord m3 (s.head + 24)
      (if 0 + (List.replicate n (0 : UInt8)).length > n3 then
        0 + (List.replicate n (0 : UInt8)).length else n3) := rfl
    rw [hstore, h3, hn3, List.length_replicate]
    congr 1
    split_ifs <;> omega
  have hhead : loadWord m1 4 = s.head := loadWord_congr fun x _ hx => hm1 x (by omega)
  have h6 : m6 = storeWord (storeWord m4 (s.head + 36) (env.time 1)) (s.head + 32) (env.time 1) :=
    rfl
  have h7 : m7 = zerosImage env s a n := by
    have hstore : m7 = storeWord m6 4 (loadWord m6 4 + 44 + loadWord m6 (s.head + 24)) := rfl
    rw [hstore, h6, h4, h1, zerosImage]
  rw [if_neg (by rw [hhead, hn1, List.length_replicate]; omega), List.length_replicate, h7]

theorem handle_zeros {path : Path} {t : Wfs} (hloc : located s path = some a)
    (hlookup : afterLookup s path = t) (hfile : isDir t.data a = false)
    (hempty : loadWord t.data (a + 24) = 0) (hlo : 8 ≤ a) (hhi : a + 44 ≤ t.head)
    (hspace : t.head + 44 + n ≤ t.total_size) (hzero : ∀ x, t.head + 44 ≤ x → t.data x = 0) :
    handle env s (.write path (List.replicate n 0) 0) =
      .ok ({ t with data := zerosImage env t a n }, ⟨intOfSize n, none, [], []⟩) := by
  subst hlookup
  simp only [handle, plain, wfs_write, lookup_of_located hloc, hfile, hempty]
  rw [if_neg Bool.false_ne_true, if_neg (by omega),
    appendWrite_zeros hempty hlo hhi hspace hzero]

/-- A creation leaves what lies behind the new head as it was. -/
theorem create_frame (hc : Change env s L call ret s' L') (h : Rep s L) (hroom : Roomy s call)
    (hcreate : (creates call).isSome) {x : ℕ} (hx : s'.head ≤ x) : s'.data x = s.data x := by
  have hh := h.eight_le
  cases hc with
  | quiet hq hneg => rfl
  | @created _ path name mode dir d r hcall hres hin hspace hnumber =>
    have hfit := hroom.created h hcall hin hspace
    have hhead : loadWord (nodeImage env (sync s L) d name mode) 4 =
        s.head + 128 + d.bytes.length := nodeImage_head hh (by rw [sync_head]; omega)
    rw [Wfs.head] at hx
    dsimp only at hx
    exact nodeImage_frame (by rw [sync_head]; omega) hh
  | touched => cases hcreate
  | headed => cases hcreate
  | written => cases hcreate
  | missed => cases hcreate
  | unlinked => cases hcreate

end Zeros

/-- A disk of 8 GiB after `mknod("/a")`. -/
def wideDisk : Wfs := (next (zeroDisk 8589934592) mknodA).getD (zeroDisk 8589934592)

/-- `write("/a", zeros, n, 0)`. -/
def writeZeros (n : ℕ) : Event :=
  ⟨quietEnv, .write ⟨[slash, 97], zero_notMem_pathA⟩ (List.replicate n 0) 0⟩

theorem next_mknodA_wide : next (zeroDisk 8589934592) mknodA = some wideDisk := by
  have hsome : (next (zeroDisk 8589934592) mknodA).isSome = true := by decide +kernel
  obtain ⟨s, hs⟩ := Option.isSome_iff_exists.mp hsome
  rw [wideDisk, hs, Option.getD_some]

theorem wideDisk_rep : ∃ L, Rep wideDisk L ∧ ∀ x, 180 ≤ x → wideDisk.data x = 0 := by
  have hroom : Roomy (zeroDisk 8589934592) mknodA.call := by
    unfold Roomy
    decide +kernel
  obtain ⟨r, hr⟩ := next_some next_mknodA_wide
  have hrep := mkfs_rep (fun _ => 0) 8589934592 fun _ => 0
  obtain ⟨L, hc⟩ := handle_change hrep hroom hr
  refine ⟨L, hc.rep hrep hroom, fun x hx => ?_⟩
  have hhead : wideDisk.head = 180 := by decide +kernel
  rw [create_frame hc hrep hroom rfl (by omega), mkfs_outside (by omega)]

/-- The state after the write, with the head in 32 bits. -/
def wrapped (n : ℕ) : Wfs :=
  { afterLookup wideDisk [slash, 97] with
    data := zerosImage quietEnv (afterLookup wideDisk [slash, 97]) 136 n }

theorem handle_writeZeros {n : ℕ} (hn : n ≤ 4294967296) :
    handle quietEnv wideDisk (writeZeros n).call =
      .ok (wrapped n, ⟨intOfSize n, none, [], []⟩) := by
  obtain ⟨L, hrep, hzero⟩ := wideDisk_rep
  have hloc : located wideDisk [slash, 97] = some 136 := by decide +kernel
  have hdata : (afterLookup wideDisk [slash, 97]).data = wideDisk.data := by
    have hlook := lookup_of_located hloc
    rw [get_path_inode_rep hrep] at hlook
    split at hlook
    next => cases hlook
    next r hr =>
      simp only [Except.ok.injEq, Prod.mk.injEq] at hlook
      rw [← hlook.1, sync_data]
  have hhead : (afterLookup wideDisk [slash, 97]).head = 180 := by decide +kernel
  have htotal : (afterLookup wideDisk [slash, 97]).total_size = 8589934592 := by decide +kernel
  have hhi : 136 + 44 ≤ (afterLookup wideDisk [slash, 97]).head := by omega
  have hspace : (afterLookup wideDisk [slash, 97]).head + 44 + n ≤
      (afterLookup wideDisk [slash, 97]).total_size := by omega
  have hbehind : ∀ x, (afterLookup wideDisk [slash, 97]).head + 44 ≤ x →
      (afterLookup wideDisk [slash, 97]).data x = 0 := by
    intro x hx
    rw [hdata]
    exact hzero x (by omega)
  exact handle_zeros hloc rfl (by decide +kernel) (by decide +kernel) (by omega) hhi hspace hbehind

theorem next_writeZeros {n : ℕ} (hn : n ≤ 4294967296) :
    next wideDisk (writeZeros n) = some (wrapped n) := by
  rw [next, show (writeZeros n).env = quietEnv from rfl, handle_writeZeros hn]

theorem Consecutive.le {m : Mem} {a b : ℕ} {as : List ℕ} (h : Consecutive m a as b) : a ≤ b := by
  induction as generalizing a with
  | nil => exact le_of_eq h
  | cons x as ih =>
    have hrest := ih h.2
    omega

theorem appended_writeZeros (n : ℕ) : appended wideDisk (writeZeros n).call = 44 + n := by
  have hloc : located wideDisk [slash, 97] = some 136 := by decide +kernel
  have hfile : isDir wideDisk.data 136 = false := by decide +kernel
  have hempty : fileSize wideDisk 136 = 0 := by decide +kernel
  simp only [appended, writeZeros, hloc, hfile, hempty, List.length_replicate]
  simp

/-- On a disk of 8 GiB a write can move the 32-bit head around to 0, and a write at a negative
offset runs over the entries in front of the one it appends. -/
theorem tiling_broken :
    (∃ s, run (zeroDisk 8589934592) [mknodA, writeZeros 4294967072] = some s ∧
      Along (fun s e => s.head + appended s e.call ≤ s.total_size) (zeroDisk 8589934592)
        [mknodA, writeZeros 4294967072] ∧
      s.head = 0 ∧ ∀ as, ¬ ExactlyTiled s as) ∧
    ∃ s s', run (zeroDisk 1000) [mknodA] = some s ∧
      wfs_write_signed quietEnv s [slash, 97] (List.replicate 60 1) (-100) = .ok (s', 60) ∧
      s'.head ≤ 1000 ∧ ∀ as, ¬ ExactlyTiled s' as := by
  constructor
  · have hnext := next_writeZeros (n := 4294967072) (by omega)
    have hhead : (wrapped 4294967072).head = 0 := by decide +kernel
    refine ⟨wrapped 4294967072, ?_, ⟨?_, fun s hs => ⟨?_, fun _ _ => trivial⟩⟩, hhead,
      fun as hx => ?_⟩
    · rw [run, Runs.run, next_mknodA_wide, Option.bind_some, Runs.run, hnext]
      rfl
    · decide +kernel
    · rw [next_mknodA_wide] at hs
      cases hs
      have hwide : wideDisk.head = 180 ∧ wideDisk.total_size = 8589934592 := by decide +kernel
      rw [appended_writeZeros]
      omega
    · have hle := hx.consecutive.le
      omega
  · have hsome : ((run (zeroDisk 1000) [mknodA]).any fun s =>
        (wfs_write_signed quietEnv s [slash, 97] (List.replicate 60 1) (-100)).toOption.any
          fun p => decide (p.2 = 60 ∧ p.1.head ≤ 1000 ∧
            (cursors p.1.data p.1.head p.1.head 8).2 ≠ p.1.head)) = true := by decide +kernel
    obtain ⟨s, hs, hwritten⟩ := (Option.any_eq_true _ _).mp hsome
    obtain ⟨⟨s', ret⟩, hw, hwritten⟩ := Runs.exists_ok_of_any hwritten
    obtain ⟨hret, hhead, hstop⟩ := of_decide_eq_true hwritten
    subst hret
    exact ⟨s, s', hs, hw, hhead, fun as hx => hstop (congrArg Prod.snd hx.scanned)⟩

end WfsScan
