import OsProjects.WfsInodes
import OsProjects.WfsModels
import OsProjects.WfsRuns
import Mathlib.Data.List.Perm.Subperm

/-! # WFS refines a tree of directories

Every permitted call answers as the tree does, as long as the log has the room that the
handler asks for, and the image keeps modelling the tree. A write asks for more than it
appends.
-/
namespace WfsRefinement

open ByteMemory WfsLookup WfsHandlers WfsLog WfsPaths WfsAppend WfsChange WfsDentries WfsRuns
open DirectoryTree WfsTree WfsModels

/-- What the abstract answer keeps of a reply. -/
def observe (r : Reply) : Answer :=
  ⟨r.ret, r.stat.map fun st => (decide (st.st_mode &&& S_IFDIR ≠ 0), st.st_size), r.buf, r.names⟩

/-- The image of `s` models the tree; a directory with a name in it has had to fit. -/
structure Mirrors (s : Wfs) (t : Tree) : Prop where
  models : ∃ L ino, Rep s L ∧ Models (content L) ino (view t)
  ample : 31 ≤ s.total_size ∨ t = .dir []

section Resolve

variable {s : Wfs} {L : List Entry} {m : Mem} {ino : TreePath → ℕ} {t : Tree} {p q : TreePath}
  {x : Name} {names : List Name} {ds : List Dentry} {a : ℕ} {e : Entry} {sh : Shape Name UInt8}

/-- A node of the tree as it lies in the log. -/
structure Stored (L : List Entry) (ino : TreePath → ℕ) (p : TreePath) (sh : Shape Name UInt8)
    (a : ℕ) (e : Entry) : Prop where
  found : Found L a e
  number : e.number = ino p
  holds : Holds ino p sh (e.isDir, e.bytes)

theorem models_stored (hm : Models (content L) ino (view t)) (hp : view t p = some sh) :
    ∃ a e, Stored L ino p sh a e := by
  obtain ⟨c, hc, hh⟩ := hm.node p sh hp
  obtain ⟨a, e, hf, hn, rfl⟩ := content_some hc
  exact ⟨a, e, hf, hn, hh⟩

theorem stored_of_found (hm : Models (content L) ino (view t)) (hp : view t p = some sh)
    (hf : Found L a e) (hn : e.number = ino p) : Stored L ino p sh a e := by
  obtain ⟨c, hc, hh⟩ := hm.node p sh hp
  rw [← hn, content_found hf, Option.some.injEq] at hc
  exact ⟨hf, hn, hc ▸ hh⟩

theorem Stored.dentries (h : Stored L ino p (.dir names) a e) :
    e.isDir = true ∧ ∃ ds, e.bytes = contents ds ∧ Lists ino p names ds := by
  obtain ⟨ds, hc, hds⟩ := h.holds
  exact ⟨congrArg Prod.fst hc, ds, congrArg Prod.snd hc, hds⟩

theorem Stored.file {bytes : List UInt8} (h : Stored L ino p (.file bytes) a e) :
    e.isDir = false ∧ e.bytes = bytes :=
  ⟨congrArg Prod.fst h.holds, congrArg Prod.snd h.holds⟩

theorem lookupDentry_lists (he : EntryAt m a e) (hds : e.bytes = contents ds)
    (hl : Lists ino p names ds) :
    (∃ b, x ∈ names ∧ lookupDentry m a x.bytes = some b ∧
      loadLong m (b + 32) % 4294967296 = ino (p ++ [x])) ∨
    x ∉ names ∧ lookupDentry m a x.bytes = none := by
  rcases lookupDentry_dentries he hds x.clean with ⟨b, d, hb, hfind, henc⟩ | ⟨hb, hfind⟩
  · have hname : d.name = x.bytes := by simpa using List.find?_some hfind
    obtain ⟨hx, hn⟩ := hl.mem_names (List.mem_of_find?_eq_some hfind) hname
    have hsmall := d.small
    exact Or.inl ⟨b, hx, hb, by rw [loadLong_dentry henc, Nat.mod_eq_of_lt (by omega), hn]⟩
  · refine Or.inr ⟨fun hx => ?_, hb⟩
    have hmem : x.bytes ∈ ds.map Dentry.name := by
      rw [hl.names_eq]
      exact List.mem_map_of_mem hx
    obtain ⟨d, hd, hdx⟩ := List.mem_map.mp hmem
    have hne := List.find?_eq_none.mp hfind d hd
    simp [hdx] at hne

theorem walk_stored (h : Rep s L) (hm : Models (content L) ino (view t)) {r : TreePath}
    (hs : Found L a e) (hn : e.number = ino p) (hv : view t (p ++ r) = some sh) :
    ∃ b f, walkLog s.data L (r.map Name.bytes) a = .ok (some b) ∧
      Stored L ino (p ++ r) sh b f := by
  induction r generalizing p a e with
  | nil =>
    rw [List.append_nil] at hv ⊢
    exact ⟨a, e, rfl, stored_of_found hm hv hs hn⟩
  | cons x r ih =>
    rw [List.append_cons] at hv ⊢
    have hx : view t (p ++ [x]) ≠ none := view_prefix (q := r) (by rw [hv]; simp)
    obtain ⟨names, hdir⟩ := view_parent hx
    obtain ⟨_, ds, hds, hl⟩ := (stored_of_found hm hdir hs hn).dentries
    obtain ⟨sh', hsh'⟩ := Option.ne_none_iff_exists'.mp hx
    obtain ⟨b, f, hf⟩ := models_stored hm hsh'
    rcases lookupDentry_lists (x := x) (hs.entryAt h) hds hl with ⟨d, _, hd, hnum⟩ | ⟨hnot, _⟩
    · obtain ⟨b', f', hwalk, hf'⟩ := ih hf.found hf.number hv
      have hlast := hf.found.last
      rw [hf.number, ← hnum] at hlast
      refine ⟨b', f', ?_, hf'⟩
      rw [List.map_cons, walkLog, hd]
      dsimp only
      rw [hlast]
      dsimp only
      rw [if_pos hf.found.live]
      exact hwalk
    · exact absurd ((view_concat_of_dir hdir).mp hx) hnot

theorem resolve_root (h : Rep s L) (hm : Models (content L) ino (view t)) :
    ∃ a e, Found L a e ∧ e.number = ino [] ∧
      ∀ p, resolve s.data L (render p) = walkLog s.data L (p.map Name.bytes) a := by
  obtain ⟨names, htop⟩ := hm.top
  obtain ⟨a, e, hs⟩ := models_stored hm htop
  have hlast := hs.found.last
  rw [hs.number, hm.root] at hlast
  refine ⟨a, e, hs.found, hs.number, fun p => ?_⟩
  rw [resolve_eq, hlast, strtok_render]
  dsimp only
  rw [if_neg]
  rw [(hs.found.entryAt h).isDir_eq, hs.dentries.1]
  simp [hs.found.live]

theorem resolve_stored (h : Rep s L) (hm : Models (content L) ino (view t))
    (hp : view t p = some sh) :
    ∃ a e, resolve s.data L (render p) = .ok (some a) ∧ Stored L ino p sh a e := by
  obtain ⟨a, e, hf, hn, hres⟩ := resolve_root h hm
  obtain ⟨b, f, hwalk, hs⟩ := walk_stored (p := []) (r := p) h hm hf hn hp
  exact ⟨b, f, by rw [hres, hwalk], hs⟩

theorem resolve_missing (h : Rep s L) (hm : Models (content L) ino (view t))
    (hq : view t q = some (.dir names)) (hx : view t (q ++ [x]) = none) :
    resolve s.data L (render (q ++ [x])) = .ok none := by
  obtain ⟨a, e, hres, hs⟩ := resolve_stored h hm hq
  obtain ⟨_, ds, hds, hl⟩ := hs.dentries
  rw [render] at hres
  rw [resolve_child splitLast_render hres, if_neg x.nonempty, walkLog]
  rcases lookupDentry_lists (x := x) (hs.found.entryAt h) hds hl with ⟨d, hmem, _⟩ | ⟨_, hnone⟩
  · exact absurd hx ((view_concat_of_dir hq).mpr hmem)
  · rw [hnone]

theorem reached_parent (hr : Reached t (q ++ [x])) : ∃ names, view t q = some (.dir names) := by
  have hdir := hr q.length (by simp)
  rw [List.take_left, dirAt] at hdir
  split at hdir
  next names hnames => exact ⟨names, hnames⟩
  next => cases hdir

/-- Lookup of a permitted path follows the tree. -/
theorem resolve_view (h : Rep s L) (hm : Models (content L) ino (view t)) (hr : Reached t p) :
    view t p = none ∧ resolve s.data L (render p) = .ok none ∨
    ∃ sh a e, view t p = some sh ∧ resolve s.data L (render p) = .ok (some a) ∧
      Stored L ino p sh a e := by
  cases hp : view t p with
  | some sh =>
    obtain ⟨a, e, hres, hs⟩ := resolve_stored h hm hp
    exact Or.inr ⟨sh, a, e, rfl, hres, hs⟩
  | none =>
    refine Or.inl ⟨rfl, ?_⟩
    induction p using List.reverseRecOn with
    | nil =>
      obtain ⟨names, htop⟩ := hm.top
      rw [htop] at hp
      cases hp
    | append_singleton q x _ =>
      obtain ⟨names, hq⟩ := reached_parent hr
      exact resolve_missing h hm hq hp

end Resolve

section Answers

variable {env : Env} {s : Wfs} {L : List Entry} {ino : TreePath → ℕ} {t : Tree} {p q : TreePath}
  {x : Name} {names : List Name}

/-- The handler returns, the answer is the tree's, and the new image models the new tree. -/
def Simulated (env : Env) (s : Wfs) (t : Tree) (c : TreeCall) : Prop :=
  ∃ s' r, handle env s (toCall c) = .ok (s', r) ∧ observe r = (treeStep t c).2 ∧
    Mirrors s' (treeStep t c).1

theorem mirrors_sync (h : Rep s L) (hm : Models (content L) ino (view t))
    (ha : 31 ≤ s.total_size ∨ t = .dir []) : Mirrors (sync s L) t :=
  ⟨⟨L, ino, h.sync, hm⟩, ha⟩

theorem getattr_simulated (h : Mirrors s t) (hr : Reached t p) :
    Simulated env s t (.getattr p) := by
  obtain ⟨⟨L, ino, hrep, hm⟩, ha⟩ := h
  have hmirror := mirrors_sync hrep hm ha
  rcases resolve_view hrep hm hr with ⟨hv, hres⟩ | ⟨sh, a, e, hv, hres, hs⟩
  · refine ⟨sync s L, ⟨-ENOENT, none, [], []⟩, ?_, ?_, ?_⟩
    · simp only [toCall, handle, wfs_getattr, pathOf, get_path_inode_rep hrep, hres]
    · simp only [treeStep, hv]
      rfl
    · simp only [treeStep, hv]
      exact hmirror
  · have he := hs.found.entryAt hrep
    refine ⟨sync s L, ⟨0, some ⟨e.inode.uid, e.inode.gid, e.inode.mtime, e.inode.mode,
      e.inode.links, e.inode.size⟩, [], []⟩, ?_, ?_, ?_⟩
    · simp only [toCall, handle, wfs_getattr, pathOf, get_path_inode_rep hrep, hres, sync_data,
        he.inode]
    · have hstat : (e.isDir, e.bytes.length) = statOf sh := by
        cases sh with
        | file bytes =>
          obtain ⟨hfile, hbytes⟩ := hs.file
          rw [hfile, hbytes, statOf]
        | dir names =>
          obtain ⟨hdir, ds, hds, hl⟩ := hs.dentries
          have hlen := congrArg List.length hl.names_eq
          rw [List.length_map, List.length_map] at hlen
          rw [hdir, hds, contents_length, hlen, statOf]
      simp only [treeStep, hv, observe, Option.map_some, he.size, ← hstat]
      rfl
    · simp only [treeStep, hv]
      exact hmirror

theorem fillNames_dentries {m : Mem} {limit k a : ℕ} {full : ℕ → Bool} {ds : List Dentry}
    (h : DentriesAt m a ds) (hlimit : 31 ≤ limit ∨ ds = []) :
    fillNames m limit full ds.length k a = handed full k (ds.map Dentry.name) := by
  induction ds generalizing a k with
  | nil => rfl
  | cons d ds ih =>
    have hlong : 31 ≤ limit := by simpa using hlimit
    have hshort := d.short
    rw [List.length_cons, fillNames, List.map_cons, handed, cstring_dentry h.1 (by omega),
      ih h.2 (Or.inl hlong)]

theorem view_empty (h : view (.dir [] : Tree) p = some (.dir names)) : names = [] := by
  cases p with
  | nil =>
    cases h
    rfl
  | cons x p => cases h

theorem readdir_simulated {full : ℕ → Bool} (h : Mirrors s t) (hr : Reached t p) :
    Simulated env s t (.readdir p full) := by
  obtain ⟨⟨L, ino, hrep, hm⟩, ha⟩ := h
  have hmirror := mirrors_sync hrep hm ha
  rcases resolve_view hrep hm hr with ⟨hv, hres⟩ | ⟨sh, a, e, hv, hres, hs⟩
  · refine ⟨sync s L, ⟨-ENOENT, none, [], []⟩, ?_, ?_, ?_⟩
    · simp only [toCall, handle, wfs_readdir, pathOf, get_path_inode_rep hrep, hres]
    · simp only [treeStep, hv]
      rfl
    · simp only [treeStep, hv]
      exact hmirror
  · have he := hs.found.entryAt hrep
    cases sh with
    | file bytes =>
      refine ⟨sync s L, ⟨-ENOENT, none, [], []⟩, ?_, ?_, ?_⟩
      · simp only [toCall, handle, wfs_readdir, pathOf, get_path_inode_rep hrep, hres, sync_data,
          he.isDir_eq, hs.file.1, if_true]
      · simp only [treeStep, hv]
        rfl
      · simp only [treeStep, hv]
        exact hmirror
    | dir names =>
      obtain ⟨hdir, ds, hds, hl⟩ := hs.dentries
      have hat : DentriesAt s.data (a + 44) ds := by
        have hbytes := he.bytes
        rw [hds, contents_length] at hbytes
        exact dentriesAt_iff.mpr hbytes
      have hlimit : 31 ≤ s.total_size ∨ ds = [] := by
        refine ha.imp_right fun hempty => ?_
        rw [hempty] at hv
        have hnames := hl.names_eq
        rw [view_empty hv, List.map_nil, List.map_eq_nil_iff] at hnames
        exact hnames
      have hfuel : (40 * ds.length + 39) / 40 = ds.length := by omega
      refine ⟨sync s L, ⟨0, none, [], handed full 0 (names.map Name.bytes)⟩, ?_, ?_, ?_⟩
      · simp only [toCall, handle, wfs_readdir, pathOf, get_path_inode_rep hrep, hres, sync_data,
          sync_total, he.isDir_eq, hdir, he.size_eq, hds, contents_length, hfuel,
          fillNames_dentries hat hlimit, hl.names_eq, Bool.true_eq_false, if_false]
      · simp only [treeStep, hv]
        rfl
      · simp only [treeStep, hv]
        exact hmirror

theorem loadBytes_window {m : Mem} {a offset n : ℕ} {bytes : List UInt8}
    (h : loadBytes m a bytes.length = bytes) (hn : offset + n ≤ bytes.length) :
    loadBytes m (a + offset) n = (bytes.drop offset).take n := by
  have hsplit : bytes.length = offset + (n + (bytes.length - offset - n)) := by omega
  rw [hsplit, loadBytes_append, loadBytes_append] at h
  rw [← h, List.drop_left' loadBytes_length, List.take_left' loadBytes_length]

theorem read_simulated {size offset : ℕ} (h : Mirrors s t) (hr : Reached t p)
    (hsize : ∀ bytes, view t p = some (.file bytes) →
      min size (bytes.length - offset) < 2147483648) :
    Simulated env s t (.read p size offset) := by
  obtain ⟨⟨L, ino, hrep, hm⟩, ha⟩ := h
  have hmirror := mirrors_sync hrep hm ha
  rcases resolve_view hrep hm hr with ⟨hv, hres⟩ | ⟨sh, a, e, hv, hres, hs⟩
  · refine ⟨sync s L, ⟨-ENOENT, none, [], []⟩, ?_, ?_, ?_⟩
    · simp only [toCall, handle, pathOf, read_rep hrep, hres]
    · simp only [treeStep, hv]
      rfl
    · simp only [treeStep, hv]
      exact hmirror
  · have he := hs.found.entryAt hrep
    cases sh with
    | dir names =>
      refine ⟨sync s L, ⟨-1, none, [], []⟩, ?_, ?_, ?_⟩
      · simp only [toCall, handle, pathOf, read_rep hrep, hres, he.isDir_eq, hs.dentries.1, if_true]
      · simp only [treeStep, hv]
        rfl
      · simp only [treeStep, hv]
        exact hmirror
    | file bytes =>
      obtain ⟨hfile, rfl⟩ := hs.file
      by_cases hoff : offset ≥ e.bytes.length
      · have hnil : e.bytes.drop offset = [] := List.drop_eq_nil_iff.mpr hoff
        refine ⟨sync s L, ⟨0, none, [], []⟩, ?_, ?_, ?_⟩
        · simp only [toCall, handle, pathOf, read_rep hrep, hres, he.isDir_eq, hfile, he.size_eq,
            Bool.false_eq_true, if_false, if_pos hoff]
        · simp only [treeStep, hv, hnil, List.take_nil]
          rfl
        · simp only [treeStep, hv]
          exact hmirror
      · obtain ⟨n, hn⟩ : ∃ n, n = if offset + size > e.bytes.length then e.bytes.length - offset
          else size := ⟨_, rfl⟩
        have hbound : offset + n ≤ e.bytes.length ∧ n ≤ min size (e.bytes.length - offset) := by
          rw [hn]
          split_ifs <;> omega
        have hout : (e.bytes.drop offset).take size = (e.bytes.drop offset).take n := by
          rw [hn]
          split_ifs with hlong
          · rw [List.take_of_length_le (by rw [List.length_drop]; omega),
              List.take_of_length_le (by rw [List.length_drop])]
          · rfl
        have hbytes := loadBytes_window he.bytes hbound.1
        have hlen : ((e.bytes.drop offset).take n).length = n := by
          rw [List.length_take, List.length_drop]
          omega
        refine ⟨{ sync s L with data := storeWord s.data (a + 28) (env.time 0) },
          ⟨intOfSize n, none, (e.bytes.drop offset).take n, []⟩, ?_, ?_, ?_⟩
        · simp only [toCall, handle, pathOf, read_rep hrep, hres, he.isDir_eq, hfile, he.size_eq,
            Bool.false_eq_true, if_false, if_neg hoff, ← hn, hbytes]
        · simp only [treeStep, hv, hout, hlen, observe, intOfSize_of_lt (lt_of_le_of_lt hbound.2 (hsize _ hv)),
            Option.map_none]
        · simp only [treeStep, hv]
          refine ⟨⟨modifyAt (touchInode (env.time 0)) a L 8, ino, ?_, ?_⟩, ha⟩
          · exact rep_modify hrep.sync hs.found (fun _ => rfl) (fun _ => rfl) (fun _ => rfl)
              loadInode_storeWord_atime fun x _ _ hx => storeWord_outside (by omega)
          · rw [content_touch]
            exact hm

/-- A tree of fewer than 256 nodes leaves a number free. -/
theorem exists_free (hm : Models (content L) ino (view t)) (hcount : (paths t).length < 256) :
    ∃ n < 256, table L n = 0 := by
  by_contra hnone
  push Not at hnone
  have hsub : List.range 256 ⊆ (paths t).map ino := by
    intro n hn
    have hlive : content L n ≠ none := fun hc =>
      hnone n (List.mem_range.mp hn) (table_of_content hc)
    obtain ⟨p, hp, rfl⟩ := hm.cover n hlive
    exact List.mem_map_of_mem (mem_paths hp)
  have hle := (List.subperm_of_subset List.nodup_range hsub).length_le
  rw [List.length_range, List.length_map] at hle
  omega

theorem nodeNumber_spare {d : Entry} (hfree : ∃ n < 256, table L n = 0) :
    nodeNumber (sync s L) d < 256 ∧ table L (nodeNumber (sync s L) d) = 0 := by
  obtain ⟨n, hn, hzero⟩ := hfree
  rw [nodeNumber, sync_all_le]
  cases hf : firstFree (table L) with
  | none => exact absurd hzero (WfsInodes.firstFree_none hf n hn)
  | some i => exact ⟨firstFree_lt hf, WfsInodes.firstFree_some hf⟩

theorem Stored.length {a : ℕ} {e : Entry} (h : Stored L ino p (.dir names) a e) :
    e.bytes.length = 40 * names.length := by
  obtain ⟨_, ds, hds, hl⟩ := h.dentries
  have hlen := congrArg List.length hl.names_eq
  rw [List.length_map, List.length_map] at hlen
  rw [hds, contents_length, hlen]

theorem create_models {mode : ℕ} {n : Node Name UInt8} (hrep : Rep s L)
    (hm : Models (content L) ino (view t)) (hq : view t q = some (.dir names))
    (hx : view t (q ++ [x]) = none) (hcount : (paths t).length < 256) (hleaf : Leaf n)
    (hempty : ∀ names, shape n = .dir names → names.Nodup) (hmode : mode < 4294967296)
    (hnode : ∀ ino' p, Holds ino' p (shape n) (decide (mode &&& S_IFDIR ≠ 0), []))
    (hspace : s.head + 44 ≤ s.total_size)
    (hroom : s.head + 128 + 40 * names.length < 4294967296) :
    ∃ s' L' ino', create env s (render (q ++ [x])) mode = .ok (s', 0) ∧
      s'.total_size = s.total_size ∧ Rep s' L' ∧
      Models (content L') ino' (view (update (addChild x n) q t)) := by
  obtain ⟨dir, d, hdir, hs⟩ := resolve_stored hrep hm hq
  obtain ⟨hisDir, ds, hds, hl⟩ := hs.dentries
  have hlo := hs.found.lower hrep
  have hup := hs.found.upper hrep
  have hed : EntryAt (sync s L).data dir d := hs.found.entryAt hrep.sync
  have hroom' : (sync s L).head + 128 + d.bytes.length < 4294967296 := by
    rw [sync_head, hs.length]
    exact hroom
  obtain ⟨hnumber, hfree⟩ := nodeNumber_spare (s := s) (d := d) (exists_free hm hcount)
  obtain ⟨number, hnum⟩ : ∃ number, number = nodeNumber (sync s L) d := ⟨_, rfl⟩
  rw [← hnum] at hnumber hfree
  have hnew : x ∉ names := fun hmem => (view_concat_of_dir hq).mpr hmem hx
  refine ⟨{ sync s L with
      data := nodeImage env (sync s L) d x.bytes mode
      all_le := Function.update (table L) (nodeNumber (sync s L) d)
        (s.head + 84 + d.bytes.length) }, _, Function.update ino (q ++ [x]) number, ?_, rfl,
    @nodeImage_rep env _ _ _ mode (s.head + 84 + d.bytes.length) _ x.bytes hrep.sync hs.found
      hisDir hmode hroom' (hnum ▸ hnumber), ?_⟩
  · rw [render] at hdir
    rw [create_rep hrep, resolve_missing hrep hm hq hx, splitLast_render]
    simp only [hdir, (hs.found.entryAt hrep).isDir_eq, hisDir, Bool.true_eq_false, if_false]
    rw [if_neg (by omega), appendNode_eq hed hlo (by rw [sync_head, Entry.span]; omega) hroom',
      if_pos (hnum ▸ hnumber)]
    rfl
  · rw [List.append_cons, content_concat (e := nodeEntry env _ mode) rfl,
      content_concat (e := dirEntry _ d _) hs.found.live, dirEntry_number,
      dirEntry_isDir, hs.number, hisDir, nodeEntry_number, ← hnum, view_addChild hq hx hleaf]
    have hbytes : (dirEntry (env.time 0) d (d.bytes ++ nameField x.bytes ++ leBytes 8 number)).bytes =
        contents (ds ++ [⟨x.bytes, number, x.short, x.clean, hnumber⟩]) := by
      rw [contents_concat, ← hds]
      rfl
    rw [hbytes]
    exact hm.create hq hl hnew hx rfl (content_of_table hrep hfree) (hnode _ _) hempty

theorem write_simulated {buf : List UInt8} {offset : ℕ} (h : Mirrors s t) (hr : Reached t p)
    (hspace : ∀ bytes, view t p = some (.file bytes) → offset ≤ bytes.length →
      s.head + 44 + bytes.length + buf.length ≤ s.total_size ∧
      s.head + 44 + (splice bytes offset buf).length < 4294967296 ∧ buf.length < 2147483648) :
    Simulated env s t (.write p buf offset) := by
  obtain ⟨⟨L, ino, hrep, hm⟩, ha⟩ := h
  have hmirror := mirrors_sync hrep hm ha
  rcases resolve_view hrep hm hr with ⟨hv, hres⟩ | ⟨sh, a, e, hv, hres, hs⟩
  · refine ⟨sync s L, ⟨-ENOENT, none, [], []⟩, ?_, ?_, ?_⟩
    · simp only [toCall, handle, plain, pathOf, write_rep hrep, hres]
    · simp only [treeStep, hv]
      rfl
    · simp only [treeStep, hv]
      exact hmirror
  · have he := hs.found.entryAt hrep
    cases sh with
    | dir names =>
      refine ⟨sync s L, ⟨-1, none, [], []⟩, ?_, ?_, ?_⟩
      · simp only [toCall, handle, plain, pathOf, write_rep hrep, hres, he.isDir_eq,
          hs.dentries.1, if_true]
      · simp only [treeStep, hv]
        rfl
      · simp only [treeStep, hv]
        exact hmirror
    | file bytes =>
      obtain ⟨hfile, rfl⟩ := hs.file
      by_cases hoff : offset > e.bytes.length
      · refine ⟨sync s L, ⟨-EFBIG, none, [], []⟩, ?_, ?_, ?_⟩
        · simp only [toCall, handle, plain, pathOf, write_rep hrep, hres, he.isDir_eq, hfile,
            he.size_eq, Bool.false_eq_true, if_false, if_pos hoff]
        · simp only [treeStep, hv, if_pos hoff]
          rfl
        · simp only [treeStep, hv, if_pos hoff]
          exact hmirror
      · obtain ⟨hfits, hroom, hsize⟩ := hspace e.bytes hv (not_lt.mp hoff)
        have hup := hs.found.upper hrep
        have hentry : EntryAt (sync s L).data a e := he
        refine ⟨{ sync s L with data := writeImage env (sync s L) e buf offset },
          ⟨intOfSize buf.length, none, [], []⟩, ?_, ?_, ?_⟩
        · simp only [toCall, handle, plain, pathOf, write_rep hrep, hres, he.isDir_eq, hfile,
            he.size_eq, Bool.false_eq_true, if_false, if_neg hoff]
          rw [appendWrite_eq hentry (hs.found.lower hrep) (by rw [sync_head, Entry.span]; omega)
            (not_lt.mp hoff) fun _ => hroom, sync_head, sync_total, if_neg (by omega)]
        · simp only [treeStep, hv, if_neg hoff, intOfSize_of_lt hsize]
          rfl
        · simp only [treeStep, hv, if_neg hoff]
          refine ⟨⟨L ++ [fileEntry env e buf offset], ino, ?_, ?_⟩, Or.inl ?_⟩
          · exact writeImage_rep hrep.sync hs.found hfile (not_lt.mp hoff) hroom
          · rw [content_concat (e := fileEntry env e buf offset) hs.found.live, fileEntry_number,
              fileEntry_isDir, hs.number, hfile, view_replace hv]
            exact hm.write hv
          · rw [sync_total]
            omega

theorem unlink_simulated {bytes : List UInt8} (h : Mirrors s t)
    (hq : view t q = some (.dir names)) (hx : view t (q ++ [x]) = some (.file bytes))
    (hspace : s.head + 44 + 40 * (names.length - 1) ≤ s.total_size)
    (hroom : s.head + 44 + 40 * (names.length - 1) < 4294967296) :
    Simulated env s t (.unlink q x) := by
  obtain ⟨⟨L, ino, hrep, hm⟩, _⟩ := h
  obtain ⟨dir, d, hdir, hd⟩ := resolve_stored hrep hm hq
  obtain ⟨file, e, hres, hf⟩ := resolve_stored hrep hm hx
  obtain ⟨hisDir, ds, hds, hl⟩ := hd.dentries
  have hdup := hd.found.upper hrep
  have hfup := hf.found.upper hrep
  have hed : EntryAt (sync s L).data dir d := hd.found.entryAt hrep.sync
  have hef : EntryAt (sync s L).data file e := hf.found.entryAt hrep.sync
  have hdspan : dir + d.span ≤ (sync s L).head := by
    rw [sync_head, Entry.span]
    omega
  have hfound : (shrunk env (sync s L) dir d x.bytes).2 = true := by
    rw [(shrunk_dentries hed hdspan hds x.clean).2, List.any_eq_true]
    have hmem : x.bytes ∈ ds.map Dentry.name := by
      rw [hl.names_eq]
      exact List.mem_map_of_mem ((view_concat_of_dir hq).mp (by rw [hx]; simp))
    obtain ⟨y, hy, hyx⟩ := List.mem_map.mp hmem
    exact ⟨y, hy, decide_eq_true hyx⟩
  have hroom' : (sync s L).head + 44 + (d.bytes.length - 40) < 4294967296 := by
    rw [sync_head, hd.length]
    omega
  refine ⟨_, ⟨0, none, [], []⟩, ?_, rfl, ⟨⟨_, ino,
    @unlinkImage_rep env _ _ _ _ _ _ _ hrep.sync hf.found hd.found hisDir hfound hroom', ?_⟩,
    Or.inl ?_⟩⟩
  · rw [render] at hdir
    simp only [toCall, handle, plain, pathOf]
    rw [unlink_rep hrep, hres, splitLast_render]
    simp only [hdir, (hd.found.entryAt hrep).isDir_eq, hisDir, Bool.true_eq_false, if_false]
    rw [removeDentry_eq hed hdspan hef (hf.found.lower hrep) (by rw [sync_head, Entry.span]; omega)
      (hrep.dirs d hd.found.mem hisDir) fun _ => hroom', if_pos hfound]
  · rw [content_concat (e := dirEntry _ d _) hd.found.live, dirEntry_number, dirEntry_isDir,
      hd.number, hisDir, content_delete hrep hf.found, hf.number]
    simp only [treeStep]
    rw [view_removeChild hq hx]
    have hbytes : (dirEntry (env.time 0) d (shrunkBytes env (sync s L) dir d x.bytes)).bytes =
        contents (ds.filter fun d => d.name ≠ x.bytes) :=
      shrunkBytes_dentries hed hdspan hds x.clean (hl.nodup (hm.distinct q names hq)) hfound
    rw [hbytes]
    exact hm.unlink hq hl (by rw [hx]; simp)
  · rw [sync_total]
    omega

end Answers

/-- What the space tests ask for: the appended bytes, where a write counts the old and the
new bytes in full, whatever part of the old ones the new ones replace. -/
def reserved (s : Wfs) : Call → ℕ
  | .write path buf offset =>
    match located s path with
    | none => 0
    | some a =>
      if isDir s.data a ∨ offset > fileSize s a then 0 else 44 + fileSize s a + buf.length
  | call => appended s call

/-- A permitted call whose append, if there is one, has the space `need` says it takes. -/
def Admissible (need : Wfs → Call → ℕ) (s : Wfs) (t : Tree) (c : TreeCall) : Prop :=
  Permitted t c ∧ (need s (toCall c) ≠ 0 → s.head + need s (toCall c) ≤ s.total_size)

/-- The bytes a call gets to move. -/
def moved (s : Wfs) : Call → ℕ
  | .read path size offset =>
    match located s path with
    | none => 0
    | some a => if isDir s.data a then 0 else min size (fileSize s a - offset)
  | .write path buf offset =>
    match located s path with
    | none => 0
    | some a => if isDir s.data a ∨ offset > fileSize s a then 0 else buf.length
  | _ => 0

/-- The head stays a 32-bit word and counts stay C ints. -/
def Narrow (s : Wfs) (c : TreeCall) : Prop :=
  Roomy s (toCall c) ∧ moved s (toCall c) < 2147483648

structure TreeEvent where
  env : Env
  call : TreeCall

def TreeEvent.event (e : TreeEvent) : Event := ⟨e.env, toCall e.call⟩

/-- `P` holds at every step of the image and the tree side by side. -/
def AlongBoth (P : Wfs → Tree → TreeCall → Prop) (s : Wfs) (t : Tree) : List TreeEvent → Prop
  | [] => True
  | e :: es => P s t e.call ∧
      ∀ s', next s e.event = some s' → AlongBoth P s' (treeStep t e.call).1 es

/-- What the handlers answer to a run, if none of them faults. -/
def answers (s : Wfs) : List TreeEvent → Option (List Answer)
  | [] => some []
  | e :: es =>
    match handle e.env s (toCall e.call) with
    | .error _ => none
    | .ok (s', r) => (answers s' es).map (observe r :: ·)

section Refinement

variable {env : Env} {s : Wfs} {L : List Entry} {ino : TreePath → ℕ} {t : Tree} {p q : TreePath}
  {x : Name} {names : List Name} {c : TreeCall}

theorem createLength_stored (h : Rep s L) (hm : Models (content L) ino (view t))
    (hq : view t q = some (.dir names)) :
    createLength s (render (q ++ [x])) = 128 + 40 * names.length := by
  obtain ⟨dir, d, hdir, hs⟩ := resolve_stored h hm hq
  have he := hs.found.entryAt h
  rw [render] at hdir
  rw [createLength, parentDir_of_resolve h splitLast_render hdir (he.isDir_eq.trans hs.dentries.1)]
  simp only [fileSize, he.size_eq, hs.length]

theorem reserved_write (h : Rep s L) (hm : Models (content L) ino (view t)) (buf : List UInt8)
    {bytes : List UInt8} {offset : ℕ} (hp : view t p = some (.file bytes)) (hoff : offset ≤ bytes.length) :
    reserved s (.write (pathOf p) buf offset) = 44 + bytes.length + buf.length := by
  obtain ⟨a, e, hres, hs⟩ := resolve_stored h hm hp
  obtain ⟨hfile, rfl⟩ := hs.file
  have he := hs.found.entryAt h
  simp only [reserved, pathOf, located_of_resolve h hres, fileSize, he.size_eq, he.isDir_eq]
  rw [if_neg (by simp [hfile, hoff])]

theorem moved_read (h : Rep s L) (hm : Models (content L) ino (view t)) (size offset : ℕ)
    {bytes : List UInt8} (hp : view t p = some (.file bytes)) :
    moved s (.read (pathOf p) size offset) = min size (bytes.length - offset) := by
  obtain ⟨a, e, hres, hs⟩ := resolve_stored h hm hp
  obtain ⟨hfile, rfl⟩ := hs.file
  have he := hs.found.entryAt h
  simp only [moved, pathOf, located_of_resolve h hres, fileSize, he.size_eq, he.isDir_eq]
  rw [if_neg (by simp [hfile])]

theorem moved_write (h : Rep s L) (hm : Models (content L) ino (view t)) (buf : List UInt8)
    {bytes : List UInt8} {offset : ℕ} (hp : view t p = some (.file bytes))
    (hoff : offset ≤ bytes.length) : moved s (.write (pathOf p) buf offset) = buf.length := by
  obtain ⟨a, e, hres, hs⟩ := resolve_stored h hm hp
  obtain ⟨hfile, rfl⟩ := hs.file
  have he := hs.found.entryAt h
  simp only [moved, pathOf, located_of_resolve h hres, fileSize, he.size_eq, he.isDir_eq]
  rw [if_neg (by simp [hfile, hoff])]

/-- A write that passes the space test keeps the head in its word. -/
theorem roomy_write (h : Rep s L) (hm : Models (content L) ino (view t)) {buf : List UInt8}
    {bytes : List UInt8} {offset : ℕ} (hp : view t p = some (.file bytes))
    (hoff : offset ≤ bytes.length) (hroom : Roomy s (.write (pathOf p) buf offset))
    (hspace : s.head + 44 + bytes.length + buf.length ≤ s.total_size) :
    s.head + 44 + (splice bytes offset buf).length < 4294967296 := by
  obtain ⟨a, e, hres, hs⟩ := resolve_stored h hm hp
  obtain ⟨hfile, rfl⟩ := hs.file
  exact hroom.written h hres hs.found hfile hoff hspace

theorem appended_unlink_stored (h : Rep s L) (hm : Models (content L) ino (view t))
    {bytes : List UInt8} (hq : view t q = some (.dir names))
    (hx : view t (q ++ [x]) = some (.file bytes)) :
    appended s (.unlink (pathOf (q ++ [x]))) = 44 + 40 * (names.length - 1) := by
  obtain ⟨dir, d, hdir, hs⟩ := resolve_stored h hm hq
  obtain ⟨file, e, hres, hf⟩ := resolve_stored h hm hx
  obtain ⟨hisDir, ds, hds, hl⟩ := hs.dentries
  rw [render] at hdir
  have hin : InDir s L (pathOf (q ++ [x])) x.bytes dir d :=
    ⟨⟨_, splitLast_render, hdir⟩, hs.found, hisDir⟩
  have hmem : x ∈ names := (view_concat_of_dir hq).mp (by rw [hx]; simp)
  rcases lookupDentry_lists (x := x) (hs.found.entryAt h) hds hl with ⟨b, _, hb, _⟩ | ⟨hnot, _⟩
  · rw [appended_unlink h hres hin, hb, hs.length]
    simp only [Option.isSome_some, if_true]
    omega
  · exact absurd hmem hnot

theorem create_simulated {mode : ℕ} {n : Node Name UInt8} (h : Mirrors s t)
    (hr : Reached t (q ++ [x])) (hx : view t (q ++ [x]) = none) (hcount : (paths t).length < 256)
    (hleaf : Leaf n) (hempty : ∀ names, shape n = .dir names → names.Nodup)
    (hmode : mode < 4294967296)
    (hnode : ∀ ino' p, Holds ino' p (shape n) (decide (mode &&& S_IFDIR ≠ 0), []))
    (hspace : createLength s (render (q ++ [x])) ≠ 0 →
      s.head + createLength s (render (q ++ [x])) ≤ s.total_size)
    (hroom : s.head + 44 ≤ s.total_size →
      s.head + createLength s (render (q ++ [x])) < 4294967296) :
    ∃ s', create env s (render (q ++ [x])) mode = .ok (s', 0) ∧
      Mirrors s' (update (addChild x n) q t) := by
  obtain ⟨⟨L, ino, hrep, hm⟩, _⟩ := h
  obtain ⟨names, hq⟩ := reached_parent hr
  rw [createLength_stored hrep hm hq] at hspace hroom
  have hfits := hspace (by omega)
  have hroom := hroom (by omega)
  obtain ⟨s', L', ino', hcreate, htotal, hrep', hm'⟩ := @create_models env _ _ _ _ _ _ _ _ _ hrep hm hq hx
    hcount hleaf hempty hmode hnode (by omega) (by omega)
  exact ⟨s', hcreate, ⟨L', ino', hrep', hm'⟩, Or.inl (by omega)⟩

theorem step_simulated (h : Mirrors s t) (hadm : Admissible reserved s t c) (hnarrow : Narrow s c) :
    Simulated env s t c := by
  obtain ⟨hperm, hspace⟩ := hadm
  obtain ⟨hroom, hsize⟩ := hnarrow
  cases c with
  | getattr p => exact getattr_simulated h hperm
  | mknod q x =>
    obtain ⟨s', hcreate, hmirror⟩ := @create_simulated env _ _ _ _ S_IFREG (.file [])
      h hperm.1 hperm.2.1 hperm.2.2 leaf_file (fun ns hns => by cases hns)
      (by decide) (fun _ _ => rfl) hspace fun hfit => hroom (decide_eq_false (not_lt.mpr hfit))
    refine ⟨s', ⟨0, none, [], []⟩, ?_, rfl, hmirror⟩
    simp only [toCall, handle, wfs_mknod, pathOf, hcreate, plain]
  | mkdir q x =>
    obtain ⟨s', hcreate, hmirror⟩ := @create_simulated env _ _ _ _ S_IFDIR (.dir [])
      h hperm.1 hperm.2.1 hperm.2.2 leaf_empty
      (fun ns hns => by cases hns; exact List.nodup_nil) (by decide)
      (fun _ _ => ⟨[], rfl, rfl⟩) hspace fun hfit => hroom (decide_eq_false (not_lt.mpr hfit))
    refine ⟨s', ⟨0, none, [], []⟩, ?_, rfl, hmirror⟩
    simp only [toCall, handle, wfs_mkdir, pathOf, hcreate, plain]
  | read p size offset =>
    obtain ⟨L, ino, hrep, hm⟩ := h.models
    refine read_simulated h hperm fun bytes hp => ?_
    rw [← moved_read hrep hm size offset hp]
    exact hsize
  | write p buf offset =>
    obtain ⟨L, ino, hrep, hm⟩ := h.models
    refine write_simulated h hperm fun bytes hp hoff => ?_
    rw [toCall, reserved_write hrep hm buf hp hoff] at hspace
    rw [toCall, moved_write hrep hm buf hp hoff] at hsize
    have hfits : s.head + 44 + bytes.length + buf.length ≤ s.total_size := by
      have := hspace (by omega)
      omega
    exact ⟨hfits, roomy_write hrep hm hp hoff hroom hfits, hsize⟩
  | readdir p full => exact readdir_simulated h hperm
  | unlink q x =>
    obtain ⟨hr, bytes, hx⟩ := hperm
    obtain ⟨L, ino, hrep, hm⟩ := h.models
    obtain ⟨names, hq⟩ := reached_parent hr
    have hneed : reserved s (toCall (.unlink q x)) = 44 + 40 * (names.length - 1) :=
      appended_unlink_stored hrep hm hq hx
    have hfit32 : s.head + reserved s (toCall (.unlink q x)) < 4294967296 := hroom rfl
    rw [hneed] at hspace hfit32
    have hfits := hspace (by omega)
    exact unlink_simulated h hq hx (by omega) (by omega)

theorem answers_eq {es : List TreeEvent} (h : Mirrors s t)
    (hadm : AlongBoth (fun s t c => Admissible reserved s t c ∧ Narrow s c) s t es) :
    answers s es = some (treeAnswers t (es.map TreeEvent.call)) := by
  induction es generalizing s t with
  | nil => rfl
  | cons e es ih =>
    obtain ⟨s', r, hr, hobs, hmirror⟩ := @step_simulated e.env _ _ _ h hadm.1.1 hadm.1.2
    have hnext : next s e.event = some s' := by
      simp only [next, TreeEvent.event, hr]
    simp only [answers, hr, ih hmirror (hadm.2 s' hnext), Option.map_some, hobs, List.map_cons,
      treeAnswers]

end Refinement

theorem mkfs_mirrors (disk : Mem) (total_size : ℕ) (time : ℕ → ℕ) :
    Mirrors (mkfs disk total_size time) (.dir []) := by
  have hcontent : content [rootEntry time] =
      Function.update (fun _ : ℕ => none) 0 (some (true, [])) := by
    have hdir : (rootEntry time).isDir = true := by simp [Entry.isDir, rootEntry, S_IFDIR]
    rw [← List.nil_append [rootEntry time], content_concat (e := rootEntry time) rfl, hdir]
    rfl
  refine ⟨⟨[rootEntry time], fun _ => 0, mkfs_rep disk total_size time, ?_⟩, Or.inr rfl⟩
  have hview : ∀ p, view (.dir [] : Tree) p = if p = [] then some (.dir []) else none := by
    intro p
    cases p <;> rfl
  refine ⟨rfl, ⟨[], rfl⟩, fun p n hp => ?_, fun p q hp hq _ => ?_, fun n hn => ?_, fun p names hp => ?_⟩
  · rw [hview] at hp
    split_ifs at hp
    cases hp
    exact ⟨(true, []), by rw [hcontent, Function.update_self], [], rfl, rfl⟩
  · rw [hview] at hp hq
    rw [of_not_not fun hne => hp (if_neg hne), of_not_not fun hne => hq (if_neg hne)]
  · refine ⟨[], by simp [hview], ?_⟩
    by_contra hne
    rw [hcontent, Function.update_of_ne (Ne.symm hne)] at hn
    exact hn rfl
  · rw [view_empty hp]
    exact List.nodup_nil

/-- From a fresh image, the handlers answer every run of admissible calls as the tree does. -/
theorem wfs_refines_tree {disk : Mem} {total_size : ℕ} {time : ℕ → ℕ} {es : List TreeEvent}
    (h : AlongBoth (fun s t c => Admissible reserved s t c ∧ Narrow s c)
      (mkfs disk total_size time) (.dir []) es) :
    answers (mkfs disk total_size time) es =
      some (treeAnswers (.dir []) (es.map TreeEvent.call)) :=
  answers_eq (mkfs_mirrors disk total_size time) h

theorem zero_notMem_nameA : (0 : UInt8) ∉ [97] := by decide

def nameA : Name := ⟨[97], by decide, by decide, by decide, zero_notMem_nameA⟩

/-- `mknod("/a")` and two writes of five bytes at its start. -/
def rewriteA : List TreeEvent :=
  [⟨quietEnv, .mknod [] nameA⟩, ⟨quietEnv, .write [nameA] [1, 2, 3, 4, 5] 0⟩,
    ⟨quietEnv, .write [nameA] [1, 2, 3, 4, 5] 0⟩]

/-- A step of a concrete run, with the space its call needs. -/
theorem admissible_of_le {need : Wfs → Call → ℕ} {s : Wfs} {t : Tree} {c : TreeCall}
    (hperm : Permitted t c) (hfits : s.head + need s (toCall c) ≤ s.total_size) :
    Admissible need s t c :=
  ⟨hperm, fun _ => hfits⟩

theorem rewriteA_permitted :
    Permitted (.dir []) (.mknod [] nameA) ∧
    Permitted (treeStep (.dir []) (.mknod [] nameA)).1 (.write [nameA] [1, 2, 3, 4, 5] 0) ∧
    Permitted (treeStep (treeStep (.dir []) (.mknod [] nameA)).1
      (.write [nameA] [1, 2, 3, 4, 5] 0)).1 (.write [nameA] [1, 2, 3, 4, 5] 0) := by
  unfold Permitted Reached
  decide +kernel

/-- A disk that holds the log of both writes, and the second write with room to spare. -/
theorem rewriteA_answers :
    AlongBoth (fun s t c => Admissible reserved s t c ∧ Narrow s c) (zeroDisk 283) (.dir [])
      rewriteA ∧
    answers (zeroDisk 283) rewriteA = some [code 0, code 5, code 5] := by
  have hadm : AlongBoth (fun s t c => Admissible reserved s t c ∧ Narrow s c) (zeroDisk 283)
      (.dir []) rewriteA := by
    obtain ⟨h1, h2, h3⟩ := rewriteA_permitted
    refine ⟨⟨admissible_of_le h1 (by decide +kernel), ?_⟩, fun s1 hs1 => ?_⟩
    · unfold Narrow Roomy
      decide +kernel
    · rw [next_getD hs1]
      refine ⟨⟨admissible_of_le h2 (by decide +kernel), ?_⟩, fun s2 hs2 => ?_⟩
      · unfold Narrow Roomy
        decide +kernel
      · rw [next_getD hs2]
        refine ⟨⟨admissible_of_le h3 (by decide +kernel), ?_⟩, fun _ _ => trivial⟩
        unfold Narrow Roomy
        decide +kernel
  refine ⟨hadm, (wfs_refines_tree hadm).trans ?_⟩
  decide +kernel

/-- On 280 bytes the log of both writes still fits, but the second write asks for the old
and the new bytes together and is refused. -/
theorem rewriteA_refused :
    ¬ (AlongBoth (Admissible appended) (zeroDisk 280) (.dir []) rewriteA →
      answers (zeroDisk 280) rewriteA =
        some (treeAnswers (.dir []) (rewriteA.map TreeEvent.call))) ∧
    answers (zeroDisk 280) rewriteA = some [code 0, code 5, code (-ENOSPC)] := by
  have hadm : AlongBoth (Admissible appended) (zeroDisk 280) (.dir []) rewriteA := by
    obtain ⟨h1, h2, h3⟩ := rewriteA_permitted
    refine ⟨admissible_of_le h1 (by decide +kernel), fun s1 hs1 => ?_⟩
    rw [next_getD hs1]
    refine ⟨admissible_of_le h2 (by decide +kernel), fun s2 hs2 => ?_⟩
    rw [next_getD hs2]
    exact ⟨admissible_of_le h3 (by decide +kernel), fun _ _ => trivial⟩
  have hans : answers (zeroDisk 280) rewriteA = some [code 0, code 5, code (-ENOSPC)] := by
    decide +kernel
  refine ⟨fun hclaim => ?_, hans⟩
  have heq := hclaim hadm
  rw [hans] at heq
  exact absurd heq (by decide +kernel)

end WfsRefinement
