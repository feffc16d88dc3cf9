import OsProjects.WfsDentries
import OsProjects.WfsTree

/-! # A tree laid out over inode numbers

`Models` ties a table of inodes to the view of a tree by a numbering of its paths: every
node has a live inode of its own and a directory's dentries carry the numbers of its
children. It is kept by the changes of creation, write and unlink on both sides.
-/
namespace WfsModels

open ByteMemory WfsLookup WfsHandlers WfsLog WfsAppend WfsChange WfsDentries DirectoryTree WfsTree

/-- Directory bit and bytes of an inode. -/
abbrev Content := Bool × List UInt8

/-- What the log holds of the live inodes. -/
def content (L : List Entry) (n : ℕ) : Option Content :=
  (entryOf L n).map fun r => (r.2.isDir, r.2.bytes)

/-- The dentries are the names, with the numbers of the children of `p`. -/
def Lists (ino : TreePath → ℕ) (p : TreePath) (names : List Name) (ds : List Dentry) : Prop :=
  ds.map (fun d => (d.name, d.inode_number)) = names.map fun x => (x.bytes, ino (p ++ [x]))

def Holds (ino : TreePath → ℕ) (p : TreePath) : Shape Name UInt8 → Content → Prop
  | .file bytes, c => c = (false, bytes)
  | .dir names, c => ∃ ds, c = (true, contents ds) ∧ Lists ino p names ds

structure Models (C : ℕ → Option Content) (ino : TreePath → ℕ)
    (V : TreePath → Option (Shape Name UInt8)) : Prop where
  root : ino [] = 0
  top : ∃ names, V [] = some (.dir names)
  node : ∀ p n, V p = some n → ∃ c, C (ino p) = some c ∧ Holds ino p n c
  inj : ∀ p q, V p ≠ none → V q ≠ none → ino p = ino q → p = q
  cover : ∀ n, C n ≠ none → ∃ p, V p ≠ none ∧ ino p = n
  distinct : ∀ p names, V p = some (.dir names) → names.Nodup

section Keep

variable {C : ℕ → Option Content} {ino : TreePath → ℕ} {V : TreePath → Option (Shape Name UInt8)}
  {p q : TreePath} {x : Name} {n : ℕ} {names : List Name} {ds : List Dentry} {c : Content}
  {sh : Shape Name UInt8}

theorem Models.live (h : Models C ino V) (hp : V p ≠ none) : C (ino p) ≠ none := by
  obtain ⟨sh, hsh⟩ := Option.ne_none_iff_exists'.mp hp
  obtain ⟨c, hc, _⟩ := h.node p sh hsh
  rw [hc]
  exact Option.some_ne_none c

theorem Models.ino_ne (h : Models C ino V) (hp : V p ≠ none) (hq : V q ≠ none) (hne : p ≠ q) :
    ino p ≠ ino q :=
  fun heq => hne (h.inj p q hp hq heq)

theorem Models.ino_ne_free (h : Models C ino V) (hp : V p ≠ none) (hn : C n = none) : ino p ≠ n :=
  fun heq => h.live hp (heq ▸ hn)

/-- A new number for a path that is no child of `p` leaves `p` as it is. -/
theorem Holds.renumber (h : Holds ino p sh c) {r : TreePath}
    (hr : ∀ names, sh = .dir names → ∀ y ∈ names, p ++ [y] ≠ r) :
    Holds (Function.update ino r n) p sh c := by
  cases sh with
  | file bytes => exact h
  | dir names =>
    obtain ⟨ds, hc, hds⟩ := h
    refine ⟨ds, hc, hds.trans (List.map_congr_left fun y hy => ?_)⟩
    rw [Function.update_of_ne (hr names rfl y hy)]

theorem Lists.concat (h : Lists ino q names ds) {d : Dentry} (hd : d.name = x.bytes)
    (hn : d.inode_number = ino (q ++ [x])) : Lists ino q (names ++ [x]) (ds ++ [d]) := by
  rw [Lists, List.map_append, List.map_append, h, List.map_singleton, List.map_singleton, hd, hn]

theorem Name.bytes_inj {x y : Name} : x.bytes = y.bytes ↔ x = y := by
  constructor
  · intro h
    cases x
    cases y
    simpa using h
  · exact fun h => h ▸ rfl

theorem Lists.filter (h : Lists ino q names ds) :
    Lists ino q (names.filter fun y => y ≠ x) (ds.filter fun d => d.name ≠ x.bytes) := by
  induction names generalizing ds with
  | nil =>
    rw [Lists, List.map_nil, List.map_eq_nil_iff] at h
    subst h
    rfl
  | cons y names ih =>
    cases ds with
    | nil => cases h
    | cons d ds =>
      rw [Lists, List.map_cons, List.map_cons, List.cons.injEq] at h
      obtain ⟨hhead, htail⟩ := h
      have hrest := ih htail
      have hd : d.name = y.bytes := congrArg Prod.fst hhead
      by_cases hy : y = x
      · rw [List.filter_cons_of_neg (by simp [hy]),
          List.filter_cons_of_neg (by simp [hd, hy])]
        exact hrest
      · rw [List.filter_cons_of_pos (by simp [hy]),
          List.filter_cons_of_pos (by simp [hd, Name.bytes_inj, hy])]
        rw [Lists, List.map_cons, List.map_cons, hhead, hrest]

theorem Lists.names_eq (h : Lists ino q names ds) : ds.map Dentry.name = names.map Name.bytes := by
  have hfst := congrArg (List.map Prod.fst) h
  simpa [List.map_map, Function.comp_def] using hfst

theorem Lists.nodup (h : Lists ino q names ds) (hn : names.Nodup) : (ds.map Dentry.name).Nodup := by
  rw [h.names_eq]
  exact hn.map fun x y hxy => Name.bytes_inj.mp hxy

theorem Lists.mem_names {d : Dentry} (h : Lists ino q names ds) (hd : d ∈ ds)
    (hx : d.name = x.bytes) : x ∈ names ∧ d.inode_number = ino (q ++ [x]) := by
  have hmem : (d.name, d.inode_number) ∈ names.map fun y => (y.bytes, ino (q ++ [y])) := by
    rw [← h]
    exact List.mem_map_of_mem hd
  obtain ⟨y, hy, hyd⟩ := List.mem_map.mp hmem
  rw [Prod.mk.injEq] at hyd
  have hyx : y = x := Name.bytes_inj.mp (hyd.1.trans hx)
  exact ⟨hyx ▸ hy, hyx ▸ hyd.2.symm⟩

/-- An existing node gets another content. -/
theorem Models.replace (h : Models C ino V) (hp : V p ≠ none) (hh : Holds ino p sh c)
    (htop : p = [] → ∃ names, sh = .dir names) (hdistinct : ∀ names, sh = .dir names → names.Nodup) :
    Models (Function.update C (ino p) (some c)) ino (Function.update V p (some sh)) := by
  have hold : ∀ r, Function.update V p (some sh) r ≠ none ↔ V r ≠ none := by
    intro r
    rw [Function.update_apply]
    split_ifs with hr
    · simp [hr, hp]
    · rfl
  refine ⟨h.root, ?_, fun r sh' hr => ?_,
    fun a b ha hb hab => h.inj a b ((hold a).mp ha) ((hold b).mp hb) hab, fun n hn => ?_,
    fun r names hr => ?_⟩
  · by_cases hnil : [] = p
    · obtain ⟨names, hnames⟩ := htop hnil.symm
      exact ⟨names, by rw [hnil, Function.update_self, hnames]⟩
    · rw [Function.update_of_ne hnil]
      exact h.top
  · by_cases hrp : r = p
    · subst hrp
      rw [Function.update_self] at hr ⊢
      cases hr
      exact ⟨c, rfl, hh⟩
    · have hVr : V r ≠ none := (hold r).mp (by rw [hr]; simp)
      rw [Function.update_of_ne hrp] at hr
      rw [Function.update_of_ne (h.ino_ne hVr hp hrp)]
      exact h.node r sh' hr
  · have hlive : C n ≠ none := by
      rw [Function.update_apply] at hn
      split_ifs at hn with hnp
      · exact hnp ▸ h.live hp
      · exact hn
    obtain ⟨r, hr, hrn⟩ := h.cover n hlive
    exact ⟨r, (hold r).mpr hr, hrn⟩
  · by_cases hrp : r = p
    · rw [hrp, Function.update_self] at hr
      exact hdistinct names (Option.some.inj hr)
    · rw [Function.update_of_ne hrp] at hr
      exact h.distinct r names hr

/-- A new node gets a free number. -/
theorem Models.insert (h : Models C ino V) (hx : V (q ++ [x]) = none)
    (hq : ∀ names, V q = some (.dir names) → x ∉ names) (hn : C n = none)
    (hh : Holds (Function.update ino (q ++ [x]) n) (q ++ [x]) sh c)
    (hdistinct : ∀ names, sh = .dir names → names.Nodup) :
    Models (Function.update C n (some c)) (Function.update ino (q ++ [x]) n)
      (Function.update V (q ++ [x]) (some sh)) := by
  have hold : ∀ r, V r ≠ none → r ≠ q ++ [x] := fun r hr heq => hr (heq ▸ hx)
  refine ⟨?_, ?_, fun r sh' hr => ?_, fun a b ha hb hab => ?_, fun m hm => ?_, fun r names hr => ?_⟩
  · rw [Function.update_of_ne (by simp)]
    exact h.root
  · rw [Function.update_of_ne (by simp)]
    exact h.top
  · by_cases hrx : r = q ++ [x]
    · subst hrx
      rw [Function.update_self] at hr ⊢
      cases hr
      exact ⟨c, by rw [Function.update_self], hh⟩
    · rw [Function.update_of_ne hrx] at hr
      rw [Function.update_of_ne hrx,
        Function.update_of_ne (h.ino_ne_free (by rw [hr]; simp) hn)]
      obtain ⟨c', hc', hh'⟩ := h.node r sh' hr
      refine ⟨c', hc', hh'.renumber fun names hnames y hy heq => ?_⟩
      obtain ⟨rfl, hyx⟩ := List.append_inj' heq rfl
      rw [List.singleton_inj.mp hyx] at hy
      exact hq names (hnames ▸ hr) hy
  · by_cases hax : a = q ++ [x]
    · by_cases hbx : b = q ++ [x]
      · rw [hax, hbx]
      · rw [hax, Function.update_self, Function.update_of_ne hbx] at hab
        rw [Function.update_of_ne hbx] at hb
        exact absurd hab.symm (h.ino_ne_free hb hn)
    · rw [Function.update_of_ne hax] at ha hab
      by_cases hbx : b = q ++ [x]
      · rw [hbx, Function.update_self] at hab
        exact absurd hab (h.ino_ne_free ha hn)
      · rw [Function.update_of_ne hbx] at hb hab
        exact h.inj a b ha hb hab
  · by_cases hmn : m = n
    · exact ⟨q ++ [x], by simp, by rw [Function.update_self, hmn]⟩
    · rw [Function.update_of_ne hmn] at hm
      obtain ⟨r, hr, hrm⟩ := h.cover m hm
      have hrx := hold r hr
      exact ⟨r, by rwa [Function.update_of_ne hrx], by rwa [Function.update_of_ne hrx]⟩
  · by_cases hrx : r = q ++ [x]
    · rw [hrx, Function.update_self] at hr
      exact hdistinct names (Option.some.inj hr)
    · rw [Function.update_of_ne hrx] at hr
      exact h.distinct r names hr

/-- A node goes away with its inode. -/
theorem Models.erase (h : Models C ino V) (hp : V p ≠ none) (hnil : p ≠ []) :
    Models (Function.update C (ino p) none) ino (Function.update V p none) := by
  have hold : ∀ r, Function.update V p none r ≠ none → r ≠ p ∧ V r ≠ none := by
    intro r hr
    by_cases hrp : r = p
    · rw [hrp, Function.update_self] at hr
      exact absurd rfl hr
    · rw [Function.update_of_ne hrp] at hr
      exact ⟨hrp, hr⟩
  refine ⟨h.root, ?_, fun r sh' hr => ?_,
    fun a b ha hb hab => h.inj a b (hold a ha).2 (hold b hb).2 hab, fun n hn => ?_,
    fun r names hr => ?_⟩
  · rw [Function.update_of_ne hnil.symm]
    exact h.top
  · obtain ⟨hrp, hVr⟩ := hold r (by rw [hr]; simp)
    rw [Function.update_of_ne hrp] at hr
    rw [Function.update_of_ne (h.ino_ne hVr hp hrp)]
    exact h.node r sh' hr
  · by_cases hnp : n = ino p
    · rw [hnp, Function.update_self] at hn
      exact absurd rfl hn
    · rw [Function.update_of_ne hnp] at hn
      obtain ⟨r, hr, hrn⟩ := h.cover n hn
      have hrp : r ≠ p := fun heq => hnp (heq ▸ hrn.symm)
      exact ⟨r, by rwa [Function.update_of_ne hrp], hrn⟩
  · obtain ⟨hrp, _⟩ := hold r (by rw [hr]; simp)
    rw [Function.update_of_ne hrp] at hr
    exact h.distinct r names hr

theorem Models.create (h : Models C ino V) (hq : V q = some (.dir names))
    (hlist : Lists ino q names ds) (hx : x ∉ names) (hnone : V (q ++ [x]) = none) {d : Dentry}
    (hd : d.name = x.bytes) (hfree : C d.inode_number = none)
    (hleaf : Holds (Function.update ino (q ++ [x]) d.inode_number) (q ++ [x]) sh c)
    (hempty : ∀ names, sh = .dir names → names.Nodup) :
    Models (Function.update (Function.update C (ino q) (some (true, contents (ds ++ [d]))))
        d.inode_number (some c))
      (Function.update ino (q ++ [x]) d.inode_number)
      (Function.update (Function.update V q (some (.dir (names ++ [x])))) (q ++ [x]) (some sh)) := by
  have hqx : q ≠ q ++ [x] := by simp
  have hVq : V q ≠ none := by simp [hq]
  have hnew := h.insert hnone (fun ns hns => by rw [hq] at hns; cases hns; exact hx) hfree hleaf
    hempty
  have hkept : Lists (Function.update ino (q ++ [x]) d.inode_number) q names ds := by
    refine hlist.trans (List.map_congr_left fun y hy => ?_)
    rw [Function.update_of_ne]
    intro heq
    have hyx : y = x := List.singleton_inj.mp (List.append_cancel_left heq)
    exact hx (hyx ▸ hy)
  have hgrown := @Models.replace _ _ _ q (true, contents (ds ++ [d])) (.dir (names ++ [x])) hnew
    (by rwa [Function.update_of_ne hqx]) ⟨_, rfl, hkept.concat hd (by rw [Function.update_self])⟩
    (fun _ => ⟨_, rfl⟩) fun ns hns => by
      cases hns
      exact List.nodup_append.mpr ⟨h.distinct q names hq, by simp, by
        intro y hy z hz hyz
        rw [List.mem_singleton] at hz
        exact hx (hz ▸ hyz ▸ hy)⟩
  rw [Function.update_of_ne hqx, Function.update_comm (h.ino_ne_free hVq hfree).symm,
    Function.update_comm hqx.symm] at hgrown
  exact hgrown

theorem Models.write (h : Models C ino V) {bytes bytes' : List UInt8}
    (hp : V p = some (.file bytes)) :
    Models (Function.update C (ino p) (some (false, bytes'))) ino
      (Function.update V p (some (.file bytes'))) := by
  refine h.replace (by simp [hp]) rfl (fun hnil => ?_) fun ns hns => by cases hns
  obtain ⟨names, hnames⟩ := h.top
  rw [hnil, hnames] at hp
  cases hp

theorem Models.unlink (h : Models C ino V) (hq : V q = some (.dir names))
    (hlist : Lists ino q names ds) (hx : V (q ++ [x]) ≠ none) :
    Models (Function.update (Function.update C (ino (q ++ [x])) none) (ino q)
        (some (true, contents (ds.filter fun d => d.name ≠ x.bytes)))) ino
      (Function.update (Function.update V q (some (.dir (names.filter fun y => y ≠ x))))
        (q ++ [x]) none) := by
  have hqx : q ≠ q ++ [x] := by simp
  have hgone := @Models.replace _ _ _ q (true, contents (ds.filter fun d => d.name ≠ x.bytes))
    (.dir (names.filter fun y => y ≠ x)) (h.erase hx (by simp)) (by simp [hq])
    ⟨_, rfl, hlist.filter⟩ (fun _ => ⟨_, rfl⟩) fun ns hns => by
      cases hns
      exact (h.distinct q names hq).filter _
  rw [Function.update_comm hqx.symm] at hgone
  exact hgone

end Keep

section Log

variable {s : Wfs} {L : List Entry} {a n : ℕ} {e : Entry} {c : Content}

theorem content_some (h : content L n = some c) :
    ∃ a e, Found L a e ∧ e.number = n ∧ c = (e.isDir, e.bytes) := by
  obtain ⟨⟨a, e⟩, he, hc⟩ := Option.map_eq_some_iff.mp h
  obtain ⟨hf, hn⟩ := entryOf_found he
  exact ⟨a, e, hf, hn, hc.symm⟩

theorem content_found (hf : Found L a e) : content L e.number = some (e.isDir, e.bytes) := by
  rw [content, entryOf, hf.last]
  dsimp only
  rw [if_pos hf.live]
  rfl

theorem content_of_table (h : Rep s L) (ht : table L n = 0) : content L n = none := by
  cases hc : content L n with
  | none => rfl
  | some c =>
    obtain ⟨⟨a, e⟩, he, _⟩ := Option.map_eq_some_iff.mp hc
    have hlo := (entryOf_found he).1.lower h
    rw [entryOf_table he] at ht
    omega

theorem table_of_content (hc : content L n = none) : table L n = 0 :=
  entryOf_none (Option.map_eq_none_iff.mp hc)

theorem content_concat (hlive : e.inode.deleted = 0) :
    content (L ++ [e]) = Function.update (content L) e.number (some (e.isDir, e.bytes)) := by
  funext n
  rw [content, entryOf_concat, Function.update_apply]
  by_cases hn : n = e.number
  · rw [if_pos hn.symm, if_pos hlive, if_pos hn]
    rfl
  · rw [if_neg (Ne.symm hn), if_neg hn]
    rfl

theorem content_touch (t : ℕ) : content (modifyAt (touchInode t) a L 8) = content L := by
  funext n
  rw [content, content, entryOf, entryOf, lastAt_modifyAt (f := touchInode t) fun _ => rfl]
  cases lastAt L 8 n with
  | none => rfl
  | some r =>
    obtain ⟨b, e⟩ := r
    have hkept : (if b = a then (⟨touchInode t e.inode, e.bytes⟩ : Entry) else e).inode.deleted =
        e.inode.deleted := by
      split_ifs <;> rfl
    simp only [Option.map_some, hkept]
    by_cases hd : e.inode.deleted = 0
    · rw [if_pos hd, if_pos hd]
      split_ifs <;> rfl
    · rw [if_neg hd, if_neg hd]

theorem content_delete (h : Rep s L) (hf : Found L a e) :
    content (modifyAt deleteInode a L 8) = Function.update (content L) e.number none := by
  funext n
  rw [Function.update_apply, content, content, entryOf, entryOf,
    lastAt_modifyAt (f := deleteInode) fun _ => rfl]
  by_cases hn : n = e.number
  · rw [if_pos hn, hn, hf.last]
    simp [deleteInode]
  · rw [if_neg hn]
    cases hl : lastAt L 8 n with
    | none => rfl
    | some r =>
      obtain ⟨b, d⟩ := r
      have hne : b ≠ a := by
        rintro rfl
        obtain ⟨hat, _, _, hdn⟩ := h.tiled.lastAt hl
        exact hn (by rw [← hdn, ← hat.number_eq, (hf.entryAt h).number_eq])
      simp [hne]

end Log

end WfsModels
