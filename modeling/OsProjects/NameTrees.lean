import Mathlib.Data.Finset.Card

/-! # Trees of names

Directories hold entries, and an entry names a node under a label. One label leads from each
directory up to the one it is in. Nodes that are no directories may have any number of names.
-/
namespace NameTrees

structure Entry (N S : Type) where
  dir : N
  label : S
  node : N
  deriving DecidableEq

variable {N S : Type} {root d n m : N} {up s : S} {dirs nodes nodes' : Finset N}
  {entries : Finset (Entry N S)} {e : Entry N S}

/-- The way down from the root. -/
inductive Reached (root : N) (up : S) (entries : Finset (Entry N S)) : N → Prop where
  | root : Reached root up entries root
  | entry {e : Entry N S} :
    e ∈ entries → e.label ≠ up → Reached root up entries e.dir → Reached root up entries e.node

structure Tree (root : N) (up : S) (dirs nodes : Finset N) (entries : Finset (Entry N S)) :
    Prop where
  root_dir : root ∈ dirs
  subset : dirs ⊆ nodes
  /-- The root is in itself. -/
  top : ⟨root, up, root⟩ ∈ entries
  dir : ∀ e ∈ entries, e.dir ∈ dirs
  node : ∀ e ∈ entries, e.node ∈ nodes
  label : ∀ e ∈ entries, ∀ e' ∈ entries, e.dir = e'.dir → e.label = e'.label → e = e'
  unnamed : ∀ e ∈ entries, e.label ≠ up → e.node ≠ root
  parent : ∀ e ∈ entries, e.label ≠ up → e.node ∈ dirs → ⟨e.node, up, e.dir⟩ ∈ entries
  once : ∀ e ∈ entries, ∀ e' ∈ entries, e.label ≠ up → e'.label ≠ up → e.node ∈ dirs →
    e.node = e'.node → e = e'
  child : ∀ e ∈ entries, e.label = up → e.dir = root ∨
    ∃ e' ∈ entries, e'.label ≠ up ∧ e'.dir = e.node ∧ e'.node = e.dir
  reached : ∀ n ∈ nodes, Reached root up entries n

theorem Reached.mono {entries' : Finset (Entry N S)} (h : Reached root up entries n)
    (hsub : entries ⊆ entries') : Reached root up entries' n := by
  induction h with
  | root => exact .root
  | entry he hs _ ih => exact .entry (hsub he) hs ih

/-- The root alone. -/
theorem Tree.single : Tree root up {root} {root} {⟨root, up, root⟩} := by
  refine ⟨Finset.mem_singleton_self _, Finset.Subset.refl _, Finset.mem_singleton_self _, ?_, ?_,
    ?_, ?_, ?_, ?_, ?_, ?_⟩
  · intro e he
    rw [Finset.mem_singleton.mp he]
    exact Finset.mem_singleton_self _
  · intro e he
    rw [Finset.mem_singleton.mp he]
    exact Finset.mem_singleton_self _
  · intro e he e' he' _ _
    rw [Finset.mem_singleton.mp he, Finset.mem_singleton.mp he']
  · intro e he hup
    rw [Finset.mem_singleton.mp he] at hup
    exact absurd rfl hup
  · intro e he hup
    rw [Finset.mem_singleton.mp he] at hup
    exact absurd rfl hup
  · intro e he e' he' _ _ _ _
    rw [Finset.mem_singleton.mp he, Finset.mem_singleton.mp he']
  · intro e he _
    rw [Finset.mem_singleton.mp he]
    exact .inl rfl
  · intro n hn
    rw [Finset.mem_singleton.mp hn]
    exact .root

theorem Tree.up_of_root (h : Tree root up dirs nodes entries) (he : e ∈ entries)
    (hup : e.label = up) (hroot : e.dir = root) : e.node = root := by
  rw [h.label e he _ h.top hroot hup]

/-- Each directory has its way up. -/
theorem Tree.exists_up (h : Tree root up dirs nodes entries) (hd : d ∈ dirs) :
    ∃ p ∈ dirs, ⟨d, up, p⟩ ∈ entries := by
  cases h.reached d (h.subset hd) with
  | root => exact ⟨_, h.root_dir, h.top⟩
  | entry he hs _ => exact ⟨_, h.dir _ he, h.parent _ he hs hd⟩

/-- What leads up leads to a directory. -/
theorem Tree.up_dir (h : Tree root up dirs nodes entries) (he : e ∈ entries)
    (hup : e.label = up) : e.node ∈ dirs := by
  obtain ⟨p, hp, hu⟩ := h.exists_up (h.dir e he)
  rw [h.label e he _ hu rfl hup]
  exact hp

/-- An empty directory has one name, and no directory is in it. -/
theorem Tree.eq_of_node {e' : Entry N S} (h : Tree root up dirs nodes entries) (he : e ∈ entries)
    (hup : e.label ≠ up) (hn : e.node ∈ dirs)
    (hempty : ∀ e' ∈ entries, e'.dir = e.node → e'.label = up) (he' : e' ∈ entries)
    (hs : e'.node = e.node) : e' = e := by
  by_cases hup' : e'.label = up
  · exfalso
    obtain hroot | ⟨e'', he'', hs'', hdir, -⟩ := h.child e' he' hup'
    · exact h.unnamed e he hup (hs ▸ h.up_of_root he' hup' hroot)
    · exact hs'' (hempty e'' he'' (hdir.trans hs))
  · exact h.once e' he' e he hup' hup (hs ▸ hn) hs

section Counts

variable [DecidableEq N]

/-- The entries that name the node. -/
def links (entries : Finset (Entry N S)) (n : N) : ℕ := (entries.filter (·.node = n)).card

theorem links_le : links entries n ≤ entries.card := Finset.card_filter_le _ _

theorem links_ne_zero : links entries n ≠ 0 ↔ ∃ e ∈ entries, e.node = n := by
  rw [links, Finset.card_ne_zero]
  constructor
  · rintro ⟨e, he⟩
    exact ⟨e, Finset.mem_filter.mp he⟩
  · rintro ⟨e, he, hn⟩
    exact ⟨e, Finset.mem_filter.mpr ⟨he, hn⟩⟩

theorem Tree.linked (h : Tree root up dirs nodes entries) (hn : n ∈ nodes) :
    links entries n ≠ 0 := by
  rw [links_ne_zero]
  cases h.reached n hn with
  | root => exact ⟨_, h.top, rfl⟩
  | entry he _ _ => exact ⟨_, he, rfl⟩

theorem Tree.links_eq_one (h : Tree root up dirs nodes entries) (he : e ∈ entries)
    (hup : e.label ≠ up) (hn : e.node ∈ dirs)
    (hempty : ∀ e' ∈ entries, e'.dir = e.node → e'.label = up) : links entries e.node = 1 := by
  rw [links, Finset.card_eq_one]
  refine ⟨e, Finset.ext fun e' => ?_⟩
  rw [Finset.mem_filter, Finset.mem_singleton]
  constructor
  · rintro ⟨he', hs⟩
    exact h.eq_of_node he hup hn hempty he' hs
  · rintro rfl
    exact ⟨he, rfl⟩

variable [DecidableEq S]

theorem links_insert (he : e ∉ entries) :
    links (insert e entries) n = links entries n + if e.node = n then 1 else 0 := by
  rw [links, links, Finset.filter_insert]
  split_ifs with hn
  · rw [Finset.card_insert_of_notMem fun hm => he (Finset.mem_filter.mp hm).1]
  · rfl

theorem links_erase (he : e ∈ entries) :
    links (entries.erase e) n + (if e.node = n then 1 else 0) = links entries n := by
  rw [← links_insert (Finset.notMem_erase e entries), Finset.insert_erase he]

end Counts

section Names

variable [DecidableEq N] [DecidableEq S]

/-- A new name for a node that is no directory. The node may be new. -/
theorem Tree.insert_file (h : Tree root up dirs nodes entries) (hd : d ∈ dirs) (hs : s ≠ up)
    (hfree : ∀ e ∈ entries, e.dir = d → e.label ≠ s) (hn : n ∉ dirs) :
    Tree root up dirs (insert n nodes) (insert ⟨d, s, n⟩ entries) := by
  have hsub : entries ⊆ insert ⟨d, s, n⟩ entries := Finset.subset_insert _ _
  refine ⟨h.root_dir, fun x hx => Finset.mem_insert_of_mem (h.subset hx), hsub h.top, ?_, ?_, ?_, ?_, ?_,
    ?_, ?_, ?_⟩
  · intro e he
    obtain rfl | he := Finset.mem_insert.mp he
    · exact hd
    · exact h.dir e he
  · intro e he
    obtain rfl | he := Finset.mem_insert.mp he
    · exact Finset.mem_insert_self _ _
    · exact Finset.mem_insert_of_mem (h.node e he)
  · intro e he e' he' hdir hlabel
    obtain rfl | he := Finset.mem_insert.mp he
    · obtain rfl | he' := Finset.mem_insert.mp he'
      · rfl
      · exact absurd hlabel.symm (hfree e' he' hdir.symm)
    · obtain rfl | he' := Finset.mem_insert.mp he'
      · exact absurd hlabel (hfree e he hdir)
      · exact h.label e he e' he' hdir hlabel
  · intro e he hup
    obtain rfl | he := Finset.mem_insert.mp he
    · rintro rfl
      exact hn h.root_dir
    · exact h.unnamed e he hup
  · intro e he hup hnode
    obtain rfl | he := Finset.mem_insert.mp he
    · exact absurd hnode hn
    · exact hsub (h.parent e he hup hnode)
  · intro e he e' he' hup hup' hnode hsame
    obtain rfl | he := Finset.mem_insert.mp he
    · exact absurd hnode hn
    · obtain rfl | he' := Finset.mem_insert.mp he'
      · exact absurd (hsame.subst (motive := (· ∈ dirs)) hnode) hn
      · exact h.once e he e' he' hup hup' hnode hsame
  · intro e he hup
    obtain rfl | he := Finset.mem_insert.mp he
    · exact absurd hup hs
    · obtain hroot | ⟨e', he', hc⟩ := h.child e he hup
      · exact .inl hroot
      · exact .inr ⟨e', hsub he', hc⟩
  · intro x hx
    obtain rfl | hx := Finset.mem_insert.mp hx
    · exact .entry (e := ⟨d, s, x⟩) (Finset.mem_insert_self _ _) hs
        ((h.reached d (h.subset hd)).mono hsub)
    · exact (h.reached x hx).mono hsub

/-- A new directory, with its way up. -/
theorem Tree.insert_dir (h : Tree root up dirs nodes entries) (hd : d ∈ dirs) (hs : s ≠ up)
    (hfree : ∀ e ∈ entries, e.dir = d → e.label ≠ s) (hn : n ∉ nodes) :
    Tree root up (insert n dirs) (insert n nodes)
      (insert ⟨n, up, d⟩ (insert ⟨d, s, n⟩ entries)) := by
  have hndir : n ∉ dirs := fun hm => hn (h.subset hm)
  have hne : d ≠ n := fun he => hndir (he ▸ hd)
  have hdir' : ∀ e ∈ entries, e.dir ≠ n := fun e he hs => hndir (hs ▸ h.dir e he)
  have hnode' : ∀ e ∈ entries, e.node ≠ n := fun e he hs => hn (hs ▸ h.node e he)
  have hsub : entries ⊆ insert ⟨n, up, d⟩ (insert ⟨d, s, n⟩ entries) := fun x hx =>
    Finset.mem_insert_of_mem (Finset.mem_insert_of_mem hx)
  have hdown : ⟨d, s, n⟩ ∈ insert ⟨n, up, d⟩ (insert ⟨d, s, n⟩ entries) :=
    Finset.mem_insert_of_mem (Finset.mem_insert_self _ _)
  have hcases : ∀ e ∈ insert ⟨n, up, d⟩ (insert ⟨d, s, n⟩ entries),
      e = ⟨n, up, d⟩ ∨ e = ⟨d, s, n⟩ ∨ e ∈ entries := fun e he =>
    (Finset.mem_insert.mp he).imp_right Finset.mem_insert.mp
  refine ⟨Finset.mem_insert_of_mem h.root_dir, Finset.insert_subset_insert _ h.subset, hsub h.top,
    ?_, ?_, ?_, ?_, ?_, ?_, ?_, ?_⟩
  · intro e he
    obtain rfl | rfl | he := hcases e he
    · exact Finset.mem_insert_self _ _
    · exact Finset.mem_insert_of_mem hd
    · exact Finset.mem_insert_of_mem (h.dir e he)
  · intro e he
    obtain rfl | rfl | he := hcases e he
    · exact Finset.mem_insert_of_mem (h.subset hd)
    · exact Finset.mem_insert_self _ _
    · exact Finset.mem_insert_of_mem (h.node e he)
  · intro e he e' he' hdir hlabel
    obtain rfl | rfl | he := hcases e he
    · obtain rfl | rfl | he' := hcases e' he'
      · rfl
      · exact absurd hdir.symm hne
      · exact absurd hdir.symm (hdir' e' he')
    · obtain rfl | rfl | he' := hcases e' he'
      · exact absurd hdir hne
      · rfl
      · exact absurd hlabel.symm (hfree e' he' hdir.symm)
    · obtain rfl | rfl | he' := hcases e' he'
      · exact absurd hdir (hdir' e he)
      · exact absurd hlabel (hfree e he hdir)
      · exact h.label e he e' he' hdir hlabel
  · intro e he hup
    obtain rfl | rfl | he := hcases e he
    · exact absurd rfl hup
    · rintro rfl
      exact hndir h.root_dir
    · exact h.unnamed e he hup
  · intro e he hup hnode
    obtain rfl | rfl | he := hcases e he
    · exact absurd rfl hup
    · exact Finset.mem_insert_self _ _
    · obtain hnew | hnode := Finset.mem_insert.mp hnode
      · exact absurd hnew (hnode' e he)
      · exact hsub (h.parent e he hup hnode)
  · intro e he e' he' hup hup' hnode hsame
    obtain rfl | rfl | he := hcases e he
    · exact absurd rfl hup
    · obtain rfl | rfl | he' := hcases e' he'
      · exact absurd rfl hup'
      · rfl
      · exact absurd hsame.symm (hnode' e' he')
    · obtain rfl | rfl | he' := hcases e' he'
      · exact absurd rfl hup'
      · exact absurd hsame (hnode' e he)
      · obtain hnew | hnode := Finset.mem_insert.mp hnode
        · exact absurd hnew (hnode' e he)
        · exact h.once e he e' he' hup hup' hnode hsame
  · intro e he hup
    obtain rfl | rfl | he := hcases e he
    · exact .inr ⟨_, hdown, hs, rfl, rfl⟩
    · exact absurd hup hs
    · obtain hroot | ⟨e', he', hc⟩ := h.child e he hup
      · exact .inl hroot
      · exact .inr ⟨e', hsub he', hc⟩
  · intro x hx
    obtain rfl | hx := Finset.mem_insert.mp hx
    · exact .entry hdown hs ((h.reached d (h.subset hd)).mono hsub)
    · exact (h.reached x hx).mono hsub

/-- The ways down do not pass through a node without entries of its own. -/
theorem Reached.erase (h : Reached root up entries n) (hn : n ≠ e.node)
    (hleaf : ∀ e' ∈ entries, e'.dir = e.node → e'.label = up) :
    Reached root up (entries.erase e) n := by
  induction h with
  | root => exact .root
  | @entry e' he' hs _ ih =>
    refine .entry (Finset.mem_erase.mpr ⟨?_, he'⟩) hs (ih fun hd => hs (hleaf e' he' hd))
    rintro rfl
    exact hn rfl

/-- A name less for a node that is no directory. The node goes with its last name. -/
theorem Tree.erase_file (h : Tree root up dirs nodes entries) (he : e ∈ entries)
    (hup : e.label ≠ up) (hn : e.node ∉ dirs)
    (hnodes : ∀ n, n ∈ nodes' ↔ n ∈ nodes ∧ (n = e.node → links (entries.erase e) n ≠ 0)) :
    Tree root up dirs nodes' (entries.erase e) := by
  have hkeep : ∀ e' ∈ entries, e'.label = up → e' ∈ entries.erase e := fun e' he' hup' =>
    Finset.mem_erase.mpr ⟨fun hs => hup (hs ▸ hup'), he'⟩
  have hnode : ∀ e' ∈ entries.erase e, e'.node ∈ nodes' := fun e' he' =>
    (hnodes _).mpr ⟨h.node e' (Finset.mem_of_mem_erase he'),
      fun _ => links_ne_zero.mpr ⟨e', he', rfl⟩⟩
  have hleaf : ∀ e' ∈ entries, e'.dir = e.node → e'.label = up := fun e' he' hd =>
    absurd (hd ▸ h.dir e' he') hn
  refine ⟨h.root_dir, ?_, hkeep _ h.top rfl, ?_, hnode, ?_, ?_, ?_, ?_, ?_, ?_⟩
  · intro d hd
    exact (hnodes d).mpr ⟨h.subset hd, fun hs => absurd (hs ▸ hd) hn⟩
  · intro e' he'
    exact h.dir e' (Finset.mem_of_mem_erase he')
  · intro e₁ he₁ e₂ he₂
    exact h.label e₁ (Finset.mem_of_mem_erase he₁) e₂ (Finset.mem_of_mem_erase he₂)
  · intro e' he'
    exact h.unnamed e' (Finset.mem_of_mem_erase he')
  · intro e' he' hs hd
    exact hkeep _ (h.parent e' (Finset.mem_of_mem_erase he') hs hd) rfl
  · intro e₁ he₁ e₂ he₂
    exact h.once e₁ (Finset.mem_of_mem_erase he₁) e₂ (Finset.mem_of_mem_erase he₂)
  · intro e' he' hs
    have hmem := Finset.mem_of_mem_erase he'
    obtain hroot | ⟨e'', he'', hs'', hdir, hback⟩ := h.child e' hmem hs
    · exact .inl hroot
    · refine .inr ⟨e'', Finset.mem_erase.mpr ⟨?_, he''⟩, hs'', hdir, hback⟩
      rintro rfl
      exact hn (hback.symm ▸ h.dir e' hmem)
  · intro n hm
    obtain ⟨hm, hlinks⟩ := (hnodes n).mp hm
    by_cases hsame : n = e.node
    · -- the node has another name, in a directory that stays
      obtain ⟨e', he', rfl⟩ := links_ne_zero.mp (hlinks hsame)
      have he'' := Finset.mem_of_mem_erase he'
      have hs' : e'.label ≠ up := fun hs => hn (hsame ▸ h.up_dir he'' hs)
      refine .entry he' hs' ((h.reached _ (h.subset (h.dir e' he''))).erase ?_ hleaf)
      exact fun hd => hn (hd ▸ h.dir _ he'')
    · exact (h.reached n hm).erase hsame hleaf

/-- An empty directory goes, with its way up. -/
theorem Tree.erase_dir (h : Tree root up dirs nodes entries) (he : e ∈ entries)
    (hup : e.label ≠ up) (hn : e.node ∈ dirs)
    (hempty : ∀ e' ∈ entries, e'.dir = e.node → e'.label = up) :
    Tree root up (dirs.erase e.node) (nodes.erase e.node)
      ((entries.erase e).erase ⟨e.node, up, e.dir⟩) := by
  have hne : e.dir ≠ e.node := fun hd => hup (hempty e he hd)
  have hroot : root ≠ e.node := (h.unnamed e he hup).symm
  have hmem : ∀ e', e' ∈ (entries.erase e).erase ⟨e.node, up, e.dir⟩ ↔
      e' ∈ entries ∧ e'.dir ≠ e.node ∧ e'.node ≠ e.node := by
    intro e'
    rw [Finset.mem_erase, Finset.mem_erase]
    constructor
    · rintro ⟨hu, hs, he'⟩
      refine ⟨he', fun hd => hu ?_, fun hs' => hs (h.eq_of_node he hup hn hempty he' hs')⟩
      exact h.label e' he' _ (h.parent e he hup hn) hd (hempty e' he' hd)
    · rintro ⟨he', hd, hs⟩
      refine ⟨?_, ?_, he'⟩
      · rintro rfl
        exact hd rfl
      · rintro rfl
        exact hs rfl
  have hkeep : ∀ x, Reached root up entries x → x ≠ e.node →
      Reached root up ((entries.erase e).erase ⟨e.node, up, e.dir⟩) x := by
    intro x hx
    induction hx with
    | root => exact fun _ => .root
    | @entry e' he' hs _ ih =>
      intro hx
      have hd : e'.dir ≠ e.node := fun hd => hs (hempty e' he' hd)
      exact .entry ((hmem e').mpr ⟨he', hd, hx⟩) hs (ih hd)
  refine ⟨Finset.mem_erase.mpr ⟨hroot, h.root_dir⟩, Finset.erase_subset_erase _ h.subset,
    (hmem _).mpr ⟨h.top, hroot, hroot⟩, ?_, ?_, ?_, ?_, ?_, ?_, ?_, ?_⟩
  · intro e' he'
    obtain ⟨he', hd, -⟩ := (hmem e').mp he'
    exact Finset.mem_erase.mpr ⟨hd, h.dir e' he'⟩
  · intro e' he'
    obtain ⟨he', -, hs⟩ := (hmem e').mp he'
    exact Finset.mem_erase.mpr ⟨hs, h.node e' he'⟩
  · intro e₁ he₁ e₂ he₂
    exact h.label e₁ ((hmem e₁).mp he₁).1 e₂ ((hmem e₂).mp he₂).1
  · intro e' he'
    exact h.unnamed e' ((hmem e').mp he').1
  · intro e' he' hs hd
    obtain ⟨he', hdir, hnode⟩ := (hmem e').mp he'
    exact (hmem _).mpr ⟨h.parent e' he' hs (Finset.mem_of_mem_erase hd), hnode, hdir⟩
  · intro e₁ he₁ e₂ he₂ hs₁ hs₂ hd
    exact h.once e₁ ((hmem e₁).mp he₁).1 e₂ ((hmem e₂).mp he₂).1 hs₁ hs₂
      (Finset.mem_of_mem_erase hd)
  · intro e' he' hs
    obtain ⟨he', hdir, hnode⟩ := (hmem e').mp he'
    obtain hr | ⟨e'', he'', hs'', hd, hb⟩ := h.child e' he' hs
    · exact .inl hr
    · exact .inr ⟨e'', (hmem _).mpr ⟨he'', hd ▸ hnode, hb ▸ hdir⟩, hs'', hd, hb⟩
  · intro x hx
    obtain ⟨hx, hm⟩ := Finset.mem_erase.mp hx
    exact hkeep x (h.reached x hm) hx

end Names

end NameTrees
