import OsProjects.LinkCounts

/-! # Paths to the inodes

Every inode with a name is found by `namex`, along a path from the root. -/
namespace NamePaths

open CStrings Programs DiskBlocks Directories PathNames FileCalls NameTrees NamedFiles Tokens
open FileStore hiding iput next

variable {sb : SuperBlock} {f : ℕ → File} {d dp i inum k n : ℕ} {s t name : List UInt8}
  {ts : List (List UInt8)}

/-- The path from the root with these elements. -/
def absolute (ts : List (List UInt8)) : List UInt8 := slash :: ts.flatMap (· ++ [slash])

theorem absolute_runs (h : ∀ t ∈ ts, Text t) : MaximalRuns (· = slash) (absolute ts) ts := by
  have hruns : MaximalRuns (· = slash) (ts.flatMap (· ++ [slash])) ts := by
    induction ts with
    | nil => exact .nil fun _ hx => absurd hx List.not_mem_nil
    | cons t ts ih =>
      have ht := h t List.mem_cons_self
      have hcut : cut (· = slash) ((t :: ts).flatMap (· ++ [slash])) =
          some (t, slash :: ts.flatMap (· ++ [slash])) := by
        rw [List.flatMap_cons, List.append_assoc, ← List.nil_append t]
        refine cut_run (fun _ hx => absurd hx List.not_mem_nil) ht.nonempty ?_ ?_
        · rintro x hx rfl
          exact ht.element hx
        · intro x hx
          exact (Option.some.inj hx).symm
      exact .cons hcut (ih fun t ht => h t (List.mem_cons_of_mem _ ht))
  exact hruns.append (d := [slash]) fun x hx => List.mem_singleton.mp hx

theorem namecmp_text (hs : Text s) (ht : Text t) (h : namecmp s t = 0) : s = t := by
  have htake := (strncmp_eq_zero hs.nonzero ht.nonzero).mp h
  rwa [List.take_of_length_le hs.short, List.take_of_length_le ht.short] at htake

/-- The name of a slot leads to it, for no other slot has that name. -/
theorem child_of_slot (h : Shape sb f d) (hk : k < slots (f d).bytes)
    (hused : (slot (f d).bytes k).inum ≠ 0) (ht : Text t)
    (hname : (slot (f d).bytes k).name = strncpy DIRSIZ t) :
    child f d t = some (slot (f d).bytes k).inum := by
  rw [child]
  cases hfind : find (f d).bytes t with
  | none => exact absurd hname (Shape.name_ne hfind hk hused)
  | some k' =>
    obtain ⟨hk', hused', hcmp⟩ := find_some hfind
    obtain ⟨u, hu, hname'⟩ := h.text k' hk' hused'
    rw [hname', namecmp_strncpy] at hcmp
    obtain rfl := namecmp_text ht hu hcmp
    rw [Option.map_some, h.once k' hk' k hk hused' hused (hname'.trans hname.symm)]

theorem resolve_concat (hr : resolve f false dp ts = some (n, []))
    (hdir : (f n).type = T_DIR) (hc : child f n (t.take DIRSIZ) = some inum) :
    resolve f false dp (ts ++ [t]) = some (inum, []) := by
  induction ts generalizing dp with
  | nil =>
    obtain ⟨rfl, -⟩ := Prod.mk.inj (Option.some.inj hr)
    rw [List.nil_append, resolve, if_neg (not_not.mpr hdir), hc]
    rfl
  | cons u ts ih =>
    rw [resolve] at hr
    rw [List.cons_append, resolve]
    by_cases htype : (f dp).type ≠ Kind.T_DIR.code
    · rw [if_pos htype] at hr
      cases hr
    · rw [if_neg htype, Bool.false_and, if_neg Bool.false_ne_true] at hr ⊢
      obtain ⟨next, hnext, hr⟩ := Option.bind_eq_some_iff.mp hr
      rw [hnext, Option.bind_some]
      exact ih hr

/-- The way down in the tree is a path. -/
theorem resolve_of_reached (h : Named sb f) (hn : Reached ROOTINO up (entries sb f) n) :
    ∃ ts, (∀ t ∈ ts, Text t) ∧ resolve f false ROOTINO ts = some (n, []) := by
  induction hn with
  | root => exact ⟨[], fun _ ht => absurd ht List.not_mem_nil, rfl⟩
  | @entry e he hs _ ih =>
    obtain ⟨ts, hts, hr⟩ := ih
    obtain ⟨hd, -, hlt, h0, hnode⟩ := mem_entries.mp he
    have hshape := h.shape _ hd
    have hused : (slot (f e.dir).bytes e.label).inum ≠ 0 := hnode ▸ h0
    obtain ⟨t, ht, hname⟩ := hshape.text _ hlt hused
    have hchild := child_of_slot hshape hlt hused ht hname
    rw [hnode] at hchild
    refine ⟨ts ++ [t], fun u hu => ?_, resolve_concat hr (mem_dirs.mp hd).2 ?_⟩
    · obtain hu | hu := List.mem_append.mp hu
      · exact hts u hu
      · exact List.mem_singleton.mp hu ▸ ht
    · rw [List.take_of_length_le ht.short]
      exact hchild

/-- On the disk too, `namex` finds each inode with a name, whoever asks. -/
theorem namex_finds {fs : DiskInodes.Fs} (hinv : Invariant sb fs) (h : Named sb (file fs))
    (hi : Live sb (file fs) i) : ∃ path, path.head? = some slash ∧ ∀ refs cwd, ∃ fs',
      exec (FileStore.next sb) (namex refs cwd path false) fs = some (fs', some (i, [])) ∧
        Shows sb fs' (file fs) := by
  obtain ⟨ts, hts, hr⟩ := resolve_of_reached h (h.tree.reached i (mem_alive.mpr hi))
  refine ⟨absolute ts, rfl, fun refs cwd => ?_⟩
  have hfiles : exec (FileMachine.next sb) (namex refs cwd (absolute ts) false) (file fs) =
      some (file fs, some (i, [])) := by
    have hslash : (absolute ts).head? = some slash := rfl
    rw [exec_namex h.closed (.inl hslash) (absolute_runs hts), if_pos hslash, hr]
  have hrel : Invariant sb fs ∧ Shows sb fs (file fs) := ⟨hinv, fun _ _ => rfl⟩
  have hissues : Issues Op.Fits (namex refs cwd (absolute ts) false) := issues_namex
  cases hexec : exec (FileStore.next sb) (namex refs cwd (absolute ts) false) fs with
  | none =>
    rw [FileMachine.lockstep.exec_fails hissues hrel, hfiles] at hexec
    cases hexec
  | some r =>
    obtain ⟨f', hf, -, hshows⟩ := FileMachine.lockstep.exec_steps hissues hrel hexec
    rw [hfiles] at hf
    obtain ⟨rfl, hfound⟩ := Prod.mk.inj (Option.some.inj hf)
    exact ⟨r.1, by rw [hfound], hshows⟩

end NamePaths
