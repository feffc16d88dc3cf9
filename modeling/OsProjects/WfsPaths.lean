import OsProjects.WfsLog

/-! # Paths on a tiled log

Lookup depends on the components of a path only, and the parent a handler cuts off with
`strrchr` is the path without its last component.
-/
namespace WfsPaths

open ByteMemory WfsLookup WfsLog

section Components

variable {p q dp name : List UInt8}

theorem strtok_append_slash (cur : List UInt8) :
    strtok cur (p ++ slash :: q) = strtok cur p ++ strtok [] q := by
  induction p generalizing cur with
  | nil =>
    simp only [List.nil_append, strtok]
    by_cases hc : cur = [] <;> simp [hc]
  | cons c p ih =>
    simp only [List.cons_append, strtok]
    by_cases hc : c = slash
    · by_cases hcur : cur = [] <;> simp [hc, hcur, ih]
    · simp [hc, ih]

theorem mem_strtok {cur token : List UInt8} {c : UInt8} (ht : token ∈ strtok cur p) (hc : c ∈ token) :
    c ∈ cur ++ p := by
  induction p generalizing cur with
  | nil =>
    rw [strtok] at ht
    split_ifs at ht with hcur
    · cases ht
    · rw [List.mem_singleton] at ht
      simpa [← ht] using hc
  | cons b p ih =>
    rw [strtok] at ht
    split_ifs at ht with hb hcur
    · have := ih ht
      simp only [List.nil_append] at this
      simp [this]
    · rcases List.mem_cons.mp ht with rfl | ht
      · simp [hc]
      · have := ih ht
        simp only [List.nil_append] at this
        simp [this]
    · simpa using ih ht

theorem strtok_name (cur : List UInt8) (h : slash ∉ name) :
    strtok cur name = if cur ++ name = [] then [] else [cur ++ name] := by
  induction name generalizing cur with
  | nil => simp [strtok]
  | cons c name ih =>
    rw [List.mem_cons, not_or] at h
    rw [strtok, if_neg (Ne.symm h.1), ih _ h.2, List.append_assoc, List.singleton_append]

theorem splitLast_some (h : splitLast p = some (dp, name)) :
    p = dp ++ slash :: name ∧ slash ∉ name := by
  rw [splitLast] at h
  split_ifs at h with hmem
  simp only [Option.some.injEq, Prod.mk.injEq] at h
  obtain ⟨hdp, hname⟩ := h
  obtain ⟨l, r, hsplit, hl⟩ := List.eq_append_cons_of_mem (List.mem_reverse.mpr hmem)
  have hp : p = r.reverse ++ slash :: l.reverse := by
    rw [← List.reverse_reverse p, hsplit]
    simp
  have htake : p.reverse.takeWhile (· ≠ slash) = l := by
    rw [hsplit, List.takeWhile_append_of_pos, List.takeWhile_cons_of_neg (by simp), List.append_nil]
    intro a ha
    exact decide_eq_true fun hc => hl (hc ▸ ha)
  rw [htake] at hname hdp
  have hr : dp = r.reverse := by
    rw [← hdp, hp, List.take_left']
    simp
    omega
  rw [← hname, hr]
  exact ⟨hp, by simpa using hl⟩

theorem splitLast_append (h : slash ∉ name) : splitLast (dp ++ slash :: name) = some (dp, name) := by
  have htake : ((dp ++ slash :: name).reverse.takeWhile (· ≠ slash)) = name.reverse := by
    rw [List.reverse_append, List.reverse_cons, List.append_assoc,
      List.takeWhile_append_of_pos, List.singleton_append, List.takeWhile_cons_of_neg (by simp),
      List.append_nil]
    intro a ha
    exact decide_eq_true fun hc => h (by rw [← hc]; simpa using ha)
  have hlen : (dp ++ slash :: name).length - name.length - 1 = dp.length := by
    rw [List.length_append, List.length_cons]
    omega
  simp only [splitLast, htake, List.reverse_reverse, hlen, List.take_left]
  rw [if_pos (by simp)]

theorem strtok_splitLast (h : splitLast p = some (dp, name)) :
    strtok [] p = strtok [] dp ++ if name = [] then [] else [name] := by
  obtain ⟨rfl, hname⟩ := splitLast_some h
  rw [strtok_append_slash, strtok_name [] hname, List.nil_append]

theorem splitLast_clean {path : Path} (h : splitLast path = some (dp, name)) :
    (0 : UInt8) ∉ name := by
  obtain ⟨hp, _⟩ := splitLast_some h
  intro hmem
  exact path.2 (by rw [hp]; simp [hmem])

theorem strtok_parentPath : strtok [] (parentPath dp) = strtok [] dp := by
  rw [parentPath]
  split_ifs with h
  · rw [h]
    rfl
  · rfl

end Components

section Walk

variable {m : Mem} {L : List Entry} {a b : ℕ} {path dp name : List UInt8}

theorem walkLog_append {ts us : List (List UInt8)} (h : walkLog m L ts a = .ok (some b)) :
    walkLog m L (ts ++ us) a = walkLog m L us b := by
  induction ts generalizing a with
  | nil =>
    cases h
    rfl
  | cons t ts ih =>
    rw [walkLog] at h
    rw [List.cons_append, walkLog]
    split at h
    next => cases h
    next d hd =>
      split at h
      next => cases h
      next c e hl =>
        split_ifs at h with hlive hts
        · rw [if_pos hlive, ih h]
        · cases h

theorem resolve_eq : resolve m L path =
    match lastAt L 8 0 with
    | none => .error .nullEntry
    | some (root, e) =>
      if e.inode.deleted ≠ 0 ∨ isDir m root = false then .ok none
      else walkLog m L (strtok [] path) root := by
  rw [resolve]
  cases lastAt L 8 0 with
  | none => rfl
  | some r =>
    by_cases hp : path = [slash]
    · subst hp
      rfl
    · simp only [if_neg hp]

/-- What the handlers find behind a parent that resolves. -/
theorem resolve_child (hs : splitLast path = some (dp, name))
    (hp : resolve m L (parentPath dp) = .ok (some a)) :
    resolve m L path = walkLog m L (if name = [] then [] else [name]) a := by
  rw [resolve_eq, strtok_parentPath] at hp
  rw [resolve_eq, strtok_splitLast hs]
  cases hl : lastAt L 8 0 with
  | none =>
    rw [hl] at hp
    cases hp
  | some r =>
    obtain ⟨root, e⟩ := r
    rw [hl] at hp
    dsimp only at hp ⊢
    by_cases hbad : e.inode.deleted ≠ 0 ∨ isDir m root = false
    · rw [if_pos hbad] at hp
      cases hp
    · rw [if_neg hbad] at hp ⊢
      exact walkLog_append hp

theorem walkLog_single (h : walkLog m L [name] a = .ok (some b)) :
    ∃ d e, lookupDentry m a name = some d ∧
      lastAt L 8 (loadLong m (d + 32) % 4294967296) = some (b, e) ∧ e.inode.deleted = 0 := by
  rw [walkLog] at h
  split at h
  next => cases h
  next d hd =>
    split at h
    next => cases h
    next c e hl =>
      split_ifs at h with hlive
      · cases h
        exact ⟨d, e, hd, hl, hlive⟩
      · cases h

end Walk

end WfsPaths
