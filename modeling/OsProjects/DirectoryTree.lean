import Mathlib.Data.List.Basic
import Mathlib.Data.List.Nodup
import Mathlib.Logic.Function.Basic

/-! # Directory trees

Trees of files and ordered directories over arbitrary names and contents. What a path sees
of a tree is its `view`; adding, removing and replacing a node each change the view at one
or two paths.
-/
namespace DirectoryTree

inductive Node (ν β : Type) where
  | file (bytes : List β)
  | dir (children : List (ν × Node ν β))

/-- A node without what lies below it. -/
inductive Shape (ν β : Type) where
  | file (bytes : List β)
  | dir (names : List ν)
  deriving DecidableEq, Repr

variable {ν β : Type}

def shape : Node ν β → Shape ν β
  | .file bytes => .file bytes
  | .dir cs => .dir (cs.map Prod.fst)

-- The paths of all nodes, one list function for each level of the nesting.
mutual
def paths : Node ν β → List (List ν)
  | .file _ => [[]]
  | .dir cs => [] :: pathsOf cs
def pathsOf : List (ν × Node ν β) → List (List ν)
  | [] => []
  | c :: cs => pathsBelow c ++ pathsOf cs
def pathsBelow : ν × Node ν β → List (List ν)
  | (x, n) => (paths n).map (x :: ·)
end

section Lookup

variable [DecidableEq ν]

/-- The first child with the name. -/
def child (x : ν) : List (ν × Node ν β) → Option (Node ν β)
  | [] => none
  | c :: cs => if c.1 = x then some c.2 else child x cs

def lookup : List ν → Node ν β → Option (Node ν β)
  | [], t => some t
  | _ :: _, .file _ => none
  | x :: p, .dir cs =>
    match child x cs with
    | none => none
    | some n => lookup p n

def update (f : Node ν β → Node ν β) : List ν → Node ν β → Node ν β
  | [], t => f t
  | _ :: _, .file bytes => .file bytes
  | x :: p, .dir cs => .dir (cs.map fun c => if c.1 = x then (c.1, update f p c.2) else c)

def view (t : Node ν β) (p : List ν) : Option (Shape ν β) := (lookup p t).map shape

def addChild (x : ν) (n : Node ν β) : Node ν β → Node ν β
  | .dir cs => .dir (cs ++ [(x, n)])
  | .file bytes => .file bytes

def removeChild (x : ν) : Node ν β → Node ν β
  | .dir cs => .dir (cs.filter fun c => c.1 ≠ x)
  | .file bytes => .file bytes

/-- Nothing lies below the node. -/
def Leaf (n : Node ν β) : Prop := ∀ p, p ≠ [] → lookup p n = none

end Lookup

section Children

variable [DecidableEq ν] {x y : ν} {n : Node ν β} {cs : List (ν × Node ν β)}

theorem child_eq_none : child x cs = none ↔ x ∉ cs.map Prod.fst := by
  induction cs with
  | nil => simp [child]
  | cons c cs ih =>
    rw [child, List.map_cons, List.mem_cons, not_or]
    by_cases hc : c.1 = x
    · simp [hc]
    · simp [hc, ih, Ne.symm hc]

theorem child_concat : child y (cs ++ [(x, n)]) =
    match child y cs with
    | some t => some t
    | none => if x = y then some n else none := by
  induction cs with
  | nil => rfl
  | cons c cs ih =>
    rw [List.cons_append, child, child, ih]
    by_cases hc : c.1 = y <;> simp [hc]

theorem child_filter : child y (cs.filter fun c => c.1 ≠ x) = if y = x then none else child y cs := by
  induction cs with
  | nil => simp [child]
  | cons c cs ih =>
    by_cases hc : c.1 = x
    · rw [List.filter_cons_of_neg (by simp [hc]), ih, child]
      by_cases hy : y = x
      · simp [hy]
      · simp [hy, hc, Ne.symm hy]
    · rw [List.filter_cons_of_pos (by simp [hc]), child, child, ih]
      by_cases hy : y = x
      · simp [hy, hc]
      · simp [hy]

theorem child_map (f : Node ν β → Node ν β) :
    child y (cs.map fun c => if c.1 = x then (c.1, f c.2) else c) =
      if y = x then (child y cs).map f else child y cs := by
  induction cs with
  | nil => simp [child]
  | cons c cs ih =>
    rw [List.map_cons, child, child, ih]
    by_cases hc : c.1 = x
    · by_cases hy : y = x
      · simp [hc, hy]
      · simp [hc, hy, Ne.symm hy]
    · by_cases hy : y = x
      · simp [hc, hy]
      · simp [hc, hy]

theorem names_map (f : Node ν β → Node ν β) :
    (cs.map fun c => if c.1 = x then (c.1, f c.2) else c).map Prod.fst = cs.map Prod.fst := by
  rw [List.map_map]
  refine List.map_congr_left fun c _ => ?_
  rw [Function.comp_apply]
  split_ifs <;> rfl

end Children

section Views

variable [DecidableEq ν] {f : Node ν β → Node ν β} {t n : Node ν β} {x : ν} {p q r : List ν}
  {names : List ν} {bytes : List β}

theorem lookup_append : lookup (p ++ q) t = (lookup p t).bind (lookup q) := by
  induction p generalizing t with
  | nil => rfl
  | cons x p ih =>
    cases t with
    | file bytes => rfl
    | dir cs =>
      rw [List.cons_append, lookup, lookup]
      cases child x cs with
      | none => rfl
      | some n => exact ih

theorem leaf_file : Leaf (.file bytes : Node ν β) := by
  intro p hp
  cases p with
  | nil => exact absurd rfl hp
  | cons x p => rfl

theorem leaf_empty : Leaf (.dir [] : Node ν β) := by
  intro p hp
  cases p with
  | nil => exact absurd rfl hp
  | cons x p => rfl

theorem view_append (hn : lookup p t = some n) : view t (p ++ q) = view n q := by
  rw [view, lookup_append, hn]
  rfl

theorem view_dir (h : view t p = some (.dir names)) :
    ∃ cs, lookup p t = some (.dir cs) ∧ cs.map Prod.fst = names := by
  obtain ⟨n, hn, hs⟩ := Option.map_eq_some_iff.mp h
  cases n with
  | file bytes => cases hs
  | dir cs => exact ⟨cs, hn, Shape.dir.inj hs⟩

theorem view_file (h : view t p = some (.file bytes)) : lookup p t = some (.file bytes) := by
  obtain ⟨n, hn, hs⟩ := Option.map_eq_some_iff.mp h
  cases n with
  | file bs => rw [hn, Shape.file.inj hs]
  | dir cs => cases hs

theorem view_below_file (h : view t p = some (.file bytes)) (hq : q ≠ []) :
    view t (p ++ q) = none := by
  rw [view_append (view_file h), view, leaf_file q hq]
  rfl

theorem view_cons_dir {cs : List (ν × Node ν β)} :
    view (.dir cs) (x :: p) = (child x cs).bind fun n => view n p := by
  rw [view, lookup]
  cases child x cs <;> rfl

/-- The children of a directory are the paths one name longer. -/
theorem view_concat_of_dir (h : view t p = some (.dir names)) :
    view t (p ++ [x]) ≠ none ↔ x ∈ names := by
  obtain ⟨cs, hcs, rfl⟩ := view_dir h
  rw [view_append hcs, view_cons_dir]
  cases hc : child x cs with
  | none => simp [child_eq_none.mp hc]
  | some n =>
    have hx : x ∈ cs.map Prod.fst := by
      by_contra hx
      rw [child_eq_none.mpr hx] at hc
      cases hc
    exact iff_of_true (by simp [view, lookup]) hx

/-- What lies below a path lies below a directory. -/
theorem view_parent (h : view t (p ++ [x]) ≠ none) : ∃ names, view t p = some (.dir names) := by
  cases hp : lookup p t with
  | none =>
    rw [view, lookup_append, hp] at h
    exact absurd rfl h
  | some n =>
    cases n with
    | file bytes => exact absurd (view_below_file (by rw [view, hp]; rfl) (by simp)) h
    | dir cs => exact ⟨cs.map Prod.fst, by rw [view, hp]; rfl⟩

theorem view_prefix (h : view t (p ++ q) ≠ none) : view t p ≠ none := by
  intro hp
  rw [view, Option.map_eq_none_iff] at hp
  rw [view, lookup_append, hp] at h
  exact h rfl

theorem lookup_update_append :
    lookup (q ++ r) (update f q t) = (lookup q t).bind fun n => lookup r (f n) := by
  induction q generalizing t with
  | nil => rfl
  | cons x q ih =>
    cases t with
    | file bytes => rfl
    | dir cs =>
      rw [List.cons_append, update, lookup, child_map, if_pos rfl, lookup]
      cases child x cs with
      | none => rfl
      | some n => exact ih

theorem view_update_other (h : ¬ q <+: p) : view (update f q t) p = view t p := by
  induction q generalizing p t with
  | nil => exact absurd List.nil_prefix h
  | cons y q ih =>
    cases t with
    | file bytes => rfl
    | dir cs =>
      rw [update]
      cases p with
      | nil =>
        rw [view, view, lookup, lookup, Option.map_some, Option.map_some, shape, shape, names_map]
      | cons x p =>
        rw [view_cons_dir, view_cons_dir, child_map]
        by_cases hx : x = y
        · subst hx
          rw [List.cons_prefix_cons, not_and] at h
          rw [if_pos rfl]
          cases child x cs with
          | none => rfl
          | some n => exact ih (h rfl)
        · rw [if_neg hx]

theorem view_update_append (hn : lookup q t = some n) :
    view (update f q t) (q ++ r) = view (f n) r := by
  rw [view, lookup_update_append, hn]
  rfl

theorem view_replace {bytes' : List β} (h : view t p = some (.file bytes)) :
    view (update (fun _ => .file bytes') p t) = Function.update (view t) p (some (.file bytes')) := by
  funext q
  by_cases hq : p <+: q
  · obtain ⟨r, rfl⟩ := hq
    rw [view_update_append (view_file h)]
    cases r with
    | nil =>
      rw [List.append_nil, Function.update_self]
      rfl
    | cons y r =>
      rw [Function.update_of_ne (by simp), view_below_file h (by simp)]
      rfl
  · rw [view_update_other hq, Function.update_of_ne fun heq : q = p => hq (heq ▸ List.prefix_rfl)]

theorem view_addChild (h : view t q = some (.dir names)) (hx : view t (q ++ [x]) = none)
    (hn : Leaf n) : view (update (addChild x n) q t) =
      Function.update (Function.update (view t) q (some (.dir (names ++ [x])))) (q ++ [x])
        (some (shape n)) := by
  obtain ⟨cs, hcs, rfl⟩ := view_dir h
  have hfresh : child x cs = none := by
    rw [child_eq_none, ← view_concat_of_dir h, not_not]
    exact hx
  funext p
  by_cases hp : q <+: p
  · obtain ⟨r, rfl⟩ := hp
    rw [view_update_append hcs, addChild]
    cases r with
    | nil =>
      rw [List.append_nil, Function.update_of_ne (by simp), Function.update_self, view, lookup]
      simp [shape]
    | cons y r =>
      rw [view_cons_dir, child_concat, Function.update_apply, Function.update_of_ne (by simp)]
      by_cases hy : y = x
      · subst hy
        rw [hfresh, if_pos rfl]
        cases r with
        | nil =>
          rw [if_pos rfl]
          rfl
        | cons z r =>
          rw [if_neg (by simp), view_append hcs, view_cons_dir, hfresh]
          exact congrArg (Option.map shape) (hn (z :: r) (by simp))
      · rw [if_neg (Ne.symm hy), if_neg (by simp [hy]), view_append hcs, view_cons_dir]
        cases child y cs <;> rfl
  · rw [view_update_other hp, Function.update_of_ne, Function.update_of_ne]
    · exact fun heq => hp (heq ▸ List.prefix_rfl)
    · exact fun heq => hp (heq ▸ List.prefix_append q [x])

theorem view_removeChild (h : view t q = some (.dir names))
    (hx : view t (q ++ [x]) = some (.file bytes)) : view (update (removeChild x) q t) =
      Function.update (Function.update (view t) q (some (.dir (names.filter fun y => y ≠ x))))
        (q ++ [x]) none := by
  obtain ⟨cs, hcs, rfl⟩ := view_dir h
  funext p
  by_cases hp : q <+: p
  · obtain ⟨r, rfl⟩ := hp
    rw [view_update_append hcs, removeChild]
    cases r with
    | nil =>
      rw [List.append_nil, Function.update_of_ne (by simp), Function.update_self, view, lookup,
        Option.map_some, shape, List.filter_map]
      rfl
    | cons y r =>
      rw [view_cons_dir, child_filter, Function.update_apply, Function.update_of_ne (by simp)]
      by_cases hy : y = x
      · subst hy
        rw [if_pos rfl]
        cases r with
        | nil => rw [if_pos rfl, Option.bind_none]
        | cons z r =>
          rw [if_neg (by simp), Option.bind_none, List.append_cons, view_below_file hx (by simp)]
      · rw [if_neg hy, if_neg (by simp [hy]), view_append hcs, view_cons_dir]
  · rw [view_update_other hp, Function.update_of_ne, Function.update_of_ne]
    · exact fun heq => hp (heq ▸ List.prefix_rfl)
    · exact fun heq => hp (heq ▸ List.prefix_append q [x])

theorem mem_pathsOf {cs : List (ν × Node ν β)} (hc : child x cs = some n) (hp : p ∈ paths n) :
    x :: p ∈ pathsOf cs := by
  induction cs with
  | nil => cases hc
  | cons c cs ih =>
    rw [child] at hc
    rw [pathsOf, List.mem_append]
    split_ifs at hc with hx
    · cases hc
      refine Or.inl ?_
      obtain ⟨y, n⟩ := c
      rw [pathsBelow, List.mem_map]
      exact ⟨p, hp, by rw [← hx]⟩
    · exact Or.inr (ih hc)

theorem mem_paths (h : view t p ≠ none) : p ∈ paths t := by
  induction p generalizing t with
  | nil => cases t <;> simp [paths]
  | cons x p ih =>
    cases t with
    | file bytes => exact absurd rfl h
    | dir cs =>
      rw [view_cons_dir] at h
      cases hc : child x cs with
      | none =>
        rw [hc] at h
        exact absurd rfl h
      | some n =>
        rw [hc] at h
        rw [paths]
        exact List.mem_cons_of_mem _ (mem_pathsOf hc (ih h))

end Views

end DirectoryTree
