import OsProjects.DirectoryTree
import OsProjects.WfsHandlers
import OsProjects.WfsPaths
import Mathlib.Data.List.Induction

/-! # The file system WFS is meant to be

A tree in which a directory is an ordered list of names and nodes and a file is a list of
bytes, with the seven operations and what they answer. Paths are lists of names; `render`
gives their text.
-/
namespace WfsTree

open ByteMemory WfsLookup WfsHandlers WfsPaths DirectoryTree

/-- A name that fits into a dentry. -/
@[ext]
structure Name where
  bytes : List UInt8
  nonempty : bytes ≠ []
  short : bytes.length ≤ 31
  noSlash : slash ∉ bytes
  clean : (0 : UInt8) ∉ bytes

instance : DecidableEq Name := fun _ _ => decidable_of_iff _ Name.ext_iff.symm

abbrev Tree := Node Name UInt8

abbrev TreePath := List Name

inductive TreeCall where
  | getattr (p : TreePath)
  | mknod (q : TreePath) (x : Name)
  | mkdir (q : TreePath) (x : Name)
  | read (p : TreePath) (size offset : ℕ)
  | write (p : TreePath) (buf : List UInt8) (offset : ℕ)
  | readdir (p : TreePath) (full : ℕ → Bool)
  | unlink (q : TreePath) (x : Name)

/-- What is observed of a call: the return code, the directory bit and the size of getattr,
the bytes read and the names listed. -/
structure Answer where
  ret : ℤ
  stat : Option (Bool × ℕ)
  buf : List UInt8
  names : List (List UInt8)
  deriving DecidableEq, Repr

def code (ret : ℤ) : Answer := ⟨ret, none, [], []⟩

/-- The names a filler takes, up to the first one it refuses. -/
def handed (full : ℕ → Bool) : ℕ → List (List UInt8) → List (List UInt8)
  | _, [] => []
  | k, x :: xs => x :: if full k then [] else handed full (k + 1) xs

def statOf : Shape Name UInt8 → Bool × ℕ
  | .file bytes => (false, bytes.length)
  | .dir names => (true, 40 * names.length)

def treeStep (t : Tree) : TreeCall → Tree × Answer
  | .getattr p =>
    match view t p with
    | none => (t, code (-ENOENT))
    | some n => (t, ⟨0, some (statOf n), [], []⟩)
  | .mknod q x => (update (addChild x (.file [])) q t, code 0)
  | .mkdir q x => (update (addChild x (.dir [])) q t, code 0)
  | .read p size offset =>
    match view t p with
    | none => (t, code (-ENOENT))
    | some (.dir _) => (t, code (-1))
    | some (.file bytes) =>
      (t, ⟨((bytes.drop offset).take size).length, none, (bytes.drop offset).take size, []⟩)
  | .write p buf offset =>
    match view t p with
    | none => (t, code (-ENOENT))
    | some (.dir _) => (t, code (-1))
    | some (.file bytes) =>
      if offset > bytes.length then (t, code (-EFBIG))
      else (update (fun _ => .file (splice bytes offset buf)) p t, code buf.length)
  | .readdir p full =>
    match view t p with
    | some (.dir names) => (t, ⟨0, none, [], handed full 0 (names.map Name.bytes)⟩)
    | _ => (t, code (-ENOENT))
  | .unlink q x => (update (removeChild x) q t, code 0)

def dirAt (t : Tree) (p : TreePath) : Bool :=
  match view t p with
  | some (.dir _) => true
  | _ => false

/-- The components of the path but the last are directories. -/
def Reached (t : Tree) (p : TreePath) : Prop := ∀ k < p.length, dirAt t (p.take k) = true

/-- Creations are for paths that are free and leave at most 256 nodes; only files are
unlinked. -/
def Permitted (t : Tree) : TreeCall → Prop
  | .getattr p => Reached t p
  | .mknod q x => Reached t (q ++ [x]) ∧ view t (q ++ [x]) = none ∧ (paths t).length < 256
  | .mkdir q x => Reached t (q ++ [x]) ∧ view t (q ++ [x]) = none ∧ (paths t).length < 256
  | .read p _ _ => Reached t p
  | .write p _ _ => Reached t p
  | .readdir p _ => Reached t p
  | .unlink q x => Reached t (q ++ [x]) ∧ ∃ bytes, view t (q ++ [x]) = some (.file bytes)

def treeAnswers (t : Tree) : List TreeCall → List Answer
  | [] => []
  | c :: cs => (treeStep t c).2 :: treeAnswers (treeStep t c).1 cs

/-- The text of the path in front of a further component. -/
def renderDir (p : TreePath) : List UInt8 := p.flatMap fun x => slash :: x.bytes

def render (p : TreePath) : List UInt8 := parentPath (renderDir p)

section Render

variable {p q : TreePath} {x : Name}

theorem renderDir_concat : renderDir (q ++ [x]) = renderDir q ++ slash :: x.bytes := by
  simp [renderDir]

theorem render_concat : render (q ++ [x]) = renderDir q ++ slash :: x.bytes := by
  rw [render, renderDir_concat, parentPath, if_neg (by simp)]

theorem strtok_renderDir : strtok [] (renderDir p) = p.map Name.bytes := by
  induction p using List.reverseRecOn with
  | nil => rfl
  | append_singleton q x ih =>
    rw [renderDir_concat, strtok_append_slash, ih, strtok_name [] x.noSlash, List.nil_append,
      if_neg x.nonempty, List.map_append, List.map_singleton]

theorem strtok_render : strtok [] (render p) = p.map Name.bytes := by
  rw [render, strtok_parentPath, strtok_renderDir]

theorem splitLast_render : splitLast (render (q ++ [x])) = some (renderDir q, x.bytes) := by
  rw [render_concat, splitLast_append x.noSlash]

theorem render_clean (p : TreePath) : (0 : UInt8) ∉ render p := by
  have hslash : (0 : UInt8) ≠ slash := by decide
  rw [render, parentPath]
  split_ifs
  · simp [hslash]
  · simp only [renderDir, List.mem_flatMap, List.mem_cons, not_exists, not_and, not_or]
    exact fun x _ => ⟨hslash, x.clean⟩

end Render

def pathOf (p : TreePath) : Path := ⟨render p, render_clean p⟩

/-- The call as the handlers get it. -/
def toCall : TreeCall → Call
  | .getattr p => .getattr (pathOf p)
  | .mknod q x => .mknod (pathOf (q ++ [x]))
  | .mkdir q x => .mkdir (pathOf (q ++ [x]))
  | .read p size offset => .read (pathOf p) size offset
  | .write p buf offset => .write (pathOf p) buf offset
  | .readdir p full => .readdir (pathOf p) full
  | .unlink q x => .unlink (pathOf (q ++ [x]))

end WfsTree
