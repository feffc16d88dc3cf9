import Mathlib.Data.List.Find
import OsProjects.DiskSpace
import OsProjects.Programs

/-! # The files as a machine

The abstract machine that the file system is: its state is the files, and it stops where the
kernel panics. -/
namespace FileMachine

open Programs DiskBlocks DiskInodes FileContents FileStore DiskSpace

section Purpose

variable (sb : SuperBlock)

/-- `ialloc` takes the first inode that is free. -/
def answer (f : ℕ → File) : Op → Result
  | .ialloc _ => .inum (((List.range' 1 (sb.ninodes - 1)).find? fun i => (f i).type = 0).getD 0)
  | .stat inum => .stat (f inum).type (f inum).nlink (f inum).bytes.length
  | .writei inum off src => .wrote (PageCache.writei (f inum).bytes off src).isSome
  | .readi inum off n => .bytes (PageCache.readi (f inum).bytes off n)
  | .links _ _ | .node _ _ _ _ | .iput _ | .ilock _ => .done

instance (f : ℕ → File) (op : Op) : Decidable (Blocked sb f op) := by
  cases op <;> simp only [Blocked] <;> infer_instance

def next (f : ℕ → File) (op : Op) : Option ((ℕ → File) × Result) :=
  if Blocked sb f op then none else some (apply f op (answer sb f op), answer sb f op)

end Purpose

variable {sb : SuperBlock} {fs fs' : Fs} {f : ℕ → File} {op : Op} {r : Result}

theorem answer_eq (h : Invariant sb fs) (hshows : Shows sb fs f) (hfits : op.Fits)
    (hn : FileStore.next sb fs op = some (fs', r)) : answer sb f op = r := by
  have hcorrect := (next_spec h hshows hfits hn).1
  cases op with
  | ialloc kind =>
    obtain ⟨⟨fs₁, inum⟩, ha, he⟩ := Option.map_eq_some_iff.mp hn
    obtain ⟨rfl, rfl⟩ := Prod.mk.inj he
    have hfind : (List.range' 1 (sb.ninodes - 1)).find? (fun i => (dinode sb fs.disk i).type = 0) =
        (List.range' 1 (sb.ninodes - 1)).find? fun i => (f i).type = 0 := by
      refine List.find?_congr fun i hi => ?_
      have hi' := List.mem_range'_1.mp hi
      have hlt : i < sb.ninodes := by omega
      rw [h.regular.synced i hlt, ← hshows i hlt, file]
    rw [ialloc] at ha
    split at ha
    · rename_i inum' hsome
      obtain ⟨-, rfl⟩ := Prod.mk.inj (Option.some.inj ha)
      rw [answer, ← hfind, hsome, Option.getD_some]
    · cases ha
  | stat inum =>
    cases r <;> simp only [Correct] at hcorrect
    obtain ⟨rfl, rfl, rfl⟩ := hcorrect
    rfl
  | writei inum off src =>
    cases r <;> simp only [Correct] at hcorrect
    rw [answer, hcorrect]
  | readi inum off n =>
    cases r <;> simp only [Correct] at hcorrect
    rw [answer, hcorrect]
  | links inum nlink =>
    cases r <;> simp only [Correct] at hcorrect
    rfl
  | node inum major minor nlink =>
    cases r <;> simp only [Correct] at hcorrect
    rfl
  | iput inum =>
    cases r <;> simp only [Correct] at hcorrect
    rfl
  | ilock inum =>
    cases r <;> simp only [Correct] at hcorrect
    rfl

/-- The code on the disk is the machine on the files. -/
theorem lockstep : Lockstep (FileStore.next sb) (next sb) Op.Fits fun fs f =>
    Invariant sb fs ∧ Shows sb fs f := by
  refine ⟨fun {fs f op} hrel hfits => ?_, fun {fs f op fs' r} hrel hfits hn => ?_⟩
  · rw [next_eq_none hrel.1 hrel.2 hfits, next, ite_eq_left_iff]
    simp only [reduceCtorEq, imp_false, not_not]
  · have hblocked : ¬ Blocked sb f op := fun hb => by
      rw [(next_eq_none hrel.1 hrel.2 hfits).mpr hb] at hn
      cases hn
    obtain ⟨-, hinv, hshows⟩ := next_spec hrel.1 hrel.2 hfits hn
    have hanswer := answer_eq hrel.1 hrel.2 hfits hn
    exact ⟨_, by rw [next, if_neg hblocked, hanswer], hinv, hshows⟩

end FileMachine
