import Mathlib.Data.List.Basic
import Mathlib.Data.List.Nodup
import Mathlib.Logic.Function.Basic

/-! # Redo logs

A redo log names the places that are to be overwritten and holds their new values in slots, the
first place's value in the first slot. Once it is in force, the places may be overwritten one
after the other, again and again, and it goes out of force when all of them are.
-/
namespace RedoLog

variable {K V : Type*} [DecidableEq K]

/-- What a place holds, or will hold once the log is applied. -/
def redo (targets : List K) (slot : ℕ → V) (home : K → V) (k : K) : V :=
  if k ∈ targets then slot (targets.idxOf k) else home k

section Laws

variable {targets : List K} {slot slot' : ℕ → V} {home home' : K → V} {k : K} {i : ℕ}

theorem redo_nil : redo [] slot home k = home k := if_neg List.not_mem_nil

theorem redo_of_notMem (h : k ∉ targets) : redo targets slot home k = home k := if_neg h

theorem redo_getElem (hnodup : targets.Nodup) (hi : i < targets.length) :
    redo targets slot home targets[i] = slot i := by
  rw [redo, if_pos (List.getElem_mem hi), hnodup.idxOf_getElem i hi]

theorem redo_congr (hslot : ∀ i < targets.length, slot i = slot' i)
    (hhome : k ∉ targets → home k = home' k) :
    redo targets slot home k = redo targets slot' home' k := by
  rw [redo, redo]
  split_ifs with hk
  · exact hslot _ (List.idxOf_lt_length_of_mem hk)
  · exact hhome hk

/-- Values that are written to targets make no difference while the log is in force. -/
theorem redo_update (hi : i < targets.length) (v : V) :
    redo targets slot (Function.update home targets[i] v) k = redo targets slot home k := by
  refine redo_congr (fun _ _ => rfl) fun hk => Function.update_of_ne ?_ v home
  rintro rfl
  exact hk (List.getElem_mem hi)

/-- Once all targets are overwritten, the log says what is there without it. -/
theorem redo_installed (h : ∀ i (hi : i < targets.length), home targets[i] = slot i) :
    redo targets slot home k = home k := by
  rw [redo]
  split_ifs with hk
  · have hi := List.idxOf_lt_length_of_mem hk
    rw [← h _ hi, List.getElem_idxOf]
  · rfl

/-- A log with the new values puts the new state in force at once. -/
theorem redo_commit {new : K → V} (hnodup : targets.Nodup)
    (hslot : ∀ i (hi : i < targets.length), slot i = new targets[i])
    (hhome : k ∉ targets → home k = new k) : redo targets slot home k = new k := by
  by_cases hk : k ∈ targets
  · obtain ⟨i, hi, rfl⟩ := List.getElem_of_mem hk
    rw [redo_getElem hnodup hi, hslot i hi]
  · rw [redo_of_notMem hk, hhome hk]

end Laws

end RedoLog
