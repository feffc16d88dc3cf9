import OsProjects.Runs
import OsProjects.WfsChange

/-! # Runs of WFS

A run is a list of handler calls on the image `mkfs.wfs` wrote. A call that faults ends it.
-/
namespace WfsRuns

open ByteMemory WfsLookup WfsHandlers WfsLog WfsAppend WfsChange

structure Event where
  env : Env
  call : Call

def next (s : Wfs) (e : Event) : Option Wfs :=
  match handle e.env s e.call with
  | .ok (s', _) => some s'
  | .error _ => none

abbrev run (s : Wfs) (es : List Event) : Option Wfs := Runs.run next s es

/-- `P` holds at every step of the run. -/
abbrev Along (P : Wfs → Event → Prop) (s : Wfs) (es : List Event) : Prop := Runs.Along next P s es

def RoomyStep (s : Wfs) (e : Event) : Prop := Roomy s e.call

/-- The single entry of a fresh image. -/
def rootEntry (time : ℕ → ℕ) : Entry :=
  ⟨⟨0, 0, S_IFDIR, 0, 0, 0, 0, time 0 % 4294967296, time 1 % 4294967296, time 2 % 4294967296, 1⟩,
    []⟩

section Runs

variable {s s' : Wfs} {e : Event} {es : List Event} {L : List Entry}

theorem next_some (h : next s e = some s') : ∃ r, handle e.env s e.call = .ok (s', r) := by
  rw [next] at h
  split at h
  next s'' r hr =>
    cases h
    exact ⟨r, hr⟩
  next => cases h

theorem mkfs_head {disk : Mem} {total_size : ℕ} {time : ℕ → ℕ} :
    (mkfs disk total_size time).head = 52 := by
  rw [Wfs.head, mkfs, loadWord_storeWords_of_disjoint (Or.inl le_rfl)]
  exact loadWord_storeWord

theorem mkfs_outside {disk : Mem} {total_size x : ℕ} {time : ℕ → ℕ} (h : 52 ≤ x) :
    (mkfs disk total_size time).data x = disk x := by
  simp only [mkfs]
  rw [storeWords_outside (by rw [words_length]; omega), storeWords_outside (by simp; omega)]

theorem mkfs_rep (disk : Mem) (total_size : ℕ) (time : ℕ → ℕ) :
    Rep (mkfs disk total_size time) [rootEntry time] := by
  have hfits : Fits (rootEntry time).inode := by
    have hlt : ∀ w : ℕ, w % 4294967296 < 4294967296 := fun w => Nat.mod_lt _ (by omega)
    simp [Fits, rootEntry, Inode.words, S_IFDIR, hlt]
  have hdata : (mkfs disk total_size time).data =
      storeWords (storeWords disk 0 [WFS_MAGIC, 52]) 8 (rootEntry time).inode.words := by
    simp only [mkfs, rootEntry, Inode.words, storeWords, storeWord_mod]
  refine ⟨⟨⟨?_, rfl, rfl⟩, mkfs_head.symm⟩, ?_, ?_, fun _ _ => rfl⟩
  · rw [hdata, loadInode_storeWords hfits]
  · rw [List.forall_mem_singleton]
    exact Nat.zero_lt_succ _
  · rw [List.forall_mem_singleton]
    exact fun _ => dvd_zero 40

theorem run_rep (h : Rep s L) (hroom : Along RoomyStep s es) (hr : run s es = some s') :
    ∃ L', Rep s' L' := by
  have hstep : ∀ s e s', (∃ L, Rep s L) → RoomyStep s e → next s e = some s' →
      ∃ L, Rep s' L := by
    rintro s e s' ⟨L, h⟩ hroom hn
    obtain ⟨r, hh⟩ := next_some hn
    obtain ⟨L', hc⟩ := handle_change h hroom hh
    exact ⟨_, hc.rep h hroom⟩
  exact @Runs.run_invariant _ _ next RoomyStep (fun s => ∃ L, Rep s L) _ _ _ hstep ⟨L, h⟩ hroom hr

end Runs

def quietEnv : Env := ⟨0, 0, fun _ => 0⟩

/-- A zero-filled disk of the given size after `mkfs.wfs`. -/
def zeroDisk (total_size : ℕ) : Wfs := mkfs (fun _ => 0) total_size fun _ => 0

theorem zero_notMem_pathA : (0 : UInt8) ∉ [slash, 97] := by decide

/-- `mknod("/a")`. -/
def mknodA : Event := ⟨quietEnv, .mknod ⟨[slash, 97], zero_notMem_pathA⟩⟩

/-- `mknod("/b")`. -/
def mknodB : Event := ⟨quietEnv, .mknod ⟨[slash, 98], by decide⟩⟩

theorem next_getD {s s' : Wfs} {e : Event} (h : next s e = some s') :
    s' = (next s e).getD s := by
  rw [h, Option.getD_some]

end WfsRuns
