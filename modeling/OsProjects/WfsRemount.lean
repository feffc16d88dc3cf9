import OsProjects.WfsScan

/-! # Remounting

`main` starts with an empty `all_le`. Every handler scans the log before it looks at
`all_le`, so the table holds nothing that the image does not.
-/
namespace WfsRemount

open ByteMemory WfsLookup WfsHandlers WfsLog WfsPaths WfsAppend WfsChange WfsRuns WfsScan

/-- The image mounted anew. -/
def remount (s : Wfs) : Wfs := { s with all_le := fun _ => 0, nLogEntry := 0 }

/-- What a run shows: after each call the reply and the image, up to the first fault. -/
def trace (s : Wfs) : List Event → List (Except Fault (Reply × Mem))
  | [] => []
  | e :: es =>
    match handle e.env s e.call with
    | .error f => [.error f]
    | .ok (s', r) => .ok (r, s'.data) :: trace s' es

/-- A state without the counter of entries, which no handler reads. -/
def visible (r : Run (Wfs × Reply)) : Except Fault (Mem × (ℕ → ℕ) × ℕ × Reply) :=
  match r with
  | .error f => .error f
  | .ok (s, reply) => .ok (s.data, s.all_le, s.total_size, reply)

/-- Two states with the same image and nothing else in their tables. -/
structure Twins (s₁ s₂ : Wfs) : Prop where
  data : s₁.data = s₂.data
  total : s₁.total_size = s₂.total_size
  logs : ∃ L, Rep s₁ L ∧ Rep s₂ L

section Twins

variable {env : Env} {s₁ s₂ : Wfs} {L : List Entry} {call : Call}

theorem sync_twins (hd : s₁.data = s₂.data) (ht : s₁.total_size = s₂.total_size) :
    sync s₂ L = { sync s₁ L with nLogEntry := (sync s₂ L).nLogEntry } := by
  rw [sync, sync, hd, ht]

theorem appendNode_counter {s : Wfs} {dir mode k : ℕ} {d : Entry} {name : List UInt8}
    (he : EntryAt s.data dir d) (hlo : 8 ≤ dir) (hhi : dir + d.span ≤ s.head)
    (hroom : s.head + 128 + d.bytes.length < 4294967296) :
    visible (plain (appendNode env { s with nLogEntry := k } dir name mode)) =
      visible (plain (appendNode env s dir name mode)) := by
  have hnumber : nodeNumber { s with nLogEntry := k } d = nodeNumber s d := rfl
  have himage : nodeImage env { s with nLogEntry := k } d name mode = nodeImage env s d name mode :=
    rfl
  rw [appendNode_eq (s := { s with nLogEntry := k }) he hlo hhi hroom, appendNode_eq he hlo hhi hroom,
    hnumber, himage]
  split_ifs <;> rfl

theorem appendWrite_counter {s : Wfs} {orig offset k : ℕ} {f : Entry} {buf : List UInt8}
    (he : EntryAt s.data orig f) (hlo : 8 ≤ orig) (hhi : orig + f.span ≤ s.head)
    (hoff : offset ≤ f.bytes.length)
    (hroom : s.head + 44 + f.bytes.length + buf.length ≤ s.total_size →
      s.head + 44 + (splice f.bytes offset buf).length < 4294967296) :
    visible (plain (.ok (appendWrite env { s with nLogEntry := k } orig buf offset))) =
      visible (plain (.ok (appendWrite env s orig buf offset))) := by
  have hheader : headerImage (env.time 0) { s with nLogEntry := k } f =
    headerImage (env.time 0) s f := rfl
  have himage : writeImage env { s with nLogEntry := k } f buf offset =
    writeImage env s f buf offset := rfl
  rw [appendWrite_eq (s := { s with nLogEntry := k }) he hlo hhi hoff hroom,
    appendWrite_eq he hlo hhi hoff hroom, hheader, himage]
  have hhead : ({ s with nLogEntry := k } : Wfs).head = s.head := rfl
  rw [hhead]
  split_ifs <;> rfl

theorem removeDentry_counter {s : Wfs} {file dir k : ℕ} {e d : Entry} {filename : List UInt8}
    (he : EntryAt s.data dir d) (hhi : dir + d.span ≤ s.head) (hfile : EntryAt s.data file e)
    (hflo : 8 ≤ file) (hfhi : file + e.span ≤ s.head) (hd : 40 ∣ d.bytes.length)
    (hroom : (shrunk env s dir d filename).2 = true →
      s.head + 44 + (d.bytes.length - 40) < 4294967296) :
    visible (plain (.ok (removeDentry env { s with nLogEntry := k } file dir filename))) =
      visible (plain (.ok (removeDentry env s file dir filename))) := by
  have hshrunk : shrunk env { s with nLogEntry := k } dir d filename =
    shrunk env s dir d filename := rfl
  have himage : unlinkImage env { s with nLogEntry := k } file dir d filename =
    unlinkImage env s file dir d filename := rfl
  rw [removeDentry_eq (s := { s with nLogEntry := k }) he hhi hfile hflo hfhi hd hroom,
    removeDentry_eq he hhi hfile hflo hfhi hd hroom, hshrunk, himage]
  split_ifs <;> rfl

theorem create_twins {path : Path} {mode : ℕ} (hd : s₁.data = s₂.data)
    (ht : s₁.total_size = s₂.total_size) (h₁ : Rep s₁ L) (h₂ : Rep s₂ L)
    (hroom : s₁.head + 44 ≤ s₁.total_size → s₁.head + createLength s₁ path < 4294967296) :
    visible (plain (create env s₁ path mode)) = visible (plain (create env s₂ path mode)) := by
  have hhead : s₂.head = s₁.head := by rw [Wfs.head, Wfs.head, hd]
  obtain ⟨k, hsync⟩ : ∃ k, sync s₂ L = { sync s₁ L with nLogEntry := k } := ⟨_, sync_twins hd ht⟩
  rw [create_rep h₁, create_rep h₂, ← hd, ← ht, hhead, hsync]
  cases resolve s₁.data L path with
  | error f => rfl
  | ok r =>
    cases hs : splitLast path with
    | none => rfl
    | some q =>
      obtain ⟨dp, name⟩ := q
      dsimp only
      cases hdir : resolve s₁.data L (parentPath dp) with
      | error f => rfl
      | ok o =>
        cases o with
        | none => rfl
        | some dir =>
          dsimp only
          split_ifs with hfile hspace
          · rfl
          · rfl
          · obtain ⟨d, hfound⟩ := resolve_found hdir
            have hisDir : isDir s₁.data dir = true := by simpa using hfile
            have hup := hfound.upper h₁
            have hsize : fileSize s₁ dir = d.bytes.length := (hfound.entryAt h₁).size_eq
            have hfit := hroom (not_lt.mp hspace)
            rw [createLength, parentDir_of_resolve h₁ hs hdir hisDir] at hfit
            dsimp only at hfit
            rw [hsize] at hfit
            exact (appendNode_counter (hfound.entryAt h₁.sync) (hfound.lower h₁)
              (by rw [sync_head, Entry.span]; omega) (by rw [sync_head]; omega)).symm

theorem write_twins {path : Path} {buf : List UInt8} {offset : ℕ} (hd : s₁.data = s₂.data)
    (ht : s₁.total_size = s₂.total_size) (h₁ : Rep s₁ L) (h₂ : Rep s₂ L)
    (hroom : Roomy s₁ (.write path buf offset)) :
    visible (plain (wfs_write env s₁ path buf offset)) =
      visible (plain (wfs_write env s₂ path buf offset)) := by
  obtain ⟨k, hsync⟩ : ∃ k, sync s₂ L = { sync s₁ L with nLogEntry := k } := ⟨_, sync_twins hd ht⟩
  rw [write_rep h₁, write_rep h₂, ← hd, hsync]
  cases hres : resolve s₁.data L path with
  | error f => rfl
  | ok o =>
    cases o with
    | none => rfl
    | some a =>
      obtain ⟨f, hfound⟩ := resolve_found hres
      have he := hfound.entryAt h₁
      have hup := hfound.upper h₁
      dsimp only
      split_ifs with hdir hoff
      · rfl
      · rfl
      · rw [he.size_eq, not_lt] at hoff
        have hfile : f.isDir = false := by
          rw [← he.isDir_eq]
          simpa using hdir
        exact (appendWrite_counter (hfound.entryAt h₁.sync) (hfound.lower h₁)
          (by rw [sync_head, Entry.span]; omega) hoff
          (hroom.written h₁ hres hfound hfile hoff)).symm

theorem unlink_twins {path : Path} (hd : s₁.data = s₂.data) (ht : s₁.total_size = s₂.total_size)
    (h₁ : Rep s₁ L) (h₂ : Rep s₂ L) (hroom : Roomy s₁ (.unlink path)) :
    visible (plain (wfs_unlink env s₁ path)) = visible (plain (wfs_unlink env s₂ path)) := by
  obtain ⟨k, hsync⟩ : ∃ k, sync s₂ L = { sync s₁ L with nLogEntry := k } := ⟨_, sync_twins hd ht⟩
  rw [unlink_rep h₁, unlink_rep h₂, ← hd, hsync]
  cases hres : resolve s₁.data L path with
  | error f => rfl
  | ok o =>
    cases o with
    | none => rfl
    | some file =>
      dsimp only
      cases hs : splitLast path with
      | none => rfl
      | some q =>
        obtain ⟨dp, name⟩ := q
        dsimp only
        cases hdir : resolve s₁.data L (parentPath dp) with
        | error f => rfl
        | ok o =>
          cases o with
          | none => rfl
          | some dir =>
            dsimp only
            split_ifs with hfile
            · rfl
            · obtain ⟨d, hfound⟩ := resolve_found hdir
              obtain ⟨e, hf⟩ := resolve_found hres
              have hed := hfound.entryAt h₁
              have hin : InDir s₁ L path name dir d :=
                ⟨⟨dp, hs, hdir⟩, hfound, by rw [← hed.isDir_eq]; simpa using hfile⟩
              have hup := hfound.upper h₁
              have hfup := hf.upper h₁
              refine (removeDentry_counter (hfound.entryAt h₁.sync)
                (by rw [sync_head, Entry.span]; omega) (hf.entryAt h₁.sync) (hf.lower h₁)
                (by rw [sync_head, Entry.span]; omega) (h₁.dirs d hfound.mem hin.isDir)
                (hroom.unlinked h₁ hres hin)).symm

/-- The handlers see the image and the disk size only. -/
theorem handle_twins (hd : s₁.data = s₂.data) (ht : s₁.total_size = s₂.total_size)
    (h₁ : Rep s₁ L) (h₂ : Rep s₂ L) (hroom : Roomy s₁ call) :
    visible (handle env s₁ call) = visible (handle env s₂ call) := by
  obtain ⟨k, hsync⟩ : ∃ k, sync s₂ L = { sync s₁ L with nLogEntry := k } := ⟨_, sync_twins hd ht⟩
  cases call with
  | getattr path =>
    simp only [handle, wfs_getattr]
    rw [get_path_inode_rep h₁, get_path_inode_rep h₂, ← hd, hsync]
    cases resolve s₁.data L path with
    | error f => rfl
    | ok o => cases o <;> rfl
  | mknod path =>
    exact create_twins hd ht h₁ h₂ fun hspace => hroom (decide_eq_false (not_lt.mpr hspace))
  | mkdir path =>
    exact create_twins hd ht h₁ h₂ fun hspace => hroom (decide_eq_false (not_lt.mpr hspace))
  | read path size offset =>
    simp only [handle]
    rw [read_rep h₁, read_rep h₂, ← hd, hsync]
    cases resolve s₁.data L path with
    | error f => rfl
    | ok o =>
      cases o with
      | none => rfl
      | some a =>
        dsimp only
        split_ifs <;> rfl
  | write path buf offset => exact write_twins hd ht h₁ h₂ hroom
  | readdir path full =>
    simp only [handle, wfs_readdir]
    rw [get_path_inode_rep h₁, get_path_inode_rep h₂, ← hd, hsync]
    cases resolve s₁.data L path with
    | error f => rfl
    | ok o =>
      cases o with
      | none => rfl
      | some a =>
        dsimp only
        split_ifs <;> rfl
  | unlink path => exact unlink_twins hd ht h₁ h₂ hroom

theorem rep_congr {s s' : Wfs} (h : Rep s L) (hd : s'.data = s.data) (ha : s'.all_le = s.all_le) :
    Rep s' L := by
  refine ⟨?_, h.numbers, h.dirs, ?_⟩
  · rw [Wfs.head, hd]
    exact h.tiled
  · rw [ha]
    exact h.absent

theorem Twins.step {e : Event} {s₁' : Wfs} {r : Reply} (h : Twins s₁ s₂) (hroom : RoomyStep s₁ e)
    (hr : handle e.env s₁ e.call = .ok (s₁', r)) :
    ∃ s₂', handle e.env s₂ e.call = .ok (s₂', r) ∧ Twins s₁' s₂' := by
  obtain ⟨L, h₁, h₂⟩ := h.logs
  have hsame := @handle_twins e.env _ _ _ _ h.data h.total h₁ h₂ hroom
  obtain ⟨L', hc⟩ := handle_change h₁ hroom hr
  have hrep := hc.rep h₁ hroom
  rw [hr] at hsame
  cases hr₂ : handle e.env s₂ e.call with
  | error f =>
    rw [hr₂] at hsame
    cases hsame
  | ok q =>
    obtain ⟨s₂', r'⟩ := q
    rw [hr₂] at hsame
    simp only [visible, Except.ok.injEq, Prod.mk.injEq] at hsame
    obtain ⟨hdata, hle, htotal, rfl⟩ := hsame
    exact ⟨s₂', rfl, hdata, htotal, L', hrep, rep_congr hrep hdata.symm hle.symm⟩

theorem Twins.fault {e : Event} {f : Fault} (h : Twins s₁ s₂) (hroom : RoomyStep s₁ e)
    (hr : handle e.env s₁ e.call = .error f) : handle e.env s₂ e.call = .error f := by
  obtain ⟨L, h₁, h₂⟩ := h.logs
  have hsame := @handle_twins e.env _ _ _ _ h.data h.total h₁ h₂ hroom
  rw [hr] at hsame
  cases hr₂ : handle e.env s₂ e.call with
  | error f' =>
    rw [hr₂] at hsame
    cases hsame
    rfl
  | ok q =>
    rw [hr₂] at hsame
    cases hsame

theorem trace_twins {es : List Event} (h : Twins s₁ s₂) (hroom : Along RoomyStep s₁ es) :
    trace s₁ es = trace s₂ es := by
  induction es generalizing s₁ s₂ with
  | nil => rfl
  | cons e es ih =>
    rw [trace, trace]
    cases hr : handle e.env s₁ e.call with
    | error f => rw [h.fault hroom.1 hr]
    | ok q =>
      obtain ⟨s₁', r⟩ := q
      obtain ⟨s₂', hr₂, htwins⟩ := h.step hroom.1 hr
      have hnext : next s₁ e = some s₁' := by rw [next, hr]
      rw [hr₂]
      dsimp only
      rw [htwins.data, ih htwins (hroom.2 s₁' hnext)]

end Twins

/-- In every state of a run from a fresh image, going on and remounting first show the same,
as long as the log stays inside 32-bit offsets. -/
theorem remount_same_trace {disk : Mem} {total_size : ℕ} {time : ℕ → ℕ} {es es' : List Event}
    {s : Wfs} (hr : run (mkfs disk total_size time) es = some s)
    (hroom : Along RoomyStep (mkfs disk total_size time) (es ++ es')) :
    trace s es' = trace (remount s) es' := by
  obtain ⟨L, hrep⟩ := run_rep (mkfs_rep disk total_size time) hroom.left hr
  have hfresh : Rep (remount s) L := ⟨hrep.tiled, hrep.numbers, hrep.dirs, fun _ _ => rfl⟩
  exact trace_twins ⟨rfl, rfl, L, hrep, hfresh⟩ (hroom.append hr)

theorem second_file_same_trace : ∃ s, run (zeroDisk 1000) [mknodA] = some s ∧
    Along RoomyStep (zeroDisk 1000) ([mknodA] ++ [mknodB]) ∧
    trace s [mknodB] = trace (remount s) [mknodB] := by
  have hroom : Along RoomyStep (zeroDisk 1000) ([mknodA] ++ [mknodB]) := by
    refine ⟨?_, fun s hs => ⟨?_, fun _ _ => trivial⟩⟩
    · unfold RoomyStep Roomy
      decide +kernel
    · rw [next_getD hs]
      unfold RoomyStep Roomy
      decide +kernel
  have hsome : (run (zeroDisk 1000) [mknodA]).isSome = true := by decide +kernel
  obtain ⟨s, hs⟩ := Option.isSome_iff_exists.mp hsome
  exact ⟨s, hs, hroom, remount_same_trace hs hroom⟩

/-- The first byte at `a` of the image a call leaves. -/
def byteAfter (s : Wfs) (e : Event) (a : ℕ) : Option UInt8 := (next s e).map fun s' => s'.data a

theorem byteAfter_of_trace {s₁ s₂ : Wfs} {e : Event} (h : trace s₁ [e] = trace s₂ [e]) (a : ℕ) :
    byteAfter s₁ e a = byteAfter s₂ e a := by
  simp only [byteAfter, next]
  rw [trace, trace] at h
  cases h₁ : handle e.env s₁ e.call with
  | error f =>
    cases h₂ : handle e.env s₂ e.call with
    | error f' => rfl
    | ok q =>
      rw [h₁, h₂] at h
      cases h
  | ok p =>
    cases h₂ : handle e.env s₂ e.call with
    | error f' =>
      rw [h₁, h₂] at h
      cases h
    | ok q =>
      rw [h₁, h₂] at h
      simp only [List.cons.injEq, Except.ok.injEq, Prod.mk.injEq] at h
      simp only [Option.map_some, h.1.2]

/-- A write moved the head of an 8 GiB disk around to 136, before the only entry of inode 1.
The mounted `all_le` still knows the number and gives `/b` the next one, a fresh mount gives
it 1 again. -/
theorem wrapped_trace_differs : ∃ s,
    run (zeroDisk 8589934592) [mknodA, writeZeros 4294967208] = some s ∧
    byteAfter s mknodB 260 = some 2 ∧ byteAfter (remount s) mknodB 260 = some 1 ∧
    trace s [mknodB] ≠ trace (remount s) [mknodB] := by
  have hrun : run (zeroDisk 8589934592) [mknodA, writeZeros 4294967208] =
      some (wrapped 4294967208) := by
    rw [run, Runs.run, next_mknodA_wide, Option.bind_some, Runs.run, next_writeZeros (by omega)]
    rfl
  have hmounted : byteAfter (wrapped 4294967208) mknodB 260 = some 2 := by decide +kernel
  have hfresh : byteAfter (remount (wrapped 4294967208)) mknodB 260 = some 1 := by decide +kernel
  refine ⟨_, hrun, hmounted, hfresh, fun heq => ?_⟩
  have hbyte := byteAfter_of_trace heq 260
  rw [hmounted, hfresh] at hbyte
  exact absurd hbyte (by decide)

end WfsRemount
