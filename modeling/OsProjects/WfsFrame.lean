import OsProjects.WfsScan

/-! # What a call leaves alone

The log only grows: a handler writes behind the head, apart from the access time of a file
that is read and the mark of a file that is unlinked.
-/
namespace WfsFrame

open ByteMemory WfsLookup WfsHandlers WfsLog WfsAppend WfsChange WfsRuns WfsScan

/-- The field of an old entry a call may set: `atime` of the file that was read, `deleted` of
the file that was unlinked. -/
def Excepted (s : Wfs) (call : Call) (r : Reply) (x : ℕ) : Prop :=
  match call with
  | .read path _ _ => 0 ≤ r.ret ∧ ∃ a, located s path = some a ∧ a + 28 ≤ x ∧ x < a + 32
  | .unlink path => 0 ≤ r.ret ∧ ∃ a, located s path = some a ∧ a + 4 ≤ x ∧ x < a + 8
  | _ => False

structure OnlyAppends (s : Wfs) (call : Call) (s' : Wfs) (r : Reply) : Prop where
  kept : ∀ x, 8 ≤ x → x < s.head → ¬ Excepted s call r x → s'.data x = s.data x
  marked : ∀ path, call = .unlink path → 0 ≤ r.ret →
    ∃ a, located s path = some a ∧ loadWord s'.data (a + 4) = 1
  refused : r.ret < 0 → s'.head = s.head ∧ ∀ x < s.head, s'.data x = s.data x

/-- The number of bytes a call is asked to transfer. -/
def transfer : Call → ℕ
  | .read _ size _ => size
  | .write _ buf _ => buf.length
  | _ => 0

section Frame

variable {env : Env} {s s' : Wfs} {L L' : List Entry} {call : Call} {r : Reply} {ret : ℤ}

theorem intOfSize_nonneg {n : ℕ} (h : n < 2147483648) : 0 ≤ intOfSize n := by
  rw [intOfSize_of_lt h]
  exact Int.natCast_nonneg n

theorem read_touches {path : Path} {size offset : ℕ} {buf : List UInt8} (h : Rep s L)
    (hsize : size < 2147483648) (hr : wfs_read env s path size offset = .ok (s', ret, buf)) :
    s'.data = s.data ∨ 0 ≤ ret ∧ ∃ a, located s path = some a ∧
      s'.data = storeWord s.data (a + 28) (env.time 0) := by
  rw [read_rep h] at hr
  split at hr
  next => cases hr
  next =>
    cases hr
    exact Or.inl rfl
  next a hres =>
    dsimp only at hr
    by_cases hdir : isDir s.data a = true
    · rw [if_pos hdir] at hr
      cases hr
      exact Or.inl rfl
    rw [if_neg hdir] at hr
    by_cases hend : offset ≥ loadWord s.data (a + 24)
    · rw [if_pos hend] at hr
      cases hr
      exact Or.inl rfl
    rw [if_neg hend] at hr
    simp only [Except.ok.injEq, Prod.mk.injEq] at hr
    obtain ⟨rfl, rfl, -⟩ := hr
    refine Or.inr ⟨intOfSize_nonneg ?_, a, located_of_resolve h hres, rfl⟩
    split_ifs <;> omega

/-- An unlink is refused, or it appends the directory without the name and marks the file. -/
theorem unlink_marks {path : Path} (h : Rep s L) (hroom : Roomy s (.unlink path))
    (hr : wfs_unlink env s path = .ok (s', ret)) :
    ret < 0 ∧ (∀ x < s.head, s'.data x = s.data x) ∨
      ret = 0 ∧ ∃ file dir e d name, located s path = some file ∧ Found L file e ∧ Found L dir d ∧
        d.isDir ∧ (shrunk env (sync s L) dir d name).2 = true ∧
        s'.data = unlinkImage env (sync s L) file dir d name := by
  obtain ⟨L', hc, hzero⟩ := unlink_change h hroom hr
  cases hc with
  | quiet hquiet _ =>
    rcases hquiet with hquiet | ⟨rfl, _⟩
    · exact Or.inl ⟨hzero hquiet, fun x _ => rfl⟩
    · exact Or.inl ⟨by decide, fun x _ => rfl⟩
  | created hcall => cases hcall
  | missed hres hf hin hfound =>
    refine Or.inl ⟨by decide, fun x hx => ?_⟩
    exact shrunk_outside (s := sync s L) (h.dirs _ hin.found.mem hin.isDir) (Or.inl hx)
  | unlinked hres hf hin hfound =>
    exact Or.inr ⟨rfl, _, _, _, _, _, located_of_resolve h hres, hf, hin.found, hin.isDir, hfound, rfl⟩

/-- A call that leaves everything below the head. -/
theorem onlyAppends_of_same (h8 : 8 ≤ s.head) (hsame : ∀ x < s.head, s'.data x = s.data x)
    (hneg : ∀ path, call = .unlink path → r.ret < 0) : OnlyAppends s call s' r := by
  refine ⟨fun x _ hx _ => hsame x hx, fun path hcall hret => ?_, fun _ => ⟨?_, hsame⟩⟩
  · exact absurd hret (not_le.mpr (hneg path hcall))
  · exact loadWord_congr fun x _ hx => hsame x (by omega)

/-- A call that succeeds, and writes behind the head only. -/
theorem onlyAppends_of_above (hret : 0 ≤ r.ret)
    (hsame : ∀ x, 8 ≤ x → x < s.head → s'.data x = s.data x) (hcall : ∀ path, call ≠ .unlink path) :
    OnlyAppends s call s' r :=
  ⟨fun x hlo hx _ => hsame x hlo hx, fun path heq => absurd heq (hcall path),
    fun hneg => absurd hret (not_le.mpr hneg)⟩

/-- The calls other than read and unlink. -/
theorem change_only_appends (hc : Change env s L call ret s' L') (hr : r.ret = ret) (h : Rep s L)
    (hsmall : transfer call < 2147483648) (hread : ∀ path size offset, call ≠ .read path size offset)
    (hunlink : ∀ path, call ≠ .unlink path) : OnlyAppends s call s' r := by
  have h8 := h.eight_le
  have hno : ∀ path, call = .unlink path → r.ret < 0 := fun path heq => absurd heq (hunlink path)
  cases hc with
  | quiet _ _ => exact onlyAppends_of_same h8 (fun x _ => rfl) hno
  | touched _ _ _ => exact absurd rfl (hread _ _ _)
  | created _ _ hin _ _ =>
    refine onlyAppends_of_above (by omega) (fun x hlo hx => ?_) hunlink
    exact nodeImage_frame (s := sync s L) (Or.inr (Or.inl ⟨hlo, hx⟩)) h8
  | headed _ hf _ _ _ =>
    exact onlyAppends_of_same h8 (fun x hx => headerImage_outside (s := sync s L) (Or.inl hx)) hno
  | written _ hf _ hoff _ =>
    refine onlyAppends_of_above (hr ▸ intOfSize_nonneg hsmall) (fun x hlo hx => ?_) hunlink
    exact writeImage_frame (s := sync s L) hoff h8 (Or.inr (Or.inl ⟨hlo, hx⟩))
  | missed _ _ _ _ => exact absurd rfl (hunlink _)
  | unlinked _ _ _ _ => exact absurd rfl (hunlink _)

theorem read_only_appends {path : Path} {size offset : ℕ} {buf : List UInt8} (h : Rep s L)
    (hsmall : size < 2147483648) (hr : wfs_read env s path size offset = .ok (s', r.ret, buf)) :
    OnlyAppends s (.read path size offset) s' r := by
  rcases read_touches h hsmall hr with hdata | ⟨hret, a, hloc, hdata⟩
  · exact onlyAppends_of_same h.eight_le (fun x _ => by rw [hdata]) fun path heq => by cases heq
  · refine ⟨fun x hlo hx hnot => ?_, fun path heq => (by cases heq), fun hneg => ?_⟩
    · rw [hdata, storeWord_outside]
      by_contra hin
      exact hnot ⟨hret, a, hloc, by omega, by omega⟩
    · exact absurd hret (not_le.mpr hneg)

theorem unlink_only_appends {path : Path} (h : Rep s L) (hroom : Roomy s (.unlink path))
    (hr : wfs_unlink env s path = .ok (s', r.ret)) : OnlyAppends s (.unlink path) s' r := by
  have h8 := h.eight_le
  rcases unlink_marks h hroom hr with ⟨hret, hsame⟩ |
    ⟨hret, file, dir, e, d, name, hloc, hf, hd, hdir, hfound, hdata⟩
  · exact onlyAppends_of_same h8 hsame fun path _ => hret
  · have hup := hf.upper h
    refine ⟨fun x hlo hx hnot => ?_, fun p hp _ => ?_, fun hneg => by omega⟩
    · rw [hdata]
      refine unlinkImage_frame (s := sync s L) hfound (h.dirs d hd.mem hdir) h8
        (by rw [sync_head]; omega) (Or.inr (Or.inl ⟨hlo, hx⟩)) ?_
      by_contra hin
      exact hnot ⟨hret.ge, file, hloc, by omega, by omega⟩
    · cases hp
      refine ⟨file, hloc, ?_⟩
      rw [hdata]
      simp only [unlinkImage]
      rw [loadWord_storeWord]

theorem only_appends_step (h : Rep s L) (hroom : Roomy s call) (hsmall : transfer call < 2147483648)
    (hh : handle env s call = .ok (s', r)) : OnlyAppends s call s' r := by
  obtain ⟨L', hc⟩ := handle_change h hroom hh
  cases call with
  | read path size offset =>
    simp only [handle] at hh
    split at hh
    next => cases hh
    next t ret buf hread =>
      cases hh
      exact read_only_appends h hsmall hread
  | unlink path =>
    simp only [handle, plain] at hh
    split at hh
    next => cases hh
    next t ret hunlink =>
      cases hh
      exact unlink_only_appends h hroom hunlink
  | getattr => exact change_only_appends hc rfl h hsmall (by rintro _ _ _ ⟨⟩) (by rintro _ ⟨⟩)
  | mknod => exact change_only_appends hc rfl h hsmall (by rintro _ _ _ ⟨⟩) (by rintro _ ⟨⟩)
  | mkdir => exact change_only_appends hc rfl h hsmall (by rintro _ _ _ ⟨⟩) (by rintro _ ⟨⟩)
  | write => exact change_only_appends hc rfl h hsmall (by rintro _ _ _ ⟨⟩) (by rintro _ ⟨⟩)
  | readdir => exact change_only_appends hc rfl h hsmall (by rintro _ _ _ ⟨⟩) (by rintro _ ⟨⟩)

end Frame

/-- After any run in which the head stays in 32 bits, a call with a transfer below 2 GiB only
appends. -/
theorem run_only_appends {disk : Mem} {total_size : ℕ} {time : ℕ → ℕ} {es : List Event} {s s' : Wfs}
    {e : Event} {r : Reply} (hroom : Along RoomyStep (mkfs disk total_size time) es)
    (hr : run (mkfs disk total_size time) es = some s) (hstep : RoomyStep s e)
    (hsmall : transfer e.call < 2147483648) (hh : handle e.env s e.call = .ok (s', r)) :
    OnlyAppends s e.call s' r := by
  obtain ⟨L, h⟩ := run_rep (mkfs_rep disk total_size time) hroom hr
  exact only_appends_step h hstep hsmall hh

theorem second_file_appends :
    ∃ s s' r, run (zeroDisk 1000) [mknodA] = some s ∧
      handle mknodB.env s mknodB.call = .ok (s', r) ∧ OnlyAppends s mknodB.call s' r := by
  have hsome : (match run (zeroDisk 1000) [mknodA] with
      | some s => (next s mknodB).isSome
      | none => false) = true := by decide +kernel
  split at hsome
  next s hs =>
    obtain ⟨s', hs'⟩ := Option.isSome_iff_exists.mp hsome
    obtain ⟨r, hr⟩ := next_some hs'
    have hroom : Along RoomyStep (zeroDisk 1000) [mknodA] :=
      ⟨by unfold RoomyStep Roomy; decide +kernel, fun _ _ => trivial⟩
    have hstep : RoomyStep s mknodB := by
      have heq : s = (run (zeroDisk 1000) [mknodA]).getD (zeroDisk 1000) := by rw [hs]; rfl
      rw [heq]
      unfold RoomyStep Roomy
      decide +kernel
    exact ⟨s, s', r, hs, hr, run_only_appends hroom hs hstep (by decide) hr⟩
  next => cases hsome

/-- The three ways out: a negative offset writes into an old entry, a count of 2 GiB is returned
as a negative number, and a head beyond 4 GiB puts a new entry over old ones. -/
theorem frame_broken :
    (∃ s s' ret, run (zeroDisk 1000) [mknodA] = some s ∧ s.head = 180 ∧
      wfs_write_signed quietEnv s [slash, 97] [1] (-100) = .ok (s', ret) ∧
      s'.data 124 ≠ s.data 124) ∧
    (∃ s' r, run (zeroDisk 8589934592) [mknodA] = some wideDisk ∧
      handle quietEnv wideDisk (writeZeros 2147483648).call = .ok (s', r) ∧
      r.ret < 0 ∧ s'.head ≠ wideDisk.head) ∧
    ∃ s s', run (zeroDisk 8589934592) [mknodA, writeZeros 4294967012] = some s ∧
      s.head = 4294967236 ∧ next s mknodB = some s' ∧ s'.data 64 ≠ s.data 64 := by
  refine ⟨?_, ?_, ?_⟩
  · have hsome : ((run (zeroDisk 1000) [mknodA]).any fun s =>
        (wfs_write_signed quietEnv s [slash, 97] [1] (-100)).toOption.any fun p =>
          decide (s.head = 180 ∧ p.1.data 124 ≠ s.data 124)) = true := by decide +kernel
    obtain ⟨s, hs, hwritten⟩ := (Option.any_eq_true _ _).mp hsome
    obtain ⟨⟨s', ret⟩, hw, hwritten⟩ := Runs.exists_ok_of_any hwritten
    obtain ⟨hhead, hne⟩ := of_decide_eq_true hwritten
    exact ⟨s, s', ret, hs, hhead, hw, hne⟩
  · refine ⟨wrapped 2147483648, _, ?_, handle_writeZeros (by omega), by decide, by decide +kernel⟩
    rw [run, Runs.run, next_mknodA_wide]
    rfl
  · have hsome : ((next (wrapped 4294967012) mknodB).any fun s' =>
        decide (s'.data 64 ≠ (wrapped 4294967012).data 64)) = true := by decide +kernel
    obtain ⟨s', hs', hne⟩ := (Option.any_eq_true _ _).mp hsome
    refine ⟨wrapped 4294967012, s', ?_, by decide +kernel, hs', of_decide_eq_true hne⟩
    rw [run, Runs.run, next_mknodA_wide, Option.bind_some, Runs.run, next_writeZeros (by omega)]
    rfl

end WfsFrame
