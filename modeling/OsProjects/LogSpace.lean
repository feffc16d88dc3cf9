import Mathlib.Algebra.BigOperators.Group.List.Basic
import Mathlib.Data.List.GetD
import OsProjects.DiskLog

/-! # Room in the log

`begin_op` lets an operation in when the log has room for `MAXOPBLOCKS` blocks of each operation in
progress, and `log_write` panics when the log is full. Here each operation keeps the blocks it has
logged, so that operations can be told apart by how many they log. -/
namespace LogSpace

open DiskLog

/-- An operation is the list of the blocks it has logged, each once. -/
structure State where
  log : DiskLog.State
  ops : List (List ℕ)

inductive Event where
  | begin_op
  | log_write (op b : ℕ) (data : ByteMemory.Mem)
  | end_op (op : ℕ)
  | advance
  | bread (b : ℕ)
  | recycle (b : ℕ)
  | crash

def Event.erase : Event → DiskLog.Event
  | .begin_op => .begin_op
  | .log_write _ b data => .log_write b data
  | .end_op _ => .end_op
  | .advance => .advance
  | .bread b => .bread b
  | .recycle b => .recycle b
  | .crash => .crash

def Event.present (ops : List (List ℕ)) : Event → Bool
  | .log_write op _ _ | .end_op op => op < ops.length
  | _ => true

def nextOps (ops : List (List ℕ)) : Event → List (List ℕ)
  | .begin_op => ops ++ [[]]
  | .log_write op b _ => ops.set op ((ops.getD op []).insert b)
  | .end_op op => ops.eraseIdx op
  | .crash => []
  | _ => ops

def next (area : Area) (s : State) (e : Event) : Option State :=
  if e.present s.ops then
    (DiskLog.next area s.log e.erase).map fun log => ⟨log, nextOps s.ops e⟩
  else none

def boot (disk : ℕ → ByteMemory.Mem) : State := ⟨DiskLog.boot disk, []⟩

/-- No operation logs more than `m` blocks. -/
def Within (m : ℕ) (s : State) : Event → Prop
  | .log_write op b _ => ((s.ops.getD op []).insert b).length ≤ m
  | _ => True

instance (m : ℕ) (s : State) (e : Event) : Decidable (Within m s e) := by
  cases e <;> simp only [Within] <;> infer_instance

/-- What the operations in progress may still log, when each may log `m` blocks. -/
def remaining (m : ℕ) (ops : List (List ℕ)) : ℕ := (ops.map fun op => m - op.length).sum

section Sums

variable {m i : ℕ} {ops : List (List ℕ)}

theorem remaining_append {op : List ℕ} :
    remaining m (ops ++ [op]) = remaining m ops + (m - op.length) := by
  simp [remaining]

theorem remaining_le : remaining m ops ≤ m * ops.length := by
  induction ops with
  | nil => simp [remaining]
  | cons op ops ih =>
    have : remaining m (op :: ops) = (m - op.length) + remaining m ops := rfl
    rw [this, List.length_cons, Nat.mul_succ]
    omega

theorem remaining_eraseIdx (hi : i < ops.length) :
    (m - ops[i].length) + remaining m (ops.eraseIdx i) = remaining m ops := by
  have hmap : i < (ops.map fun op => m - op.length).length := by rwa [List.length_map]
  have h := List.add_sum_eraseIdx hmap fun _ _ => AddCommute.all _ _
  rwa [List.getElem_map, List.eraseIdx_map] at h

theorem remaining_set (hi : i < ops.length) (op : List ℕ) :
    (m - ops[i].length) + remaining m (ops.set i op) = remaining m ops + (m - op.length) := by
  induction ops generalizing i with
  | nil => cases hi
  | cons op' ops ih =>
    have hcons : ∀ op ops, remaining m (op :: ops) = (m - op.length) + remaining m ops :=
      fun _ _ => rfl
    cases i with
    | zero => simp only [List.set_cons_zero, List.getElem_cons_zero, hcons]; omega
    | succ i =>
      have := ih (Nat.lt_of_succ_lt_succ hi)
      simp only [List.set_cons_succ, List.getElem_cons_succ, hcons]
      omega

end Sums

section Safety

variable {area : Area} {s s' : State} {e : Event}

/-- The room that the operations in progress may need is there. -/
structure Reserved (s : State) : Prop where
  outstanding : s.log.outstanding = s.ops.length
  few : ∀ op ∈ s.ops, op.length ≤ 9
  logged : ∀ op ∈ s.ops, ∀ b ∈ op, b ∈ s.log.lh
  space : s.ops ≠ [] → s.log.lh.length + remaining 9 s.ops ≤ 28
  idle : s.log.phase = .running → s.ops = [] → s.log.lh = []
  busy : s.log.phase ≠ .running → s.ops = []

theorem reserved_boot (disk : ℕ → ByteMemory.Mem) : Reserved (boot disk) :=
  ⟨rfl, fun _ h => absurd h List.not_mem_nil, fun _ h => absurd h List.not_mem_nil,
    fun h => absurd rfl h, fun _ _ => rfl, fun _ => rfl⟩

theorem begin_op_reserved (h : Reserved s) (hphase : s.log.phase = .running)
    {log : DiskLog.State} (hn : begin_op s.log = some log) :
    Reserved ⟨log, s.ops ++ [[]]⟩ := by
  rw [begin_op, Option.ite_none_right_eq_some] at hn
  obtain ⟨hroom, hn⟩ := hn
  obtain rfl := Option.some.inj hn
  rw [h.outstanding] at hroom
  refine ⟨by simp [h.outstanding], fun op hop => ?_, fun op hop b hb => ?_, fun _ => ?_,
    fun _ hops => ?_, fun hne => absurd hphase hne⟩
  · obtain hop | hop := List.mem_append.mp hop
    · exact h.few op hop
    · rw [List.mem_singleton.mp hop]
      exact Nat.zero_le _
  · obtain hop | hop := List.mem_append.mp hop
    · exact h.logged op hop b hb
    · rw [List.mem_singleton.mp hop] at hb
      exact absurd hb List.not_mem_nil
  · change s.log.lh.length + remaining 9 (s.ops ++ [[]]) ≤ 28
    rw [remaining_append, List.length_nil]
    simp only [MAXOPBLOCKS, LOGSIZE] at hroom
    by_cases hops : s.ops = []
    · simp [hops, h.idle hphase hops, remaining]
    · -- the others leave a block of their share each, and there is at least one of them
      have hle : remaining 9 s.ops ≤ 9 * s.ops.length := remaining_le
      have hpos := List.length_pos_of_ne_nil hops
      omega
  · exact absurd hops (List.append_ne_nil_of_right_ne_nil _ (List.cons_ne_nil _ _))

theorem not_panics (harea : LOGSIZE ≤ area.size) (h : Reserved s) (hops : s.ops ≠ []) (b : ℕ)
    (data : ByteMemory.Mem) : panics area s.log (.log_write b data) = false := by
  have hspace := h.space hops
  have hpos := List.length_pos_of_ne_nil hops
  have hout := h.outstanding
  simp only [panics, Bool.or_eq_false_iff, decide_eq_false_iff_not]
  simp only [LOGSIZE] at harea ⊢
  omega

theorem length_lh_log_write {s : DiskLog.State} {b : ℕ} {data : ByteMemory.Mem} :
    (log_write s b data).lh.length = if b ∈ s.lh then s.lh.length else s.lh.length + 1 := by
  simp only [log_write]
  split_ifs
  · rfl
  · rw [List.length_append, List.length_singleton]

theorem log_write_reserved (h : Reserved s) (hphase : s.log.phase = .running) {op b : ℕ}
    {data : ByteMemory.Mem} (hop : op < s.ops.length)
    (hfew : (s.ops[op].insert b).length ≤ 9) :
    Reserved ⟨log_write s.log b data, s.ops.set op (s.ops[op].insert b)⟩ := by
  have hmem : s.ops[op] ∈ s.ops := List.getElem_mem hop
  have hops : s.ops ≠ [] := List.ne_nil_of_mem hmem
  refine ⟨?_, fun op' hop' => ?_, fun op' hop' c hc => ?_, fun _ => ?_, fun _ hnil => ?_,
    fun hne => absurd hphase hne⟩
  · rw [List.length_set]
    exact h.outstanding
  · obtain hop' | rfl := List.mem_or_eq_of_mem_set hop'
    · exact h.few op' hop'
    · exact hfew
  · rw [mem_log_write]
    obtain hop' | rfl := List.mem_or_eq_of_mem_set hop'
    · exact .inl (h.logged op' hop' c hc)
    · obtain rfl | hc := List.mem_insert_iff.mp hc
      · exact .inr rfl
      · exact .inl (h.logged _ hmem c hc)
  · have hspace := h.space hops
    have hset := remaining_set (m := 9) hop (s.ops[op].insert b)
    change (log_write s.log b data).lh.length + remaining 9 (s.ops.set op _) ≤ 28
    rw [length_lh_log_write]
    by_cases hb : b ∈ s.ops[op]
    · rw [List.insert_of_mem hb] at hset ⊢
      rw [if_pos (h.logged _ hmem b hb)]
      omega
    · rw [List.insert_of_not_mem hb, List.length_cons] at hset hfew
      rw [List.insert_of_not_mem hb]
      split_ifs <;> omega
  · exact absurd (congrArg List.length hnil) (by simpa using hops)

theorem end_op_reserved (h : Reserved s) (hphase : s.log.phase = .running) {op : ℕ}
    (hop : op < s.ops.length) {log : DiskLog.State} (hn : end_op s.log = some log) :
    Reserved ⟨log, s.ops.eraseIdx op⟩ := by
  rw [end_op, Option.ite_none_left_eq_some] at hn
  obtain ⟨h0, hn⟩ := hn
  obtain rfl := Option.some.inj hn
  have hout := h.outstanding
  have hlen : (s.ops.eraseIdx op).length = s.log.outstanding - 1 := by
    rw [List.length_eraseIdx_of_lt hop, hout]
  have hlast : s.log.outstanding - 1 = 0 ↔ s.ops.eraseIdx op = [] := by
    rw [← hlen, List.length_eq_zero_iff]
  have hsub := (List.eraseIdx_sublist s.ops op).subset
  have hspace : s.log.lh.length + remaining 9 (s.ops.eraseIdx op) ≤ 28 := by
    have := h.space (List.ne_nil_of_length_pos (Nat.zero_lt_of_lt hop))
    have := remaining_eraseIdx (m := 9) hop
    omega
  split_ifs with hcommit
  · have hnil := hlast.mp hcommit.1
    refine ⟨hlen.symm, fun op' hop' => h.few op' (hsub hop'),
      fun op' hop' => h.logged op' (hsub hop'), fun _ => hspace, fun hrun => ?_, fun _ => hnil⟩
    cases hrun
  · refine ⟨hlen.symm, fun op' hop' => h.few op' (hsub hop'),
      fun op' hop' => h.logged op' (hsub hop'), fun _ => hspace, fun _ hnil => ?_,
      fun hne => absurd hphase hne⟩
    exact by_contra fun hne => hcommit ⟨hlast.mpr hnil, hne⟩

theorem advance_spec {s s' : DiskLog.State} (hn : advance area s = some s') :
    s.phase ≠ .running ∧ s'.outstanding = s.outstanding ∧
      (s'.phase = .running → s'.lh = []) := by
  rw [advance] at hn
  cases hphase : s.phase with
  | running => simp [hphase] at hn
  | boot =>
    simp only [hphase] at hn
    obtain rfl := Option.some.inj hn
    exact ⟨by simp, rfl, by simp⟩
  | write_log tail =>
    simp only [hphase] at hn
    split at hn
    all_goals
      obtain rfl := Option.some.inj hn
      exact ⟨by simp, rfl, by simp⟩
  | install_trans recovery tail =>
    simp only [hphase] at hn
    split at hn
    · obtain rfl := Option.some.inj hn
      exact ⟨by simp, rfl, by simp⟩
    · obtain rfl := Option.some.inj hn
      exact ⟨by simp, rfl, fun _ => rfl⟩

theorem advance_reserved (h : Reserved s) {log : DiskLog.State}
    (hn : advance area s.log = some log) : Reserved ⟨log, s.ops⟩ := by
  obtain ⟨hne, hout, hrun⟩ := advance_spec hn
  have hops := h.busy hne
  refine ⟨hout.trans h.outstanding, h.few, fun op hop => ?_, fun hcons => absurd hops hcons,
    fun hphase _ => hrun hphase, fun _ => hops⟩
  rw [hops] at hop
  exact absurd hop List.not_mem_nil

theorem next_reserved (h : Reserved s) (hw : Within 9 s e) (hn : next area s e = some s') :
    Reserved s' := by
  rw [next, Option.ite_none_right_eq_some] at hn
  obtain ⟨hpresent, hn⟩ := hn
  obtain ⟨log, hlog, rfl⟩ := Option.map_eq_some_iff.mp hn
  cases e with
  | begin_op =>
    rw [Event.erase, DiskLog.next, Option.ite_none_right_eq_some] at hlog
    exact begin_op_reserved h (isRunning_eq.mp hlog.1) hlog.2
  | log_write op b data =>
    rw [Event.erase, DiskLog.next, Option.ite_none_right_eq_some, Bool.and_eq_true] at hlog
    obtain ⟨⟨hrun, -⟩, hlog⟩ := hlog
    obtain rfl := Option.some.inj hlog
    have hop : op < s.ops.length := of_decide_eq_true hpresent
    rw [Within, List.getD_eq_getElem _ _ hop] at hw
    rw [nextOps, List.getD_eq_getElem _ _ hop]
    exact log_write_reserved h (isRunning_eq.mp hrun) hop hw
  | end_op op =>
    rw [Event.erase, DiskLog.next, Option.ite_none_right_eq_some] at hlog
    exact end_op_reserved h (isRunning_eq.mp hlog.1) (of_decide_eq_true hpresent) hlog.2
  | advance => exact advance_reserved h hlog
  | bread b =>
    rw [Event.erase, DiskLog.next, Option.ite_none_right_eq_some] at hlog
    obtain rfl := Option.some.inj hlog.2
    exact ⟨h.outstanding, h.few, h.logged, h.space, h.idle, h.busy⟩
  | recycle b =>
    rw [Event.erase, DiskLog.next, recycle, Option.ite_none_right_eq_some] at hlog
    obtain rfl := Option.some.inj hlog.2
    exact ⟨h.outstanding, h.few, h.logged, h.space, h.idle, h.busy⟩
  | crash =>
    obtain rfl := Option.some.inj hlog
    exact reserved_boot s.log.disk

theorem Within.mono {m m' : ℕ} (hm : m ≤ m') (h : Within m s e) : Within m' s e := by
  cases e with
  | log_write op b data => exact Nat.le_trans h hm
  | _ => trivial

end Safety

section Panics

/-- Three operations are let in together, and two of them log `MAXOPBLOCKS` blocks. -/
def fullRun : List Event :=
  [.advance, .advance, .begin_op, .begin_op, .begin_op] ++
    (List.range 10).map (fun i => .log_write 0 (40 + i) fun _ => 0) ++
    (List.range 10).map (fun i => .log_write 1 (50 + i) fun _ => 0) ++
    (List.range 9).map fun i => .log_write 2 (60 + i) fun _ => 0

theorem fullRun_panics :
    (Runs.run (next mkfsArea) (boot fun _ _ => 0) fullRun).any (fun s =>
      2 < s.ops.length && ((s.ops.getD 2 []).insert 69).length ≤ 10 &&
        panics mkfsArea s.log (.log_write 69 fun _ => 0)) = true := by decide

theorem fullRun_within : Runs.Along (next mkfsArea) (Within 10) (boot fun _ _ => 0) fullRun := by
  decide

/-- An operation may log one block less than `MAXOPBLOCKS`, and no more. -/
theorem log_write_never_panics_iff (m : ℕ) :
    (∀ (d : ℕ → ByteMemory.Mem) (es : List Event) (s : State) (op b : ℕ) (data : ByteMemory.Mem),
      Runs.Along (next mkfsArea) (Within m) (boot d) es →
      Runs.run (next mkfsArea) (boot d) es = some s → op < s.ops.length →
      Within m s (.log_write op b data) →
      panics mkfsArea s.log (.log_write b data) = false) ↔ m < MAXOPBLOCKS := by
  constructor
  · intro h
    by_contra hm
    have hm : 10 ≤ m := Nat.not_lt.mp hm
    obtain ⟨s, hs, hpanics⟩ := (Option.any_eq_true _ _).mp fullRun_panics
    simp only [Bool.and_eq_true, decide_eq_true_eq] at hpanics
    obtain ⟨⟨hop, hlen⟩, hpanics⟩ := hpanics
    have hwithin : Runs.Along (next mkfsArea) (Within m) (boot fun _ _ => 0) fullRun :=
      fullRun_within.mono fun _ _ => Within.mono hm
    have := h _ _ s 2 69 (fun _ => 0) hwithin hs hop (Nat.le_trans hlen hm)
    rw [hpanics] at this
    cases this
  · intro hm d es s op b data hwithin hr hop _
    have hm : m ≤ 9 := Nat.le_of_lt_succ hm
    have h : Reserved s := Runs.run_invariant
      (fun s e s' hs hw hn => next_reserved hs (hw.mono hm) hn) (reserved_boot d) hwithin hr
    exact not_panics (Nat.le_refl _) h (List.ne_nil_of_length_pos (Nat.zero_lt_of_lt hop)) b data

end Panics

end LogSpace
