import OsProjects.CStrings
import OsProjects.WshJobs
import Mathlib.Data.List.Sort

/-! # The jobs command

`jobs_command` goes through the table until its first empty slot, every other routine of the
shell through all of it. Entries are freed in any order.
-/
namespace WshListing

open Runs CStrings WshJobs

/-- In the background, or stopped. -/
def Listed (j : Job) : Prop := j.status = 0 ∨ j.status = 2

instance instDecidableListed (j : Job) : Decidable (Listed j) := instDecidableOr

/-- One line of output. -/
def jobLine (command_args : Job → List (List UInt8)) (j : Job) : List UInt8 :=
  decimalInt j.id ++ 58 :: (command_args j).flatMap (32 :: ·) ++ [10]

/-- The loop from entry `i` on; the arguments of an entry are not part of `Job`. -/
def jobsLoop (s : Shell) (command_args : Job → List (List UInt8)) : ℕ → ℕ → List (List UInt8)
  | 0, _ => []
  | n + 1, i =>
    match s.jobs i with
    | none => []
    | some j =>
      if Listed j then jobLine command_args j :: jobsLoop s command_args n (i + 1)
      else jobsLoop s command_args n (i + 1)

def jobs_command (s : Shell) (command_args : Job → List (List UInt8)) : List (List UInt8) :=
  jobsLoop s command_args MAX_ARGS 0

/-- One line for each background or stopped entry, by increasing id, and no other. -/
def Complete (s : Shell) (command_args : Job → List (List UInt8)) (out : List (List UInt8)) : Prop :=
  ∃ js : List Job, out = js.map (jobLine command_args) ∧ js.Pairwise (·.id < ·.id) ∧
    ∀ j, j ∈ js ↔ ∃ i : ℕ, i < MAX_ARGS ∧ s.jobs i = some j ∧ Listed j

/-- Below a background or stopped entry there is no empty slot. -/
def Dense (s : Shell) : Prop :=
  ∀ i : ℕ, i < MAX_ARGS → ∀ j, s.jobs i = some j → Listed j → ∀ k < i, s.jobs k ≠ none

section Table

variable {s s' : Shell}

/-- What a step can do to the table. -/
inductive TableStep (s : Shell) : (ℤ → Option Job) → Prop
  | same : TableStep s s.jobs
  | marked (i : ℤ) (status : ℕ) : TableStep s (s.setStatus i status).jobs
  | freed (i : ℤ) : TableStep s (s.clear i).jobs
  | added (pid : ℕ) (background : Bool) : TableStep s (add_job s pid background).jobs

theorem waitpid_jobs (pid : ℕ) (untraced : Bool) : (waitpid s pid untraced).2.jobs = s.jobs := by
  rw [waitpid]
  split
  · rfl
  · split
    · rfl
    · split_ifs <;> rfl
    · rfl

theorem cont_jobs (pid : ℕ) : (cont s pid).jobs = s.jobs := by
  rw [cont]
  split <;> rfl

theorem forward_table (status : ℕ) : TableStep s (forward s status).jobs := by
  rw [forward]
  split_ifs
  · exact .marked _ _
  · exact .same

theorem sweep_table {i : ℕ} (h : sweepRound s i = some s') : TableStep s s'.jobs := by
  rw [sweepRound] at h
  split_ifs at h
  · split at h
    next => cases h
    next j hj =>
      have hjobs := waitpid_jobs (s := s) j.pid true
      have hfreed : ∀ t : Shell, t.jobs = s.jobs → TableStep s (t.clear i).jobs := by
        intro t ht
        rw [Shell.clear, ht]
        exact .freed i
      split at h
      next t ht =>
        cases h
        rw [ht] at hjobs
        exact hfreed t hjobs
      next t ht =>
        cases h
        rw [ht] at hjobs
        exact hfreed t hjobs
      next ht =>
        cases h
        rw [ht] at hjobs
        dsimp only at hjobs
        rw [hjobs]
        exact .same
  · cases h
    exact .same

theorem fg_table (job_id : ℤ) : TableStep s (fg_command s job_id).jobs := by
  rw [fg_command]
  split
  · exact .same
  · split
    · exact .same
    · exact (cont_jobs _).symm ▸ .marked _ _

theorem bg_table (job_id : ℤ) : TableStep s (bg_command s job_id).jobs := by
  rw [bg_command]
  split
  · exact .same
  · split
    · exact .same
    · exact (cont_jobs _).symm ▸ .marked _ _

theorem userStep_table {pid : Option ℕ} (h : userStep s pid = some s') : TableStep s s'.jobs := by
  rw [userStep] at h
  split at h
  next i c _ =>
    split_ifs at h
    · obtain ⟨t, ht, rfl⟩ := Option.map_eq_some_iff.mp h
      have hsweep : TableStep s t.jobs := sweep_table ht
      exact hsweep
    · cases h
      exact .same
  next =>
    split at h
    next =>
      cases h
      exact .same
    next =>
      split_ifs at h
      cases h
      exact .same
  next job_id _ =>
    cases h
    exact fg_table job_id
  next job_id _ =>
    cases h
    exact bg_table job_id
  next =>
    cases h
    exact .same
  next pid background _ =>
    cases h
    exact .added pid background
  next =>
    cases h
    exact .same
  next pid i _ =>
    cases h
    dsimp only
    split_ifs
    · exact .marked _ _
    · exact .same
  next => cases h

theorem deliver_table (h : sigchild_handler s = some s') : TableStep s s'.jobs := by
  rw [sigchild_handler] at h
  split_ifs at h with hcur
  · cases h
    exact .same
  · split at h
    next => cases h
    next j hj =>
      cases h
      dsimp only
      split_ifs
      · exact .freed _
      · exact .same

theorem endWait_table {garbage : Bool} (h : endWait s garbage = some s') :
    s'.jobs = s.jobs := by
  rw [endWait] at h
  split at h
  next pid _ _ =>
    cases h
    exact waitpid_jobs pid false
  next pid _ _ =>
    have hjobs := waitpid_jobs (s := s) pid true
    split at h
    next => cases h
    next t _ ht =>
      cases h
      rw [ht] at hjobs
      exact hjobs
  next pid _ _ =>
    have hjobs := waitpid_jobs (s := s) pid true
    split at h
    next => cases h
    all_goals
      next t ht =>
        cases h
        rw [ht] at hjobs
        exact hjobs
  next => cases h

theorem next_table {e : Event} (h : next s e = some s') : TableStep s s'.jobs := by
  cases e with
  | command c =>
    rw [next] at h
    split_ifs at h
    cases h
    exact .same
  | step pid =>
    rw [next] at h
    split_ifs at h
    exact userStep_table h
  | endWait garbage =>
    rw [next] at h
    rw [endWait_table h]
    exact .same
  | change pid p =>
    rw [next] at h
    split at h
    next => cases h
    next c hc =>
      split_ifs at h
      cases h
      exact .same
  | deliver =>
    rw [next] at h
    split_ifs at h
    exact deliver_table h
  | ctrlC =>
    cases h
    exact forward_table 1
  | ctrlZ =>
    cases h
    exact forward_table 2

theorem add_job_jobs (pid : ℕ) (background : Bool) : ∃ new_id : ℤ,
    (add_job s pid background).jobs = Function.update s.jobs (new_id - 1)
      (some ⟨pid, new_id, if background then 0 else 1⟩) :=
  ⟨_, rfl⟩

/-- An entry holds the id of its slot. -/
def Numbered (jobs : ℤ → Option Job) : Prop := ∀ i j, jobs i = some j → j.id = i + 1

theorem numbered_step {jobs : ℤ → Option Job} (h : Numbered s.jobs) (hs : TableStep s jobs) :
    Numbered jobs := by
  intro i j hj
  cases hs with
  | same => exact h i j hj
  | marked k status =>
    simp only [Shell.setStatus] at hj
    rcases eq_or_ne i k with rfl | hne
    · rw [Function.update_self] at hj
      obtain ⟨j₀, hj₀, rfl⟩ := Option.map_eq_some_iff.mp hj
      exact h i j₀ hj₀
    · rw [Function.update_of_ne hne] at hj
      exact h i j hj
  | freed k =>
    simp only [Shell.clear] at hj
    rcases eq_or_ne i k with rfl | hne
    · rw [Function.update_self] at hj
      cases hj
    · rw [Function.update_of_ne hne] at hj
      exact h i j hj
  | added pid background =>
    obtain ⟨new_id, hjobs⟩ := add_job_jobs (s := s) pid background
    rw [hjobs] at hj
    rcases eq_or_ne i (new_id - 1) with rfl | hne
    · rw [Function.update_self] at hj
      cases hj
      exact (sub_add_cancel new_id 1).symm
    · rw [Function.update_of_ne hne] at hj
      exact h i j hj

theorem run_numbered {es : List Event} (hr : run next start es = some s) : Numbered s.jobs := by
  have hstart : Numbered start.jobs := fun i j hj => by cases hj
  refine @run_invariant _ _ _ (fun _ _ => True) (fun s => Numbered s.jobs) _ _ _
    (fun s e s' h _ hn => numbered_step h (next_table hn)) hstart (along_of_forall ?_ _ _) hr
  exact fun _ _ => trivial

end Table

section Listing

variable {s : Shell} {command_args : Job → List (List UInt8)} {out : List (List UInt8)} {n i : ℕ}

/-- The entries to be listed, from entry `i` on. -/
def listedFrom (s : Shell) : ℕ → ℕ → List Job
  | 0, _ => []
  | n + 1, i =>
    match s.jobs i with
    | none => listedFrom s n (i + 1)
    | some j => if Listed j then j :: listedFrom s n (i + 1) else listedFrom s n (i + 1)

theorem mem_listedFrom {j : Job} : j ∈ listedFrom s n i ↔
    ∃ k : ℕ, i ≤ k ∧ k < i + n ∧ s.jobs k = some j ∧ Listed j := by
  induction n generalizing i with
  | zero =>
    simp only [listedFrom, List.not_mem_nil, Nat.add_zero, false_iff, not_exists]
    rintro k ⟨hlo, hhi, _⟩
    omega
  | succ n ih =>
    have hsplit : (∃ k : ℕ, i ≤ k ∧ k < i + (n + 1) ∧ s.jobs k = some j ∧ Listed j) ↔
        (s.jobs i = some j ∧ Listed j) ∨ j ∈ listedFrom s n (i + 1) := by
      rw [ih]
      constructor
      · rintro ⟨k, hlo, hhi, hj, hl⟩
        rcases Nat.eq_or_lt_of_le hlo with rfl | hlt
        · exact Or.inl ⟨hj, hl⟩
        · exact Or.inr ⟨k, hlt, by omega, hj, hl⟩
      · rintro (⟨hj, hl⟩ | ⟨k, hlo, hhi, hj, hl⟩)
        · exact ⟨i, le_rfl, by omega, hj, hl⟩
        · exact ⟨k, by omega, by omega, hj, hl⟩
    rw [hsplit, listedFrom]
    cases hj : s.jobs i with
    | none => simp
    | some j₀ =>
      dsimp only
      rw [Option.some.injEq]
      split_ifs with hl
      · rw [List.mem_cons]
        constructor
        · rintro (rfl | h)
          · exact Or.inl ⟨rfl, hl⟩
          · exact Or.inr h
        · rintro (⟨rfl, _⟩ | h)
          · exact Or.inl rfl
          · exact Or.inr h
      · constructor
        · exact Or.inr
        · rintro (⟨rfl, hl'⟩ | h)
          · exact absurd hl' hl
          · exact h

theorem listedFrom_pairwise (h : Numbered s.jobs) : (listedFrom s n i).Pairwise (·.id < ·.id) := by
  induction n generalizing i with
  | zero => exact List.Pairwise.nil
  | succ n ih =>
    rw [listedFrom]
    split
    · exact ih
    · next j hj =>
      split_ifs
      · refine List.pairwise_cons.mpr ⟨fun j' hj' => ?_, ih⟩
        obtain ⟨k, hlo, _, hk, _⟩ := mem_listedFrom.mp hj'
        rw [h i j hj, h k j' hk]
        omega
      · exact ih

/-- There is only one list to print. -/
theorem complete_iff (h : Numbered s.jobs) : Complete s command_args out ↔
    out = (listedFrom s MAX_ARGS 0).map (jobLine command_args) := by
  have hmem : ∀ j, j ∈ listedFrom s MAX_ARGS 0 ↔
      ∃ i : ℕ, i < MAX_ARGS ∧ s.jobs i = some j ∧ Listed j := fun j => by
    rw [mem_listedFrom]
    simp
  constructor
  · rintro ⟨js, rfl, hsorted, hjs⟩
    have hirrefl : Std.Irrefl fun a b : Job => a.id < b.id := ⟨fun a => lt_irrefl a.id⟩
    rw [hsorted.eq_of_mem_iff (listedFrom_pairwise h) fun j => (hjs j).trans (hmem j).symm]
  · rintro rfl
    exact ⟨_, rfl, listedFrom_pairwise h, hmem⟩

/-- No empty slot from entry `i` on up to an entry to be listed. -/
def DenseFrom (s : Shell) (n i : ℕ) : Prop :=
  ∀ p j, i ≤ p → p < i + n → s.jobs p = some j → Listed j → ∀ k, i ≤ k → k < p → s.jobs k ≠ none

theorem denseFrom_hole (hi : s.jobs i = none) :
    DenseFrom s (n + 1) i ↔ listedFrom s n (i + 1) = [] := by
  rw [List.eq_nil_iff_forall_not_mem]
  simp only [mem_listedFrom, not_exists]
  constructor
  · rintro h j k ⟨hlo, hhi, hj, hl⟩
    exact h k j (by omega) (by omega) hj hl i le_rfl (by omega) hi
  · intro h p j hlo hhi hj hl
    rcases Nat.eq_or_lt_of_le hlo with rfl | hlt
    · rw [hi] at hj
      cases hj
    · exact absurd ⟨hlt, by omega, hj, hl⟩ (h j p)

theorem denseFrom_step {j : Job} (hi : s.jobs i = some j) :
    DenseFrom s (n + 1) i ↔ DenseFrom s n (i + 1) := by
  constructor
  · intro h p j' hlo hhi hj hl k hk hkp
    exact h p j' (by omega) (by omega) hj hl k (by omega) hkp
  · intro h p j' hlo hhi hj hl k hk hkp
    rcases Nat.eq_or_lt_of_le hk with rfl | hlt
    · rw [hi]
      exact Option.some_ne_none j
    · exact h p j' (by omega) (by omega) hj hl k hlt hkp

theorem jobsLoop_eq_iff : jobsLoop s command_args n i =
    (listedFrom s n i).map (jobLine command_args) ↔ DenseFrom s n i := by
  induction n generalizing i with
  | zero => exact iff_of_true rfl fun p j hlo hhi => by omega
  | succ n ih =>
    rw [jobsLoop, listedFrom]
    cases hi : s.jobs i with
    | none =>
      rw [denseFrom_hole hi]
      dsimp only
      rw [eq_comm, List.map_eq_nil_iff]
    | some j =>
      rw [denseFrom_step hi, ← ih]
      dsimp only
      split_ifs
      · rw [List.map_cons, List.cons.injEq, and_iff_right rfl]
      · exact Iff.rfl

end Listing

/-- In every state of the shell, the command lists every background or stopped job exactly when
none of them has an empty slot below it. -/
theorem jobs_listed_iff {s : Shell} {es : List Event} (hr : run next start es = some s)
    (command_args : Job → List (List UInt8)) :
    Complete s command_args (jobs_command s command_args) ↔ Dense s := by
  rw [complete_iff (run_numbered hr), jobs_command, jobsLoop_eq_iff]
  constructor
  · intro h i hi j hj hl k hk
    exact h i j (Nat.zero_le i) (by omega) hj hl k (Nat.zero_le k) hk
  · intro h p j _ hp hj hl k _ hk
    exact h p (by omega) j hj hl k hk

/-- Two background jobs, at the next command line. -/
def twoListed : List Event := List.flatten
  [[.command (.launch true)], sweeping, [.step (some 1), .step none, .endWait false,
    .command (.launch true)], sweeping, [.step (some 2), .step none, .endWait false,
    .command .other], sweeping]

/-- The first of them has ended before that line. -/
def firstEnded : List Event := List.flatten
  [[.command (.launch true)], sweeping, [.step (some 1), .step none, .endWait false,
    .command (.launch true)], sweeping, [.step (some 2), .step none, .endWait false,
    .change 1 .zombie, .deliver, .command .other], sweeping]

theorem two_jobs_listed : ∃ s, run next start twoListed = some s ∧
    Complete s (fun _ => []) (jobs_command s fun _ => []) := by
  have hrun : (run next start twoListed).any (fun s =>
      s.jobs 0 ≠ none ∧ ∀ i ∈ List.range 254, s.jobs (i + 2 : ℕ) = none) = true := by
    decide +kernel
  obtain ⟨s, hs, hstate⟩ := (Option.any_eq_true _ _).mp hrun
  obtain ⟨hfirst, hrest⟩ := of_decide_eq_true hstate
  refine ⟨s, hs, (jobs_listed_iff hs _).mpr fun i hi j hj _ k hk => ?_⟩
  by_cases hlow : i < 2
  · obtain rfl : k = 0 := by omega
    exact hfirst
  · have hnone := hrest (i - 2) (List.mem_range.mpr (by simp only [MAX_ARGS] at hi; omega))
    rw [show i - 2 + 2 = i by omega, hj] at hnone
    cases hnone

/-- Job 2 runs in the background and nothing is printed. -/
theorem hidden_job : ∃ s, run next start firstEnded = some s ∧
    s.jobs 1 = some ⟨2, 2, 0⟩ ∧ jobs_command s (fun _ => []) = [] ∧
    ¬ Complete s (fun _ => []) (jobs_command s fun _ => []) := by
  have hrun : (run next start firstEnded).any (fun s =>
      s.jobs 1 = some ⟨2, 2, 0⟩ ∧ jobs_command s (fun _ => []) = []) = true := by decide +kernel
  obtain ⟨s, hs, hstate⟩ := (Option.any_eq_true _ _).mp hrun
  obtain ⟨hjob, hout⟩ := of_decide_eq_true hstate
  refine ⟨s, hs, hjob, hout, ?_⟩
  rw [hout]
  rintro ⟨js, hjs, -, hmem⟩
  obtain rfl := List.map_eq_nil_iff.mp hjs.symm
  exact absurd ((hmem ⟨2, 2, 0⟩).mpr ⟨1, by decide, hjob, Or.inl rfl⟩) List.not_mem_nil

end WshListing
