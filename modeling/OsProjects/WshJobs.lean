import OsProjects.Runs
import Mathlib.Data.Int.Basic
import Mathlib.Data.List.Basic
import Mathlib.Logic.Function.Basic

/-! # Job control of the shell

The job table of `wsh.c`, its children and its signals. A signal handler runs as one step, at
any point of the shell; a pending `SIGCHLD` is handled before the shell goes on in user mode.
Changes of several children before that are announced by one delivery. The process group of a
job is its pid. Pipes are left out: their children have no job.
-/
namespace WshJobs

open Runs

def MAX_ARGS : ℕ := 256

/-- `status` is 0 in the background, 1 in the foreground and 2 if stopped. -/
structure Job where
  pid : ℕ
  id : ℤ
  status : ℕ
  deriving DecidableEq, Repr

/-- `wait` reports a stop once. -/
inductive Process where
  | running
  | stopped (reported : Bool)
  | zombie
  deriving DecidableEq, Repr

/-- A child that is not reaped yet. `job` is the id its job was created with, 0 before that. -/
structure Child where
  process : Process
  job : ℤ
  deriving DecidableEq, Repr

inductive Command where
  | launch (background : Bool)
  | fg (job_id : ℤ)
  | bg (job_id : ℤ)
  | other
  deriving DecidableEq, Repr

/-- Where the shell is: at the prompt, in `remove_finished_jobs`, at the three places of
`execute_command` that a signal can tell apart, or in `fg_command`. -/
inductive Point where
  | prompt
  | sweep (i : ℕ) (c : Command)
  | ready (c : Command)
  | forked (pid : ℕ) (background : Bool)
  | added (pid : ℕ) (id : ℤ) (background : Bool)
  | waiting (pid : ℕ) (id : ℤ)
  | fgWaiting (pid : ℕ) (i : ℤ)
  | fgStopped (pid : ℕ) (i : ℤ)
  deriving DecidableEq, Repr

/-- The arrays also have a word in front, index -1. `causes` holds the children whose changes
the pending `SIGCHLD` announces. -/
structure Shell where
  jobs : ℤ → Option Job
  id : ℤ → Bool
  cur_id : ℤ
  point : Point
  children : ℕ → Option Child
  causes : List ℕ

def Shell.setStatus (s : Shell) (i : ℤ) (status : ℕ) : Shell :=
  { s with jobs := Function.update s.jobs i ((s.jobs i).map fun j => { j with status := status }) }

def Shell.clear (s : Shell) (i : ℤ) : Shell :=
  { s with jobs := Function.update s.jobs i none, id := Function.update s.id i false }

def Shell.setProcess (s : Shell) (pid : ℕ) (p : Process) : Shell :=
  { s with
    children := Function.update s.children pid
      ((s.children pid).map fun c => { c with process := p }) }

/-- The index of the first free id. -/
def next_proc_id (id : ℤ → Bool) : Option ℕ := (List.range MAX_ARGS).find? fun i => !id i

/-- Without a free id the job gets id 0, and its entry is written in front of the array. -/
def add_job (s : Shell) (pid : ℕ) (background : Bool) : Shell :=
  let new_id : ℤ := match next_proc_id s.id with
    | some i => i + 1
    | none => 0
  { s with
    id := if new_id = 0 then s.id else Function.update s.id (new_id - 1) true
    jobs := Function.update s.jobs (new_id - 1) (some ⟨pid, new_id, if background then 0 else 1⟩)
    children := Function.update s.children pid
      ((s.children pid).map fun c => { c with job := new_id })
    point := .added pid new_id background }

inductive Answer where
  | failed
  | none
  | stopped
  | exited
  deriving DecidableEq, Repr

/-- `waitpid` of one child, which does not block. -/
def waitpid (s : Shell) (pid : ℕ) (untraced : Bool) : Answer × Shell :=
  match s.children pid with
  | none => (.failed, s)
  | some c =>
    match c.process with
    | .zombie => (.exited, { s with children := Function.update s.children pid none })
    | .stopped false => if untraced then (.stopped, s.setProcess pid (.stopped true)) else (.none, s)
    | _ => (.none, s)

/-- `SIGCONT` to a stopped child, which announces that it goes on. -/
def cont (s : Shell) (pid : ℕ) : Shell :=
  match s.children pid with
  | some ⟨.stopped _, _⟩ => { s.setProcess pid .running with causes := pid :: s.causes }
  | _ => s

/-- A null entry is dereferenced: the shell crashes. -/
def sigchild_handler (s : Shell) : Option Shell :=
  if s.cur_id = -1 then some { s with causes := [] }
  else
    match s.jobs (s.cur_id - 1) with
    | none => none
    | some j =>
      let s := if j.status = 1 then s.clear (s.cur_id - 1) else s
      some { s with cur_id := -1, causes := [] }

/-- The handlers of Ctrl-C and Ctrl-Z; what the signal does to the child is a later change. -/
def forward (s : Shell) (status : ℕ) : Shell :=
  if s.cur_id ≠ -1 ∧ s.jobs (s.cur_id - 1) ≠ none then s.setStatus (s.cur_id - 1) status else s

def sigint_handler (s : Shell) : Shell := forward s 1

def sigtstp_handler (s : Shell) : Shell := forward s 2

/-- One round of `remove_finished_jobs`. -/
def sweepRound (s : Shell) (i : ℕ) : Option Shell :=
  if s.id i then
    match s.jobs i with
    | none => none
    | some j =>
      match waitpid s j.pid true with
      | (.exited, s) | (.stopped, s) => some (s.clear i)
      | (_, s) => some s
  else some s

def largestId (s : Shell) (eligible : Job → Bool) : ℤ :=
  (List.range MAX_ARGS).foldl (fun largest i =>
    match s.jobs i with
    | some j => if j.id > largest ∧ eligible j then j.id else largest
    | none => largest) (-1)

/-- The entry that `fg` and `bg` work on; id -1 asks for the largest. -/
def selectJob (s : Shell) (eligible : Job → Bool) (job_id : ℤ) : Option ℕ :=
  let job_id := if job_id = -1 then largestId s eligible else job_id
  if job_id = -1 then none
  else
    (List.range MAX_ARGS).find? fun i =>
      match s.jobs i with
      | some j => j.id = job_id ∧ eligible j
      | none => false

/-- `fg_command` up to its wait. -/
def fg_command (s : Shell) (job_id : ℤ) : Shell :=
  match selectJob s (fun j => j.status = 0 ∨ j.status = 2) job_id with
  | none => { s with point := .prompt }
  | some i =>
    match s.jobs i with
    | none => { s with point := .prompt }
    | some j => { cont (s.setStatus i 1) j.pid with point := .fgWaiting j.pid i }

def bg_command (s : Shell) (job_id : ℤ) : Shell :=
  match selectJob s (fun j => j.status = 2) job_id with
  | none => { s with point := .prompt }
  | some i =>
    match s.jobs i with
    | none => { s with point := .prompt }
    | some j => { cont (s.setStatus i 0) j.pid with point := .prompt }

/-- The end of a blocking wait. A failed wait leaves `status` as it was, so `fg_command` then
tests `garbage`. -/
def endWait (s : Shell) (garbage : Bool) : Option Shell :=
  match s.point with
  | .added pid _ true => some { (waitpid s pid false).2 with point := .prompt }
  | .waiting pid _ =>
    match waitpid s pid true with
    | (.none, _) => none
    | (_, s) => some { s with point := .prompt }
  | .fgWaiting pid i =>
    match waitpid s pid true with
    | (.none, _) => none
    | (.stopped, s) => some { s with point := .fgStopped pid i }
    | (.exited, s) => some { s with point := .prompt }
    | (.failed, s) => some { s with point := if garbage then .fgStopped pid i else .prompt }
  | _ => none

inductive Event where
  /-- A line is read. -/
  | command (c : Command)
  /-- The next step of the shell in user mode; `pid` is the answer of `fork`. -/
  | step (pid : Option ℕ)
  | endWait (garbage : Bool)
  | change (pid : ℕ) (p : Process)
  | deliver
  | ctrlC
  | ctrlZ
  deriving DecidableEq, Repr

/-- The steps in user mode; `fork` fails with `none` and answers with an unused pid else. -/
def userStep (s : Shell) (pid : Option ℕ) : Option Shell :=
  match s.point with
  | .sweep i c =>
    if i < MAX_ARGS then (sweepRound s i).map fun s => { s with point := .sweep (i + 1) c }
    else some { s with point := .ready c }
  | .ready (.launch background) =>
    match pid with
    | none => some { s with point := .prompt }
    | some pid =>
      if s.children pid = none then
        some { s with
          children := Function.update s.children pid (some ⟨.running, 0⟩)
          point := .forked pid background }
      else none
  | .ready (.fg job_id) => some (fg_command s job_id)
  | .ready (.bg job_id) => some (bg_command s job_id)
  | .ready .other => some { s with point := .prompt }
  | .forked pid background => some (add_job s pid background)
  | .added pid id false => some { s with cur_id := id, point := .waiting pid id }
  | .fgStopped pid i =>
    -- The entry may be gone, while the pointer of `fg_command` is still good.
    some { (if (s.jobs i).any (·.pid = pid) then s.setStatus i 2 else s) with point := .prompt }
  | _ => none

def canChange : Process → Process → Bool
  | .running, .stopped false => true
  | .running, .zombie => true
  | .stopped _, .running => true
  | .stopped _, .zombie => true
  | _, _ => false

def next (s : Shell) : Event → Option Shell
  | .command c =>
    if s.point = .prompt ∧ s.causes = [] then some { s with point := .sweep 0 c } else none
  | .step pid => if s.causes = [] then userStep s pid else none
  | .endWait garbage => endWait s garbage
  | .change pid p =>
    match s.children pid with
    | none => none
    | some c =>
      if canChange c.process p then some { s.setProcess pid p with causes := pid :: s.causes }
      else none
  | .deliver => if s.causes = [] then none else sigchild_handler s
  | .ctrlC => some (sigint_handler s)
  | .ctrlZ => some (sigtstp_handler s)

def start : Shell where
  jobs := fun _ => none
  id := fun _ => false
  cur_id := -1
  point := .prompt
  children := fun _ => none
  causes := []

section Attribution

variable {s : Shell}

/-- A delivery leaves the entries of children that it does not announce, and `cur_id` while
such a child runs in the foreground. -/
structure Attributed (s s' : Shell) : Prop where
  entries : ∀ i j, s.jobs i = some j → j.pid ∉ s.causes → s'.jobs i = some j
  current : ∀ j c, s.cur_id ≠ -1 → s.jobs (s.cur_id - 1) = some j → j.pid ∉ s.causes →
    s.children j.pid = some c → c.process = .running → s'.cur_id = s.cur_id

/-- Every delivery is attributed to the children it announces. -/
def Right (s : Shell) : Event → Prop
  | .deliver => ∀ s', next s .deliver = some s' → Attributed s s'
  | _ => True

/-- The current job is that of a child which the delivery announces, or no foreground job:
marked otherwise, and its process does not run. -/
def Own (s : Shell) : Event → Prop
  | .deliver => s.causes ≠ [] → s.cur_id ≠ -1 → ∀ j, s.jobs (s.cur_id - 1) = some j →
    j.pid ∈ s.causes ∨
      j.status ≠ 1 ∧ ∀ c, s.children j.pid = some c → c.process ≠ .running
  | _ => True

theorem handler_of_current {j : Job} (hcur : s.cur_id ≠ -1) (hj : s.jobs (s.cur_id - 1) = some j) :
    sigchild_handler s =
      some { (if j.status = 1 then s.clear (s.cur_id - 1) else s) with cur_id := -1, causes := [] } := by
  rw [sigchild_handler, if_neg hcur, hj]

/-- What the handler does to the current job is right for that job only. -/
theorem attributed_iff {j : Job} (hcur : s.cur_id ≠ -1) (hj : s.jobs (s.cur_id - 1) = some j) :
    Attributed s { (if j.status = 1 then s.clear (s.cur_id - 1) else s) with
      cur_id := -1, causes := [] } ↔
      j.pid ∈ s.causes ∨
        j.status ≠ 1 ∧ ∀ c, s.children j.pid = some c → c.process ≠ .running := by
  constructor
  · intro h
    by_contra hother
    rw [not_or, not_and] at hother
    obtain ⟨hpid, hrunning⟩ := hother
    by_cases hstatus : j.status = 1
    · have hkept := h.entries _ j hj hpid
      rw [if_pos hstatus] at hkept
      simp [Shell.clear] at hkept
    · refine hrunning hstatus fun c hc hprocess => ?_
      exact hcur (h.current j c hcur hj hpid hc hprocess).symm
  · intro hown
    refine ⟨fun i j' hi hpid => ?_, fun j' c _ hj' hpid hc hprocess => ?_⟩
    · by_cases hstatus : j.status = 1
      · have hne : i ≠ s.cur_id - 1 := by
          rintro rfl
          obtain rfl := Option.some.inj (hj.symm.trans hi)
          exact hown.elim hpid fun h => h.1 hstatus
        rw [if_pos hstatus]
        exact (Function.update_of_ne hne ..).trans hi
      · rw [if_neg hstatus]
        exact hi
    · obtain rfl := Option.some.inj (hj.symm.trans hj')
      exact absurd hprocess (hown.elim (absurd · hpid) fun h => h.2 c hc)

theorem right_iff (s : Shell) (e : Event) : Right s e ↔ Own s e := by
  cases e with
  | deliver =>
    by_cases hcauses : s.causes = []
    · simp [Right, Own, next, hcauses]
    have hnext : next s .deliver = sigchild_handler s := if_neg hcauses
    simp only [Right, Own, hnext]
    by_cases hcur : s.cur_id = -1
    · refine iff_of_true (fun s' hs => ?_) fun _ h => absurd hcur h
      rw [sigchild_handler, if_pos hcur] at hs
      cases hs
      exact ⟨fun i j hj _ => hj, fun j c h => absurd hcur h⟩
    cases hj : s.jobs (s.cur_id - 1) with
    | none =>
      refine iff_of_true (fun s' hs => ?_) fun _ _ j h => by cases h
      rw [sigchild_handler, if_neg hcur, hj] at hs
      cases hs
    | some j =>
      rw [handler_of_current hcur hj]
      constructor
      · rintro h - - j' hj'
        obtain rfl := Option.some.inj hj'
        exact (attributed_iff hcur hj).mp (h _ rfl)
      · intro h s' hs
        cases hs
        exact (attributed_iff hcur hj).mpr (h hcauses hcur j rfl)
  | _ => exact Iff.rfl

/-- Along every run the deliveries are attributed to the right jobs exactly when each finds
its own job as the current one, or none in the foreground. -/
theorem deliveries_attributed_iff (s : Shell) (es : List Event) :
    Along next Right s es ↔ Along next Own s es :=
  along_iff (fun s e (_ : True) => right_iff s e) (fun _ _ _ _ _ _ => trivial) trivial

end Attribution

/-- The rounds of `remove_finished_jobs` and the step behind them. -/
def sweeping : List Event := List.replicate (MAX_ARGS + 1) (.step none)

/-- A job in the background, then one in the foreground that the shell waits for. -/
def twoJobs : List Event :=
  [.command (.launch true)] ++ sweeping ++ [.step (some 1), .step none, .endWait false,
    .command (.launch false)] ++ sweeping ++ [.step (some 2), .step none, .step none]

/-- The background job ends and the handler removes the foreground job, which runs on. -/
theorem background_end_misattributed :
    ¬ Along next Right start (twoJobs ++ [.change 1 .zombie] ++ [.deliver]) := by
  intro h
  have hrun : (run next start (twoJobs ++ [.change 1 .zombie])).any (fun s =>
      s.causes = [1] ∧ s.cur_id = 2 ∧ s.jobs 1 = some ⟨2, 2, 1⟩) = true := by decide +kernel
  obtain ⟨s, hs, hstate⟩ := (Option.any_eq_true _ _).mp hrun
  obtain ⟨hcauses, hcur, hj⟩ := of_decide_eq_true hstate
  have hown := (right_iff s .deliver).mp (h.at hs)
  have hjob : s.jobs (s.cur_id - 1) = some ⟨2, 2, 1⟩ := by rw [hcur]; exact hj
  rcases hown (by simp [hcauses]) (by simp [hcur]) _ hjob with hmem | ⟨hstatus, -⟩
  · simp [hcauses] at hmem
  · exact hstatus rfl

end WshJobs
