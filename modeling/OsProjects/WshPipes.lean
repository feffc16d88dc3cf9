import OsProjects.Runs
import Mathlib.Data.Int.Basic
import Mathlib.Data.List.Basic
import Mathlib.Logic.Function.Basic

/-! # The processes of a pipe

`execute_pipe` of `wsh.c` as the shell and its children run, in any order: every process has a
descriptor table of its own, which `fork` copies together with the local variable `pgid`. The
system calls succeed. `execvp` keeps the table; what a program does with it is left out, up to
its exit.
-/
namespace WshPipes

open Runs

variable {α : Type*}

/-- An open file: an end of a pipe of this call, or something the shell had open before. -/
inductive File (α : Type*) where
  | readEnd (i : ℕ)
  | writeEnd (i : ℕ)
  | other (f : α)

abbrev Table (α : Type*) := ℕ → Option (File α)

def STDIN_FILENO : ℕ := 0
def STDOUT_FILENO : ℕ := 1

/-- The calls of a child before its `execvp`. -/
inductive Syscall where
  | setpgid
  | dup2 (oldfd newfd : ℕ)
  | close (fd : ℕ)
  deriving DecidableEq, Repr

def pipe (pipefd : ℕ × ℕ) (i : ℕ) (t : Table α) : Table α :=
  Function.update (Function.update t pipefd.1 (some (.readEnd i))) pipefd.2 (some (.writeEnd i))

def close (fd : ℕ) (t : Table α) : Table α := Function.update t fd none

def dup2 (oldfd newfd : ℕ) (t : Table α) : Table α :=
  match t oldfd with
  | none => t
  | some f => Function.update t newfd (some f)

/-- What a call does to the table. -/
def apply (t : Table α) : Syscall → Table α
  | .setpgid => t
  | .dup2 oldfd newfd => dup2 oldfd newfd t
  | .close fd => close fd t

/-- The descriptors of the closing loops, in their order. -/
def pipeFds (pipefd : ℕ → ℕ × ℕ) (num_cmd : ℕ) : List ℕ :=
  (List.range (num_cmd - 1)).flatMap fun k => [(pipefd k).1, (pipefd k).2]

/-- The body of child `i`. -/
def childBody (pipefd : ℕ → ℕ × ℕ) (num_cmd i : ℕ) : List Syscall :=
  .setpgid :: (if i > 0 then [.dup2 (pipefd (i - 1)).1 STDIN_FILENO] else []) ++
    (if i < num_cmd - 1 then [.dup2 (pipefd i).2 STDOUT_FILENO] else []) ++
    (pipeFds pipefd num_cmd).map .close

/-- A child with its copy of `pgid`, its process group and the calls in front of it. -/
structure Child (α : Type*) where
  pid : ℕ
  pgid : ℤ
  group : ℤ
  table : Table α
  todo : List Syscall
  exited : Bool

/-- Where the shell is: in the loop of `pipe`, in that of `fork`, or in front of the descriptors
it still closes; then it waits. -/
inductive Phase where
  | piping (i : ℕ)
  | forking (i : ℕ)
  | closing (fds : List ℕ)
  deriving DecidableEq, Repr

structure State (α : Type*) where
  phase : Phase
  table : Table α
  pgid : ℤ
  group : ℤ
  children : List (Child α)

inductive Event where
  /-- The shell goes on; `pid` is the answer of `fork`. -/
  | shell (pid : ℕ)
  | child (i : ℕ)
  | exit (i : ℕ)
  deriving DecidableEq, Repr

/-- The shell's next step; `fork` answers with a pid that no child has. -/
def shellStep (pipefd : ℕ → ℕ × ℕ) (num_cmd : ℕ) (s : State α) (pid : ℕ) : Option (State α) :=
  match s.phase with
  | .piping i =>
    if i < num_cmd - 1 then
      some { s with table := pipe (pipefd i) i s.table, phase := .piping (i + 1) }
    else some { s with phase := .forking 0 }
  | .forking i =>
    if i < num_cmd then
      if pid ∈ s.children.map Child.pid then none
      else
        some { s with
          children := s.children ++
            [⟨pid, s.pgid, s.group, s.table, childBody pipefd num_cmd i, false⟩]
          phase := .forking (i + 1) }
    else some { s with phase := .closing (pipeFds pipefd num_cmd) }
  | .closing [] => none
  | .closing (fd :: fds) => some { s with table := close fd s.table, phase := .closing fds }

/-- `if (pgid == -1) pgid = getpid(); setpgid(getpid(), pgid);` -/
def Child.setpgid (c : Child α) : Child α :=
  let pgid : ℤ := if c.pgid = -1 then c.pid else c.pgid
  { c with pgid := pgid, group := pgid }

def Child.step (c : Child α) : Option (Child α) :=
  match c.todo with
  | [] => none
  | op :: todo =>
    some { (if op = .setpgid then c.setpgid else c) with table := apply c.table op, todo := todo }

/-- The program ends, and its descriptors are closed. -/
def Child.exit (c : Child α) : Option (Child α) :=
  if c.todo = [] then some { c with table := fun _ => none, exited := true } else none

def next (pipefd : ℕ → ℕ × ℕ) (num_cmd : ℕ) (s : State α) : Event → Option (State α)
  | .shell pid => shellStep pipefd num_cmd s pid
  | .child i => ((s.children[i]?).bind Child.step).map fun c =>
    { s with children := s.children.set i c }
  | .exit i => ((s.children[i]?).bind Child.exit).map fun c =>
    { s with children := s.children.set i c }

/-- The shell on entry, with its open files. -/
def start (files : ℕ → Option α) (group : ℤ) : State α where
  phase := .piping 0
  table fd := (files fd).map .other
  pgid := -1
  group := group
  children := []

/-- The descriptors of the pipes are distinct and none of the standard ones. -/
structure Distinct (pipefd : ℕ → ℕ × ℕ) (m : ℕ) : Prop where
  reads : ∀ j < m, ∀ k < m, (pipefd j).1 = (pipefd k).1 → j = k
  writes : ∀ j < m, ∀ k < m, (pipefd j).2 = (pipefd k).2 → j = k
  apart : ∀ j < m, ∀ k < m, (pipefd j).1 ≠ (pipefd k).2
  high : ∀ k < m, 3 ≤ (pipefd k).1 ∧ 3 ≤ (pipefd k).2

/-- A process: the shell, or a child by its number. -/
def tableOf (s : State α) : Option ℕ → Option (Table α)
  | none => some s.table
  | some i => (s.children[i]?).map Child.table

/-- The process has the file open, under some descriptor. -/
def Opens (s : State α) (p : Option ℕ) (f : File α) : Prop :=
  ∃ t, tableOf s p = some t ∧ ∃ fd, t fd = some f

/-- The shell has closed its ends, and every child has come to its `execvp`. -/
structure Launched (num_cmd : ℕ) (s : State α) : Prop where
  closed : s.phase = .closing []
  forked : s.children.length = num_cmd
  ready : ∀ c ∈ s.children, c.todo = []

/-- The wiring. A child that has exited has nothing open. -/
structure Wired (files : ℕ → Option α) (num_cmd : ℕ) (s : State α) : Prop where
  stdin : ∀ i c, s.children[i]? = some c → c.exited = false →
    c.table STDIN_FILENO = if i = 0 then (files STDIN_FILENO).map .other else some (.readEnd (i - 1))
  stdout : ∀ i c, s.children[i]? = some c → c.exited = false →
    c.table STDOUT_FILENO =
      if i = num_cmd - 1 then (files STDOUT_FILENO).map .other else some (.writeEnd i)
  writer : ∀ k < num_cmd - 1, ∀ p, Opens s p (.writeEnd k) ↔
    p = some k ∧ ∃ c, s.children[k]? = some c ∧ c.exited = false
  reader : ∀ k < num_cmd - 1, ∀ p, Opens s p (.readEnd k) ↔
    p = some (k + 1) ∧ ∃ c, s.children[k + 1]? = some c ∧ c.exited = false

section Tables

variable {pipefd : ℕ → ℕ × ℕ} {files : ℕ → Option α} {m k j fd : ℕ} {t : Table α}

/-- The shell's table after the first pipes. -/
def opened (pipefd : ℕ → ℕ × ℕ) (files : ℕ → Option α) : ℕ → Table α
  | 0 => fun fd => (files fd).map .other
  | k + 1 => pipe (pipefd k) k (opened pipefd files k)

theorem pipe_of_ne {pair : ℕ × ℕ} (h₁ : fd ≠ pair.1) (h₂ : fd ≠ pair.2) :
    pipe pair k t fd = t fd := by
  rw [pipe, Function.update_of_ne h₂, Function.update_of_ne h₁]

theorem opened_other (h : ∀ j < k, fd ≠ (pipefd j).1 ∧ fd ≠ (pipefd j).2) :
    opened pipefd files k fd = (files fd).map .other := by
  induction k with
  | zero => rfl
  | succ k ih =>
    obtain ⟨hread, hwrite⟩ := h k (Nat.lt_succ_self k)
    rw [opened, pipe_of_ne hread hwrite]
    exact ih fun j hj => h j (by omega)

theorem opened_read (hd : Distinct pipefd m) (hk : k ≤ m) (hj : j < k) :
    opened pipefd files k (pipefd j).1 = some (.readEnd j) := by
  induction k with
  | zero => omega
  | succ k ih =>
    have hapart := hd.apart j (by omega) k (by omega)
    rcases Nat.eq_or_lt_of_le (Nat.lt_succ_iff.mp hj) with rfl | hlt
    · rw [opened, pipe, Function.update_of_ne hapart, Function.update_self]
    · have hne : (pipefd j).1 ≠ (pipefd k).1 := fun heq => by
        have := hd.reads j (by omega) k (by omega) heq
        omega
      rw [opened, pipe_of_ne hne hapart]
      exact ih (by omega) hlt

theorem opened_write (hd : Distinct pipefd m) (hk : k ≤ m) (hj : j < k) :
    opened pipefd files k (pipefd j).2 = some (.writeEnd j) := by
  induction k with
  | zero => omega
  | succ k ih =>
    rcases Nat.eq_or_lt_of_le (Nat.lt_succ_iff.mp hj) with rfl | hlt
    · rw [opened, pipe, Function.update_self]
    · have hread := (hd.apart k (by omega) j (by omega)).symm
      have hne : (pipefd j).2 ≠ (pipefd k).2 := fun heq => by
        have := hd.writes j (by omega) k (by omega) heq
        omega
      rw [opened, pipe_of_ne hread hne]
      exact ih (by omega) hlt

theorem mem_pipeFds {num_cmd : ℕ} : fd ∈ pipeFds pipefd num_cmd ↔
    ∃ j < num_cmd - 1, fd = (pipefd j).1 ∨ fd = (pipefd j).2 := by
  simp [pipeFds]

/-- The closing loop. -/
def closeAll (fds : List ℕ) (t : Table α) : Table α := fds.foldl (fun t fd => close fd t) t

theorem closeAll_apply {fds : List ℕ} :
    closeAll fds t fd = if fd ∈ fds then none else t fd := by
  induction fds generalizing t with
  | nil => simp [closeAll]
  | cons x fds ih =>
    have hstep : closeAll (x :: fds) t = closeAll fds (close x t) := rfl
    rw [hstep, ih, close]
    by_cases hmem : fd ∈ fds
    · simp [hmem]
    · by_cases hx : fd = x
      · simp [hx]
      · simp [hmem, hx]

theorem closes_eq (fds : List ℕ) : (fds.map Syscall.close).foldl apply t = closeAll fds t := by
  rw [List.foldl_map]
  rfl

end Tables

section Invariant

variable {pipefd : ℕ → ℕ × ℕ} {files : ℕ → Option α} {num_cmd : ℕ} {s s' : State α} {e : Event}
  {c : Child α} {i : ℕ}

/-- A child has run a part of its body from the table with all pipes, or has exited. -/
def InBody (pipefd : ℕ → ℕ × ℕ) (files : ℕ → Option α) (num_cmd i : ℕ) (c : Child α) : Prop :=
  if c.exited then c.todo = [] ∧ c.table = fun _ => none
  else ∃ before, childBody pipefd num_cmd i = before ++ c.todo ∧
    c.table = before.foldl apply (opened pipefd files (num_cmd - 1))

/-- The shell has come to a point of its loops, and no further. -/
def InLoops (pipefd : ℕ → ℕ × ℕ) (files : ℕ → Option α) (num_cmd : ℕ) (s : State α) : Prop :=
  match s.phase with
  | .piping i => i ≤ num_cmd - 1 ∧ s.table = opened pipefd files i ∧ s.children = []
  | .forking i => s.table = opened pipefd files (num_cmd - 1) ∧ s.children.length = i ∧ i ≤ num_cmd
  | .closing fds => s.children.length = num_cmd ∧ ∃ before, pipeFds pipefd num_cmd = before ++ fds ∧
    s.table = closeAll before (opened pipefd files (num_cmd - 1))

structure Invariant (pipefd : ℕ → ℕ × ℕ) (files : ℕ → Option α) (num_cmd : ℕ) (s : State α) :
    Prop where
  shell : InLoops pipefd files num_cmd s
  children : ∀ i c, s.children[i]? = some c → InBody pipefd files num_cmd i c

theorem start_invariant (group : ℤ) : Invariant pipefd files num_cmd (start files group) :=
  ⟨⟨Nat.zero_le _, rfl, rfl⟩, fun i c hc => by simp [start] at hc⟩

theorem shell_invariant {pid : ℕ} (h : Invariant pipefd files num_cmd s)
    (hn : shellStep pipefd num_cmd s pid = some s') : Invariant pipefd files num_cmd s' := by
  obtain ⟨hshell, hchildren⟩ := h
  rw [shellStep] at hn
  rw [InLoops] at hshell
  split at hn
  next k hphase =>
    rw [hphase] at hshell
    obtain ⟨hk, htable, hnone⟩ := hshell
    split_ifs at hn with hlt
    · cases hn
      exact ⟨⟨hlt, by rw [htable]; rfl, hnone⟩, hchildren⟩
    · cases hn
      refine ⟨⟨?_, by rw [hnone]; rfl, Nat.zero_le _⟩, hchildren⟩
      rw [htable, show k = num_cmd - 1 by omega]
  next k hphase =>
    rw [hphase] at hshell
    obtain ⟨htable, hlen, hk⟩ := hshell
    split_ifs at hn with hlt hpid
    · cases hn
      refine ⟨⟨htable, by simp [hlen], hlt⟩, fun i c hc => ?_⟩
      rw [List.getElem?_append] at hc
      split_ifs at hc with hi
      · exact hchildren i c hc
      · rw [List.getElem?_singleton] at hc
        split_ifs at hc with hlast
        cases hc
        obtain rfl : i = k := by omega
        exact ⟨[], rfl, htable⟩
    · cases hn
      have hall : s.children.length = num_cmd := by omega
      exact ⟨⟨hall, [], rfl, htable⟩, hchildren⟩
  next => cases hn
  next fd fds hphase =>
    rw [hphase] at hshell
    obtain ⟨hlen, before, hfds, htable⟩ := hshell
    cases hn
    refine ⟨⟨hlen, before ++ [fd], by simp [hfds], ?_⟩, hchildren⟩
    rw [htable, closeAll, closeAll, List.foldl_append]
    rfl

/-- Replacing one child by one that is in its body as well. -/
theorem set_invariant (h : Invariant pipefd files num_cmd s) (hc : InBody pipefd files num_cmd i c) :
    Invariant pipefd files num_cmd { s with children := s.children.set i c } := by
  refine ⟨?_, fun j d hd => ?_⟩
  · have hshell := h.shell
    rw [InLoops] at hshell ⊢
    cases hphase : s.phase with
    | piping k =>
      rw [hphase] at hshell
      obtain ⟨hk, htable, hnone⟩ := hshell
      exact ⟨hk, htable, by rw [hnone]; rfl⟩
    | forking k =>
      rw [hphase] at hshell
      simpa using hshell
    | closing fds =>
      rw [hphase] at hshell
      simpa using hshell
  · rw [List.getElem?_set] at hd
    split_ifs at hd with hij hlt
    · cases hd
      exact hij ▸ hc
    · exact h.children j d hd

theorem step_inBody (h : InBody pipefd files num_cmd i c) {d : Child α} (hs : c.step = some d) :
    InBody pipefd files num_cmd i d := by
  rw [Child.step] at hs
  rw [InBody] at h
  split at hs
  next => cases hs
  next op todo htodo =>
    by_cases hexit : c.exited = true
    · rw [if_pos hexit, htodo] at h
      cases h.1
    rw [if_neg hexit, htodo] at h
    obtain ⟨before, hbody, htable⟩ := h
    cases hs
    have hexited : (if op = .setpgid then c.setpgid else c).exited = c.exited := by
      split_ifs <;> rfl
    rw [InBody, if_neg (by dsimp only; rwa [hexited])]
    refine ⟨before ++ [op], by simp [hbody], ?_⟩
    rw [List.foldl_append, ← htable]
    rfl

theorem exit_inBody {d : Child α} (hs : c.exit = some d) : InBody pipefd files num_cmd i d := by
  rw [Child.exit] at hs
  split_ifs at hs with htodo
  cases hs
  exact ⟨htodo, rfl⟩

theorem next_invariant (h : Invariant pipefd files num_cmd s)
    (hn : next pipefd num_cmd s e = some s') : Invariant pipefd files num_cmd s' := by
  cases e with
  | shell pid => exact shell_invariant h hn
  | child i =>
    obtain ⟨d, hd, rfl⟩ := Option.map_eq_some_iff.mp hn
    obtain ⟨c, hc, hs⟩ := Option.bind_eq_some_iff.mp hd
    exact set_invariant h (step_inBody (h.children i c hc) hs)
  | exit i =>
    obtain ⟨d, hd, rfl⟩ := Option.map_eq_some_iff.mp hn
    obtain ⟨c, hc, hs⟩ := Option.bind_eq_some_iff.mp hd
    exact set_invariant h (exit_inBody hs)

theorem run_reaches {group : ℤ} {es : List Event}
    (hr : run (next pipefd num_cmd) (start files group) es = some s) :
    Invariant pipefd files num_cmd s := by
  refine run_invariant (fun s e s' h _ hn => next_invariant h hn) (start_invariant group)
    (along_of_forall (P := fun _ _ => True) (fun _ _ => trivial) _ _) hr

end Invariant

section Wiring

variable {pipefd : ℕ → ℕ × ℕ} {files : ℕ → Option α} {num_cmd : ℕ} {s : State α} {c : Child α}
  {i k fd : ℕ}

theorem opened_of_not_mem (files : ℕ → Option α) (h : fd ∉ pipeFds pipefd num_cmd) :
    opened pipefd files (num_cmd - 1) fd = (files fd).map .other := by
  rw [mem_pipeFds] at h
  refine opened_other fun j hj => ⟨fun heq => ?_, fun heq => ?_⟩
  · exact h ⟨j, hj, Or.inl heq⟩
  · exact h ⟨j, hj, Or.inr heq⟩

theorem dup2_some {t : Table α} {f : File α} {oldfd newfd : ℕ} (h : t oldfd = some f) :
    dup2 oldfd newfd t = Function.update t newfd (some f) := by
  rw [dup2, h]

theorem high_not_mem (hd : Distinct pipefd (num_cmd - 1)) (hfd : fd < 3) :
    fd ∉ pipeFds pipefd num_cmd := by
  rw [mem_pipeFds]
  rintro ⟨j, hj, heq⟩
  have hhigh := hd.high j hj
  omega

/-- The table a child has at its `execvp`. -/
def wiredTable (files : ℕ → Option α) (num_cmd i : ℕ) (fd : ℕ) : Option (File α) :=
  if fd = STDIN_FILENO ∧ 0 < i then some (.readEnd (i - 1))
  else if fd = STDOUT_FILENO ∧ i < num_cmd - 1 then some (.writeEnd i)
  else (files fd).map .other

theorem body_table (hd : Distinct pipefd (num_cmd - 1)) (hi : i < num_cmd) :
    (childBody pipefd num_cmd i).foldl apply (opened pipefd files (num_cmd - 1)) fd =
      if fd ∈ pipeFds pipefd num_cmd then none else wiredTable files num_cmd i fd := by
  obtain ⟨t₁, ht₁⟩ : ∃ t₁ : Table α, t₁ = if i > 0 then
      Function.update (opened pipefd files (num_cmd - 1)) STDIN_FILENO (some (.readEnd (i - 1)))
    else opened pipefd files (num_cmd - 1) := ⟨_, rfl⟩
  have hin : (if i > 0 then [Syscall.dup2 (pipefd (i - 1)).1 STDIN_FILENO] else []).foldl apply
      (opened pipefd files (num_cmd - 1)) = t₁ := by
    rw [ht₁]
    split_ifs with hpos
    · exact dup2_some (opened_read hd le_rfl (by omega))
    · rfl
  have hout : (if i < num_cmd - 1 then [Syscall.dup2 (pipefd i).2 STDOUT_FILENO] else []).foldl apply
      t₁ = if i < num_cmd - 1 then Function.update t₁ STDOUT_FILENO (some (.writeEnd i)) else t₁ := by
    split_ifs with hlt
    · refine dup2_some ?_
      have hhigh := (hd.high i hlt).2
      have hne : (pipefd i).2 ≠ STDIN_FILENO := by
        rw [STDIN_FILENO]
        omega
      rw [ht₁]
      split_ifs with hpos
      · rw [Function.update_of_ne hne]
        exact opened_write hd le_rfl hlt
      · exact opened_write hd le_rfl hlt
    · rfl
  have happly : apply (opened pipefd files (num_cmd - 1)) Syscall.setpgid =
      opened pipefd files (num_cmd - 1) := rfl
  rw [childBody, List.cons_append, List.cons_append, List.foldl_cons, List.foldl_append,
    List.foldl_append, closes_eq, closeAll_apply, happly, hin, hout]
  by_cases hmem : fd ∈ pipeFds pipefd num_cmd
  · rw [if_pos hmem, if_pos hmem]
  · have hother := opened_of_not_mem files hmem
    rw [if_neg hmem, if_neg hmem, wiredTable, ht₁]
    by_cases hfirst : i > 0 <;> by_cases hlast : i < num_cmd - 1 <;>
      simp only [hfirst, hlast, if_true, if_false, Function.update_apply, hother, and_true,
        and_false, STDIN_FILENO, STDOUT_FILENO]
    split_ifs <;> first | rfl | omega

theorem Invariant.child_table (h : Invariant pipefd files num_cmd s) (hl : Launched num_cmd s)
    (hd : Distinct pipefd (num_cmd - 1)) (hc : s.children[i]? = some c) :
    c.table fd = if c.exited then none
      else if fd ∈ pipeFds pipefd num_cmd then none else wiredTable files num_cmd i fd := by
  have hbody := h.children i c hc
  have hlt : i < num_cmd := hl.forked ▸ (List.getElem?_eq_some_iff.mp hc).1
  rw [InBody, hl.ready c (List.mem_of_getElem? hc)] at hbody
  by_cases hexit : c.exited = true
  · rw [if_pos hexit] at hbody
    rw [if_pos hexit, hbody.2]
  · rw [if_neg hexit] at hbody
    obtain ⟨before, hbefore, htable⟩ := hbody
    rw [List.append_nil] at hbefore
    rw [if_neg hexit, htable, ← hbefore, body_table hd hlt]

theorem Invariant.shell_table (h : Invariant pipefd files num_cmd s) (hl : Launched num_cmd s) :
    s.table fd = if fd ∈ pipeFds pipefd num_cmd then none else (files fd).map .other := by
  have hshell := h.shell
  rw [InLoops, hl.closed] at hshell
  obtain ⟨_, before, hfds, htable⟩ := hshell
  rw [List.append_nil] at hfds
  rw [htable, ← hfds, closeAll_apply]
  split_ifs with hmem
  · rfl
  · exact opened_of_not_mem files hmem

theorem wired_write : (∃ fd, (if fd ∈ pipeFds pipefd num_cmd then none
    else wiredTable files num_cmd i fd) = some (.writeEnd k)) →
      k = i ∧ i < num_cmd - 1 := by
  rintro ⟨fd, hfd⟩
  rw [wiredTable] at hfd
  split_ifs at hfd with _ hin hout
  · cases hfd
  · cases hfd
    exact ⟨rfl, hout.2⟩
  · simp at hfd

theorem wired_read : (∃ fd, (if fd ∈ pipeFds pipefd num_cmd then none
    else wiredTable files num_cmd i fd) = some (.readEnd k)) → i = k + 1 := by
  rintro ⟨fd, hfd⟩
  rw [wiredTable] at hfd
  split_ifs at hfd with _ hin hout
  · cases hfd
    omega
  · cases hfd
  · simp at hfd

theorem Invariant.child_opens (h : Invariant pipefd files num_cmd s) (hl : Launched num_cmd s)
    (hd : Distinct pipefd (num_cmd - 1)) {f : File α} : Opens s (some i) f ↔
      ∃ c, s.children[i]? = some c ∧ c.exited = false ∧
        ∃ fd, (if fd ∈ pipeFds pipefd num_cmd then none else wiredTable files num_cmd i fd) =
          some f := by
  constructor
  · rintro ⟨t, ht, fd, hfd⟩
    obtain ⟨c, hc, rfl⟩ := Option.map_eq_some_iff.mp ht
    rw [h.child_table hl hd hc] at hfd
    cases hexit : c.exited with
    | true =>
      rw [hexit] at hfd
      cases hfd
    | false =>
      rw [hexit] at hfd
      exact ⟨c, hc, hexit, fd, hfd⟩
  · rintro ⟨c, hc, hexit, fd, hfd⟩
    refine ⟨c.table, by rw [tableOf, hc]; rfl, fd, ?_⟩
    rw [h.child_table hl hd hc, hexit]
    exact hfd

theorem Invariant.shell_opens (h : Invariant pipefd files num_cmd s) (hl : Launched num_cmd s)
    {f : File α} (ho : Opens s none f) : ∃ a, f = .other a := by
  obtain ⟨t, ht, fd, hfd⟩ := ho
  cases ht
  rw [h.shell_table hl] at hfd
  split_ifs at hfd
  obtain ⟨a, _, rfl⟩ := Option.map_eq_some_iff.mp hfd
  exact ⟨a, rfl⟩

/-- The children are wired in a row, whatever the order of the steps. -/
theorem pipeline_wired {group : ℤ} {es : List Event} (hd : Distinct pipefd (num_cmd - 1))
    (hr : run (next pipefd num_cmd) (start files group) es = some s) (hl : Launched num_cmd s) :
    Wired files num_cmd s := by
  have h := run_reaches hr
  have hstd : ∀ fd < 3, ∀ i c, s.children[i]? = some c → c.exited = false →
      c.table fd = wiredTable files num_cmd i fd := by
    intro fd hfd i c hc hexit
    rw [h.child_table hl hd hc, if_neg (by simp [hexit]), if_neg (high_not_mem hd hfd)]
  refine ⟨fun i c hc hexit => ?_, fun i c hc hexit => ?_, fun k hk p => ?_, fun k hk p => ?_⟩
  · rw [hstd STDIN_FILENO (by decide) i c hc hexit, wiredTable]
    rcases Nat.eq_zero_or_pos i with rfl | hpos
    · simp [STDIN_FILENO, STDOUT_FILENO]
    · rw [if_pos ⟨rfl, hpos⟩, if_neg (by omega)]
  · have hlt : i < num_cmd := hl.forked ▸ (List.getElem?_eq_some_iff.mp hc).1
    rw [hstd STDOUT_FILENO (by decide) i c hc hexit, wiredTable,
      if_neg (by simp [STDIN_FILENO, STDOUT_FILENO])]
    rcases eq_or_ne i (num_cmd - 1) with hlast | hne
    · rw [if_pos hlast, if_neg (by omega)]
    · rw [if_neg hne, if_pos ⟨rfl, by omega⟩]
  · constructor
    · intro ho
      cases p with
      | none =>
        obtain ⟨a, ha⟩ := h.shell_opens hl ho
        cases ha
      | some i =>
        obtain ⟨c, hc, hexit, hfd⟩ := (h.child_opens hl hd).mp ho
        obtain ⟨rfl, _⟩ := wired_write hfd
        exact ⟨rfl, c, hc, hexit⟩
    · rintro ⟨rfl, c, hc, hexit⟩
      refine (h.child_opens hl hd).mpr ⟨c, hc, hexit, STDOUT_FILENO, ?_⟩
      rw [if_neg (high_not_mem hd (by decide)), wiredTable,
        if_neg (by simp [STDIN_FILENO, STDOUT_FILENO]), if_pos ⟨rfl, hk⟩]
  · constructor
    · intro ho
      cases p with
      | none =>
        obtain ⟨a, ha⟩ := h.shell_opens hl ho
        cases ha
      | some i =>
        obtain ⟨c, hc, hexit, hfd⟩ := (h.child_opens hl hd).mp ho
        obtain rfl := wired_read hfd
        exact ⟨rfl, c, hc, hexit⟩
    · rintro ⟨rfl, c, hc, hexit⟩
      refine (h.child_opens hl hd).mpr ⟨c, hc, hexit, STDIN_FILENO, ?_⟩
      rw [if_neg (high_not_mem hd (by decide)), wiredTable, if_pos ⟨rfl, Nat.succ_pos k⟩,
        Nat.add_sub_cancel]

end Wiring

/-- Three commands; child 0 comes to its `execvp` and ends before the others are forked. -/
def threeCommands : List Event := List.flatten
  [[.shell 0, .shell 0, .shell 0, .shell 10], List.replicate 6 (.child 0),
    [.exit 0, .shell 11, .shell 12], List.replicate 7 (.child 1), List.replicate 6 (.child 2),
    List.replicate 5 (.shell 0)]

theorem three_wired : ∃ s : State Unit,
    run (next (fun k => (3 + 2 * k, 4 + 2 * k)) 3) (start (fun _ => some ()) 1) threeCommands =
      some s ∧ Wired (fun _ => some ()) 3 s := by
  have hrun : (run (next (fun k => (3 + 2 * k, 4 + 2 * k)) 3)
      (start (fun _ => some ()) 1) threeCommands).any (fun s => s.phase = .closing [] ∧
        s.children.length = 3 ∧ ∀ c ∈ s.children, c.todo = []) = true := by decide +kernel
  obtain ⟨s, hs, hstate⟩ := (Option.any_eq_true _ _).mp hrun
  obtain ⟨hclosed, hforked, hready⟩ := of_decide_eq_true hstate
  have hd : Distinct (fun k => (3 + 2 * k, 4 + 2 * k)) (3 - 1) :=
    ⟨by grind, by grind, by grind, by grind⟩
  exact ⟨s, hs, pipeline_wired hd hs ⟨hclosed, hforked, hready⟩⟩

section Groups

variable {pipefd : ℕ → ℕ × ℕ} {files : ℕ → Option α} {num_cmd : ℕ} {s s' : State α} {e : Event}
  {c : Child α} {i : ℕ}

/-- Every child has been forked and has called `setpgid`. -/
def AllSet (num_cmd : ℕ) (s : State α) : Prop :=
  s.children.length = num_cmd ∧ ∀ c ∈ s.children, Syscall.setpgid ∉ c.todo

def OneGroup (s : State α) : Prop := ∀ c ∈ s.children, ∀ d ∈ s.children, c.group = d.group

/-- The child has the shell's `pgid` and is in front of its `setpgid`, or it leads a group. -/
def Leads (c : Child α) : Prop :=
  (c.pgid = -1 ∧ ∃ rest, c.todo = .setpgid :: rest ∧ Syscall.setpgid ∉ rest) ∨
    (Syscall.setpgid ∉ c.todo ∧ c.group = c.pid)

/-- `pgid` is never assigned in the shell. -/
structure Grouped (s : State α) : Prop where
  pgid : s.pgid = -1
  pids : (s.children.map Child.pid).Nodup
  leads : ∀ c ∈ s.children, Leads c

theorem childBody_leads (pipefd : ℕ → ℕ × ℕ) (num_cmd i : ℕ) :
    ∃ rest, childBody pipefd num_cmd i = .setpgid :: rest ∧ Syscall.setpgid ∉ rest := by
  refine ⟨(if i > 0 then [.dup2 (pipefd (i - 1)).1 STDIN_FILENO] else []) ++
    (if i < num_cmd - 1 then [.dup2 (pipefd i).2 STDOUT_FILENO] else []) ++
    (pipeFds pipefd num_cmd).map .close, rfl, ?_⟩
  simp only [List.mem_append, not_or]
  refine ⟨⟨?_, ?_⟩, by simp⟩
  · split_ifs <;> simp
  · split_ifs <;> simp

theorem step_leads (h : Leads c) {d : Child α} (hs : c.step = some d) :
    Leads d ∧ d.pid = c.pid := by
  rw [Child.step] at hs
  split at hs
  next => cases hs
  next op todo htodo =>
    cases hs
    rcases h with ⟨hpgid, rest, hrest, hno⟩ | ⟨hno, hgroup⟩
    · rw [htodo, List.cons.injEq] at hrest
      obtain ⟨rfl, rfl⟩ := hrest
      simp only [if_true]
      refine ⟨Or.inr ⟨hno, ?_⟩, rfl⟩
      simp [Child.setpgid, hpgid]
    · rw [htodo, List.mem_cons, not_or] at hno
      have hop : op ≠ .setpgid := fun heq => hno.1 heq.symm
      rw [if_neg hop]
      exact ⟨Or.inr ⟨hno.2, hgroup⟩, rfl⟩

theorem exit_leads (h : Leads c) {d : Child α} (hs : c.exit = some d) :
    Leads d ∧ d.pid = c.pid := by
  rw [Child.exit] at hs
  split_ifs at hs with htodo
  cases hs
  exact ⟨h, rfl⟩

theorem set_grouped (h : Grouped s) (hc : s.children[i]? = some c) {d : Child α}
    (hd : Leads d ∧ d.pid = c.pid) : Grouped { s with children := s.children.set i d } := by
  refine ⟨h.pgid, ?_, fun x hx => ?_⟩
  · have hlt := (List.getElem?_eq_some_iff.mp hc)
    obtain ⟨hi, hget⟩ := hlt
    have hsame : (s.children.set i d).map Child.pid = s.children.map Child.pid := by
      rw [List.map_set, hd.2, ← hget, ← List.getElem_map Child.pid (h := by simpa using hi),
        List.set_getElem_self]
    dsimp only
    rw [hsame]
    exact h.pids
  · rcases List.mem_or_eq_of_mem_set hx with hx | rfl
    · exact h.leads x hx
    · exact hd.1

theorem next_grouped (h : Grouped s) (hn : next pipefd num_cmd s e = some s') : Grouped s' := by
  cases e with
  | shell pid =>
    rw [next, shellStep] at hn
    split at hn
    next =>
      split_ifs at hn
      all_goals
        cases hn
        exact ⟨h.pgid, h.pids, h.leads⟩
    next =>
      split_ifs at hn with _ hpid
      · cases hn
        refine ⟨h.pgid, ?_, fun c hc => ?_⟩
        · simpa [List.nodup_append, h.pids] using hpid
        · rcases List.mem_append.mp hc with hc | hc
          · exact h.leads c hc
          · rw [List.mem_singleton] at hc
            rw [hc]
            exact Or.inl ⟨h.pgid, childBody_leads _ _ _⟩
      · cases hn
        exact ⟨h.pgid, h.pids, h.leads⟩
    next => cases hn
    next =>
      cases hn
      exact ⟨h.pgid, h.pids, h.leads⟩
  | child i =>
    obtain ⟨d, hd, rfl⟩ := Option.map_eq_some_iff.mp hn
    obtain ⟨c, hc, hs⟩ := Option.bind_eq_some_iff.mp hd
    exact set_grouped h hc (step_leads (h.leads c (List.mem_of_getElem? hc)) hs)
  | exit i =>
    obtain ⟨d, hd, rfl⟩ := Option.map_eq_some_iff.mp hn
    obtain ⟨c, hc, hs⟩ := Option.bind_eq_some_iff.mp hd
    exact set_grouped h hc (exit_leads (h.leads c (List.mem_of_getElem? hc)) hs)

theorem run_grouped {group : ℤ} {es : List Event}
    (hr : run (next pipefd num_cmd) (start files group) es = some s) : Grouped s := by
  have hstart : Grouped (start files group) := ⟨rfl, List.nodup_nil, fun c hc => by cases hc⟩
  exact run_invariant (fun s e s' h _ hn => next_grouped h hn) hstart
    (along_of_forall (P := fun _ _ => True) (fun _ _ => trivial) _ _) hr

/-- Children that have called `setpgid` are in groups of their own. -/
theorem Grouped.not_oneGroup (h : Grouped s) (hall : AllSet num_cmd s) (hN : 2 ≤ num_cmd) :
    ¬ OneGroup s := by
  intro hone
  obtain ⟨hlen, hset⟩ := hall
  have h0 : 0 < s.children.length := by omega
  have h1 : 1 < s.children.length := by omega
  have hgroup : ∀ c ∈ s.children, c.group = c.pid := fun c hc => by
    rcases h.leads c hc with ⟨_, rest, htodo, _⟩ | ⟨_, hgroup⟩
    · exact absurd (by rw [htodo]; exact List.mem_cons_self) (hset c hc)
    · exact hgroup
  have hpid : s.children[0].pid = s.children[1].pid := by
    have heq := hone _ (List.getElem_mem h0) _ (List.getElem_mem h1)
    rw [hgroup _ (List.getElem_mem h0), hgroup _ (List.getElem_mem h1)] at heq
    exact_mod_cast heq
  have hne := List.pairwise_iff_getElem.mp h.pids 0 1 (by simpa using h0) (by simpa using h1)
    Nat.zero_lt_one
  simp [hpid] at hne

theorem piping_reached (pipefd : ℕ → ℕ × ℕ) (files : ℕ → Option α) (group : ℤ) (k : ℕ)
    (hk : k ≤ num_cmd - 1) : ∃ es s,
    run (next pipefd num_cmd) (start files group) es = some s ∧ s.phase = .piping k ∧
      s.children = [] := by
  induction k with
  | zero => exact ⟨[], _, rfl, rfl, rfl⟩
  | succ k ih =>
    obtain ⟨es, s, hr, hphase, hnone⟩ := ih (by omega)
    refine ⟨es ++ [.shell 0], { s with table := pipe (pipefd k) k s.table, phase := .piping (k + 1) },
      run_concat hr ?_, rfl, hnone⟩
    rw [next, shellStep, hphase]
    exact if_pos (by omega)

/-- The shell forks and each child calls `setpgid` at once. -/
theorem forks_set (pipefd : ℕ → ℕ × ℕ) (files : ℕ → Option α) (group : ℤ) (k : ℕ)
    (hk : k ≤ num_cmd) : ∃ es s,
    run (next pipefd num_cmd) (start files group) es = some s ∧ s.phase = .forking k ∧
      AllSet k s ∧ ∀ c ∈ s.children, c.pid < k := by
  induction k with
  | zero =>
    obtain ⟨es, s, hr, hphase, hnone⟩ := piping_reached pipefd files group (num_cmd - 1) le_rfl
    refine ⟨es ++ [.shell 0], { s with phase := .forking 0 }, run_concat hr ?_, rfl, ⟨?_, ?_⟩, ?_⟩
    · rw [next, shellStep, hphase]
      exact if_neg (lt_irrefl _)
    · simp [hnone]
    · simp [hnone]
    · simp [hnone]
  | succ k ih =>
    obtain ⟨es, s, hr, hphase, ⟨hlen, hset⟩, hpids⟩ := ih (by omega)
    obtain ⟨rest, hbody, hno⟩ := childBody_leads pipefd num_cmd k
    have hfork : next pipefd num_cmd s (.shell k) = some { s with
        children := s.children ++ [⟨k, s.pgid, s.group, s.table, .setpgid :: rest, false⟩]
        phase := .forking (k + 1) } := by
      rw [next, shellStep, hphase]
      dsimp only
      rw [if_pos (by omega), if_neg, hbody]
      intro hmem
      obtain ⟨c, hc, hpid⟩ := List.mem_map.mp hmem
      exact absurd (hpids c hc) (by omega)
    obtain ⟨c, hc⟩ : ∃ c : Child α, c = ⟨k, s.pgid, s.group, s.table, .setpgid :: rest, false⟩ :=
      ⟨_, rfl⟩
    obtain ⟨d, hd⟩ : ∃ d : Child α, d = { c.setpgid with table := s.table, todo := rest } := ⟨_, rfl⟩
    have hstep : c.step = some d := by
      rw [hd, hc]
      rfl
    rw [← hc] at hfork
    have hset' : next pipefd num_cmd { s with
        children := s.children ++ [c]
        phase := .forking (k + 1) } (.child k) = some { s with
        children := s.children ++ [d]
        phase := .forking (k + 1) } := by
      subst hlen
      simp [next, hstep]
    refine ⟨es ++ [.shell k] ++ [.child k], _, run_concat (run_concat hr hfork) hset', rfl,
      ⟨by simp [hlen], fun x hx => ?_⟩, fun x hx => ?_⟩
    · rcases List.mem_append.mp hx with hx | hx
      · exact hset x hx
      · rw [List.mem_singleton.mp hx, hd]
        exact hno
    · rcases List.mem_append.mp hx with hx | hx
      · exact lt_trans (hpids x hx) (Nat.lt_succ_self k)
      · rw [List.mem_singleton.mp hx, hd, hc]
        exact Nat.lt_succ_self k

/-- Whatever the order of the steps, the children never form one group; and there is an order in
which all of them call `setpgid`. -/
theorem never_one_group (hN : 2 ≤ num_cmd) (files : ℕ → Option α) (group : ℤ) :
    (∃ es s, run (next pipefd num_cmd) (start files group) es = some s ∧ AllSet num_cmd s) ∧
      ∀ es s, run (next pipefd num_cmd) (start files group) es = some s → AllSet num_cmd s →
        ¬ OneGroup s := by
  constructor
  · obtain ⟨es, s, hr, _, hall, _⟩ := forks_set pipefd files group num_cmd le_rfl
    exact ⟨es, s, hr, hall⟩
  · exact fun es s hr hall => (run_grouped hr).not_oneGroup hall hN

end Groups

/-- Two commands, both children in front of their programs. -/
def twoCommands : List Event := List.flatten
  [[.shell 0, .shell 0, .shell 10, .shell 11], List.replicate 4 (.child 0),
    List.replicate 4 (.child 1)]

theorem two_never_one_group : 2 ≤ 2 ∧ ∀ es (s : State Unit),
    run (next (fun k => (3 + 2 * k, 4 + 2 * k)) 2) (start (fun _ => some ()) 1) es = some s →
      AllSet 2 s → ¬ OneGroup s :=
  ⟨le_rfl, (never_one_group le_rfl (fun _ => some ()) 1).2⟩

/-- The children of a pipe with pids 10 and 11 are in groups 10 and 11. -/
theorem two_groups : ∃ s : State Unit,
    run (next (fun k => (3 + 2 * k, 4 + 2 * k)) 2) (start (fun _ => some ()) 1) twoCommands =
      some s ∧ AllSet 2 s ∧ ¬ OneGroup s := by
  have hrun : (run (next (fun k => (3 + 2 * k, 4 + 2 * k)) 2)
      (start (fun _ => some ()) 1) twoCommands).any (fun s => s.children.length = 2 ∧
        (∀ c ∈ s.children, Syscall.setpgid ∉ c.todo) ∧ s.children.map Child.group = [10, 11]) =
      true := by decide +kernel
  obtain ⟨s, hs, hstate⟩ := (Option.any_eq_true _ _).mp hrun
  obtain ⟨hlen, hset, hgroups⟩ := of_decide_eq_true hstate
  refine ⟨s, hs, ⟨hlen, hset⟩, fun hone => ?_⟩
  have h10 : (10 : ℤ) ∈ s.children.map Child.group := by rw [hgroups]; decide
  have h11 : (11 : ℤ) ∈ s.children.map Child.group := by rw [hgroups]; decide
  obtain ⟨c, hc, hc10⟩ := List.mem_map.mp h10
  obtain ⟨d, hd, hd11⟩ := List.mem_map.mp h11
  have heq := hone c hc d hd
  omega

end WshPipes
