import Mathlib.Data.Fin.Basic
import Mathlib.Data.List.FinRange
import Mathlib.Logic.Function.Basic

/-! # The process table and scheduler of the MLFQ kernel

One CPU. A step is a section that runs with interrupts off: an interrupt, one critical
section of a system call, or a piece of `scheduler` itself. Code that touches neither the
table nor the clock is not represented. A panic ends the run.
-/
namespace SchedKernel

/-- An index into `ptable.proc`. -/
abbrev Slot := Fin 64

inductive ProcState where
  | UNUSED | EMBRYO | SLEEPING | RUNNABLE | RUNNING | ZOMBIE
  deriving DecidableEq, Repr

inductive Chan where
  | ticks
  | proc (p : Slot)
  | object (a : ℕ)
  deriving DecidableEq, Repr

/-- Where a process stands on its kernel stack. `armed` and `counting` are the two halves
of `sys_sleep`; `blocked` is a sleep called from anywhere else. -/
inductive Point where
  | free
  | blocked
  | waiting
  | forking (np : Slot)
  | armed (n : BitVec 32)
  | counting (n : BitVec 32) (ticks0 : ℕ)
  deriving DecidableEq, Repr

structure Proc where
  state : ProcState
  pid : ℤ
  parent : Option Slot
  chan : Option Chan
  killed : Bool
  ticks : ℤ
  priority : ℤ
  nice : ℤ
  sleep_ticks : ℤ
  total_cpu : ℤ
  point : Point
  deriving DecidableEq, Repr

def Proc.zero : Proc := ⟨.UNUSED, 0, none, none, false, 0, 0, 0, 0, 0, .free⟩

/-- Where the CPU is: in the open part of the scheduler loop, between two switches with
the rest of the collected processes, or inside a process. -/
inductive Cpu where
  | idle
  | dispatching (batch : List Slot)
  | running (cur : Slot) (rest : List Slot)
  deriving DecidableEq, Repr

structure Kernel where
  proc : Slot → Proc
  nextpid : ℤ
  initproc : Slot
  ticks : ℕ
  pre_tick : ℕ
  cpu : Cpu

abbrev Table := Slot → Proc

/-- The channel is not looked at. -/
def wakeup1 (_chan : Chan) (t : Table) : Table := fun i =>
  if (t i).state = .SLEEPING ∧ (t i).sleep_ticks = 0 then { t i with state := .RUNNABLE }
  else if (t i).state = .SLEEPING ∧ (t i).sleep_ticks > 0 then
    { t i with sleep_ticks := (t i).sleep_ticks - 1 }
  else t i

def decay (p : Proc) : Proc :=
  { p with ticks := p.ticks.tdiv 2, priority := (p.ticks.tdiv 2).tdiv 2 + p.nice }

def INT_MAX : ℤ := 2147483647

structure Best where
  highest_priority : ℤ
  proc_ : List Slot
  deriving DecidableEq, Repr

def consider (t : Table) (b : Best) (i : Slot) : Best :=
  if (t i).state = .RUNNABLE ∧ (t i).priority < b.highest_priority then ⟨(t i).priority, [i]⟩
  else if (t i).state = .RUNNABLE ∧ (t i).priority = b.highest_priority then
    { b with proc_ := b.proc_ ++ [i] }
  else b

def collect (t : Table) : Best := (List.finRange 64).foldl (consider t) ⟨INT_MAX, []⟩

def recalculate (k : Kernel) : Kernel :=
  if k.ticks % 100 = 0 ∧ k.pre_tick ≠ k.ticks then
    { k with pre_tick := k.ticks, proc := fun i => decay (k.proc i) }
  else k

def pick (k : Kernel) : Kernel :=
  match (collect k.proc).proc_ with
  | [] => k
  | batch => { k with cpu := .dispatching batch }

/-- One pass of the outer loop up to the dispatch loop. -/
def scan (k : Kernel) : Kernel := pick (recalculate k)

/-- What a process does first when it gets the CPU back inside `sleep`. -/
def resume (p : Proc) : Proc :=
  match p.point with
  | .blocked => { p with chan := none, point := .free }
  | .waiting => { p with chan := none }
  | .counting .. => { p with chan := none }
  | _ => p

/-- An int after an addition that may overflow. -/
def int32 (z : ℤ) : ℤ := z.bmod 4294967296

def dispatched (p : Proc) : Proc :=
  resume { p with
    state := .RUNNING
    ticks := int32 (p.ticks + 1)
    total_cpu := int32 (p.total_cpu + 1) }

def Kernel.set (k : Kernel) (i : Slot) (p : Proc) : Kernel :=
  { k with proc := Function.update k.proc i p }

def wakeup (k : Kernel) (chan : Chan) : Kernel := { k with proc := wakeup1 chan k.proc }

/-- `ticks++; wakeup(&ticks)` of the timer interrupt. -/
def tick (k : Kernel) : Kernel := wakeup { k with ticks := (k.ticks + 1) % 4294967296 } .ticks

/-- Back to the scheduler with `cur` in its new state. -/
def sched (k : Kernel) (cur : Slot) (rest : List Slot) (p : Proc) : Kernel :=
  { k.set cur p with cpu := .dispatching rest }

def yield (k : Kernel) (cur : Slot) (rest : List Slot) : Kernel :=
  sched k cur rest { k.proc cur with state := .RUNNABLE }

def sleep (k : Kernel) (cur : Slot) (rest : List Slot) (chan : Chan) (point : Point) : Kernel :=
  sched k cur rest { k.proc cur with chan := some chan, state := .SLEEPING, point := point }

/-- The loop of `sys_sleep` from its test on. -/
def sys_sleep_loop (k : Kernel) (cur : Slot) (rest : List Slot) (n : BitVec 32)
    (ticks0 : ℕ) : Kernel :=
  if (k.ticks + 4294967296 - ticks0) % 4294967296 < n.toNat ∧ (k.proc cur).killed = false then
    sleep k cur rest .ticks (.counting n ticks0)
  else k.set cur { k.proc cur with point := .free }

/-- `ticks0` is read in the same critical section as the first test. -/
def sys_sleep_enter (k : Kernel) (cur : Slot) (rest : List Slot) : Kernel :=
  match (k.proc cur).point with
  | .armed n => sys_sleep_loop k cur rest n k.ticks
  | _ => k

def sys_sleep_check (k : Kernel) (cur : Slot) (rest : List Slot) : Kernel :=
  match (k.proc cur).point with
  | .counting n ticks0 => sys_sleep_loop k cur rest n ticks0
  | _ => k

def allocproc (k : Kernel) : Kernel × Option Slot :=
  match (List.finRange 64).find? fun i => (k.proc i).state = .UNUSED with
  | none => (k, none)
  | some np =>
    ({ k.set np { k.proc np with state := .EMBRYO, pid := k.nextpid } with
        nextpid := k.nextpid + 1 }, some np)

/-- `fork` up to the point where the slot is taken. -/
def forkAlloc (k : Kernel) (cur : Slot) : Kernel :=
  match allocproc k with
  | (k, none) => k
  | (k, some np) => k.set cur { k.proc cur with point := .forking np }

/-- No kernel stack or no memory for the copy. -/
def forkFail (k : Kernel) (cur : Slot) : Kernel :=
  match (k.proc cur).point with
  | .forking np =>
    let k := k.set np { k.proc np with state := .UNUSED }
    k.set cur { k.proc cur with point := .free }
  | _ => k

def forkDone (k : Kernel) (cur : Slot) : Kernel :=
  match (k.proc cur).point with
  | .forking np =>
    let k := k.set np { k.proc np with parent := some cur, state := .RUNNABLE, point := .free }
    k.set cur { k.proc cur with point := .free }
  | _ => k

def isZombieChild (t : Table) (cur i : Slot) : Bool :=
  (t i).parent = some cur ∧ (t i).state = .ZOMBIE

/-- One round of the loop of `exit` that hands children to init. -/
def reparent (cur initproc : Slot) (t : Table) (i : Slot) : Table :=
  if (t i).parent = some cur then
    let t := Function.update t i { t i with parent := some initproc }
    if (t i).state = .ZOMBIE then wakeup1 (.proc initproc) t else t
  else t

def exit (k : Kernel) (cur : Slot) (rest : List Slot) : Kernel :=
  let t := wakeup1 (.proc ((k.proc cur).parent.getD k.initproc)) k.proc
  let t := (List.finRange 64).foldl (reparent cur k.initproc) t
  sched { k with proc := t } cur rest { t cur with state := .ZOMBIE }

def reaped (p : Proc) : Proc :=
  { p with pid := 0, parent := none, killed := false, state := .UNUSED }

def wait (k : Kernel) (cur : Slot) (rest : List Slot) : Kernel :=
  match (List.finRange 64).find? (isZombieChild k.proc cur) with
  | some i =>
    let k := k.set i (reaped (k.proc i))
    k.set cur { k.proc cur with point := .free }
  | none =>
    if (∀ i, (k.proc i).parent ≠ some cur) ∨ (k.proc cur).killed = true then
      k.set cur { k.proc cur with point := .free }
    else sleep k cur rest (.proc cur) .waiting

def kill (k : Kernel) (pid : ℤ) : Kernel :=
  match (List.finRange 64).find? fun i => (k.proc i).pid = pid with
  | none => k
  | some i =>
    k.set i { k.proc i with
      killed := true
      state := if (k.proc i).state = .SLEEPING then .RUNNABLE else (k.proc i).state }

def nice (k : Kernel) (cur : Slot) (n : ℤ) : Kernel :=
  if n < 0 ∨ n > 20 then k else k.set cur { k.proc cur with nice := n }

inductive Event where
  | scan
  | switch
  | release
  | timer
  | timerKilled
  | wakeup (chan : Chan)
  | fault
  | sleep (chan : Chan)
  | sys_sleep (n : BitVec 32)
  | sys_sleep_enter
  | sys_sleep_check
  | nice (n : ℤ)
  | kill (pid : ℤ)
  | forkAlloc
  | forkFail
  | forkDone
  | wait
  | exit
  deriving DecidableEq, Repr

/-- Which events the process on the CPU can be at. Inside `wait` the table lock is held
from the moment it is switched to, so no interrupt gets in. -/
def CanAct (p : Proc) (isInit : Bool) : Event → Bool
  | .timer => p.point ≠ .waiting
  | .timerKilled => p.point = .free ∧ p.killed
  | .wakeup _ => p.point ≠ .waiting
  | .sys_sleep_enter => (p.point matches .armed _)
  | .sys_sleep_check => (p.point matches .counting _ _)
  | .forkFail => (p.point matches .forking _)
  | .forkDone => (p.point matches .forking _)
  | .wait => p.point = .free ∨ p.point = .waiting
  | .exit => p.point = .free ∧ isInit = false
  | .fault | .sleep _ | .sys_sleep _ | .nice _ | .kill _ | .forkAlloc => p.point = .free
  | .scan | .switch | .release => false

/-- The timer takes the CPU away, except from a killed process on its way into `exit`. -/
def act (k : Kernel) (cur : Slot) (rest : List Slot) : Event → Kernel
  | .timer => yield (tick k) cur rest
  | .timerKilled => tick k
  | .wakeup chan => wakeup k chan
  | .fault => k.set cur { k.proc cur with killed := true }
  | .sleep chan => sleep k cur rest chan .blocked
  | .sys_sleep n => k.set cur { k.proc cur with sleep_ticks := n.toInt, point := .armed n }
  | .sys_sleep_enter => sys_sleep_enter k cur rest
  | .sys_sleep_check => sys_sleep_check k cur rest
  | .nice n => nice k cur n
  | .kill pid => kill k pid
  | .forkAlloc => forkAlloc k cur
  | .forkFail => forkFail k cur
  | .forkDone => forkDone k cur
  | .wait => wait k cur rest
  | .exit => exit k cur rest
  | .scan | .switch | .release => k

def next (k : Kernel) (e : Event) : Option Kernel :=
  match k.cpu with
  | .idle => match e with
    | .scan => some (scan k)
    | .timer => some (tick k)
    | .wakeup chan => some (wakeup k chan)
    | _ => none
  | .dispatching [] => match e with
    | .release => some { k with cpu := .idle }
    | _ => none
  | .dispatching (p :: rest) => match e with
    | .switch => some { k.set p (dispatched (k.proc p)) with cpu := .running p rest }
    | _ => none
  | .running cur rest =>
    if CanAct (k.proc cur) (cur = k.initproc) e then some (act k cur rest e) else none

def run (k : Kernel) : List Event → Option Kernel
  | [] => some k
  | e :: es => (next k e).bind fun k => run k es

/-- After `userinit`, when the scheduler is entered for the first time. -/
def boot : Kernel :=
  { proc := fun i => if i = 0 then { Proc.zero with state := .RUNNABLE, pid := 1 } else Proc.zero
    nextpid := 2
    initproc := 0
    ticks := 0
    pre_tick := 0
    cpu := .idle }

end SchedKernel
