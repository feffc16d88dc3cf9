import OsProjects.CStrings
import Mathlib.Data.List.Infix

/-! # The last `cat` and its file

Four globals are written by every `exec` and every `open` of the system, and `getlastcat`
reads its answer off them. `account` is what they should say: which process ran `cat` last,
with which arguments, and whether one of its own opens failed.
-/
namespace LastCat

open ByteMemory CStrings

def slash : UInt8 := 47

/-- The bytes of a string constant. -/
def ascii (s : String) : List UInt8 := s.toList.map fun c => UInt8.ofNat c.toNat

def cat : List UInt8 := [99, 97, 116]

/-- `noArg` and `switch1` are ints that hold 0 or 1. -/
structure Globals where
  buffer : Mem
  catNum : BitVec 32
  noArg : Bool
  switch1 : Bool

def boot : Globals := ⟨fun _ => 0, 0, false, false⟩

/-- The name that `exec` keeps of a path, in an array of 16 bytes. -/
def procName (path : CText) : List UInt8 := safestrcpy 16 (afterLast slash path.bytes)

/-- The test of `exec`. -/
def takenForCat (path : CText) : Bool :=
  strncmp (procName path).length (procName path) cat = 0

/-- What `exec` records once the program is loaded; `args` is `argv` without its first text.
A last argument that does not fit into `buffer[256]` is written over whatever lies behind it,
which has no meaning here. -/
def exec (g : Globals) (path : CText) (args : List CText) : Option Globals :=
  if takenForCat path then
    let g := { g with catNum := g.catNum + 1, switch1 := false }
    match args.getLast? with
    | none => some { g with noArg := true }
    | some arg =>
      if arg.bytes.length < 256 then
        some { g with noArg := false, buffer := storeText g.buffer 0 arg }
      else none
  else some g

inductive FileType where
  | dir | file | dev
  deriving DecidableEq, Repr

/-- The answers that `sys_open` gets: whether its arguments can be fetched, the mode, what
`create` or `namei` finds, and whether a file and a descriptor are left. -/
structure OpenCall where
  args : Bool
  creates : Bool
  readOnly : Bool
  inode : Option FileType
  slot : Bool
  deriving DecidableEq, Repr

/-- The second component is `false` for a return value of -1. -/
def sys_open (g : Globals) (c : OpenCall) : Globals × Bool :=
  if !c.args then ({ g with switch1 := true }, false)
  else if c.creates then
    match c.inode with
    | none => ({ g with switch1 := true }, false)
    | some _ => if c.slot then (g, true) else (g, false)
  else
    match c.inode with
    | none => ({ g with switch1 := true }, false)
    | some t =>
      if t = .dir ∧ !c.readOnly then ({ g with switch1 := true }, false)
      else if c.slot then (g, true) else (g, false)

inductive Message where
  | notCalled
  | noArgs
  | invalid
  | name (text : List UInt8)
  deriving DecidableEq, Repr

def Message.text : Message → List UInt8
  | .notCalled => ascii "Cat has not yet been called"
  | .noArgs => ascii "No args were passed"
  | .invalid => ascii "Invalid filename"
  | .name t => t

def select (g : Globals) : Message :=
  if g.catNum = 0 then .notCalled
  else if g.noArg then .noArgs
  else if g.switch1 then .invalid
  else .name (textAt g.buffer 0 256)

/-- A constant message is cut into `buffer` as well, at its own length. A bad pointer is
refused with -1. -/
def sys_getlastcat (g : Globals) (ptr : Bool) : Globals × Option Message :=
  if !ptr then (g, none)
  else
    let m := select g
    match m with
    | .name _ => (g, some m)
    | _ => ({ g with buffer := storeBytes g.buffer m.text.length [0] }, some m)

/-- `loaded` tells whether the `exec` gets as far as recording the name. -/
inductive Event where
  | exec (pid : ℕ) (path first : CText) (args : List CText) (loaded : Bool)
  | openFile (pid : ℕ) (call : OpenCall)
  | getlastcat (pid : ℕ) (ptr : Bool)
  deriving DecidableEq

def next (g : Globals) : Event → Option Globals
  | .exec _ path _ args loaded => if loaded then exec g path args else some g
  | .openFile _ call => some (sys_open g call).1
  | .getlastcat _ ptr => some (sys_getlastcat g ptr).1

/-- The last `cat`: its process, its arguments, whether one of its opens has failed, and
whether the process still runs it. -/
structure Cat where
  pid : ℕ
  args : List CText
  failed : Bool
  running : Bool
  deriving DecidableEq

/-- An open that returns -1, for whatever reason. -/
def OpenCall.fails (c : OpenCall) : Bool := !(sys_open boot c).2

/-- An open that says so in `switch1`. -/
def OpenCall.noted (c : OpenCall) : Bool := (sys_open boot c).1.switch1

def Cat.execs (pid : ℕ) (c : Cat) : Cat := if c.pid = pid then { c with running := false } else c

def Cat.opens (pid : ℕ) (fails : Bool) (c : Cat) : Cat :=
  if c.pid = pid ∧ c.running = true ∧ fails = true then { c with failed := true } else c

def account (c : Option Cat) : Event → Option Cat
  | .exec pid path _ args loaded =>
    if !loaded then c
    else if afterLast slash path.bytes = cat then some ⟨pid, args, false, true⟩
    else c.map (Cat.execs pid)
  | .openFile pid call => c.map (Cat.opens pid call.fails)
  | .getlastcat .. => c

/-- The message that is due. -/
def due : Option Cat → Message
  | none => .notCalled
  | some c =>
    match c.args.getLast? with
    | none => .noArgs
    | some arg => if c.failed then .invalid else .name arg.bytes

/-- The answer is right after one more event. -/
def Reports (g : Globals) (c : Option Cat) (e : Event) : Prop :=
  ∃ g', next g e = some g' ∧ select g' = due (account c e)

/-- The last argument leaves room for its terminator in `buffer`. -/
def Fits (args : List CText) : Prop := ∀ arg ∈ args.getLast?, arg.bytes.length < 256

/-- An event keeps the answer right. A program that is only taken for `cat` must have been
given what the last real one was given; an open counts against a `cat` that was given names
exactly when it is its own. -/
def Harmless (g : Globals) (c : Option Cat) : Event → Prop
  | .exec _ path _ args loaded => loaded = true → takenForCat path = true →
    g.catNum + 1 ≠ 0 ∧ Fits args ∧
      (afterLast slash path.bytes ≠ cat → ∃ k, c = some k ∧
        (k.args.getLast? ≠ none → k.failed = false) ∧
        (k.args.getLast?).map CText.bytes = (args.getLast?).map CText.bytes)
  | .openFile pid call => ∀ k, c = some k → k.args.getLast? ≠ none → k.failed = false →
    (call.noted = true ↔ k.pid = pid ∧ k.running = true ∧ call.fails = true)
  | .getlastcat .. => True

def Along (P : Globals → Option Cat → Event → Prop) : Globals → Option Cat → List Event → Prop
  | _, _, [] => True
  | g, c, e :: es => P g c e ∧ ∀ g', next g e = some g' → Along P g' (account c e) es

section Calls

variable {g g' : Globals} {c : Option Cat} {k : Cat} {path : CText} {args : List CText} {pid : ℕ}
  {call : OpenCall}

theorem sys_open_globals (g : Globals) (call : OpenCall) :
    (sys_open g call).1 = { g with switch1 := g.switch1 || call.noted } := by
  obtain ⟨args, creates, readOnly, inode, slot⟩ := call
  unfold OpenCall.noted sys_open
  cases args
  · simp
  · cases creates <;> cases inode <;> cases slot <;> simp [boot] <;> split_ifs <;> simp

/-- A program that is really called `cat` is recognised. -/
theorem takenForCat_of_eq (h : afterLast slash path.bytes = cat) : takenForCat path = true := by
  rw [takenForCat, procName, h]
  decide

/-- What `exec` takes for `cat` is every prefix of it. -/
theorem takenForCat_iff : takenForCat path = true ↔ procName path <+: cat := by
  have hnz : 0 ∉ procName path :=
    nonzero_safestrcpy (nonzero_lastPart path.nonzero path.nonzero)
  rw [takenForCat, decide_eq_true_eq, strncmp_length_eq_zero hnz]

/-- The programs that are only taken for `cat`. -/
theorem mistaken_iff : (takenForCat path = true ∧ afterLast slash path.bytes ≠ cat) ↔
    afterLast slash path.bytes ∈ [[], [99], [99, 97]] := by
  rw [takenForCat_iff, procName]
  constructor
  · rintro ⟨hstart, hne⟩
    have hlen := hstart.length_le
    have hwhole : safestrcpy 16 (afterLast slash path.bytes) = afterLast slash path.bytes := by
      rw [safestrcpy, List.length_take] at hlen
      have hcat : cat.length = 3 := rfl
      exact List.take_of_length_le (by omega)
    rw [hwhole, ← List.mem_inits] at hstart
    have hcases : afterLast slash path.bytes ∈ [[], [99], [99, 97], cat] := hstart
    simpa [hne] using hcases
  · intro hmem
    simp only [List.mem_cons, List.not_mem_nil, or_false] at hmem
    rcases hmem with h | h | h <;> rw [h] <;> decide

/-- The message that is due for a `cat` whose opens did not fail. -/
def recorded (args : List CText) : Message :=
  match args.getLast? with
  | none => .noArgs
  | some arg => .name arg.bytes

theorem recorded_ne_notCalled (args : List CText) : recorded args ≠ .notCalled := by
  unfold recorded
  split <;> simp

theorem due_some (k : Cat) : due (some k) =
    if k.args.getLast? ≠ none ∧ k.failed = true then .invalid else recorded k.args := by
  simp only [due, recorded]
  cases k.args.getLast? with
  | none => simp
  | some arg => cases k.failed <;> simp

theorem due_ne_notCalled (k : Cat) : due (some k) ≠ .notCalled := by
  rw [due_some]
  split_ifs
  · simp
  · exact recorded_ne_notCalled k.args

theorem recorded_eq_iff {args' : List CText} : recorded args = recorded args' ↔
    (args'.getLast?).map CText.bytes = (args.getLast?).map CText.bytes := by
  unfold recorded
  cases args.getLast? <;> cases args'.getLast? <;> simp [eq_comm]

theorem recorded_ne_invalid (args : List CText) : recorded args ≠ .invalid := by
  unfold recorded
  split <;> simp

theorem due_map_execs : due (c.map (Cat.execs pid)) = due c := by
  cases c with
  | none => rfl
  | some k =>
    rw [Option.map_some, Cat.execs]
    split_ifs <;> rfl

theorem select_notCalled : select g = .notCalled ↔ g.catNum = 0 := by
  unfold select
  split_ifs <;> simp_all

/-- A program taken for `cat` overwrites all four globals. -/
theorem exec_taken (h : takenForCat path = true) (hfit : Fits args) :
    ∃ g', exec g path args = some g' ∧
      select g' = if g.catNum + 1 = 0 then .notCalled else recorded args := by
  unfold exec recorded
  rw [if_pos h]
  cases hlast : args.getLast? with
  | none =>
    refine ⟨_, rfl, ?_⟩
    simp [select]
  | some arg =>
    have hlen := hfit arg (by rw [hlast]; rfl)
    refine ⟨_, if_pos hlen, ?_⟩
    simp [select, textAt_storeText hlen]

theorem exec_overflow (h : takenForCat path = true) (hfit : ¬ Fits args) :
    exec g path args = none := by
  unfold exec
  rw [if_pos h]
  cases hlast : args.getLast? with
  | none =>
    refine absurd (fun arg harg => ?_) hfit
    rw [hlast] at harg
    cases harg
  | some arg =>
    refine if_neg fun hlen => hfit fun arg' harg' => ?_
    rw [hlast] at harg'
    cases harg'
    exact hlen

theorem exec_reports_iff (h : takenForCat path = true) {m : Message} :
    (∃ g', exec g path args = some g' ∧ select g' = m) ↔
      Fits args ∧ (if g.catNum + 1 = 0 then .notCalled else recorded args) = m := by
  by_cases hfit : Fits args
  · obtain ⟨g', hg', hsel⟩ := exec_taken (g := g) h hfit
    rw [hg', ← hsel]
    simp [hfit]
  · rw [exec_overflow h hfit]
    simp [hfit]

/-- Only what `cat` was given decides between the messages of two runs of it. -/
theorem recorded_eq_due (k : Cat) : recorded args = due (some k) ↔
    (k.args.getLast? ≠ none → k.failed = false) ∧
      (k.args.getLast?).map CText.bytes = (args.getLast?).map CText.bytes := by
  rw [due_some]
  split_ifs with h
  · simp [recorded_ne_invalid, h]
  · rw [recorded_eq_iff, iff_and_self]
    intro _ hne
    rw [← Bool.not_eq_true]
    exact fun hfailed => h ⟨hne, hfailed⟩

theorem exec_step (h : select g = due c) (hload : takenForCat path = true) (pid : ℕ)
    (first : CText) :
    Reports g c (.exec pid path first args true) ↔ Harmless g c (.exec pid path first args true) := by
  unfold Reports Harmless
  simp only [next, account, if_true, Bool.not_true, Bool.false_eq_true, if_false,
    true_implies, hload]
  rw [exec_reports_iff hload]
  by_cases hcat : afterLast slash path.bytes = cat
  · rw [if_pos hcat]
    have hdue : due (some ⟨pid, args, false, true⟩) = recorded args := by simp [due_some]
    rw [hdue]
    by_cases hwrap : g.catNum + 1 = 0
    · rw [if_pos hwrap]
      exact iff_of_false (fun hr => recorded_ne_notCalled args hr.2.symm) fun hh => hh.1 hwrap
    · rw [if_neg hwrap]
      exact ⟨fun hr => ⟨hwrap, hr.1, fun hne => absurd hcat hne⟩, fun hh => ⟨hh.2.1, rfl⟩⟩
  · rw [if_neg hcat, due_map_execs]
    cases c with
    | none =>
      have hone : g.catNum + 1 ≠ 0 := by
        rw [select_notCalled.mp h]
        decide
      rw [if_neg hone]
      refine iff_of_false (fun hr => recorded_ne_notCalled args hr.2) fun hh => ?_
      obtain ⟨k, hk, -⟩ := hh.2.2 hcat
      cases hk
    | some k =>
      by_cases hwrap : g.catNum + 1 = 0
      · rw [if_pos hwrap]
        exact iff_of_false (fun hr => due_ne_notCalled k hr.2.symm) fun hh => hh.1 hwrap
      · rw [if_neg hwrap, recorded_eq_due]
        constructor
        · exact fun hr => ⟨hwrap, hr.1, fun _ => ⟨k, rfl, hr.2⟩⟩
        · rintro ⟨-, hfit, hsame⟩
          obtain ⟨k', hk', hsame⟩ := hsame hcat
          cases hk'
          exact ⟨hfit, hsame⟩

theorem open_step (h : select g = due c) :
    Reports g c (.openFile pid call) ↔ Harmless g c (.openFile pid call) := by
  unfold Reports Harmless
  simp only [next, account, Option.some.injEq, exists_eq_left', sys_open_globals]
  cases c with
  | none =>
    have hzero : select { g with switch1 := g.switch1 || call.noted } = .notCalled :=
      select_notCalled.mpr (select_notCalled (g := g).mp h)
    exact iff_of_true hzero fun k hk => nomatch hk
  | some k =>
    have hcalled : g.catNum ≠ 0 := fun hzero =>
      due_ne_notCalled k (h.symm.trans (select_notCalled.mpr hzero))
    have hselect : ∀ sw, select { g with switch1 := sw } =
        if g.noArg = true then .noArgs else if sw = true then .invalid
        else .name (textAt g.buffer 0 256) := fun sw => if_neg hcalled
    have hdue : due (some (k.opens pid call.fails)) =
        if k.args.getLast? ≠ none ∧ (k.failed = true ∨ k.pid = pid ∧ k.running = true ∧
          call.fails = true) then .invalid else recorded k.args := by
      rw [due_some, Cat.opens]
      by_cases hown : k.pid = pid ∧ k.running = true ∧ call.fails = true <;> simp [hown]
    have hbefore := (hselect g.switch1).symm.trans h
    simp only [Option.map_some, Option.some.injEq, forall_eq']
    rw [hselect, hdue]
    rw [due_some] at hbefore
    unfold recorded at hbefore ⊢
    -- the message before the open tells what `noArg` and `switch1` were
    cases hlast : k.args.getLast? with
    | none =>
      simp only [hlast] at hbefore
      cases hno : g.noArg with
      | true => simp
      | false => cases hsw : g.switch1 <;> simp [hno, hsw] at hbefore
    | some arg =>
      simp only [hlast] at hbefore
      cases hno : g.noArg with
      | true => cases hf : k.failed <;> simp [hno, hf] at hbefore
      | false =>
        cases hf : k.failed <;> cases hsw : g.switch1 <;> simp [hno, hf, hsw] at hbefore
        · simp only [hbefore]
          cases hnoted : call.noted <;> simp
        · simp

/-- The zero that it writes to `buffer` does not change what it answers. -/
theorem select_sys_getlastcat (g : Globals) (ptr : Bool) : select (sys_getlastcat g ptr).1 = select g := by
  cases ptr with
  | false => rfl
  | true =>
    simp only [sys_getlastcat, Bool.not_true, Bool.false_eq_true, if_false]
    split
    next => rfl
    next m hname =>
      -- a message that is no name does not depend on `buffer`
      revert hname
      unfold select
      dsimp only
      split_ifs <;> simp

theorem getlastcat_step (h : select g = due c) (ptr : Bool) :
    Reports g c (.getlastcat pid ptr) :=
  ⟨_, rfl, (select_sys_getlastcat g ptr).trans h⟩

/-- The answer stays right over one event if and only if the event is harmless. -/
theorem step_reports_iff (h : select g = due c) (e : Event) :
    Reports g c e ↔ Harmless g c e := by
  cases e with
  | exec pid path first args loaded =>
    cases loaded with
    | false =>
      refine iff_of_true ⟨g, rfl, ?_⟩ fun hl => nomatch hl
      simpa [account] using h
    | true =>
      by_cases htaken : takenForCat path = true
      · exact exec_step h htaken pid first
      · refine iff_of_true ⟨g, ?_, ?_⟩ fun _ ht => absurd ht htaken
        · simp [next, exec, htaken]
        · have hother : afterLast slash path.bytes ≠ cat := mt takenForCat_of_eq htaken
          simpa [account, hother, due_map_execs] using h
  | openFile pid call => exact open_step h
  | getlastcat pid ptr => exact iff_of_true (getlastcat_step h ptr) trivial

theorem run_reports_iff (h : select g = due c) (es : List Event) :
    Along Reports g c es ↔ Along Harmless g c es := by
  induction es generalizing g c with
  | nil => exact Iff.rfl
  | cons e es ih =>
    have hstep := step_reports_iff h e
    constructor
    · rintro ⟨hr, hrest⟩
      obtain ⟨g', hg', hsel⟩ := hr
      refine ⟨hstep.mp ⟨g', hg', hsel⟩, fun g₁ hg₁ => ?_⟩
      obtain rfl := Option.some.inj (hg'.symm.trans hg₁)
      exact (ih hsel).mp (hrest g' hg')
    · rintro ⟨hh, hrest⟩
      obtain ⟨g', hg', hsel⟩ := hstep.mpr hh
      refine ⟨⟨g', hg', hsel⟩, fun g₁ hg₁ => ?_⟩
      obtain rfl := Option.some.inj (hg'.symm.trans hg₁)
      exact (ih hsel).mpr (hrest g' hg')

end Calls

/-- From boot, `getlastcat` reports the last `cat` after every event of a run if and only if
every event of it is harmless. -/
theorem getlastcat_right_iff (es : List Event) :
    Along Reports boot none es ↔ Along Harmless boot none es :=
  run_reports_iff rfl es

def catText : CText := ⟨cat, by decide⟩

/-- Process 3 runs `cat a` and process 4 then fails to open a file. -/
def strayOpen : List Event :=
  [.exec 3 catText catText [⟨[97], by decide⟩] true,
    .openFile 3 ⟨true, false, true, some .file, true⟩, .openFile 4 ⟨true, false, true, none, true⟩]

/-- `getlastcat` then answers `Invalid filename`, although every open of `cat` succeeded. -/
theorem stray_open_reported : ¬ Along Reports boot none strayOpen := by
  rintro ⟨-, h⟩
  obtain ⟨-, h⟩ := h _ rfl
  obtain ⟨⟨g, hg, hsel⟩, -⟩ := h _ rfl
  cases hg
  revert hsel
  decide

end LastCat
