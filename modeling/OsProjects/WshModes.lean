import Mathlib.Data.List.Infix
import Mathlib.Data.List.TakeWhile

/-! # Batch and interactive mode of the shell

The two loops of `wsh.c` over one text, as far as they decide what is executed: reading,
`parse_input`, the built-ins, the launches of `execute_command` and those of `execute_pipe`.
Job numbers and waiting decide none of these and are left out. A child of `execute_command`
whose `execvp` fails does not exit: it goes back into the loop that its parent is in.
-/
namespace WshModes

abbrev Bytes := List UInt8

def ascii (s : String) : Bytes := s.toList.map fun c => UInt8.ofNat c.toNat

def MAX_INPUT_SIZE : ℕ := 1024
def MAX_ARGS : ℕ := 256
def newline : UInt8 := 10
def space : UInt8 := 32
def ampersand : Bytes := ascii "&"
def bar : Bytes := ascii "|"

/-- At most `n` bytes, up to and with the first newline, and the rest of the input. -/
def readLine : ℕ → Bytes → Bytes × Bytes
  | 0, s => ([], s)
  | _ + 1, [] => ([], [])
  | n + 1, c :: s =>
    if c = newline then ([c], s) else (c :: (readLine n s).1, (readLine n s).2)

def fgets (size : ℕ) (s : Bytes) : Option (Bytes × Bytes) :=
  if s = [] then none else some (readLine (size - 1) s)

def getline (s : Bytes) : Option (Bytes × Bytes) :=
  if s = [] then none else some (readLine s.length s)

/-- The text in `input` after `input[strcspn(input, "\n")] = '\0'`. -/
def cut (input : Bytes) : Bytes := input.takeWhile fun c => c ≠ newline ∧ c ≠ 0

def strtok (s : Bytes) : Option (Bytes × Bytes) :=
  match s.dropWhile (· = space) with
  | [] => none
  | c :: t => some ((c :: t).takeWhile (· ≠ space), ((c :: t).dropWhile (· ≠ space)).tail)

/-- The loop over `strtok`; a token takes a byte at least. -/
def parseLoop : ℕ → Bytes → List Bytes
  | 0, _ => []
  | n + 1, s =>
    match strtok s with
    | none => []
    | some (token, rest) => token :: parseLoop n rest

/-- `args` and `is_background`, which is 0 for a line that ends in an ampersand. -/
def parse_input (input : Bytes) : List Bytes × ℕ :=
  let args := parseLoop input.length input
  (args, if args.getLast? = some ampersand then 0 else 1)

/-- A launch that is not part of a pipe has a job, and `waits` unless it is in the
background. An action of a child that went back into the loop is a `stray` one. -/
inductive Action where
  | builtin (args : List Bytes)
  | launch (path : Bytes) (argv : List Bytes) (stdin stdout : Option ℕ) (job : Option ℕ)
      (waits : Bool)
  | stray (a : Action)
  deriving DecidableEq, Repr

/-- The surroundings may depend on what was done so far: the files that pass `access` with
`X_OK`, the files that `execvp` can start, and what a child that goes on and its parent still
find of a script, whose file offset they share. Processes and pipes can be created. -/
structure World where
  accessible : List Action → Bytes → Bool
  executable : List Action → Bytes → Bool
  shared : List Action → Bytes → Bytes × Bytes
  shared_length : ∀ h s, (shared h s).1.length ≤ s.length ∧ (shared h s).2.length ≤ s.length

/-- Parent and child both find all that is left, as with a script that fits into the buffer of
its stream. -/
def Copying (f : List Action → Bytes → Bytes × Bytes) (s : Bytes) : Prop :=
  ∀ h t, t <:+ s → f h t = (t, t)

def PATH : List Bytes := [ascii "/bin", ascii "/usr/bin"]

/-- `snprintf` cuts the path to its buffer. -/
def find_executable (w : World) (h : List Action) (cmd : Bytes) : Option Bytes :=
  (PATH.map fun dir => (dir ++ ascii "/" ++ cmd).take (MAX_INPUT_SIZE - 1)).find? (w.accessible h)

def excludeAmpersand (args : List Bytes) : List Bytes := args.filter (· ≠ ampersand)

/-- What a line leads to: the next one, the end of the shell, or the next one in the shell and
in a child whose `execvp` failed. -/
inductive After where
  | goesOn
  | exits
  | strays
  deriving DecidableEq, Repr

def execute_command (w : World) (h : List Action) (args : List Bytes) (is_background : ℕ) :
    List Action × After :=
  let arg := args.headD []
  if arg = ascii "exit" then ([.builtin args], .exits)
  else if arg = ascii "cd" then ([.builtin args], .goesOn)
  else if arg = ascii "jobs" then ([.builtin args], .goesOn)
  else if arg = ascii "fg" ∧ (args.length = 1 ∨ args.length = 2) then ([.builtin args], .goesOn)
  else if arg = ascii "bg" ∧ (args.length = 1 ∨ args.length = 2) then ([.builtin args], .goesOn)
  else
    match find_executable w h arg with
    | none => ([], .goesOn)
    | some executable_path =>
      if w.executable h executable_path = false then ([], .strays)
      else if args.getLast? = some ampersand then
        ([.launch executable_path (excludeAmpersand args) none none (some is_background) false],
          .goesOn)
      else ([.launch executable_path args none none (some is_background) true], .goesOn)

/-- A missing command name is printed as `(null)`. -/
def binPath (cmd : List Bytes) : Bytes := ascii "/bin/" ++ cmd.headD (ascii "(null)")

/-- The children from number `i` on. One whose `execvp` fails exits. -/
def pipeFrom (w : World) (num_cmd : ℕ) : ℕ → List Action → List (List Bytes) → List Action
  | _, _, [] => []
  | i, h, cmd :: cmds =>
    let started :=
      if w.executable h (binPath cmd) then
        [.launch (binPath cmd) cmd (if i > 0 then some (i - 1) else none)
          (if i < num_cmd - 1 then some i else none) none true]
      else []
    started ++ pipeFrom w num_cmd (i + 1) (h ++ started) cmds

def execute_pipe (w : World) (h : List Action) (args : List Bytes) (num_cmd : ℕ) : List Action :=
  pipeFrom w num_cmd 0 h (args.splitOn bar)

def batchLine (w : World) (h : List Action) (line : List Bytes × ℕ) : List Action × After :=
  if line.1.length > 0 then execute_command w h line.1 line.2 else ([], .goesOn)

def interactiveLine (w : World) (h : List Action) (line : List Bytes × ℕ) : List Action × After :=
  let num_cmds := 1 + line.1.count bar
  if num_cmds = 1 then
    if line.1.length > 0 then execute_command w h line.1 line.2 else ([], .goesOn)
  else (execute_pipe w h line.1 num_cmds, .goesOn)

/-- Reading, parsing and executing until the end of the input or `exit`. Every round reads a
byte at least. A child that goes on finds its part of what is left of a script, and its actions
stand in front of those of its parent, which waits for it or runs beside it. Without `shared`
it is in the background of a terminal, which stops it when it comes to read. -/
def loop (shared : Option (List Action → Bytes → Bytes × Bytes))
    (read : Bytes → Option (Bytes × Bytes))
    (line : List Action → List Bytes × ℕ → List Action × After) :
    ℕ → List Action → Bytes → List Action
  | 0, _, _ => []
  | n + 1, h, s =>
    match read s with
    | none => []
    | some (input, rest) =>
      match line h (parse_input (cut input)) with
      | (acts, .exits) => acts
      | (acts, .goesOn) => acts ++ loop shared read line n (h ++ acts) rest
      | (acts, .strays) =>
        match shared with
        | none => acts ++ loop shared read line n (h ++ acts) rest
        | some f =>
          let mine := (loop shared read line n (h ++ acts) (f h rest).1).map .stray
          acts ++ mine ++ loop shared read line n (h ++ acts ++ mine) (f h rest).2

def batch_mode (w : World) (s : Bytes) : List Action :=
  loop (some w.shared) (fgets MAX_INPUT_SIZE) (batchLine w) s.length [] s

/-- Every line is typed at a prompt. -/
def interactive_mode (w : World) (s : Bytes) : List Action :=
  loop none getline (interactiveLine w) s.length [] s

section Reading

variable {n m : ℕ} {s : Bytes} {r : Bytes × Bytes}

theorem readLine_suffix (n : ℕ) (s : Bytes) : (readLine n s).2 <:+ s := by
  induction s generalizing n with
  | nil => cases n <;> exact List.suffix_rfl
  | cons c s ih =>
    cases n with
    | zero => exact List.suffix_rfl
    | succ n =>
      rw [readLine]
      split_ifs
      · exact List.suffix_cons c s
      · exact (ih n).trans (List.suffix_cons c s)

theorem readLine_shorter (hn : 0 < n) (hs : s ≠ []) : (readLine n s).2.length < s.length := by
  obtain ⟨n, rfl⟩ := Nat.exists_eq_succ_of_ne_zero hn.ne'
  cases s with
  | nil => exact absurd rfl hs
  | cons c s =>
    rw [readLine, List.length_cons, Nat.lt_succ_iff]
    split_ifs
    · exact le_rfl
    · exact (readLine_suffix n s).length_le

/-- A limit that the next line does not reach makes no difference. -/
theorem readLine_eq (hn : (s.takeWhile (· ≠ newline)).length < n ∨ s.length ≤ n)
    (hm : (s.takeWhile (· ≠ newline)).length < m ∨ s.length ≤ m) :
    readLine n s = readLine m s := by
  induction s generalizing n m with
  | nil => cases n <;> cases m <;> rfl
  | cons c s ih =>
    obtain ⟨n, rfl⟩ := Nat.exists_eq_succ_of_ne_zero (n := n) (by simp at hn; omega)
    obtain ⟨m, rfl⟩ := Nat.exists_eq_succ_of_ne_zero (n := m) (by simp at hm; omega)
    rw [readLine, readLine]
    split_ifs with hc
    · rfl
    · have htake : (c :: s).takeWhile (· ≠ newline) = c :: s.takeWhile (· ≠ newline) :=
        List.takeWhile_cons_of_pos (decide_eq_true hc)
      rw [htake, List.length_cons, List.length_cons] at hn hm
      rw [ih (n := n) (m := m) (by omega) (by omega)]

theorem fgets_shorter {size : ℕ} (hsize : 2 ≤ size) (h : fgets size s = some r) :
    r.2.length < s.length := by
  unfold fgets at h
  split_ifs at h with hs
  cases h
  exact readLine_shorter (by omega) hs

theorem getline_suffix (h : getline s = some r) : r.2 <:+ s := by
  unfold getline at h
  split_ifs at h with hs
  cases h
  exact readLine_suffix _ s

theorem getline_shorter (h : getline s = some r) : r.2.length < s.length := by
  unfold getline at h
  split_ifs at h with hs
  cases h
  exact readLine_shorter (List.length_pos_of_ne_nil hs) hs

/-- With a round for every byte the loop runs to its end. -/
theorem loop_fuel {shared : Option (List Action → Bytes → Bytes × Bytes)}
    {read : Bytes → Option (Bytes × Bytes)}
    (hshared : ∀ f ∈ shared, ∀ h s, (f h s).1.length ≤ s.length ∧ (f h s).2.length ≤ s.length)
    (hread : ∀ s r, read s = some r → r.2.length < s.length)
    (line : List Action → List Bytes × ℕ → List Action × After) {h : List Action}
    (hn : s.length ≤ n) (hm : s.length ≤ m) :
    loop shared read line n h s = loop shared read line m h s := by
  induction n generalizing m h s with
  | zero =>
    obtain rfl := List.eq_nil_of_length_eq_zero (Nat.le_zero.mp hn)
    cases m with
    | zero => rfl
    | succ m =>
      rw [loop, loop]
      cases hr : read [] with
      | none => rfl
      | some r => exact absurd (hread _ r hr) (Nat.not_lt_zero _)
  | succ n ih =>
    cases hr : read s with
    | none =>
      rw [loop, hr]
      cases m with
      | zero => rfl
      | succ m => rw [loop, hr]
    | some r =>
      have hlt := hread s r hr
      obtain ⟨m, rfl⟩ := Nat.exists_eq_succ_of_ne_zero (n := m) (by omega)
      rw [loop, loop, hr]
      dsimp only
      rcases line h (parse_input (cut r.1)) with ⟨acts, after⟩
      cases after with
      | exits => rfl
      | goesOn =>
        dsimp only
        rw [ih (m := m) (by omega) (by omega)]
      | strays =>
        cases shared with
        | none =>
          dsimp only
          rw [ih (m := m) (by omega) (by omega)]
        | some f =>
          have hparts := hshared f rfl h r.2
          dsimp only
          rw [ih (m := m) (s := (f h r.2).1) (by omega) (by omega),
            ih (m := m) (s := (f h r.2).2) (by omega) (by omega)]

/-- Neither mode is cut short. -/
theorem modes_fuel (w : World) (hn : s.length ≤ n) :
    loop (some w.shared) (fgets MAX_INPUT_SIZE) (batchLine w) n [] s = batch_mode w s ∧
      loop none getline (interactiveLine w) n [] s = interactive_mode w s := by
  constructor
  · refine loop_fuel (fun f hf => ?_) (fun _ _ h => fgets_shorter (by decide) h) _ hn le_rfl
    rw [← Option.mem_some.mp hf]
    exact w.shared_length
  · refine loop_fuel (fun f hf => ?_) (fun _ _ h => getline_shorter h) _ hn le_rfl
    exact absurd hf (Option.not_mem_none f)

end Reading

/-- Every line is short enough for both buffers and has few tokens. -/
structure Fits (s : Bytes) : Prop where
  short : ∀ l, l <:+: s → newline ∉ l → l.length < MAX_INPUT_SIZE - 1
  few : ∀ l, l <:+: s → newline ∉ l → (parse_input (cut l)).1.length < MAX_ARGS

section Buffers

variable {s t : Bytes}

theorem Fits.suffix (h : Fits s) (hs : t <:+ s) : Fits t :=
  ⟨fun l hl => h.short l (hl.trans hs.isInfix), fun l hl => h.few l (hl.trans hs.isInfix)⟩

theorem Fits.fgets_eq (h : Fits s) : fgets MAX_INPUT_SIZE s = getline s := by
  have hline : (s.takeWhile (· ≠ newline)).length < MAX_INPUT_SIZE - 1 :=
    h.short _ (List.takeWhile_prefix _).isInfix fun hmem => by
      have hne := List.mem_takeWhile_imp (p := fun c => decide (c ≠ newline)) hmem
      exact of_decide_eq_true hne rfl
  unfold fgets getline
  split_ifs with hs
  · rfl
  · rw [readLine_eq (.inl hline) (.inr le_rfl)]

theorem Copying.suffix {f : List Action → Bytes → Bytes × Bytes} (h : Copying f s)
    (hs : t <:+ s) : Copying f t :=
  fun acts u hu => h acts u (hu.trans hs)

theorem Fits.loop_eq {f : List Action → Bytes → Bytes × Bytes} (h : Fits s) (hf : Copying f s)
    (line : List Action → List Bytes × ℕ → List Action × After) (n : ℕ) (acts : List Action) :
    loop (some f) (fgets MAX_INPUT_SIZE) line n acts s = loop (some f) getline line n acts s := by
  induction n generalizing s acts with
  | zero => rfl
  | succ n ih =>
    rw [loop, loop, h.fgets_eq]
    cases hr : getline s with
    | none => rfl
    | some r =>
      have hsuffix := getline_suffix hr
      have hrest := h.suffix hsuffix
      have hcopies := hf.suffix hsuffix
      dsimp only
      rw [hf acts r.2 hsuffix]
      simp only [ih hrest hcopies]

end Buffers

/-- The process is connected to a pipe. -/
def Piped : Action → Prop
  | .builtin _ => False
  | .launch _ _ stdin stdout _ _ => stdin ≠ none ∨ stdout ≠ none
  | .stray a => Piped a

/-- A bar is passed on as an argument. -/
def Barred : Action → Prop
  | .builtin args => bar ∈ args
  | .launch _ argv _ _ _ _ => bar ∈ argv
  | .stray a => Barred a

/-- The shell itself has done it. -/
def Own : Action → Prop
  | .stray _ => False
  | _ => True

/-- The commands that `execute_command` runs itself. -/
def IsBuiltin (args : List Bytes) : Prop :=
  args.headD [] ∈ [ascii "exit", ascii "cd", ascii "jobs"] ∨
    args.headD [] ∈ [ascii "fg", ascii "bg"] ∧ (args.length = 1 ∨ args.length = 2)

/-- `execute_command` does nothing: the line starts with no built-in, and what is found under
its first word, if anything is, cannot be started. -/
structure Inert (w : World) (h : List Action) (args : List Bytes) : Prop where
  external : ¬ IsBuiltin args
  absent : ∀ path, find_executable w h (args.headD []) = some path → w.executable h path = false

/-- Neither mode does anything with the line: no command of the pipe can be started either. -/
structure Ignored (w : World) (h : List Action) (args : List Bytes) : Prop
    extends Inert w h args where
  commands : ∀ cmd ∈ args.splitOn bar, w.executable h (binPath cmd) = false

/-- `P` holds of every line that is reached before `exit`, of the rounds left for the text
behind it, what was done so far, and that text. A child that goes on has done nothing. -/
def Reached (w : World) (P : ℕ → List Action → List Bytes × ℕ → Bytes → Prop) :
    ℕ → List Action → Bytes → Prop
  | 0, _, _ => True
  | n + 1, h, s =>
    match getline s with
    | none => True
    | some (input, rest) =>
      let line := parse_input (cut input)
      P n h line rest ∧ ((batchLine w h line).2 ≠ .exits →
        Reached w P n (h ++ (batchLine w h line).1) rest)

/-- No line of the text does anything. -/
def Idle (w : World) (h : List Action) : ℕ → Bytes → Prop
  | 0, _ => True
  | n + 1, s =>
    match getline s with
    | none => True
    | some (input, rest) =>
      let args := (parse_input (cut input)).1
      (args = [] ∨ Inert w h args) ∧ Idle w h n rest

/-- The child of the line goes back into the loop: its program passes `access`, and `execvp`
fails. -/
def Strays (w : World) (h : List Action) (args : List Bytes) : Prop :=
  args ≠ [] ∧ ¬ IsBuiltin args ∧
    ∃ path ∈ find_executable w h (args.headD []), w.executable h path = false

/-- Every line with a bar is ignored, and nothing is left to do behind a line whose child goes
back into the loop. -/
def Harmless (w : World) : ℕ → List Action → Bytes → Prop :=
  Reached w fun n h line rest =>
    (bar ∈ line.1 → Ignored w h line.1) ∧ (Strays w h line.1 → Idle w h n rest)

/-- No child goes back into the loop. -/
def Unstrayed (w : World) : ℕ → List Action → Bytes → Prop :=
  Reached w fun _ h line _ => ¬ Strays w h line.1

section Lines

variable {w : World} {h : List Action} {args : List Bytes} {b i num_cmd : ℕ} {a : Action}

/-- What `execute_command` can do with a line. -/
inductive Executed (w : World) (h : List Action) (args : List Bytes) :
    List Action × After → Prop where
  | builtin (after : After) (own : IsBuiltin args) (alone : after ≠ .strays) :
      Executed w h args ([.builtin args], after)
  | launched (path : Bytes) (argv : List Bytes) (job : ℕ) (waits : Bool) (own : ¬ IsBuiltin args)
      (found : find_executable w h (args.headD []) = some path)
      (started : w.executable h path = true) (passed : argv = args ∨ argv = excludeAmpersand args) :
      Executed w h args ([.launch path argv none none (some job) waits], .goesOn)
  | strayed (path : Bytes) (own : ¬ IsBuiltin args)
      (found : find_executable w h (args.headD []) = some path)
      (failed : w.executable h path = false) : Executed w h args ([], .strays)
  | nothing (own : ¬ IsBuiltin args) (absent : find_executable w h (args.headD []) = none) :
      Executed w h args ([], .goesOn)

theorem execute_command_executed (w : World) (h : List Action) (args : List Bytes) (b : ℕ) :
    Executed w h args (execute_command w h args b) := by
  have hown : args.headD [] ≠ ascii "exit" → args.headD [] ≠ ascii "cd" →
      args.headD [] ≠ ascii "jobs" →
      ¬ (args.headD [] = ascii "fg" ∧ (args.length = 1 ∨ args.length = 2)) →
      ¬ (args.headD [] = ascii "bg" ∧ (args.length = 1 ∨ args.length = 2)) →
      ¬ IsBuiltin args := by
    rintro hexit hcd hjobs hfg hbg (hname | ⟨hname, hlength⟩)
    · simp only [List.mem_cons, List.not_mem_nil, or_false] at hname
      exact hname.elim hexit (Or.elim · hcd hjobs)
    · simp only [List.mem_cons, List.not_mem_nil, or_false] at hname
      exact hname.elim (fun h => hfg ⟨h, hlength⟩) fun h => hbg ⟨h, hlength⟩
  unfold execute_command
  dsimp only
  split_ifs with hexit hcd hjobs hfg hbg hback
  · exact .builtin .exits (.inl (by rw [hexit]; decide)) (by decide)
  · exact .builtin .goesOn (.inl (by rw [hcd]; decide)) (by decide)
  · exact .builtin .goesOn (.inl (by rw [hjobs]; decide)) (by decide)
  · exact .builtin .goesOn (.inr ⟨by rw [hfg.1]; decide, hfg.2⟩) (by decide)
  · exact .builtin .goesOn (.inr ⟨by rw [hbg.1]; decide, hbg.2⟩) (by decide)
  · have hexternal := hown hexit hcd hjobs hfg hbg
    cases hfind : find_executable w h (args.headD []) with
    | none => exact .nothing hexternal hfind
    | some path =>
      dsimp only
      split_ifs with hfails
      · exact .strayed path hexternal hfind hfails
      · exact .launched path _ b false hexternal hfind (by simpa using hfails) (.inr rfl)
  · have hexternal := hown hexit hcd hjobs hfg hbg
    cases hfind : find_executable w h (args.headD []) with
    | none => exact .nothing hexternal hfind
    | some path =>
      dsimp only
      split_ifs with hfails
      · exact .strayed path hexternal hfind hfails
      · exact .launched path _ b true hexternal hfind (by simpa using hfails) (.inl rfl)

theorem bar_mem_excludeAmpersand : bar ∈ excludeAmpersand args ↔ bar ∈ args := by
  rw [excludeAmpersand, List.mem_filter]
  exact and_iff_left (by decide)

theorem Executed.nil_iff {r : List Action × After} (hr : Executed w h args r) :
    r.1 = [] ↔ Inert w h args := by
  cases hr with
  | builtin after own =>
    exact iff_of_false (List.cons_ne_nil _ _) fun hi => hi.external own
  | launched path argv job waits own found started =>
    refine iff_of_false (List.cons_ne_nil _ _) fun hi => ?_
    exact Bool.false_ne_true ((hi.absent path found).symm.trans started)
  | strayed path own found failed =>
    refine iff_of_true rfl ⟨own, fun p hp => ?_⟩
    rw [found, Option.some.injEq] at hp
    exact hp ▸ failed
  | nothing own absent =>
    refine iff_of_true rfl ⟨own, fun p hp => ?_⟩
    rw [absent] at hp
    cases hp

theorem Executed.not_exits {r : List Action × After} (hr : Executed w h args r) (hnil : r.1 = []) :
    r.2 ≠ .exits := by
  cases hr with
  | builtin after own => exact absurd hnil (List.cons_ne_nil _ _)
  | launched path argv job waits own found started passed =>
    exact absurd hnil (List.cons_ne_nil _ _)
  | strayed path own found failed => decide
  | nothing own absent => decide

theorem Executed.nil_of_strays {r : List Action × After} (hr : Executed w h args r)
    (hstrays : r.2 = .strays) : r.1 = [] := by
  cases hr with
  | builtin after own alone => exact absurd hstrays alone
  | launched path argv job waits own found started passed => cases hstrays
  | strayed path own found failed => rfl
  | nothing own absent => rfl

theorem Executed.strays_iff {r : List Action × After} (hr : Executed w h args r) :
    r.2 = .strays ↔
      ¬ IsBuiltin args ∧
        ∃ path ∈ find_executable w h (args.headD []), w.executable h path = false := by
  cases hr with
  | builtin after own alone => exact iff_of_false alone fun hs => hs.1 own
  | launched path argv job waits own found started passed =>
    refine iff_of_false (by simp) ?_
    rintro ⟨_, p, hp, hfails⟩
    rw [found, Option.mem_some] at hp
    exact Bool.false_ne_true (hfails.symm.trans (hp ▸ started))
  | strayed path own found failed => exact iff_of_true rfl ⟨own, path, found, failed⟩
  | nothing own absent =>
    refine iff_of_false (by simp) ?_
    rintro ⟨_, p, hp, _⟩
    rw [absent] at hp
    cases hp

theorem Executed.action {r : List Action × After} (hr : Executed w h args r) (ha : a ∈ r.1) :
    Own a ∧ ¬ Piped a ∧ (Barred a ↔ bar ∈ args) := by
  cases hr with
  | builtin after own =>
    obtain rfl := List.mem_singleton.mp ha
    exact ⟨trivial, id, Iff.rfl⟩
  | launched path argv job waits own found started passed =>
    obtain rfl := List.mem_singleton.mp ha
    refine ⟨trivial, fun h => h.elim (· rfl) (· rfl), ?_⟩
    rcases passed with rfl | rfl
    · exact Iff.rfl
    · exact bar_mem_excludeAmpersand
  | strayed path own found failed => exact absurd ha List.not_mem_nil
  | nothing own absent => exact absurd ha List.not_mem_nil

theorem pipeFrom_nil_iff {cmds : List (List Bytes)} :
    pipeFrom w num_cmd i h cmds = [] ↔ ∀ cmd ∈ cmds, w.executable h (binPath cmd) = false := by
  induction cmds generalizing i with
  | nil => simp [pipeFrom]
  | cons cmd cmds ih =>
    rw [pipeFrom]
    by_cases hexec : w.executable h (binPath cmd) = true
    · rw [if_pos hexec]
      refine iff_of_false (List.cons_ne_nil _ _) fun hall => ?_
      exact absurd hexec (Bool.eq_false_iff.mp (hall cmd (List.mem_cons_self ..)))
    · rw [if_neg hexec, List.nil_append, List.append_nil, ih, List.forall_mem_cons]
      exact (and_iff_right (Bool.eq_false_iff.mpr hexec)).symm

theorem pipeFrom_piped {cmds : List (List Bytes)} (hcmds : num_cmd = i + cmds.length)
    (htwo : 2 ≤ num_cmd) (ha : a ∈ pipeFrom w num_cmd i h cmds) : Piped a := by
  induction cmds generalizing i h with
  | nil => exact absurd ha List.not_mem_nil
  | cons cmd cmds ih =>
    rw [List.length_cons] at hcmds
    rw [pipeFrom, List.mem_append] at ha
    rcases ha with ha | ha
    · by_cases hexec : w.executable h (binPath cmd) = true
      swap
      · rw [if_neg hexec] at ha
        exact absurd ha List.not_mem_nil
      rw [if_pos hexec] at ha
      obtain rfl := List.mem_singleton.mp ha
      rcases Nat.eq_zero_or_pos i with rfl | hpos
      · exact .inr (by rw [if_pos (by omega)]; exact Option.some_ne_none _)
      · exact .inl (by rw [if_pos hpos]; exact Option.some_ne_none _)
    · exact ih (by omega) ha

theorem pipeFrom_own {cmds : List (List Bytes)} (ha : a ∈ pipeFrom w num_cmd i h cmds) : Own a := by
  induction cmds generalizing i h with
  | nil => exact absurd ha List.not_mem_nil
  | cons cmd cmds ih =>
    rw [pipeFrom, List.mem_append] at ha
    rcases ha with ha | ha
    · by_cases hexec : w.executable h (binPath cmd) = true
      · rw [if_pos hexec] at ha
        obtain rfl := List.mem_singleton.mp ha
        exact trivial
      · rw [if_neg hexec] at ha
        exact absurd ha List.not_mem_nil
    · exact ih ha

/-- A line of batch mode is empty or goes to `execute_command`. -/
theorem batchLine_cases (w : World) (h : List Action) (line : List Bytes × ℕ) :
    line.1 = [] ∧ batchLine w h line = ([], .goesOn) ∨
      line.1 ≠ [] ∧ Executed w h line.1 (batchLine w h line) := by
  unfold batchLine
  split_ifs with hpos
  · exact .inr ⟨List.ne_nil_of_length_pos hpos, execute_command_executed w h line.1 line.2⟩
  · exact .inl ⟨List.eq_nil_of_length_eq_zero (by omega), rfl⟩

theorem batchLine_action {line : List Bytes × ℕ} (ha : a ∈ (batchLine w h line).1) :
    Own a ∧ ¬ Piped a ∧ (Barred a ↔ bar ∈ line.1) := by
  rcases batchLine_cases w h line with ⟨_, heq⟩ | ⟨_, hexec⟩
  · rw [heq] at ha
    exact absurd ha List.not_mem_nil
  · exact hexec.action ha

theorem batchLine_nil_iff {line : List Bytes × ℕ} :
    (batchLine w h line).1 = [] ↔ line.1 = [] ∨ Inert w h line.1 := by
  rcases batchLine_cases w h line with ⟨hempty, heq⟩ | ⟨hne, hexec⟩
  · exact iff_of_true (by rw [heq]) (.inl hempty)
  · rw [hexec.nil_iff]
    exact (or_iff_right hne).symm

theorem batchLine_not_exits {line : List Bytes × ℕ} (hnil : (batchLine w h line).1 = []) :
    (batchLine w h line).2 ≠ .exits := by
  rcases batchLine_cases w h line with ⟨_, heq⟩ | ⟨_, hexec⟩
  · rw [heq]
    decide
  · exact hexec.not_exits hnil

theorem batchLine_nil_of_strays {line : List Bytes × ℕ} (hs : (batchLine w h line).2 = .strays) :
    (batchLine w h line).1 = [] := by
  rcases batchLine_cases w h line with ⟨_, heq⟩ | ⟨_, hexec⟩
  · rw [heq]
  · exact hexec.nil_of_strays hs

theorem batchLine_strays_iff {line : List Bytes × ℕ} :
    (batchLine w h line).2 = .strays ↔ Strays w h line.1 := by
  rcases batchLine_cases w h line with ⟨hempty, heq⟩ | ⟨hne, hexec⟩
  · rw [heq]
    exact iff_of_false (by simp) fun hs => hs.1 hempty
  · rw [hexec.strays_iff]
    exact (and_iff_right hne).symm

theorem interactiveLine_of_bar {line : List Bytes × ℕ} (hbar : bar ∈ line.1) :
    interactiveLine w h line = (execute_pipe w h line.1 (1 + line.1.count bar), .goesOn) := by
  have hcount := List.count_pos_iff.mpr hbar
  unfold interactiveLine
  exact if_neg (by omega)

theorem interactiveLine_of_not_bar {line : List Bytes × ℕ} (hbar : bar ∉ line.1) :
    interactiveLine w h line = batchLine w h line := by
  have hcount := List.count_eq_zero.mpr hbar
  unfold interactiveLine batchLine
  exact if_pos (by omega)

theorem length_splitOn_bar (args : List Bytes) :
    (args.splitOn bar).length = 1 + args.count bar := by
  rw [List.splitOn_eq_splitOnP]
  induction args with
  | nil => rfl
  | cons arg args ih =>
    rw [List.splitOnP_cons_eq_if_modifyHead, List.count_cons]
    split_ifs with hbar
    · rw [List.length_cons, ih]
      omega
    · rw [List.length_modifyHead, ih]
      omega

theorem execute_pipe_piped (hbar : bar ∈ args)
    (ha : a ∈ execute_pipe w h args (1 + args.count bar)) : Piped a := by
  have hcount := List.count_pos_iff.mpr hbar
  exact pipeFrom_piped (by rw [length_splitOn_bar]; omega) (by omega) ha

/-- What an interactive line does itself, with a bar only as the argument of a pipe's child. -/
theorem interactiveLine_action {line : List Bytes × ℕ} (ha : a ∈ (interactiveLine w h line).1) :
    Own a ∧ (Barred a → Piped a) := by
  by_cases hbar : bar ∈ line.1
  · rw [interactiveLine_of_bar hbar] at ha
    exact ⟨pipeFrom_own ha, fun _ => execute_pipe_piped hbar ha⟩
  · rw [interactiveLine_of_not_bar hbar] at ha
    obtain ⟨hown, _, hbarred⟩ := batchLine_action ha
    exact ⟨hown, fun hb => absurd (hbarred.mp hb) hbar⟩

/-- A line with a bar is ignored exactly when neither mode acts on it. -/
theorem ignored_iff {line : List Bytes × ℕ} (hbar : bar ∈ line.1) :
    Ignored w h line.1 ↔
      (batchLine w h line).1 = [] ∧ (interactiveLine w h line).1 = [] := by
  have hne : line.1 ≠ [] := List.ne_nil_of_mem hbar
  rw [interactiveLine_of_bar hbar, batchLine_nil_iff, execute_pipe, pipeFrom_nil_iff,
    or_iff_right hne]
  exact ⟨fun hi => ⟨hi.toInert, hi.commands⟩, fun hi => ⟨hi.1, hi.2⟩⟩

end Lines

section Modes

variable {w : World} {s : Bytes} {n : ℕ} {h : List Action} {a : Action}
  {f : List Action → Bytes → Bytes × Bytes}

/-- What holds of the actions of every line, and of those of a child if it holds of them as its
own, holds of all actions. -/
theorem loop_forall {shared : Option (List Action → Bytes → Bytes × Bytes)}
    {read : Bytes → Option (Bytes × Bytes)}
    {line : List Action → List Bytes × ℕ → List Action × After} {Q : Action → Prop}
    (hline : ∀ h l, ∀ a ∈ (line h l).1, Q a) (hstray : shared ≠ none → ∀ a, Q a → Q (.stray a))
    (ha : a ∈ loop shared read line n h s) : Q a := by
  induction n generalizing h s a with
  | zero => exact absurd ha List.not_mem_nil
  | succ n ih =>
    rw [loop] at ha
    split at ha
    next => exact absurd ha List.not_mem_nil
    next input rest _ =>
      have hacts := hline h (parse_input (cut input))
      split at ha
      next acts hl => exact hacts a (hl ▸ ha)
      next acts hl =>
        rw [List.mem_append] at ha
        exact ha.elim (fun ha => hacts a (hl ▸ ha)) ih
      next acts hl =>
        cases shared with
        | none =>
          rw [List.mem_append] at ha
          exact ha.elim (fun ha => hacts a (hl ▸ ha)) ih
        | some f =>
          simp only [List.mem_append, List.mem_map] at ha
          rcases ha with (ha | ⟨b, hb, rfl⟩) | ha
          · exact hacts a (hl ▸ ha)
          · exact hstray (Option.some_ne_none f) b (ih hb)
          · exact ih ha

theorem batch_unpiped (ha : a ∈ loop (some f) getline (batchLine w) n h s) : ¬ Piped a :=
  loop_forall (fun _ _ _ ha => (batchLine_action ha).2.1) (fun _ _ ha => ha) ha

/-- In interactive mode the shell does everything itself, and a bar is an argument of nothing
but the children of a pipe. -/
theorem interactive_action (ha : a ∈ loop none getline (interactiveLine w) n h s) :
    Own a ∧ (Barred a → Piped a) :=
  loop_forall (fun _ _ _ ha => interactiveLine_action ha) (fun hne => absurd rfl hne) ha

theorem mem_loop {shared : Option (List Action → Bytes → Bytes × Bytes)}
    {read : Bytes → Option (Bytes × Bytes)}
    {line : List Action → List Bytes × ℕ → List Action × After} {r : Bytes × Bytes}
    (hr : read s = some r) (ha : a ∈ (line h (parse_input (cut r.1))).1) :
    a ∈ loop shared read line (n + 1) h s := by
  rw [loop, hr]
  dsimp only
  split
  next acts hl =>
    rw [hl] at ha
    exact ha
  next acts hl =>
    rw [hl] at ha
    exact List.mem_append_left _ ha
  next acts hl =>
    rw [hl] at ha
    cases shared with
    | none => exact List.mem_append_left _ ha
    | some f => exact List.mem_append_left _ (List.mem_append_left _ ha)

/-- A child that does nothing leaves its parent with nothing to do. -/
theorem loop_nil_iff (hf : Copying f s) :
    loop (some f) getline (batchLine w) n h s = [] ↔ Idle w h n s := by
  induction n generalizing s with
  | zero => exact iff_of_true rfl trivial
  | succ n ih =>
    cases hr : getline s with
    | none =>
      rw [loop, Idle, hr]
      exact iff_of_true rfl trivial
    | some r =>
      have hsuffix := getline_suffix hr
      have hrest := ih (hf.suffix hsuffix)
      rw [Idle, hr]
      dsimp only
      have hline : (batchLine w h (parse_input (cut r.1))).1 = [] ↔ _ := batchLine_nil_iff
      rw [← hline]
      by_cases hnil : (batchLine w h (parse_input (cut r.1))).1 = []
      · rw [and_iff_right hnil, ← hrest, loop, hr]
        have hexits := batchLine_not_exits hnil
        dsimp only
        rcases hl : batchLine w h (parse_input (cut r.1)) with ⟨acts, after⟩
        rw [hl] at hnil hexits
        dsimp only at hnil hexits
        subst hnil
        cases after with
        | exits => exact absurd rfl hexits
        | goesOn => simp
        | strays =>
          simp only [hf h r.2 hsuffix, List.nil_append, List.append_nil, List.append_eq_nil_iff,
            List.map_eq_nil_iff]
          refine ⟨And.left, fun hmine => ⟨hmine, ?_⟩⟩
          rw [hmine]
          simpa using hmine
      · refine iff_of_false (fun hall => ?_) fun hi => hnil hi.1
        obtain ⟨a, ha⟩ := List.exists_mem_of_ne_nil _ hnil
        exact absurd (hall ▸ mem_loop hr ha) List.not_mem_nil

theorem loop_agree_iff (hf : Copying f s) :
    loop (some f) getline (batchLine w) n h s = loop none getline (interactiveLine w) n h s ↔
      Harmless w n h s := by
  induction n generalizing h s with
  | zero => exact iff_of_true rfl trivial
  | succ n ih =>
    rw [Harmless, Reached]
    cases hr : getline s with
    | none =>
      rw [loop, loop, hr]
      exact iff_of_true rfl trivial
    | some r =>
      have hsuffix := getline_suffix hr
      have hcopies := hf.suffix hsuffix
      have hbatch := fun a => @mem_loop s n h a (some f) _ (batchLine w) _ hr
      have hinteractive := fun a => @mem_loop s n h a none _ (interactiveLine w) _ hr
      dsimp only
      by_cases hactive : bar ∈ (parse_input (cut r.1)).1 ∧ ¬ Ignored w h (parse_input (cut r.1)).1
      · -- An action of this line is in one list and of a kind that the other cannot hold.
        obtain ⟨hbar, hignored⟩ := hactive
        refine iff_of_false (fun heq => ?_) fun hall => hignored (hall.1.1 hbar)
        rw [ignored_iff hbar, not_and_or] at hignored
        rcases hignored with hacts | hacts
        · obtain ⟨a, ha⟩ := List.exists_mem_of_ne_nil _ hacts
          obtain ⟨_, hunpiped, hbarred⟩ := batchLine_action ha
          exact hunpiped ((interactive_action (heq ▸ hbatch a ha)).2 (hbarred.mpr hbar))
        · obtain ⟨a, ha⟩ := List.exists_mem_of_ne_nil _ hacts
          refine batch_unpiped (heq ▸ hinteractive a ha) ?_
          rw [interactiveLine_of_bar hbar] at ha
          exact execute_pipe_piped hbar ha
      · rw [loop, loop, hr]
        dsimp only
        generalize parse_input (cut r.1) = line at hactive ⊢
        rw [not_and_not_right] at hactive
        rw [and_iff_right hactive]
        -- From here on both modes make the same of the line.
        obtain ⟨acts, after, hb, hi⟩ : ∃ acts after, batchLine w h line = (acts, after) ∧
            (interactiveLine w h line = (acts, after) ∨
              acts = [] ∧ interactiveLine w h line = ([], .goesOn)) := by
          refine ⟨_, _, rfl, ?_⟩
          by_cases hbar : bar ∈ line.1
          · obtain ⟨hbnil, hinil⟩ := (ignored_iff hbar).mp (hactive hbar)
            refine .inr ⟨hbnil, ?_⟩
            rw [interactiveLine_of_bar hbar] at hinil ⊢
            exact Prod.ext hinil rfl
          · exact .inl (interactiveLine_of_not_bar hbar)
        have hexits : acts = [] → after ≠ .exits := fun hnil => by
          have := @batchLine_not_exits w h line (by rw [hb, hnil])
          rwa [hb] at this
        have hstrays : after = .strays → acts = [] := fun hs => by
          have := @batchLine_nil_of_strays w h line (by rw [hb, hs])
          rwa [hb] at this
        rw [← batchLine_strays_iff, hb]
        cases after with
        | exits =>
          rcases hi with hi | ⟨hnil, _⟩
          · rw [hi]
            exact iff_of_true rfl ⟨by simp, by simp⟩
          · exact absurd rfl (hexits hnil)
        | goesOn =>
          have hsame : interactiveLine w h line = (acts, .goesOn) := by
            rcases hi with hi | ⟨hnil, hi⟩
            · exact hi
            · rw [hi, hnil]
          simp only [hsame, List.append_cancel_left_eq, reduceCtorEq, false_imp_iff, true_and,
            ne_eq, not_false_eq_true, true_imp_iff]
          exact ih hcopies
        | strays =>
          obtain rfl := hstrays rfl
          have hline : interactiveLine w h line = ([], .strays) ∨
              interactiveLine w h line = ([], .goesOn) := hi.imp_right And.right
          have hrest : (match interactiveLine w h line with
              | (acts, After.exits) => acts
              | (acts, After.goesOn) =>
                acts ++ loop none getline (interactiveLine w) n (h ++ acts) r.2
              | (acts, After.strays) =>
                acts ++ loop none getline (interactiveLine w) n (h ++ acts) r.2) =
              loop none getline (interactiveLine w) n h r.2 := by
            rcases hline with hline | hline
            · rw [hline]
              simp
            · rw [hline]
              simp
          have hgoal := ih (h := h) hcopies
          simp only [hf h r.2 hsuffix, List.nil_append, List.append_nil]
          rw [hrest]
          simp only [true_imp_iff, ne_eq, reduceCtorEq, not_false_eq_true]
          constructor
          · intro heq
            -- The shell of interactive mode has done everything itself.
            have hmine : loop (some f) getline (batchLine w) n h r.2 = [] := by
              by_contra hne
              obtain ⟨b, hmem⟩ := List.exists_mem_of_ne_nil _ hne
              have hin := List.mem_append_left (loop (some f) getline (batchLine w) n
                (h ++ (loop (some f) getline (batchLine w) n h r.2).map Action.stray) r.2)
                (List.mem_map_of_mem (f := Action.stray) hmem)
              exact (interactive_action (heq ▸ hin)).1
            rw [hmine] at heq
            refine ⟨(loop_nil_iff hcopies).mp hmine, hgoal.mp ?_⟩
            simpa [hmine] using heq
          · rintro ⟨hidle, hharmless⟩
            have hmine := (loop_nil_iff hcopies).mpr hidle
            rw [← hgoal.mpr hharmless, hmine]
            simpa using hmine

/-- Where no child goes back into the loop it makes no difference what such a child would find. -/
theorem Unstrayed.loop_eq (hs : Fits s) (hu : Unstrayed w n h s)
    (g : List Action → Bytes → Bytes × Bytes) :
    loop (some f) (fgets MAX_INPUT_SIZE) (batchLine w) n h s =
      loop (some g) (fgets MAX_INPUT_SIZE) (batchLine w) n h s := by
  induction n generalizing h s with
  | zero => rfl
  | succ n ih =>
    rw [loop, loop, hs.fgets_eq]
    rw [Unstrayed, Reached] at hu
    cases hr : getline s with
    | none => rfl
    | some r =>
      rw [hr] at hu
      obtain ⟨hstrays, hrest⟩ := hu
      have hfits := hs.suffix (getline_suffix hr)
      dsimp only at hstrays hrest ⊢
      rcases hl : batchLine w h (parse_input (cut r.1)) with ⟨acts, after⟩
      rw [← batchLine_strays_iff, hl] at hstrays
      rw [hl] at hrest
      cases after with
      | exits => rfl
      | goesOn => exact congrArg (acts ++ ·) (ih hfits (hrest (by simp)))
      | strays => exact absurd rfl hstrays

end Modes

theorem parseLoop_length (n : ℕ) (s : Bytes) : (parseLoop n s).length ≤ n := by
  induction n generalizing s with
  | zero => exact le_rfl
  | succ n ih =>
    rw [parseLoop]
    split
    · exact Nat.zero_le _
    · exact Nat.succ_le_succ (ih _)

theorem fits_of_length {s : Bytes} (h : s.length < MAX_ARGS) : Fits s := by
  have hlength : ∀ l, l <:+: s → l.length < MAX_ARGS := fun l hl => hl.length_le.trans_lt h
  refine ⟨fun l hl _ => (hlength l hl).trans (by decide), fun l hl _ => ?_⟩
  have htokens : (parse_input (cut l)).1.length ≤ (cut l).length := parseLoop_length _ _
  have hcut : (cut l).length ≤ l.length := (List.takeWhile_prefix _).length_le
  exact (htokens.trans hcut).trans_lt (hlength l hl)

instance (args : List Bytes) : Decidable (IsBuiltin args) :=
  inferInstanceAs (Decidable (_ ∨ _ ∧ (_ ∨ _)))

instance instDecidableInert (w : World) (h : List Action) (args : List Bytes) :
    Decidable (Inert w h args) :=
  have hall : (find_executable w h (args.headD [])).all (fun path => !w.executable h path) = true ↔
      ∀ path ∈ find_executable w h (args.headD []), w.executable h path = false := by
    simp only [Option.all_eq_true, Bool.not_eq_true', Option.mem_def]
  decidable_of_iff (¬ IsBuiltin args ∧
      (find_executable w h (args.headD [])).all (fun path => !w.executable h path) = true)
    ⟨fun hi => ⟨hi.1, hall.mp hi.2⟩, fun hi => ⟨hi.external, hall.mpr hi.absent⟩⟩

instance instDecidableIgnored (w : World) (h : List Action) (args : List Bytes) :
    Decidable (Ignored w h args) :=
  decidable_of_iff (Inert w h args ∧ ∀ cmd ∈ args.splitOn bar, w.executable h (binPath cmd) = false)
    ⟨fun hi => ⟨hi.1, hi.2⟩, fun hi => ⟨hi.toInert, hi.commands⟩⟩

instance decidableIdle (w : World) (h : List Action) :
    (n : ℕ) → (s : Bytes) → Decidable (Idle w h n s)
  | 0, _ => inferInstanceAs (Decidable True)
  | n + 1, s =>
    match hr : getline s with
    | none => isTrue (by simp [Idle, hr])
    | some (input, rest) =>
      have := decidableIdle w h n rest
      decidable_of_iff (((parse_input (cut input)).1 = [] ∨ Inert w h (parse_input (cut input)).1) ∧
        Idle w h n rest) (by simp [Idle, hr])

instance instDecidableStrays (w : World) (h : List Action) (args : List Bytes) :
    Decidable (Strays w h args) :=
  inferInstanceAs (Decidable (_ ∧ _ ∧ ∃ path ∈ find_executable w h (args.headD []),
    w.executable h path = false))

instance decidableReached (w : World) (P : ℕ → List Action → List Bytes × ℕ → Bytes → Prop)
    [∀ n h line rest, Decidable (P n h line rest)] :
    (n : ℕ) → (h : List Action) → (s : Bytes) → Decidable (Reached w P n h s)
  | 0, _, _ => inferInstanceAs (Decidable True)
  | n + 1, h, s =>
    match hr : getline s with
    | none => isTrue (by simp [Reached, hr])
    | some (input, rest) =>
      have := decidableReached w P n (h ++ (batchLine w h (parse_input (cut input))).1) rest
      decidable_of_iff (P n h (parse_input (cut input)) rest ∧
        ((batchLine w h (parse_input (cut input))).2 ≠ .exits →
          Reached w P n (h ++ (batchLine w h (parse_input (cut input))).1) rest))
        (by simp [Reached, hr])

instance instDecidableHarmless (w : World) (n : ℕ) (h : List Action) (s : Bytes) :
    Decidable (Harmless w n h s) :=
  decidableReached w _ n h s

theorem copied_length (_ : List Action) (s : Bytes) :
    (s, s).1.length ≤ s.length ∧ (s, s).2.length ≤ s.length :=
  ⟨le_rfl, le_rfl⟩

/-- The directory `/bin` itself passes `access`, as the name `.` in it. -/
def programs : World where
  accessible _ path := path ∈ [ascii "/bin/ls", ascii "/bin/.", ascii "/usr/bin/wc"]
  executable _ path := path ∈ [ascii "/bin/ls", ascii "/usr/bin/wc"]
  shared _ s := (s, s)
  shared_length := copied_length

theorem programs_copying (s : Bytes) : Copying programs.shared s := fun _ _ _ => rfl

def plainScript : Bytes := ascii "ls -l &

cd /tmp
none | none
wc
. | .
none
"

end WshModes
