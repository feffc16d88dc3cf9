import OsProjects.WshModes
import OsProjects.Tokens

/-! # The argument arrays of the shell

`parse_input` and the two passes over its result, with every store into `args` and into the rows
of `cmds`. `WshModes` has the same functions on lists without bound.
-/
namespace WshParsing

open WshModes (Bytes MAX_ARGS space ampersand bar strtok parseLoop)
open Tokens

/-- A pointer in an array: not yet written, `NULL`, or the start of a string. -/
inductive Arg where
  | unset
  | null
  | str (s : Bytes)
  deriving DecidableEq, Repr

/-- What `strcmp` reads; the other two are no strings. -/
def Arg.text : Arg → Option Bytes
  | .str s => some s
  | _ => none

abbrev Row := List Arg

/-- A store outside the array is undefined. -/
def store (row : Row) (j : ℕ) (arg : Arg) : Option Row :=
  if j < row.length then some (row.set j arg) else none

/-- The loop over `strtok` from `*num_args` on; a token takes a byte at least. -/
def storeTokens : ℕ → Row → ℕ → Bytes → Option (Row × ℕ)
  | 0, args, num_args, _ => some (args, num_args)
  | n + 1, args, num_args, s =>
    match strtok s with
    | none => some (args, num_args)
    | some (token, rest) =>
      (store args num_args (.str token)).bind fun args => storeTokens n args (num_args + 1) rest

/-- `args`, `*num_args` and `*is_background`. -/
def parse_input (args : Row) (input : Bytes) : Option (Row × ℕ × ℕ) :=
  (storeTokens input.length args 0 input).bind fun (args, num_args) =>
    let is_background :=
      if num_args > 0 ∧ args[num_args - 1]? = some (.str ampersand) then 0 else 1
    (store args num_args .null).map fun args => (args, num_args, is_background)

/-- The counting loop of `interactive_mode`. -/
def countCmds (args : Row) (num_args : ℕ) : Option ℕ :=
  (args.take num_args).foldlM
    (fun num_cmds arg => arg.text.map fun s => if s = bar then num_cmds + 1 else num_cmds) 1

/-- The local variables of `execute_pipe` that the splitting loop sets. -/
structure Filling where
  cmds : List Row
  cmd_i : ℕ
  j : ℕ
  deriving DecidableEq, Repr

/-- `cmds[cmd_i][j] = arg;` -/
def Filling.put (f : Filling) (arg : Arg) : Option (List Row) :=
  (f.cmds[f.cmd_i]?).bind fun row => (store row f.j arg).map (f.cmds.set f.cmd_i)

/-- One round of the splitting loop. -/
def fillArg (f : Filling) (arg : Arg) : Option Filling :=
  arg.text.bind fun s =>
    if s ≠ bar then (f.put arg).map fun cmds => { f with cmds := cmds, j := f.j + 1 }
    else (f.put .null).map fun cmds => { cmds := cmds, cmd_i := f.cmd_i + 1, j := 0 }

/-- `cmds[cmd_i][j] = NULL;` behind the loop. -/
def Filling.finish (f : Filling) : Option Filling :=
  (f.put .null).map fun cmds => { f with cmds := cmds }

/-- An array as it is declared. -/
def fresh (size : ℕ) : Row := List.replicate size .unset

/-- `char *cmds[num_cmd][256]` -/
def ROW_SIZE : ℕ := 256

/-- The splitting in `execute_pipe`. -/
def fillCmds (args : Row) (num_args num_cmd : ℕ) : Option Filling :=
  ((args.take num_args).foldlM fillArg ⟨List.replicate num_cmd (fresh ROW_SIZE), 0, 0⟩).bind
    Filling.finish

/-- The strings in front of the first `NULL`, which `execvp` reads. -/
def argv : Row → Option (List Bytes)
  | .null :: _ => some []
  | .str s :: row => (argv row).map (s :: ·)
  | _ => none

/-- Both passes agree on the segments, which fit their rows and give the tokens back. -/
def SplitRight (args : Row) (tokens : List Bytes) : Prop :=
  ∃ num_cmds f segments, countCmds args tokens.length = some num_cmds ∧
    fillCmds args tokens.length num_cmds = some f ∧ f.cmd_i + 1 = num_cmds ∧
    f.cmds.length = num_cmds ∧ (∀ row ∈ f.cmds, row.length = ROW_SIZE) ∧
    f.cmds.map argv = segments.map some ∧ [bar].intercalate segments = tokens

/-- The line is handled inside the arrays: `args` holds its maximal runs, the flag is 0 exactly
for a last ampersand, and the splitting is right. -/
def Handled (input : Bytes) : Prop :=
  ∃ args tokens is_background,
    parse_input (fresh MAX_ARGS) input = some (args, tokens.length, is_background) ∧
    args.length = MAX_ARGS ∧ argv args = some tokens ∧ MaximalRuns (· = space) input tokens ∧
    is_background = (if tokens.getLast? = some ampersand then 0 else 1) ∧ SplitRight args tokens

section Rows

variable {size : ℕ} {ts : List Bytes} {t : Bytes} {arg : Arg}

/-- A row with its first entries written. -/
def filled (size : ℕ) (ts : List Bytes) : Row := ts.map .str ++ fresh (size - ts.length)

/-- A row that is closed by `NULL`. -/
def ended (size : ℕ) (ts : List Bytes) : Row :=
  ts.map .str ++ .null :: fresh (size - ts.length - 1)

theorem fresh_eq_filled : fresh size = filled size [] := rfl

theorem store_filled : store (filled size ts) ts.length arg =
    if ts.length < size then some (ts.map .str ++ arg :: fresh (size - ts.length - 1)) else none := by
  have hlen : (filled size ts).length = ts.length + (size - ts.length) := by simp [filled, fresh]
  rw [store, hlen]
  by_cases hlt : ts.length < size
  · obtain ⟨n, hn⟩ : ∃ n, size - ts.length = n + 1 := ⟨size - ts.length - 1, by omega⟩
    rw [if_pos (by omega), if_pos hlt, filled, hn, fresh, List.replicate_succ,
      List.set_append_right _ _ (by simp)]
    simp [fresh]
  · rw [if_neg (by omega), if_neg hlt]

theorem store_str : store (filled size ts) ts.length (.str t) =
    if ts.length < size then some (filled size (ts ++ [t])) else none := by
  rw [store_filled]
  refine if_congr Iff.rfl (congrArg some ?_) rfl
  simp [filled, Nat.sub_sub]

theorem length_ended (h : ts.length < size) : (ended size ts).length = size := by
  simp only [ended, fresh, List.length_append, List.length_map, List.length_cons,
    List.length_replicate]
  omega

theorem take_ended : (ended size ts).take ts.length = ts.map .str := by
  rw [ended, List.take_append_of_le_length (by simp)]
  simp

/-- What stands behind the `NULL` is not read. -/
theorem argv_closed (ts : List Bytes) (junk : Row) : argv (ts.map .str ++ .null :: junk) = some ts := by
  induction ts with
  | nil => rfl
  | cons t ts ih =>
    rw [List.map_cons, List.cons_append, argv, ih]
    rfl

theorem argv_ended : argv (ended size ts) = some ts := argv_closed ts _

theorem argv_short {row : Row} (h : argv row = some ts) : ts.length < row.length := by
  induction row generalizing ts with
  | nil => cases h
  | cons arg row ih =>
    cases arg with
    | unset => cases h
    | null =>
      cases h
      exact Nat.succ_pos _
    | str t =>
      obtain ⟨us, hus, rfl⟩ := Option.map_eq_some_iff.mp h
      exact Nat.succ_lt_succ (ih hus)

end Rows

section Parsing

variable {n size : ℕ} {s input : Bytes} {ts : List Bytes}

theorem strtok_eq_cut (s : Bytes) : strtok s = (cut (· = space) s).map (Prod.map id List.tail) := by
  rw [strtok, cut]
  cases s.dropWhile (· = space) with
  | nil => rfl
  | cons c t => simp only [ne_eq, Option.map_some, Prod.map_apply, id_eq]

/-- With a round for every byte the loop gives the maximal runs. -/
theorem parseLoop_runs (hn : s.length ≤ n) : MaximalRuns (· = space) s (parseLoop n s) := by
  induction n generalizing s with
  | zero =>
    obtain rfl := List.eq_nil_of_length_eq_zero (Nat.le_zero.mp hn)
    exact MaximalRuns.nil fun x hx => absurd hx List.not_mem_nil
  | succ n ih =>
    rw [parseLoop, strtok_eq_cut]
    cases hcut : cut (· = space) s with
    | none => exact MaximalRuns.nil (cut_eq_none.mp hcut)
    | some r =>
      have hlt := cut_shorter hcut
      exact MaximalRuns.cons hcut (ih (by rw [List.length_tail]; omega))

/-- The stores go on until the row is full. -/
theorem storeTokens_eq (hts : ts.length ≤ size) :
    storeTokens n (filled size ts) ts.length s =
      if ts.length + (parseLoop n s).length ≤ size then
        some (filled size (ts ++ parseLoop n s), ts.length + (parseLoop n s).length)
      else none := by
  induction n generalizing ts s with
  | zero =>
    rw [storeTokens, parseLoop, List.append_nil]
    exact (if_pos hts).symm
  | succ n ih =>
    rw [storeTokens, parseLoop]
    cases htok : strtok s with
    | none =>
      dsimp only
      rw [List.append_nil]
      exact (if_pos hts).symm
    | some r =>
      obtain ⟨token, rest⟩ := r
      dsimp only
      rw [store_str, List.length_cons]
      by_cases hlt : ts.length < size
      · have hlen : (ts ++ [token]).length = ts.length + 1 := List.length_append
        have hrest : storeTokens n (filled size (ts ++ [token])) (ts ++ [token]).length rest = _ :=
          ih (by omega)
        rw [hlen] at hrest
        rw [if_pos hlt, Option.bind_some, hrest, List.append_assoc, List.singleton_append,
          Nat.add_assoc, Nat.add_comm 1]
      · rw [if_neg hlt, Option.bind_none, if_neg (by omega)]

theorem last_filled (hts : ts.length ≤ size) (t : Bytes) :
    (ts.length > 0 ∧ (filled size ts)[ts.length - 1]? = some (.str t)) ↔ ts.getLast? = some t := by
  rw [List.getLast?_eq_getElem?]
  cases ts with
  | nil => simp
  | cons u ts =>
    have hlt : (u :: ts).length - 1 < ((u :: ts).map Arg.str).length := by simp
    rw [filled, List.getElem?_append_left hlt, List.getElem?_map]
    simp

/-- The tokens have to leave room for `NULL`. -/
theorem parse_input_eq (size : ℕ) (input : Bytes) :
    parse_input (fresh size) input =
      if (WshModes.parse_input input).1.length < size then
        some (ended size (WshModes.parse_input input).1, (WshModes.parse_input input).1.length,
          (WshModes.parse_input input).2)
      else none := by
  obtain ⟨tokens, htokens⟩ : ∃ tokens, tokens = parseLoop input.length input := ⟨_, rfl⟩
  have hstore : storeTokens input.length (filled size []) ([] : List Bytes).length input = _ :=
    storeTokens_eq (Nat.zero_le size)
  rw [← htokens, List.length_nil, Nat.zero_add, List.nil_append] at hstore
  rw [parse_input, fresh_eq_filled, hstore, WshModes.parse_input, ← htokens]
  dsimp only
  by_cases hle : tokens.length ≤ size
  · rw [if_pos hle, Option.bind_some, store_filled]
    by_cases hlt : tokens.length < size
    · rw [if_pos hlt, if_pos hlt, Option.map_some]
      simp only [last_filled hle]
      rfl
    · rw [if_neg hlt, if_neg hlt, Option.map_none]
  · rw [if_neg hle, Option.bind_none, if_neg (by omega)]

end Parsing

section Splitting

variable {ts cur : List Bytes} {done : List (List Bytes)} {rest : ℕ} {arg : Arg}

theorem countCmds_eq (args : Row) (hargs : args.take ts.length = ts.map .str) :
    countCmds args ts.length = some (1 + ts.count bar) := by
  rw [countCmds, hargs]
  suffices h : ∀ n, (ts.map Arg.str).foldlM (fun num_cmds arg => arg.text.map fun s =>
      if s = bar then num_cmds + 1 else num_cmds) n = some (n + ts.count bar) from h 1
  clear hargs
  induction ts with
  | nil => exact fun n => rfl
  | cons t ts ih =>
    intro n
    rw [List.map_cons, List.foldlM_cons, Arg.text, Option.map_some, Option.bind_eq_bind,
      Option.bind_some, ih, List.count_cons]
    by_cases ht : t = bar
    · simp [ht]
      omega
    · simp [ht]

/-- The rows between two rounds: closed ones, the one that is written, and fresh ones. -/
def filling (done : List (List Bytes)) (cur : List Bytes) (rest : ℕ) : Filling where
  cmds := done.map (ended ROW_SIZE) ++ filled ROW_SIZE cur :: List.replicate rest (fresh ROW_SIZE)
  cmd_i := done.length
  j := cur.length

theorem put_filling (hcur : cur.length < ROW_SIZE) : (filling done cur rest).put arg =
    some (done.map (ended ROW_SIZE) ++
      (cur.map .str ++ arg :: fresh (ROW_SIZE - cur.length - 1)) ::
        List.replicate rest (fresh ROW_SIZE)) := by
  have hrow : (filling done cur rest).cmds[done.length]? = some (filled ROW_SIZE cur) := by
    rw [filling, List.getElem?_append_right (by simp)]
    simp
  rw [Filling.put, show (filling done cur rest).cmd_i = done.length from rfl, hrow,
    Option.bind_some, show (filling done cur rest).j = cur.length from rfl, store_filled, if_pos hcur,
    Option.map_some, filling, List.set_append_right _ _ (by simp)]
  simp

theorem fillArg_str {t : Bytes} (hcur : cur.length < ROW_SIZE) (ht : t ≠ bar) :
    fillArg (filling done cur rest) (.str t) = some (filling done (cur ++ [t]) rest) := by
  rw [fillArg, Arg.text, Option.bind_some, if_pos ht, put_filling hcur, Option.map_some]
  simp [filling, filled, Nat.sub_sub]

theorem fillArg_bar (hcur : cur.length < ROW_SIZE) :
    fillArg (filling done cur (rest + 1)) (.str bar) = some (filling (done ++ [cur]) [] rest) := by
  rw [fillArg, Arg.text, Option.bind_some, if_neg (by simp), put_filling hcur, Option.map_some]
  simp [filling, ended, filled, List.replicate_succ]

theorem finish_filling (hcur : cur.length < ROW_SIZE) : (filling done cur 0).finish =
    some ⟨(done ++ [cur]).map (ended ROW_SIZE), done.length, cur.length⟩ := by
  rw [Filling.finish, put_filling hcur, Option.map_some]
  simp [filling, ended]

/-- The rows end up with the segments between the bars. -/
theorem fill_eq (done : List (List Bytes)) (cur : List Bytes)
    (hroom : cur.length + ts.length < ROW_SIZE) :
    ∃ f, ((ts.map Arg.str).foldlM fillArg (filling done cur (ts.count bar))).bind Filling.finish =
        some f ∧ f.cmd_i = done.length + ts.count bar ∧
      f.cmds = (done ++ (ts.splitOn bar).modifyHead (cur ++ ·)).map (ended ROW_SIZE) := by
  induction ts generalizing done cur with
  | nil =>
    refine ⟨_, finish_filling (by simpa using hroom), rfl, ?_⟩
    simp
  | cons t ts ih =>
    rw [List.length_cons] at hroom
    rw [List.map_cons, List.foldlM_cons, List.splitOn_cons_eq_if_modifyHead]
    by_cases ht : t = bar
    · obtain ⟨f, hf, hi, hcmds⟩ := ih (done ++ [cur]) [] (by simp; omega)
      subst ht
      rw [List.count_cons_self, fillArg_bar (by omega)]
      refine ⟨f, hf, ?_, ?_⟩
      · rw [hi, List.length_append, List.length_singleton]
        omega
      · rw [hcmds]
        cases ts.splitOn bar with
        | nil => simp
        | cons seg segs => simp
    · obtain ⟨f, hf, hi, hcmds⟩ := ih done (cur ++ [t]) (by simp; omega)
      rw [List.count_cons_of_ne ht, fillArg_str (by omega) ht]
      refine ⟨f, hf, hi, ?_⟩
      rw [hcmds]
      cases ts.splitOn bar with
      | nil => simp [ht]
      | cons seg segs => simp [ht]

theorem length_segment {segment : List Bytes} (h : segment ∈ ts.splitOn bar) :
    segment.length ≤ ts.length := by
  induction ts generalizing segment with
  | nil =>
    obtain rfl := List.mem_singleton.mp h
    exact le_rfl
  | cons t ts ih =>
    rw [List.splitOn_cons_eq_if_modifyHead] at h
    rw [List.length_cons]
    split_ifs at h with ht
    · rcases List.mem_cons.mp h with rfl | h
      · exact Nat.zero_le _
      · exact Nat.le_succ_of_le (ih h)
    · cases hsegments : ts.splitOn bar with
      | nil => simp [hsegments] at h
      | cons seg segs =>
        rw [hsegments, List.modifyHead_cons, List.mem_cons] at h
        rcases h with rfl | h
        · exact Nat.succ_le_succ (ih (hsegments ▸ List.mem_cons_self))
        · exact Nat.le_succ_of_le (ih (hsegments ▸ List.mem_cons_of_mem seg h))

/-- A token list that fits is split as it is counted. -/
theorem splitRight_ended {size : ℕ} (hroom : ts.length < ROW_SIZE) :
    SplitRight (ended size ts) ts := by
  have hroom' : ([] : List Bytes).length + ts.length < ROW_SIZE := by simpa using hroom
  obtain ⟨f, hf, hi, hcmds⟩ := fill_eq [] [] hroom'
  have hsegments : (ts.splitOn bar).modifyHead ([] ++ ·) = ts.splitOn bar := by
    cases ts.splitOn bar <;> rfl
  rw [List.nil_append, hsegments] at hcmds
  have hcount := countCmds_eq (ended size ts) take_ended
  refine ⟨_, f, ts.splitOn bar, hcount, ?_, ?_, ?_, fun row hrow => ?_, ?_,
    List.intercalate_splitOn bar⟩
  · rw [fillCmds, take_ended, Nat.add_comm 1]
    exact hf
  · rw [hi, List.length_nil]
    omega
  · rw [hcmds, List.length_map, WshModes.length_splitOn_bar]
  · rw [hcmds] at hrow
    obtain ⟨segment, hsegment, rfl⟩ := List.mem_map.mp hrow
    exact length_ended (lt_of_le_of_lt (length_segment hsegment) hroom)
  · rw [hcmds, List.map_map]
    exact List.map_congr_left fun segment _ => argv_ended

end Splitting

/-- A line is handled right exactly when it has fewer maximal runs than `args` has entries. -/
theorem handled_iff (input : Bytes) :
    Handled input ↔ ∃ tokens, MaximalRuns (· = space) input tokens ∧ tokens.length < MAX_ARGS := by
  have hruns : MaximalRuns (· = space) input (WshModes.parse_input input).1 :=
    parseLoop_runs le_rfl
  constructor
  · rintro ⟨args, tokens, is_background, _, hlen, hargv, htokens, _⟩
    exact ⟨tokens, htokens, hlen ▸ argv_short hargv⟩
  · rintro ⟨tokens, htokens, hlt⟩
    rw [htokens.unique hruns] at hlt
    have hparse := parse_input_eq MAX_ARGS input
    rw [if_pos hlt] at hparse
    exact ⟨_, _, _, hparse, length_ended hlt, argv_ended, hruns, rfl, splitRight_ended hlt⟩

/-- A line of 256 tokens. -/
def crowdedLine : Bytes := (List.replicate 256 (WshModes.ascii "a ")).flatten

/-- The `NULL` behind 256 tokens is stored outside `args`. -/
theorem crowded_line_overflows : ¬ Handled crowdedLine := by
  rintro ⟨args, tokens, is_background, hparse, _⟩
  have hmany : ¬ (WshModes.parse_input crowdedLine).1.length < MAX_ARGS := by decide +kernel
  rw [parse_input_eq, if_neg hmany] at hparse
  cases hparse

end WshParsing
