import OsProjects.ProxyHeaders
import OsProjects.Runs
import Mathlib.Data.List.DropRight

/-! # Requests that crash the proxy

`parse_client_request` and the comparison behind it in `serve_forever`, with the faults a client
can cause. The zero behind the received bytes leaves the old bytes of the buffer behind it, and
a header can make the parser read them.
-/
namespace ProxyCrashes

open CStrings Tokens ProxyRequests ProxyHeaders Runs

inductive Fault where
  /-- The null pointer of a search that found nothing is used. -/
  | failedSearch
  | outOfRange
  | nullPath
  deriving DecidableEq, Repr

/-- `read_buffer` as `malloc` gives it. -/
structure Buffer where
  bytes : Bytes
  size : bytes.length = LIBHTTP_REQUEST_MAX_SIZE + 1

/-- What a `recv` that does not fail puts into the buffer. -/
structure Received where
  bytes : Bytes
  fits : bytes.length ≤ LIBHTTP_REQUEST_MAX_SIZE

/-- The buffer when its zero is written. -/
def terminated (old : Buffer) (r : Received) : Bytes :=
  r.bytes ++ 0 :: old.bytes.drop (r.bytes.length + 1)

/-- The text in the buffer. -/
def text (old : Buffer) (r : Received) : Bytes := (terminated old r).takeWhile (· ≠ 0)

/-- The bytes of the buffer behind the zero that ends the text. -/
def behind (old : Buffer) (r : Received) : Bytes := ((terminated old r).dropWhile (· ≠ 0)).tail

def found (position : Option ℕ) : Except Fault ℕ := position.elim (.error .failedSearch) .ok

/-- The part between the first two `c`, for which both are searched. -/
def between (c : UInt8) (s : Bytes) : Except Fault Bytes := do
  let s1 ← found (strstr s c)
  let t := s.drop (s1 + 1)
  let s2 ← found (strstr t c)
  return strndup t s2

/-- Where `strtol` stops. -/
def afterNumber (m : Bytes) : Bytes :=
  let t := m.dropWhile isspace
  (if t.head? = some 45 ∨ t.head? = some 43 then t.tail else t).dropWhile isdigit

/-- `atoi` in memory up to the end of the buffer; it reads the byte behind the number, too. -/
def atoiWithin (m : Bytes) : Except Fault ℤ :=
  if afterNumber m = [] then .error .outOfRange else .ok (atoi m)

/-- The memory from a position of the token on. One zero ends the token and one the text; they
are the same behind the last token. -/
def memoryFrom (behind token : Bytes) (rest : Option Bytes) (i : ℕ) : Bytes :=
  (token ++ 0 :: rest.elim behind (· ++ 0 :: behind)).drop i

def parseHeader (behind : Bytes) (delay : ℤ) (token : Bytes) (rest : Option Bytes) :
    Except Fault ℤ :=
  match strstr token colon with
  | none => .ok delay
  | some value =>
    if strncmp (size_t (value - 1)) delayName token = 0 then
      atoiWithin (memoryFrom behind token rest (value + 2))
    else .ok delay

def headerLoop (behind : Bytes) : ℕ → ℤ → Bytes → Except Fault ℤ
  | 0, delay, _ => .ok delay
  | n + 1, delay, s =>
    match strtok s with
    | none => .ok delay
    | some (token, rest) =>
      parseHeader behind delay token rest >>= fun delay => headerLoop behind n delay (rest.getD [])

/-- The loop over the tokens of the buffer. -/
def parse (text behind : Bytes) : Except Fault Request :=
  match strtok text with
  | none => .ok ⟨-1, none, -1⟩
  | some (token, rest) => do
    let path ← between space token
    if GETJOBCMD = path then return ⟨-1, some path, -1⟩
    let p ← between slash path
    let s := rest.getD []
    let delay ← headerLoop behind s.length (-1) s
    return ⟨delay, some path, atoi p⟩

/-- If `recv` fails, the zero is written to `read_buffer[-1]`. -/
def parse_client_request (old : Buffer) : Option Received → Except Fault Request
  | none => .error .outOfRange
  | some r => parse (text old r) (behind old r)

/-- A request is parsed, and its path is compared. -/
def serve_forever (old : Buffer) (received : Option Received) : Except Fault (Request × Bool) := do
  let rq ← parse_client_request old received
  match rq.path with
  | none => .error .nullPath
  | some path => return (rq, GETJOBCMD = path)

/-- The bytes behind the last line end. -/
def lastLine (s : Bytes) : Bytes := s.rtakeWhile (· ∉ crlf)

/-- The text stops at the colon of a header that is taken for the `Delay` header. -/
def OpenDelay (s : Bytes) : Prop :=
  ∃ name, lastLine s = name ++ [colon] ∧ name ≠ [] ∧ colon ∉ name ∧ Loose name

/-- A first line has two spaces, and its path is `/GetJob` or has two slashes. If `atoi` would
run to the end of the buffer behind the text, no header may send it there. -/
def Wellformed (text behind : Bytes) : Prop :=
  ∃ blank method path version rest, text = blank ++ requestLine method path version ++ rest ∧
    (∀ c ∈ blank, c ∈ crlf) ∧ (∀ c ∈ requestLine method path version, c ∉ crlf) ∧
    (∀ c ∈ rest.head?, c ∈ crlf) ∧ space ∉ method ∧ space ∉ path ∧
    (path = GETJOBCMD ∨ 2 ≤ path.count slash ∧ ¬ (afterNumber behind = [] ∧ OpenDelay rest))

theorem found_eq_ok {position : Option ℕ} {i : ℕ} :
    found position = .ok i ↔ position = some i := by
  cases position with
  | none => exact iff_of_false (fun h => nomatch h) fun h => nomatch h
  | some j => exact Except.ok.injEq j i ▸ (Option.some.injEq j i).symm ▸ Iff.rfl

section FirstLine

variable {c : UInt8} {s t a b : Bytes}

theorem strstr_eq_some {i : ℕ} :
    strstr s c = some i ↔ ∃ a b, s = a ++ c :: b ∧ c ∉ a ∧ i = a.length := by
  constructor
  · intro h
    have hmem : c ∈ s := by
      by_contra hnot
      rw [strstr_of_notMem hnot] at h
      cases h
    obtain ⟨a, b, rfl, ha⟩ := List.eq_append_cons_of_mem hmem
    rw [strstr_append ha] at h
    exact ⟨a, b, rfl, ha, (Option.some.inj h).symm⟩
  · rintro ⟨a, b, rfl, ha, rfl⟩
    exact strstr_append ha

theorem between_eq_ok :
    between c s = .ok t ↔ ∃ a b, s = a ++ c :: (t ++ c :: b) ∧ c ∉ a ∧ c ∉ t := by
  have hbehind : ∀ a r : Bytes, (a ++ c :: r).drop (a.length + 1) = r := fun a r => by simp
  rw [between, bind_eq_ok]
  simp only [found_eq_ok, strstr_eq_some, bind_eq_ok]
  constructor
  · rintro ⟨_, ⟨a, r, rfl, ha, rfl⟩, _, ⟨t', b, hr, ht', rfl⟩, h⟩
    rw [hbehind] at hr h
    subst hr
    cases h
    rw [strndup, List.take_left]
    exact ⟨a, b, rfl, ha, ht'⟩
  · rintro ⟨a, b, rfl, ha, ht⟩
    refine ⟨a.length, ⟨a, _, rfl, ha, rfl⟩, t.length, ⟨t, b, hbehind _ _, ht, rfl⟩, ?_⟩
    rw [hbehind, strndup, List.take_left]
    rfl

theorem exists_between_iff : (∃ t, between c s = .ok t) ↔ 2 ≤ s.count c := by
  simp only [between_eq_ok]
  constructor
  · rintro ⟨t, a, b, rfl, -, -⟩
    simp only [List.count_append, List.count_cons_self]
    omega
  · intro h
    have hs : 0 < s.count c := by omega
    obtain ⟨a, r, rfl, ha⟩ := List.eq_append_cons_of_mem (List.count_pos_iff.mp hs)
    rw [List.count_append, List.count_cons_self, List.count_eq_zero_of_not_mem ha] at h
    have hr : 0 < r.count c := by omega
    obtain ⟨t, b, rfl, ht⟩ := List.eq_append_cons_of_mem (List.count_pos_iff.mp hr)
    exact ⟨t, a, b, rfl, ha, ht⟩

end FirstLine

section Headers

variable {behind s d token name t e r : Bytes} {delay : ℤ} {rest : Option Bytes} {n : ℕ}

theorem lastLine_append_of_mem {c : UInt8} (hc : c ∈ crlf) (a b : Bytes) :
    lastLine (a ++ c :: b) = lastLine b := by
  have hstop : ([c] ++ a.reverse).takeWhile (fun x => decide (x ∉ crlf)) = [] := by
    rw [List.singleton_append, List.takeWhile_cons_of_neg (by simpa using hc)]
  rw [lastLine, lastLine, List.rtakeWhile, List.rtakeWhile, List.reverse_append, List.reverse_cons,
    List.append_assoc, List.takeWhile_append, hstop, List.append_nil, ite_eq_right_iff.mpr]
  intro hlen
  exact ((List.takeWhile_prefix _).eq_of_length hlen).symm

theorem lastLine_of_plain (h : ∀ c ∈ s, c ∉ crlf) : lastLine s = s :=
  List.rtakeWhile_eq_self_iff.mpr (by simpa using h)

/-- Behind line ends the last line is the token that comes to the end. -/
theorem lastLine_token (hd : ∀ c ∈ d, c ∈ crlf) (ht : ∀ c ∈ t, c ∉ crlf) : lastLine (d ++ t) = t := by
  rcases List.eq_nil_or_concat d with rfl | ⟨d, c, rfl⟩
  · exact lastLine_of_plain ht
  · rw [List.concat_eq_append, List.append_assoc, List.singleton_append,
      lastLine_append_of_mem (hd c (by simp)), lastLine_of_plain ht]

theorem not_openDelay_nil : ¬ OpenDelay [] := by
  rintro ⟨name, h, -⟩
  simp [lastLine] at h

theorem openDelay_append {c : UInt8} (hc : c ∈ crlf) (a b : Bytes) :
    OpenDelay (a ++ c :: b) ↔ OpenDelay b := by
  rw [OpenDelay, OpenDelay, lastLine_append_of_mem hc]

theorem openDelay_tail (he : ∀ c ∈ e.head?, c ∈ crlf) :
    OpenDelay (e.tail?.getD []) ↔ OpenDelay e := by
  cases e with
  | nil => exact Iff.rfl
  | cons c e => exact (openDelay_append (he c rfl) [] e).symm

/-- The zero behind a token stops `atoi`. -/
theorem afterNumber_ne_nil (a b : Bytes) : afterNumber (a ++ 0 :: b) ≠ [] := by
  intro h
  have hspace : 0 ∈ (a ++ 0 :: b).dropWhile isspace := by
    rw [List.dropWhile_append]
    split_ifs
    · simp [isspace]
    · simp
  have hsign : 0 ∈ (if ((a ++ 0 :: b).dropWhile isspace).head? = some 45 ∨
      ((a ++ 0 :: b).dropWhile isspace).head? = some 43 then
        ((a ++ 0 :: b).dropWhile isspace).tail else (a ++ 0 :: b).dropWhile isspace) := by
    split_ifs with hhead
    · revert hspace hhead
      cases (a ++ 0 :: b).dropWhile isspace with
      | nil => simp
      | cons x m =>
        rintro hmem hx
        rcases List.mem_cons.mp hmem with rfl | hmem
        · simp at hx
        · exact hmem
    · exact hspace
  have hall := List.dropWhile_eq_nil_iff.mp h 0 hsign
  exact absurd hall (by decide)

theorem atoiWithin_ok_iff {m : Bytes} : (∃ z, atoiWithin m = .ok z) ↔ afterNumber m ≠ [] := by
  rw [atoiWithin]
  split_ifs with h
  · exact iff_of_false (fun ⟨_, hz⟩ => nomatch hz) fun hne => hne h
  · exact iff_of_true ⟨_, rfl⟩ h

/-- Two bytes behind the colon: in the token, or behind its zero if the colon is its last byte. -/
theorem memoryFrom_colon : memoryFrom behind (name ++ colon :: t) rest (name.length + 2) =
    if t = [] then rest.elim behind (· ++ 0 :: behind)
    else t.tail ++ 0 :: rest.elim behind (· ++ 0 :: behind) := by
  rw [memoryFrom, List.append_assoc, List.drop_length_add_append]
  cases t with
  | nil => rfl
  | cons c t => rfl

/-- Comparing one byte less than the name has; with no name, more bytes than `Delay` has. -/
theorem strncmp_colon (hzero : 0 ∉ name ++ colon :: t)
    (hlen : name.length ≤ LIBHTTP_REQUEST_MAX_SIZE) :
    strncmp (size_t ((name.length : ℤ) - 1)) delayName (name ++ colon :: t) = 0 ↔
      name ≠ [] ∧ Loose name := by
  rcases eq_or_ne name [] with rfl | hne
  · have hsize : size_t ((([] : Bytes).length : ℤ) - 1) = 18446744073709551614 + 1 := by decide
    rw [hsize, delayName, List.nil_append, strncmp_step (by decide), List.headD_cons,
      if_neg (by decide)]
    exact iff_of_false (by decide) fun h => h.1 rfl
  · rw [size_t_length hne hlen, strncmp_name hzero]
    exact (and_iff_right hne).symm

theorem parseHeader_of_notMem (h : colon ∉ token) :
    parseHeader behind delay token rest = .ok delay := by
  rw [parseHeader, strstr_of_notMem h]

theorem parseHeader_colon_ok_iff (hcolon : colon ∉ name) (hzero : 0 ∉ name ++ colon :: t)
    (hlen : name.length ≤ LIBHTTP_REQUEST_MAX_SIZE) :
    (∃ delay', parseHeader behind delay (name ++ colon :: t) rest = .ok delay') ↔
      ¬ (afterNumber behind = [] ∧ rest = none ∧ t = [] ∧ name ≠ [] ∧ Loose name) := by
  rw [parseHeader, strstr_append hcolon]
  dsimp only
  by_cases hloose : name ≠ [] ∧ Loose name
  · rw [if_pos ((strncmp_colon hzero hlen).mpr hloose), atoiWithin_ok_iff, memoryFrom_colon]
    split_ifs with ht
    · cases rest with
      | none => simp [ht, hloose.1, hloose.2]
      | some r => exact iff_of_true (afterNumber_ne_nil r behind) fun h => nomatch h.2.1
    · exact iff_of_true (afterNumber_ne_nil _ _) fun h => ht h.2.2.1
  · rw [if_neg (mt (strncmp_colon hzero hlen).mp hloose)]
    exact iff_of_true ⟨delay, rfl⟩ fun h => hloose h.2.2.2

/-- Only the header that comes to the end of the text can send `atoi` behind it. -/
theorem parseHeader_ok_iff (ht : ∀ c ∈ token, c ∉ crlf) (hzero : 0 ∉ token)
    (hlen : token.length ≤ LIBHTTP_REQUEST_MAX_SIZE) :
    (∃ delay', parseHeader behind delay token rest = .ok delay') ↔
      ¬ (afterNumber behind = [] ∧ rest = none ∧ OpenDelay token) := by
  rw [OpenDelay, lastLine_of_plain ht]
  by_cases hmem : colon ∈ token
  · obtain ⟨name, t, rfl, hcolon⟩ := List.eq_append_cons_of_mem hmem
    have hopen : (∃ name', name ++ colon :: t = name' ++ [colon] ∧ name' ≠ [] ∧ colon ∉ name' ∧
        Loose name') ↔ t = [] ∧ name ≠ [] ∧ Loose name := by
      constructor
      · rintro ⟨name', heq, hne, hcolon', hloose⟩
        obtain rfl : name = name' := by
          rw [← takeWhile_word hcolon (b := t), heq, takeWhile_word hcolon']
        exact ⟨by simpa using heq, hne, hloose⟩
      · rintro ⟨rfl, hne, hloose⟩
        exact ⟨name, rfl, hne, hcolon, hloose⟩
    rw [hopen]
    exact parseHeader_colon_ok_iff hcolon hzero (le_trans (by simp) hlen)
  · rw [parseHeader_of_notMem hmem]
    refine iff_of_true ⟨delay, rfl⟩ ?_
    rintro ⟨-, -, name, rfl, -⟩
    simp at hmem

/-- The loop over the header lines. -/
theorem headerLoop_ok_iff (hn : s.length ≤ n) (hzero : 0 ∉ s)
    (hlen : s.length ≤ LIBHTTP_REQUEST_MAX_SIZE) :
    (∃ delay', headerLoop behind n delay s = .ok delay') ↔
      ¬ (afterNumber behind = [] ∧ OpenDelay s) := by
  induction n generalizing delay s with
  | zero =>
    obtain rfl := List.eq_nil_of_length_eq_zero (Nat.le_zero.mp hn)
    exact iff_of_true ⟨delay, rfl⟩ fun h => not_openDelay_nil h.2
  | succ n ih =>
    rw [headerLoop]
    cases htok : strtok s with
    | none =>
      rw [strtok, Option.map_eq_none_iff, cut_eq_none] at htok
      refine iff_of_true ⟨delay, rfl⟩ ?_
      rintro ⟨_, name, hlast, _⟩
      have hcolon : colon ∈ lastLine s := hlast ▸ by simp
      exact absurd (htok colon ((List.rtakeWhile_suffix _ _).mem hcolon)) (by decide)
    | some r =>
      obtain ⟨token, rest⟩ := r
      have hshort := strtok_shorter htok
      rw [strtok, Option.map_eq_some_iff] at htok
      obtain ⟨⟨t, e⟩, hcut, hr⟩ := htok
      cases hr
      obtain ⟨d, rfl, hd, -, ht, he⟩ := cut_eq_some hcut
      simp only [List.mem_append, not_or, List.length_append] at hzero hn hlen hshort
      have hstep : (∃ delay', parseHeader behind delay t e.tail? = .ok delay') ↔ _ :=
        parseHeader_ok_iff ht hzero.1.2 (by omega)
      have hrest : ∀ delay, (∃ delay', headerLoop behind n delay (e.tail?.getD []) = .ok delay') ↔
          ¬ (afterNumber behind = [] ∧ OpenDelay (e.tail?.getD [])) := fun delay => by
        refine ih ?_ ?_ ?_
        all_goals cases e <;> simp_all <;> omega
      have hboth : (∃ delay', (parseHeader behind delay t e.tail? >>= fun delay =>
          headerLoop behind n delay (e.tail?.getD [])) = .ok delay') ↔
          (∃ delay', parseHeader behind delay t e.tail? = .ok delay') ∧
            ¬ (afterNumber behind = [] ∧ OpenDelay (e.tail?.getD [])) := by
        simp only [bind_eq_ok]
        rw [exists_comm, ← exists_and_right]
        exact exists_congr fun delay₁ => exists_and_left.trans (and_congr_right fun _ => hrest delay₁)
      refine hboth.trans ?_
      rw [hstep]
      cases e with
      | nil =>
        have hopen : OpenDelay (d ++ t) ↔ OpenDelay t := by
          rw [OpenDelay, lastLine_token hd ht, OpenDelay, lastLine_of_plain ht]
        simp [hopen, not_openDelay_nil]
      | cons c e =>
        have hopen := openDelay_append (he c rfl) (d ++ t) e
        simp only [List.tail?_cons, Option.getD_some, hopen]
        simp

end Headers

section Agreement

variable {behind s token t : Bytes} {delay d d' : ℤ} {rest : Option Bytes} {n : ℕ} {c : UInt8}

theorem between_agrees (h : between c s = .ok t) : ProxyRequests.between c s = some t := by
  obtain ⟨a, b, rfl, ha, ht⟩ := between_eq_ok.mp h
  rw [between_append ha, takeWhile_word ht]

theorem parseHeader_agrees (h : parseHeader behind delay token rest = .ok d)
    (h' : ProxyRequests.parseHeader delay token rest = some d') : d = d' := by
  rw [parseHeader] at h
  rw [ProxyRequests.parseHeader] at h'
  cases hvalue : strstr token colon with
  | none =>
    rw [hvalue] at h h'
    cases h
    cases h'
    rfl
  | some value =>
    rw [hvalue] at h h'
    dsimp only at h h'
    obtain ⟨name, b, rfl, -, rfl⟩ := strstr_eq_some.mp hvalue
    split_ifs at h h'
    · rw [atoiWithin] at h
      split_ifs at h
      cases h
      obtain ⟨m, hm, rfl⟩ := Option.map_eq_some_iff.mp h'
      rw [memoryFrom_colon]
      cases b with
      | nil =>
        rw [textFrom, if_neg (by simp)] at hm
        rw [if_pos rfl, hm]
        exact atoi_append_zero m behind
      | cons x b =>
        have hdrop : (name ++ colon :: x :: b).drop (name.length + 2) = b :=
          List.drop_length_add_append 2
        rw [textFrom, if_pos (by simp), hdrop] at hm
        rw [if_neg (List.cons_ne_nil x b), List.tail_cons, atoi_append_zero, Option.some.inj hm]
    · cases h
      cases h'
      rfl

theorem headerLoop_agrees (h : headerLoop behind n delay s = .ok d)
    (h' : ProxyRequests.headerLoop n delay s = some d') : d = d' := by
  induction n generalizing delay s with
  | zero =>
    cases h
    cases h'
    rfl
  | succ n ih =>
    rw [headerLoop] at h
    rw [ProxyRequests.headerLoop] at h'
    cases htok : strtok s with
    | none =>
      rw [htok] at h h'
      cases h
      cases h'
      rfl
    | some r =>
      rw [htok] at h h'
      obtain ⟨d₁, hstep, h⟩ := bind_eq_ok.mp h
      obtain ⟨d₁', hstep', h'⟩ := Option.bind_eq_some_iff.mp h'
      obtain rfl := parseHeader_agrees hstep hstep'
      exact ih h h'

theorem text_eq (old : Buffer) (r : Received) : text old r = r.bytes.takeWhile (· ≠ 0) := by
  rw [text, terminated, List.takeWhile_append, List.takeWhile_cons_of_neg (by simp), List.append_nil]
  split_ifs with h
  · exact ((List.takeWhile_prefix _).eq_of_length h).symm
  · rfl

/-- A request without a fault is the one that the texts alone give. -/
theorem parse_agrees {old : Buffer} {r : Received} {rq rq' : Request}
    (h : parse_client_request old (some r) = .ok rq)
    (h' : ProxyRequests.parse_client_request r.bytes = some rq') : rq = rq' := by
  rw [parse_client_request, text_eq, parse] at h
  rw [ProxyRequests.parse_client_request, List.take_of_length_le r.fits] at h'
  dsimp only at h'
  cases htok : strtok (r.bytes.takeWhile (· ≠ 0)) with
  | none =>
    rw [htok] at h h'
    cases h
    cases h'
    rfl
  | some tok =>
    rw [htok] at h h'
    obtain ⟨path, hpath, h⟩ := bind_eq_ok.mp h
    obtain ⟨path', hpath', h'⟩ := Option.bind_eq_some_iff.mp h'
    obtain rfl : path = path' := Option.some.inj ((between_agrees hpath).symm.trans hpath')
    split_ifs at h h'
    · cases h
      cases h'
      rfl
    · obtain ⟨p, hp, h⟩ := bind_eq_ok.mp h
      obtain ⟨d, hd, h⟩ := bind_eq_ok.mp h
      obtain ⟨p', hp', h'⟩ := Option.bind_eq_some_iff.mp h'
      obtain ⟨d', hd', rfl⟩ := Option.map_eq_some_iff.mp h'
      cases h
      rw [Option.some.inj ((between_agrees hp).symm.trans hp'), headerLoop_agrees hd hd']

end Agreement

section Served

variable {old : Buffer} {r : Received} {s m token e : Bytes}

theorem zero_notMem_text : 0 ∉ text old r := fun h => by
  simpa using List.mem_takeWhile_imp h

theorem length_text : (text old r).length ≤ LIBHTTP_REQUEST_MAX_SIZE :=
  le_trans (text_eq old r ▸ (List.takeWhile_prefix _).length_le) r.fits

/-- The first line is the first token. -/
theorem wellformed_iff (hcut : cut (· ∈ crlf) s = some (token, e)) : Wellformed s m ↔
    ∃ path, between space token = .ok path ∧
      (GETJOBCMD = path ∨ 2 ≤ path.count slash ∧ ¬ (afterNumber m = [] ∧ OpenDelay e)) := by
  constructor
  · rintro ⟨blank, method, path, version, rest, rfl, hblank, hline, hrest, hmethod, hpath, h⟩
    have hne : requestLine method path version ≠ [] := by simp [requestLine]
    rw [cut_run hblank hne hline hrest] at hcut
    cases hcut
    exact ⟨path, between_eq_ok.mpr ⟨method, version, rfl, hmethod, hpath⟩, h.imp_left Eq.symm⟩
  · rintro ⟨path, hbetween, h⟩
    obtain ⟨method, version, rfl, hmethod, hpath⟩ := between_eq_ok.mp hbetween
    obtain ⟨blank, rfl, hblank, -, hline, hrest⟩ := cut_eq_some hcut
    exact ⟨blank, method, path, version, e, rfl, hblank, hline, hrest, hmethod, hpath,
      h.imp_left Eq.symm⟩

theorem parse_path_iff (hzero : 0 ∉ s) (hlen : s.length ≤ LIBHTTP_REQUEST_MAX_SIZE) :
    (∃ rq, parse s m = .ok rq ∧ rq.path ≠ none) ↔ Wellformed s m := by
  cases hcut : cut (· ∈ crlf) s with
  | none =>
    rw [parse, strtok, hcut]
    refine iff_of_false ?_ ?_
    · rintro ⟨rq, hrq, hne⟩
      cases hrq
      exact hne rfl
    · rintro ⟨blank, method, path, version, rest, rfl, -⟩
      exact absurd (cut_eq_none.mp hcut space (by simp [requestLine])) (by decide)
  | some cut =>
    obtain ⟨token, e⟩ := cut
    have hloop : ∀ delay, (∃ delay', headerLoop m (e.tail?.getD []).length delay (e.tail?.getD []) =
        .ok delay') ↔ ¬ (afterNumber m = [] ∧ OpenDelay e) := fun delay => by
      obtain ⟨d, rfl, -, -, -, he⟩ := cut_eq_some hcut
      simp only [List.mem_append, not_or, List.length_append] at hzero hlen
      rw [← openDelay_tail he]
      refine headerLoop_ok_iff le_rfl ?_ ?_
      all_goals cases e <;> simp_all
      omega
    rw [wellformed_iff hcut, parse, strtok, hcut]
    dsimp only [Option.map_some, Prod.map]
    simp only [bind_eq_ok]
    constructor
    · rintro ⟨rq, ⟨path, hpath, h⟩, -⟩
      refine ⟨path, hpath, ?_⟩
      split_ifs at h with hjob
      · exact .inl hjob
      · simp only [bind_eq_ok] at h
        obtain ⟨p, hp, delay, hdelay, -⟩ := h
        exact .inr ⟨exists_between_iff.mp ⟨p, hp⟩, (hloop _).mp ⟨delay, hdelay⟩⟩
    · rintro ⟨path, hpath, h⟩
      by_cases hjob : GETJOBCMD = path
      · exact ⟨_, ⟨path, hpath, by rw [if_pos hjob]; rfl⟩, Option.some_ne_none path⟩
      · obtain ⟨hslash, hopen⟩ := h.resolve_left hjob
        obtain ⟨p, hp⟩ := exists_between_iff.mpr hslash
        obtain ⟨delay, hdelay⟩ := (hloop (-1)).mpr hopen
        refine ⟨⟨delay, some path, atoi p⟩, ⟨path, hpath, ?_⟩, Option.some_ne_none path⟩
        rw [if_neg hjob, bind_eq_ok]
        exact ⟨p, hp, bind_eq_ok.mpr ⟨delay, hdelay, rfl⟩⟩

/-- Nothing goes wrong with a request if and only if `recv` gives a text of this form. -/
theorem served_iff (old : Buffer) (received : Option Received) :
    (∃ answer, serve_forever old received = .ok answer) ↔
      ∃ r, received = some r ∧ Wellformed (text old r) (behind old r) := by
  cases received with
  | none => exact iff_of_false (fun ⟨_, h⟩ => nomatch h) fun ⟨_, h, _⟩ => nomatch h
  | some r =>
    have hpath : (∃ answer, serve_forever old (some r) = .ok answer) ↔
        ∃ rq, parse (text old r) (behind old r) = .ok rq ∧ rq.path ≠ none := by
      simp only [serve_forever, bind_eq_ok]
      rw [exists_comm]
      refine exists_congr fun rq => exists_and_left.trans (and_congr_right fun _ => ?_)
      cases rq.path with
      | none => exact iff_of_false (fun ⟨_, h⟩ => nomatch h) fun h => h rfl
      | some path => exact iff_of_true ⟨_, rfl⟩ (Option.some_ne_none path)
    rw [hpath, parse_path_iff zero_notMem_text length_text]
    simp

/-- `GET /index.html HTTP/1.1` -/
def noPriority : Received where
  bytes := requestText [71, 69, 84] [47, 105, 110, 100, 101, 120, 46, 104, 116, 109, 108]
    [72, 84, 84, 80, 47, 49, 46, 49] []
  fits := by decide

def zeros : Buffer := ⟨List.replicate _ 0, List.length_replicate⟩

theorem noPriority_fails : serve_forever zeros (some noPriority) = .error .failedSearch := by
  decide

theorem request_crashes : ¬ ∀ old received, ∃ answer, serve_forever old received = .ok answer := by
  intro h
  obtain ⟨answer, hok⟩ := h zeros (some noPriority)
  rw [noPriority_fails] at hok
  cases hok

end Served

end ProxyCrashes
