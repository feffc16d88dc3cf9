import OsProjects.CStrings
import OsProjects.Tokens

/-! # Requests to the proxy

`parse_client_request` on the bytes that `recv` gives. A pointer into the buffer is the text from
there on. A read through a null pointer or behind the buffer is undefined, and the result is
`none` then.
-/
namespace ProxyRequests

open CStrings Tokens

abbrev Bytes := List UInt8

def space : UInt8 := 32
def slash : UInt8 := 47
def colon : UInt8 := 58
def crlf : Bytes := [13, 10]

def LIBHTTP_REQUEST_MAX_SIZE : ℕ := 8192

/-- `"/GetJob"` -/
def GETJOBCMD : Bytes := [47, 71, 101, 116, 74, 111, 98]

/-- `"Delay"` -/
def delayName : Bytes := [68, 101, 108, 97, 121]

/-- The fields of `struct http_request` that are set. -/
structure Request where
  delay : ℤ
  path : Option Bytes
  priority : ℤ
  deriving DecidableEq, Repr

/-- `strtok` for `"\r\n"`: the token, and the text behind the byte it overwrites, if it does not
come to the end of the buffer. -/
def strtok (s : Bytes) : Option (Bytes × Option Bytes) :=
  (cut (· ∈ crlf) s).map (Prod.map id List.tail?)

/-- The position of the first `c`. -/
def strstr (s : Bytes) (c : UInt8) : Option ℕ := s.findIdx? (· = c)

def strndup (s : Bytes) (size : ℕ) : Bytes := s.take size

/-- `s1 = strstr(s, c)`, `s2 = strstr(s1 + 1, c)` and `strndup(s1 + 1, s2 - s1 - 1)`. If `s2` is
null, the difference is larger than any length. -/
def between (c : UInt8) (s : Bytes) : Option Bytes :=
  (strstr s c).map fun s1 =>
    let t := s.drop (s1 + 1)
    strndup t ((strstr t c).getD t.length)

def size_t (z : ℤ) : ℕ := (z % 18446744073709551616).toNat

/-- The text at a position of the token or just behind the zero that ends it. -/
def textFrom (token : Bytes) (rest : Option Bytes) (i : ℕ) : Option Bytes :=
  if i ≤ token.length then some (token.drop i) else rest

/-- The body of the loop for a header line. -/
def parseHeader (delay : ℤ) (token : Bytes) (rest : Option Bytes) : Option ℤ :=
  match strstr token colon with
  | none => some delay
  | some value =>
    let size := size_t (value - 1)
    if strncmp size delayName token = 0 then (textFrom token rest (value + 2)).map atoi
    else some delay

/-- The loop behind the first line; a token takes a byte at least. -/
def headerLoop : ℕ → ℤ → Bytes → Option ℤ
  | 0, delay, _ => some delay
  | n + 1, delay, s =>
    match strtok s with
    | none => some delay
    | some (token, rest) =>
      (parseHeader delay token rest).bind fun delay => headerLoop n delay (rest.getD [])

/-- The buffer ends at the first zero. -/
def parse_client_request (received : Bytes) : Option Request :=
  let read_buffer := (received.take LIBHTTP_REQUEST_MAX_SIZE).takeWhile (· ≠ 0)
  match strtok read_buffer with
  | none => some ⟨-1, none, -1⟩
  | some (token, rest) =>
    (between space token).bind fun path =>
      if GETJOBCMD = path then some ⟨-1, some path, -1⟩
      else
        (between slash path).bind fun p =>
          let s := rest.getD []
          (headerLoop s.length (-1) s).map fun delay => ⟨delay, some path, atoi p⟩

def Plain (c : UInt8) : Prop := c ≠ 0 ∧ c ∉ crlf

/-- The bytes of a line. -/
def Line (s : Bytes) : Prop := ∀ c ∈ s, Plain c

/-- What stands between the spaces of the first line. -/
def Word (s : Bytes) : Prop := ∀ c ∈ s, Plain c ∧ c ≠ space

instance (c : UInt8) : Decidable (Plain c) := inferInstanceAs (Decidable (c ≠ 0 ∧ c ∉ crlf))

instance (s : Bytes) : Decidable (Line s) := List.decidableBAll _ s

instance (s : Bytes) : Decidable (Word s) := List.decidableBAll _ s

def requestLine (method path version : Bytes) : Bytes :=
  method ++ space :: (path ++ space :: version)

/-- The header lines with their ends, and the empty line. -/
def headerText (lines : List Bytes) : Bytes := lines.flatMap (· ++ crlf) ++ crlf

def requestText (method path version : Bytes) (lines : List Bytes) : Bytes :=
  requestLine method path version ++ crlf ++ headerText lines

/-- A path in the directory of a priority. -/
def priorityPath (n : ℕ) (rest : Bytes) : Bytes := slash :: (decimal n ++ slash :: rest)

section Texts

variable {c : UInt8} {s t a b : Bytes} {n : ℕ} {d : ℤ}

theorem strstr_of_notMem (h : c ∉ s) : strstr s c = none := by
  rw [strstr, List.findIdx?_eq_none_iff]
  intro x hx
  exact decide_eq_false fun hxc => h (hxc ▸ hx)

theorem strstr_append (h : c ∉ a) : strstr (a ++ c :: b) c = some a.length := by
  have ha := strstr_of_notMem h
  rw [strstr] at ha ⊢
  rw [List.findIdx?_append, ha, List.findIdx?_cons]
  simp

/-- Up to the first `c`, or to the end. -/
theorem strndup_strstr (t : Bytes) (c : UInt8) :
    strndup t ((strstr t c).getD t.length) = t.takeWhile (· ≠ c) := by
  rw [strstr, ← List.findIdx_eq_getD_findIdx?, strndup, List.takeWhile_eq_take_findIdx_not]
  simp

theorem between_of_notMem (h : c ∉ s) : between c s = none := by
  rw [between, strstr_of_notMem h]
  rfl

theorem between_append (h : c ∉ a) : between c (a ++ c :: b) = some (b.takeWhile (· ≠ c)) := by
  have hdrop : (a ++ c :: b).drop (a.length + 1) = b := by simp
  rw [between, strstr_append h, Option.map_some]
  dsimp only
  rw [hdrop, strndup_strstr]

theorem takeWhile_word (h : c ∉ a) : (a ++ c :: b).takeWhile (· ≠ c) = a :=
  takeWhile_run (p := (· = c)) (fun _ hx hxc => h (hxc ▸ hx)) fun _ hx => (Option.some_inj.mp hx).symm

end Texts

section Loop

variable {c : UInt8} {s t e : Bytes} {n m : ℕ} {d : ℤ}

theorem strtok_cons (hc : c ∈ crlf) : strtok (c :: s) = strtok s := by
  rw [strtok, strtok, ← cut_append (p := (· ∈ crlf)) (d := [c]) (s := s) (by simpa using hc)]
  rfl

theorem strtok_token (hne : t ≠ []) (ht : Line t) (he : ∀ x ∈ e.head?, x ∈ crlf) :
    strtok (t ++ e) = some (t, e.tail?) := by
  have hcut := cut_run (p := (· ∈ crlf)) (d := []) (by simp) hne (fun x hx => (ht x hx).2) he
  rw [strtok, ← List.nil_append t, hcut]
  rfl

theorem strtok_shorter {r : Option Bytes} (h : strtok s = some (t, r)) :
    (r.getD []).length < s.length := by
  rw [strtok, Option.map_eq_some_iff] at h
  obtain ⟨⟨u, e⟩, hcut, hr⟩ := h
  cases hr
  have hlt := cut_shorter hcut
  cases e with
  | nil => exact hlt
  | cons x e => exact lt_trans (Nat.lt_succ_self _) hlt

/-- With a round for every byte the loop runs to its end. -/
theorem headerLoop_fuel (hn : s.length ≤ n) (hm : s.length ≤ m) :
    headerLoop n d s = headerLoop m d s := by
  induction n generalizing m d s with
  | zero =>
    obtain rfl := List.eq_nil_of_length_eq_zero (Nat.le_zero.mp hn)
    cases m <;> rfl
  | succ n ih =>
    cases htok : strtok s with
    | none =>
      rw [headerLoop, htok]
      cases m with
      | zero => rfl
      | succ m => rw [headerLoop, htok]
    | some r =>
      obtain ⟨token, rest⟩ := r
      have hlt := strtok_shorter htok
      obtain ⟨m, rfl⟩ := Nat.exists_eq_succ_of_ne_zero (n := m) (by omega)
      rw [headerLoop, headerLoop, htok]
      dsimp only
      refine congrArg _ (funext fun d => ?_)
      exact ih (by omega) (by omega)

/-- The loop over all of a text. -/
def headers (d : ℤ) (s : Bytes) : Option ℤ := headerLoop s.length d s

theorem headers_cons (hc : c ∈ crlf) : headers d (c :: s) = headers d s := by
  rw [headers, headers, headerLoop_fuel (m := s.length + 1) (s := s) le_rfl (Nat.le_succ _),
    List.length_cons, headerLoop, headerLoop, strtok_cons hc]

theorem headers_token (hne : t ≠ []) (ht : Line t) (he : ∀ x ∈ e.head?, x ∈ crlf) :
    headers d (t ++ e) = (parseHeader d t e.tail?).bind fun d => headers d e.tail := by
  have htok := strtok_token hne ht he
  have hshort := strtok_shorter htok
  have htail : e.tail?.getD [] = e.tail := by cases e <;> rfl
  rw [htail] at hshort
  obtain ⟨n, hn⟩ := Nat.exists_eq_succ_of_ne_zero (n := (t ++ e).length) (by omega)
  rw [headers, hn, headerLoop, htok]
  dsimp only
  rw [htail]
  exact congrArg _ (funext fun d => headerLoop_fuel (by omega) le_rfl)

/-- A line end, of which a part may be missing. -/
theorem head_take_crlf (s : Bytes) (i : ℕ) : ∀ x ∈ ((crlf ++ s).take i).head?, x ∈ crlf := by
  cases i with
  | zero => simp
  | succ i => simp [crlf]

theorem headers_take_crlf (s : Bytes) (i : ℕ) :
    headers d ((crlf ++ s).take i).tail = headers d (s.take (i - 2)) := by
  match i with
  | 0 => rfl
  | 1 => rfl
  | i + 2 => exact headers_cons (c := 10) (by decide)

theorem headers_crlf : headers d (crlf ++ s) = headers d s := by
  rw [crlf, List.cons_append, List.cons_append, List.nil_append, headers_cons (by decide),
    headers_cons (by decide)]

theorem parseHeader_some (r : Bytes) : ∃ d', parseHeader d t (some r) = some d' := by
  rw [parseHeader]
  split
  next => exact ⟨_, rfl⟩
  next =>
    dsimp only
    split_ifs
    · rw [textFrom]
      split_ifs <;> exact ⟨_, rfl⟩
    · exact ⟨_, rfl⟩

/-- Behind whole lines nothing is undefined. -/
theorem headers_headerText {lines : List Bytes} (h : ∀ l ∈ lines, Line l) :
    ∃ d', headers d (headerText lines) = some d' := by
  induction lines generalizing d with
  | nil => exact ⟨d, headers_crlf (s := [])⟩
  | cons l lines ih =>
    rw [List.forall_mem_cons] at h
    have htext : headerText (l :: lines) = l ++ (crlf ++ headerText lines) := by
      simp [headerText]
    rw [htext]
    rcases eq_or_ne l [] with rfl | hne
    · rw [List.nil_append, headers_crlf]
      exact ih h.2
    · rw [headers_token hne h.1 (by simp [crlf])]
      obtain ⟨d', hd'⟩ := parseHeader_some (d := d) (t := l) (10 :: headerText lines)
      obtain ⟨d'', hd''⟩ := ih (d := d') h.2
      have htail : headers d' (crlf ++ headerText lines).tail = headers d' (headerText lines) :=
        headers_cons (c := 10) (by decide)
      refine ⟨d'', ?_⟩
      rw [show (crlf ++ headerText lines).tail? = some (10 :: headerText lines) from rfl, hd',
        Option.bind_some, htail, hd'']

end Loop

section FirstLine

variable {method path version s rest : Bytes} {lines : List Bytes} {n : ℕ}

theorem Word.notMem_space (h : Word s) : space ∉ s := fun hmem => (h space hmem).2 rfl

theorem plain_requestLine (hmethod : Word method) (hpath : Word path) (hversion : Word version) :
    Line (requestLine method path version) := by
  intro c hc
  simp only [requestLine, List.mem_append, List.mem_cons] at hc
  rcases hc with hc | rfl | hc | rfl | hc
  · exact (hmethod c hc).1
  · exact ⟨by decide, by decide⟩
  · exact (hpath c hc).1
  · exact ⟨by decide, by decide⟩
  · exact (hversion c hc).1

theorem length_requestLine (method path version : Bytes) : (requestLine method path version).length =
    method.length + path.length + version.length + 2 := by
  simp [requestLine]
  omega

theorem length_requestText : (requestText method path version lines).length =
    (requestLine method path version).length + 2 + (headerText lines).length := by
  simp [requestText, crlf]
  omega

/-- The path in a first line of which only a part may be there. -/
theorem between_take (hmethod : Word method) (hpath : Word path) (k : ℕ) :
    between space ((requestLine method path version).take k) =
      if method.length < k then some (path.take (k - (method.length + 1))) else none := by
  by_cases hk : method.length < k
  · obtain ⟨j, rfl⟩ := Nat.exists_eq_add_of_lt hk
    have htake : (requestLine method path version).take (method.length + j + 1) =
        method ++ space :: (path ++ space :: version).take j := by
      rw [requestLine, List.take_append, List.take_of_length_le (by omega),
        show method.length + j + 1 - method.length = j + 1 by omega, List.take_succ_cons]
    rw [if_pos hk, htake, between_append hmethod.notMem_space, ← List.take_takeWhile,
      takeWhile_word hpath.notMem_space, show method.length + j + 1 - (method.length + 1) = j by omega]
  · rw [if_neg hk, requestLine, List.take_append_of_le_length (by omega)]
    exact between_of_notMem fun hmem => hmethod.notMem_space (List.mem_of_mem_take hmem)

/-- What is parsed of a request, of which only the first bytes are received. -/
theorem parse_text (hmethod : Word method) (hpath : Word path) (hversion : Word version)
    (hs : 0 ∉ s) :
    parse_client_request (requestLine method path version ++ crlf ++ s) =
      (if method.length < LIBHTTP_REQUEST_MAX_SIZE then
        some (path.take (LIBHTTP_REQUEST_MAX_SIZE - (method.length + 1))) else none).bind fun path' =>
      if GETJOBCMD = path' then some ⟨-1, some path', -1⟩
      else (between slash path').bind fun p =>
        (headers (-1) (s.take (LIBHTTP_REQUEST_MAX_SIZE -
          (requestLine method path version).length - 2))).map fun delay =>
            ⟨delay, some path', atoi p⟩ := by
  have hplain := plain_requestLine hmethod hpath hversion
  have hne : (requestLine method path version).take LIBHTTP_REQUEST_MAX_SIZE ≠ [] := by
    rw [ne_eq, List.take_eq_nil_iff]
    simp [requestLine, LIBHTTP_REQUEST_MAX_SIZE]
  have hzero : ∀ c ∈ (requestLine method path version ++ crlf ++ s).take LIBHTTP_REQUEST_MAX_SIZE,
      decide (c ≠ 0) = true := by
    intro c hc
    rw [decide_eq_true_eq]
    rintro rfl
    rcases List.mem_append.mp (List.mem_of_mem_take hc) with hc | hc
    · rcases List.mem_append.mp hc with hc | hc
      · exact (hplain 0 hc).1 rfl
      · exact absurd hc (by decide)
    · exact hs hc
  rw [parse_client_request, List.takeWhile_eq_self_iff.mpr hzero, List.append_assoc, List.take_append,
    strtok_token hne (fun c hc => hplain c (List.mem_of_mem_take hc)) (head_take_crlf s _)]
  dsimp only
  rw [between_take hmethod hpath]
  refine congrArg _ (funext fun path' => ?_)
  refine if_congr Iff.rfl rfl (congrArg _ (funext fun p => congrArg _ ?_))
  rw [← headers_take_crlf]
  have htail : ∀ e : Bytes, e.tail?.getD [] = e.tail := fun e => by cases e <;> rfl
  rw [htail]
  rfl

theorem slash_notMem_decimal : slash ∉ decimal n := fun h => by
  have := isdigit_decimal slash h
  exact absurd this (by decide)

theorem getjob_ne_priorityPath : GETJOBCMD ≠ priorityPath n rest := by
  intro h
  obtain ⟨c, t, hct⟩ := List.exists_cons_of_ne_nil (decimal_ne_nil (n := n))
  have hdigit : isdigit c = true := isdigit_decimal c (hct ▸ List.mem_cons_self)
  rw [GETJOBCMD, priorityPath, hct, List.cons_append, List.cons.injEq, List.cons.injEq] at h
  rw [← h.2.1] at hdigit
  exact absurd hdigit (by decide)

theorem word_priorityPath (hrest : Word rest) : Word (priorityPath n rest) := by
  intro c hc
  rw [priorityPath, List.mem_cons, List.mem_append, List.mem_cons] at hc
  rcases hc with rfl | hc | rfl | hc
  · exact ⟨⟨by decide, by decide⟩, by decide⟩
  · have hdigit := isdigit_decimal c hc
    refine ⟨⟨?_, ?_⟩, ?_⟩
    · rintro rfl
      exact absurd hdigit (by decide)
    · rw [crlf, List.mem_cons, List.mem_singleton]
      rintro (rfl | rfl) <;> exact absurd hdigit (by decide)
    · rintro rfl
      exact absurd hdigit (by decide)
  · exact ⟨⟨by decide, by decide⟩, by decide⟩
  · exact hrest c hc

theorem zero_notMem_headerText (h : ∀ l ∈ lines, Line l) : 0 ∉ headerText lines := by
  intro hmem
  rw [headerText, List.mem_append, List.mem_flatMap] at hmem
  rcases hmem with ⟨l, hl, hmem⟩ | hmem
  · rcases List.mem_append.mp hmem with hmem | hmem
    · exact (h l hl 0 hmem).1 rfl
    · exact absurd hmem (by decide)
  · exact absurd hmem (by decide)

/-- A request that fits is read whole. -/
theorem parse_fits (hmethod : Word method) (hpath : Word path) (hversion : Word version)
    (hlines : ∀ l ∈ lines, Line l)
    (hfits : (requestText method path version lines).length ≤ LIBHTTP_REQUEST_MAX_SIZE) :
    parse_client_request (requestText method path version lines) =
      if GETJOBCMD = path then some ⟨-1, some path, -1⟩
      else (between slash path).bind fun p =>
        (headers (-1) (headerText lines)).map fun delay => ⟨delay, some path, atoi p⟩ := by
  rw [length_requestText] at hfits
  have hline := length_requestLine method path version
  rw [requestText, parse_text hmethod hpath hversion (zero_notMem_headerText hlines),
    if_pos (by omega), Option.bind_some, List.take_of_length_le (by omega),
    List.take_of_length_le (by omega)]

/-- The path is handed on, and its first part is the priority; a `/GetJob` has none. -/
theorem path_and_priority (hmethod : Word method) (hversion : Word version)
    (hlines : ∀ l ∈ lines, Line l) :
    (n < 2 ^ 31 → Word rest →
      (requestText method (priorityPath n rest) version lines).length ≤ LIBHTTP_REQUEST_MAX_SIZE →
      ∃ delay, parse_client_request (requestText method (priorityPath n rest) version lines) =
        some ⟨delay, some (priorityPath n rest), n⟩) ∧
    ((requestText method GETJOBCMD version lines).length ≤ LIBHTTP_REQUEST_MAX_SIZE →
      ∃ delay, parse_client_request (requestText method GETJOBCMD version lines) =
        some ⟨delay, some GETJOBCMD, -1⟩) := by
  constructor
  · intro hn hrest hfits
    have hbetween : between slash (priorityPath n rest) = some (decimal n) := by
      have h := between_append (c := slash) (a := []) (b := decimal n ++ slash :: rest) (by simp)
      rwa [takeWhile_word slash_notMem_decimal] at h
    have hatoi : atoi (decimal n) = n := by
      have h : atoi (decimal n ++ []) = n := atoi_decimal hn (by simp)
      rwa [List.append_nil] at h
    obtain ⟨delay, hdelay⟩ := headers_headerText (d := -1) hlines
    refine ⟨delay, ?_⟩
    rw [parse_fits hmethod (word_priorityPath hrest) hversion hlines hfits,
      if_neg getjob_ne_priorityPath, hbetween, Option.bind_some, hdelay, Option.map_some, hatoi]
  · intro hfits
    have hword : Word GETJOBCMD := by decide
    exact ⟨-1, by rw [parse_fits hmethod hword hversion hlines hfits, if_pos rfl]⟩

/-- `GET /12/a HTTP/1.1` and `GET /GetJob HTTP/1.1`, with the header `Host: a`. -/
theorem twelve_parsed :
    (∃ delay, parse_client_request (requestText [71, 69, 84] (priorityPath 12 [97])
      [72, 84, 84, 80, 47, 49, 46, 49] [[72, 111, 115, 116, 58, 32, 97]]) =
        some ⟨delay, some (priorityPath 12 [97]), 12⟩) ∧
    ∃ delay, parse_client_request (requestText [71, 69, 84] GETJOBCMD
      [72, 84, 84, 80, 47, 49, 46, 49] [[72, 111, 115, 116, 58, 32, 97]]) =
        some ⟨delay, some GETJOBCMD, -1⟩ :=
  (path_and_priority (by decide) (by decide) (by decide)).imp
    (fun h => h (by decide) (by decide) (by decide)) fun h => h (by decide)

end FirstLine

end ProxyRequests
