import OsProjects.ProxyRequests

/-! # The delay of a request

Which headers the loop of `parse_client_request` takes for the `Delay` header: it compares one
byte less than the name has. The buffer may hold only the first part of the headers.
-/
namespace ProxyHeaders

open CStrings ProxyRequests

/-- A header line `name: value`. -/
@[ext]
structure Header where
  name : Bytes
  value : Bytes
  named : name ≠ []
  noColon : colon ∉ name
  plain : Line (name ++ value)

def Header.line (h : Header) : Bytes := h.name ++ colon :: space :: h.value

/-- The header with the first bytes of its value. -/
def Header.cut (h : Header) (n : ℕ) : Header where
  name := h.name
  value := h.value.take n
  named := h.named
  noColon := h.noColon
  plain c hc := h.plain c <| by
    rcases List.mem_append.mp hc with hc | hc
    · exact List.mem_append_left _ hc
    · exact List.mem_append_right _ (List.mem_of_mem_take hc)

/-- The name without its last byte is a beginning of `Delay`. -/
def Loose (name : Bytes) : Prop := name.dropLast <+: delayName

instance (name : Bytes) : Decidable (Loose name) :=
  inferInstanceAs (Decidable (name.dropLast <+: delayName))

/-- The integer value of the last header with such a name, and -1 if there is none. -/
def lastValue (P : Bytes → Prop) [DecidablePred P] (hs : List Header) : ℤ :=
  ((hs.filter fun h => P h.name).getLast?.map fun h => atoi h.value).getD (-1)

/-- The headers that can be read in the first `room` bytes, the last one perhaps with a part of
its value. Undefined if the bytes end at a colon behind which the value is read. -/
def seen : ℕ → List Header → Option (List Header)
  | _, [] => some []
  | room, h :: hs =>
    if room ≤ h.name.length then some []
    else if room = h.name.length + 1 then if Loose h.name then none else some []
    else (seen (room - (h.line.length + 2)) hs).map (h.cut (room - (h.name.length + 2)) :: ·)

/-- The room for headers in the buffer. -/
def headerRoom (method path version : Bytes) : ℕ :=
  LIBHTTP_REQUEST_MAX_SIZE - (requestLine method path version).length - 2

section Lines

variable {name t : Bytes} {r : Option Bytes} {d : ℤ} {h : Header} {hs : List Header} {room : ℕ}

theorem size_t_length (hne : name ≠ []) (hlen : name.length ≤ LIBHTTP_REQUEST_MAX_SIZE) :
    size_t ((name.length : ℤ) - 1) = name.length - 1 := by
  have hpos := List.length_pos_of_ne_nil hne
  have hmax : name.length ≤ 8192 := hlen
  rw [size_t]
  omega

/-- Comparing one byte less than the name has. -/
theorem strncmp_name (hcolon : 0 ∉ name ++ colon :: t) :
    strncmp (name.length - 1) delayName (name ++ colon :: t) = 0 ↔ Loose name := by
  rw [strncmp_eq_zero (by decide) hcolon, List.take_append_of_le_length (Nat.sub_le _ _),
    ← List.dropLast_eq_take, Loose, List.prefix_iff_eq_take, List.length_dropLast]
  exact eq_comm

theorem parseHeader_colon (hne : name ≠ []) (hcolon : colon ∉ name) (hzero : 0 ∉ name ++ colon :: t)
    (hlen : name.length ≤ LIBHTTP_REQUEST_MAX_SIZE) :
    parseHeader d (name ++ colon :: t) r =
      if Loose name then (textFrom (name ++ colon :: t) r (name.length + 2)).map atoi
      else some d := by
  rw [parseHeader, strstr_append hcolon]
  dsimp only
  rw [size_t_length hne hlen]
  exact if_congr (strncmp_name hzero) rfl rfl

theorem Header.zero_notMem (h : Header) : 0 ∉ h.line := by
  intro hmem
  rw [Header.line, List.mem_append, List.mem_cons, List.mem_cons] at hmem
  rcases hmem with hmem | hmem | hmem | hmem
  · exact (h.plain 0 (List.mem_append_left _ hmem)).1 rfl
  · exact absurd hmem (by decide)
  · exact absurd hmem (by decide)
  · exact (h.plain 0 (List.mem_append_right _ hmem)).1 rfl

theorem Header.plain_line (h : Header) : Line h.line := by
  intro c hc
  rw [Header.line, List.mem_append, List.mem_cons, List.mem_cons] at hc
  rcases hc with hc | rfl | rfl | hc
  · exact h.plain c (List.mem_append_left _ hc)
  · decide
  · decide
  · exact h.plain c (List.mem_append_right _ hc)

theorem Header.length_line (h : Header) :
    h.line.length = h.name.length + 2 + h.value.length := by
  simp [Header.line]
  omega

theorem Header.plain_name (h : Header) : Line h.name := fun c hc =>
  h.plain c (List.mem_append_left _ hc)

/-- A whole header line. -/
theorem parseHeader_line (hlen : h.name.length ≤ LIBHTTP_REQUEST_MAX_SIZE) :
    parseHeader d h.line r = some (if Loose h.name then atoi h.value else d) := by
  have htext : textFrom h.line r (h.name.length + 2) = some h.value := by
    rw [textFrom, if_pos (by simp [Header.line])]
    simp [Header.line]
  rw [Header.line] at htext ⊢
  rw [parseHeader_colon h.named h.noColon h.zero_notMem hlen, htext]
  split_ifs <;> rfl

/-- A line of which only the name and the colon are there. -/
theorem parseHeader_cut (hlen : h.name.length ≤ LIBHTTP_REQUEST_MAX_SIZE) :
    parseHeader d (h.name ++ [colon]) none = if Loose h.name then none else some d := by
  have hzero : 0 ∉ h.name ++ [colon] := by
    intro hmem
    refine h.zero_notMem ?_
    rw [Header.line, List.mem_append, List.mem_cons]
    rw [List.mem_append, List.mem_singleton] at hmem
    exact hmem.imp_right .inl
  have htext : textFrom (h.name ++ [colon]) none (h.name.length + 2) = none := by
    rw [textFrom, if_neg (by simp)]
  rw [parseHeader_colon h.named h.noColon hzero hlen, htext]
  rfl

theorem parseHeader_name (hcolon : colon ∉ name) : parseHeader d name r = some d := by
  rw [parseHeader, strstr_of_notMem hcolon]

/-- A text that ends the buffer is one more token. -/
theorem headers_last (ht : Line t) (hne : t ≠ []) :
    headers d t = parseHeader d t none := by
  have h := headers_token (d := d) (e := []) hne ht (by simp)
  rw [List.append_nil] at h
  rw [h]
  exact Option.bind_fun_some _

theorem headers_ends (ht : ∀ c ∈ t, c ∈ crlf) : headers d t = some d := by
  induction t with
  | nil => rfl
  | cons c t ih =>
    rw [List.forall_mem_cons] at ht
    rw [headers_cons ht.1, ih ht.2]

/-- A line of which the value or the end may be cut. -/
theorem take_line {s : Bytes} (hroom : h.name.length + 2 ≤ room) :
    (h.line ++ (crlf ++ s)).take room = (h.cut (room - (h.name.length + 2))).line ++
      (crlf ++ s).take (room - h.line.length) := by
  obtain ⟨j, rfl⟩ := Nat.exists_eq_add_of_le hroom
  have hline := h.length_line
  have hname : (h.name ++ [colon, space]).length = h.name.length + 2 := by simp
  have hcut : h.line.take (h.name.length + 2 + j) = (h.cut j).line := by
    have hsplit : h.line = h.name ++ [colon, space] ++ h.value := by simp [Header.line]
    rw [hsplit, List.take_append, hname, List.take_of_length_le (by omega), Nat.add_sub_cancel_left]
    simp [Header.line, Header.cut]
  rw [List.take_append, Nat.add_sub_cancel_left, hcut]

/-- The buffer ends in the name. -/
theorem headers_take_name {s : Bytes} (hroom : room ≤ h.name.length) :
    headers d ((h.line ++ s).take room) = some d := by
  have htake : (h.line ++ s).take room = h.name.take room := by
    rw [Header.line, List.append_assoc, List.take_append_of_le_length hroom]
  rw [htake]
  rcases eq_or_ne (h.name.take room) [] with hnil | hne
  · rw [hnil]
    rfl
  · rw [headers_last (fun c hc => h.plain_name c (List.mem_of_mem_take hc)) hne]
    exact parseHeader_name fun hc => h.noColon (List.mem_of_mem_take hc)

/-- The buffer ends behind the colon. -/
theorem headers_take_colon {s : Bytes} (hlen : h.name.length ≤ LIBHTTP_REQUEST_MAX_SIZE) :
    headers d ((h.line ++ s).take (h.name.length + 1)) = if Loose h.name then none else some d := by
  have htake : (h.line ++ s).take (h.name.length + 1) = h.name ++ [colon] := by
    have hsplit : h.line ++ s = h.name ++ [colon] ++ space :: (h.value ++ s) := by simp [Header.line]
    rw [hsplit]
    exact List.take_left' (by simp)
  have hplain : Line (h.name ++ [colon]) := by
    intro c hc
    rcases List.mem_append.mp hc with hc | hc
    · exact h.plain_name c hc
    · rw [List.mem_singleton.mp hc]
      decide
  rw [htake, headers_last hplain (by simp), parseHeader_cut hlen]

/-- The buffer ends in the value or behind it. -/
theorem headers_take_value {s : Bytes} (hlow : h.name.length + 2 ≤ room)
    (hroom : room ≤ LIBHTTP_REQUEST_MAX_SIZE) :
    headers d ((h.line ++ (crlf ++ s)).take room) =
      headers (if Loose h.name then atoi (h.value.take (room - (h.name.length + 2))) else d)
        (s.take (room - (h.line.length + 2))) := by
  have hlen : (h.cut (room - (h.name.length + 2))).name.length ≤ LIBHTTP_REQUEST_MAX_SIZE := by
    show h.name.length ≤ _
    omega
  rw [take_line hlow, headers_token (by simp [Header.line]) (Header.plain_line _)
    (head_take_crlf _ _), parseHeader_line hlen, Option.bind_some, headers_take_crlf, Nat.sub_sub]
  rfl

/-- The lines in the buffer, up to the place where it ends. -/
theorem headers_seen (hroom : room ≤ LIBHTTP_REQUEST_MAX_SIZE) :
    headers d ((headerText (hs.map Header.line)).take room) =
      (seen room hs).map fun shown =>
        shown.foldl (fun d h => if Loose h.name then atoi h.value else d) d := by
  induction hs generalizing d room with
  | nil => exact headers_ends fun c hc => List.mem_of_mem_take hc
  | cons h hs ih =>
    have htext : headerText ((h :: hs).map Header.line) =
        h.line ++ (crlf ++ headerText (hs.map Header.line)) := by simp [headerText]
    rw [htext, seen]
    by_cases hshort : room ≤ h.name.length
    · rw [if_pos hshort, headers_take_name hshort]
      rfl
    · rw [if_neg hshort]
      by_cases hcolon : room = h.name.length + 1
      · rw [if_pos hcolon, hcolon, headers_take_colon (by omega)]
        split_ifs <;> rfl
      · rw [if_neg hcolon, headers_take_value (by omega) hroom, ih (by omega), Option.map_map]
        rfl

end Lines

section Delays

variable {method path version : Bytes} {hs : List Header} {h : Header} {room : ℕ} {d : ℤ}

/-- The loop keeps the value of the last header that it takes. -/
theorem foldl_lastValue (P : Bytes → Prop) [DecidablePred P] (hs : List Header) (d : ℤ) :
    hs.foldl (fun d h => if P h.name then atoi h.value else d) d =
      ((hs.filter fun h => P h.name).getLast?.map fun h => atoi h.value).getD d := by
  induction hs generalizing d with
  | nil => rfl
  | cons h hs ih =>
    rw [List.foldl_cons, ih, List.filter_cons]
    by_cases hP : P h.name
    · rw [if_pos hP, if_pos (decide_eq_true hP), List.getLast?_cons]
      cases (hs.filter fun h => P h.name).getLast? <;> rfl
    · rw [if_neg hP, if_neg (by simpa using hP)]

theorem seen_zero (hs : List Header) : seen 0 hs = some [] := by
  cases hs with
  | nil => rfl
  | cons h hs => exact if_pos (Nat.zero_le _)

/-- The delay that the code gives to a request. -/
theorem parsed_delay (hmethod : Word method) (hpath : Word path) (hversion : Word version)
    (hslash : path.head? = some slash) :
    (parse_client_request (requestText method path version (hs.map Header.line))).map Request.delay =
      if method.length + 1 < LIBHTTP_REQUEST_MAX_SIZE then
        if path = GETJOBCMD then some (-1)
        else (seen (headerRoom method path version) hs).map (lastValue Loose)
      else none := by
  obtain ⟨q, rfl⟩ : ∃ q, path = slash :: q := List.head?_eq_some_iff.mp hslash
  have hzero : 0 ∉ headerText (hs.map Header.line) := zero_notMem_headerText fun l hl => by
    obtain ⟨h, _, rfl⟩ := List.mem_map.mp hl
    exact h.plain_line
  have hheaders : headers (-1) ((headerText (hs.map Header.line)).take
      (headerRoom method (slash :: q) version)) =
        (seen (headerRoom method (slash :: q) version) hs).map (lastValue Loose) := by
    rw [headers_seen (by rw [headerRoom, Nat.sub_sub]; exact Nat.sub_le _ _)]
    exact congrArg (Option.map · _) (funext fun shown => foldl_lastValue Loose shown (-1))
  rw [requestText, parse_text hmethod hpath hversion hzero, ← headerRoom, hheaders]
  by_cases hroom : method.length + 1 < LIBHTTP_REQUEST_MAX_SIZE
  · obtain ⟨k, hk⟩ : ∃ k, LIBHTTP_REQUEST_MAX_SIZE - (method.length + 1) = k + 1 :=
      ⟨LIBHTTP_REQUEST_MAX_SIZE - (method.length + 2), by omega⟩
    have hbetween := between_append (c := slash) (a := []) (b := q.take k) (by simp)
    rw [List.nil_append] at hbetween
    rw [if_pos hroom, if_pos (by omega), Option.bind_some, hk, List.take_succ_cons, hbetween,
      Option.bind_some]
    by_cases hfull : q.length ≤ k
    · rw [List.take_of_length_le hfull]
      by_cases hjob : slash :: q = GETJOBCMD
      · rw [if_pos hjob.symm, if_pos hjob, Option.map_some]
      · rw [if_neg fun h => hjob h.symm, if_neg hjob, Option.map_map]
        exact Option.map_id'
    · -- the path is cut, and no header is in the buffer
      have hnone : headerRoom method (slash :: q) version = 0 := by
        rw [headerRoom, length_requestLine, List.length_cons]
        omega
      rw [hnone, seen_zero]
      split_ifs <;> rfl
  · rw [if_neg hroom]
    by_cases hlast : method.length < LIBHTTP_REQUEST_MAX_SIZE
    · rw [if_pos hlast, show LIBHTTP_REQUEST_MAX_SIZE - (method.length + 1) = 0 by omega]
      rfl
    · rw [if_neg hlast]
      rfl

/-- Headers that are all in the buffer. -/
theorem seen_whole (hfits : (headerText (hs.map Header.line)).length ≤ room) :
    seen room hs = some hs := by
  induction hs generalizing room with
  | nil => rfl
  | cons h hs ih =>
    have hline := h.length_line
    have hlen : (headerText ((h :: hs).map Header.line)).length =
        h.line.length + 2 + (headerText (hs.map Header.line)).length := by
      simp [headerText, crlf]
      omega
    have hcut : h.cut (room - (h.name.length + 2)) = h :=
      Header.ext rfl (List.take_of_length_le (by omega))
    rw [seen, if_neg (by omega), if_neg (by omega), ih (by omega), hcut]
    rfl

/-- The delay is right exactly when a `/GetJob` has none, or when the last header in the buffer
that is taken for `Delay` has the value of the last one that is. -/
theorem delay_iff (hmethod : Word method) (hpath : Word path) (hversion : Word version)
    (hslash : path.head? = some slash) (hs : List Header) :
    (parse_client_request (requestText method path version (hs.map Header.line))).map Request.delay =
        some (lastValue (· = delayName) hs) ↔
      method.length + 1 < LIBHTTP_REQUEST_MAX_SIZE ∧
        if path = GETJOBCMD then lastValue (· = delayName) hs = -1
        else ∃ shown, seen (headerRoom method path version) hs = some shown ∧
          lastValue Loose shown = lastValue (· = delayName) hs := by
  rw [parsed_delay hmethod hpath hversion hslash]
  by_cases hroom : method.length + 1 < LIBHTTP_REQUEST_MAX_SIZE
  · rw [if_pos hroom, and_iff_right hroom]
    split_ifs
    · rw [Option.some_inj]
      exact eq_comm
    · exact Option.map_eq_some_iff
  · rw [if_neg hroom]
    exact iff_of_false (Option.some_ne_none _).symm fun h => hroom h.1

/-- A request that fits into the buffer is served by its last header with a name that is taken. -/
theorem delay_iff_of_fits (hmethod : Word method) (hpath : Word path) (hversion : Word version)
    (hslash : path.head? = some slash)
    (hfits : (requestText method path version (hs.map Header.line)).length ≤
      LIBHTTP_REQUEST_MAX_SIZE) :
    (parse_client_request (requestText method path version (hs.map Header.line))).map Request.delay =
        some (lastValue (· = delayName) hs) ↔
      (if path = GETJOBCMD then -1 else lastValue Loose hs) = lastValue (· = delayName) hs := by
  rw [length_requestText] at hfits
  have hline := length_requestLine method path version
  rw [parsed_delay hmethod hpath hversion hslash, if_pos (by omega),
    seen_whole (by rw [headerRoom]; omega)]
  split_ifs
  · exact Option.some_inj
  · exact Option.some_inj

end Delays

/-- `Host: a` -/
def hostHeader : Header := ⟨[72, 111, 115, 116], [97], by decide, by decide, by decide⟩

/-- `Delay: 5` -/
def fiveHeader : Header := ⟨delayName, [53], by decide, by decide, by decide⟩

/-- `D: 5` -/
def shortHeader : Header := ⟨[68], [53], by decide, by decide, by decide⟩

/-- `GET /1/a HTTP/1.1` with `Delay: 5` among its headers. -/
theorem five_delayed :
    (parse_client_request (requestText [71, 69, 84] (priorityPath 1 [97])
      [72, 84, 84, 80, 47, 49, 46, 49] ([fiveHeader, hostHeader].map Header.line))).map
        Request.delay = some 5 :=
  (delay_iff (by decide) (by decide) (by decide) (by decide) [fiveHeader, hostHeader]).mpr
    ⟨by decide, [fiveHeader, hostHeader], seen_whole (by decide), by decide⟩

/-- A header named `D` is taken for `Delay`. -/
theorem short_name_delays :
    (parse_client_request (requestText [71, 69, 84] (priorityPath 1 [97])
      [72, 84, 84, 80, 47, 49, 46, 49] ([shortHeader].map Header.line))).map Request.delay ≠
        some (lastValue (· = delayName) [shortHeader]) := by
  decide +kernel

end ProxyHeaders
