import OsProjects.CStrings
import OsProjects.Lines

/-! # `wapropos`

The second loop of `searchAndPrintKeyword` looks for the keyword while `scan` is on. Four
headings switch it, and a heading is any line with its words. So which lines are searched
depends on the headings before them, known or unknown.
-/
namespace Wapropos

open CStrings Lines

abbrev Bytes := List UInt8

def newline : UInt8 := 10

def MAX_LINE_LENGTH : ℕ := 1000

/-- `"NAME"` -/
def NAME : Bytes := [78, 65, 77, 69]

/-- `"SYNOPSIS"` -/
def SYNOPSIS : Bytes := [83, 89, 78, 79, 80, 83, 73, 83]

/-- `"DESCRIPTION"` -/
def DESCRIPTION : Bytes := [68, 69, 83, 67, 82, 73, 80, 84, 73, 79, 78]

/-- `"FORMATTED INPUT FILES"` -/
def FORMATTED_INPUT_FILES : Bytes :=
  [70, 79, 82, 77, 65, 84, 84, 69, 68, 32, 73, 78, 80, 85, 84, 32, 70, 73, 76, 69, 83]

/-- `strstr(line, word) != NULL`; the line ends at its first zero. -/
def strstr (line word : Bytes) : Bool := word <:+: line.takeWhile (· ≠ 0)

/-- The variables of the loop; `ended` is `end`. -/
structure Scan where
  scan : Bool
  count : ℕ
  ended : Bool
  deriving DecidableEq, Repr

/-- The loop over the lines that `fgets` reads, and whether the page is printed. -/
def scanLoop (keyword : Bytes) (s : Scan) : List Bytes → Bool
  | [] => false
  | line :: lines =>
    if strstr line NAME ∧ s.count = 0 then
      scanLoop keyword { s with scan := true, count := s.count + 1 } lines
    else if strstr line SYNOPSIS then scanLoop keyword { s with scan := false } lines
    else if strstr line DESCRIPTION then scanLoop keyword { s with scan := true } lines
    else if strstr line FORMATTED_INPUT_FILES then
      scanLoop keyword { s with scan := false, ended := true } lines
    else if (strstr line keyword ∧ s.scan = true) ∧ s.ended ≠ true then true
    else scanLoop keyword s lines

/-- What becomes of one page. -/
def searchAndPrintKeyword (keyword file : Bytes) : Bool :=
  scanLoop keyword ⟨false, 0, false⟩ (pieces (· = newline) (MAX_LINE_LENGTH - 1) file)

inductive Heading where
  | name
  | synopsis
  | description
  | inputFiles
  deriving DecidableEq, Repr

/-- The heading that a line is taken for behind some others; only the first `NAME` counts. -/
def heading (hs : List Heading) (line : Bytes) : Option Heading :=
  if strstr line NAME ∧ .name ∉ hs then some .name
  else if strstr line SYNOPSIS then some .synopsis
  else if strstr line DESCRIPTION then some .description
  else if strstr line FORMATTED_INPUT_FILES then some .inputFiles
  else none

/-- The headings of some lines behind others. -/
def headings (hs : List Heading) (lines : List Bytes) : List Heading :=
  lines.foldl (fun hs line => hs ++ (heading hs line).toList) hs

/-- The last heading was `NAME` or `DESCRIPTION`, and none was `FORMATTED INPUT FILES`. -/
def Open (hs : List Heading) : Prop :=
  (hs.getLast? = some .name ∨ hs.getLast? = some .description) ∧ .inputFiles ∉ hs

instance : DecidablePred Open := fun hs =>
  inferInstanceAs (Decidable ((hs.getLast? = _ ∨ hs.getLast? = _) ∧ _))

/-- The keyword is looked for in a line behind these headings. -/
def Searched (hs : List Heading) (line : Bytes) : Prop := Open hs ∧ heading hs line = none

/-- A section with a header line and the lines of its body. -/
structure Section where
  name : Bytes
  body : List Bytes
  named : newline ∉ name
  single : ∀ l ∈ body, newline ∉ l
  short : ∀ l ∈ body, l.length < MAX_LINE_LENGTH - 1
  plain : ∀ l ∈ body, ∀ w ∈ [NAME, SYNOPSIS, DESCRIPTION, FORMATTED_INPUT_FILES], ¬ w <:+: l

structure Page where
  title : Bytes
  sections : List Section
  titled : newline ∉ title

def Section.lines (s : Section) : List Bytes :=
  (s.name ++ [newline]) :: s.body.map (· ++ [newline])

/-- The lines of a page, the header lines among them. -/
def Page.lines (page : Page) : List Bytes :=
  (page.title ++ [newline]) :: page.sections.flatMap Section.lines

def Page.file (page : Page) : Bytes := page.lines.flatten

/-- The sections that should be searched. -/
def Section.Wanted (s : Section) : Prop := s.name = NAME ∨ s.name = DESCRIPTION

instance (s : Section) : Decidable s.Wanted := inferInstanceAs (Decidable (_ ∨ _))

def Page.Mentions (page : Page) (keyword : Bytes) : Prop :=
  ∃ s ∈ page.sections, s.Wanted ∧ ∃ l ∈ s.body, keyword <:+: l ++ [newline]

/-- What `fgets` reads of a page; `wanted` tells the body lines of the sections that should be
searched. -/
structure Part where
  wanted : Bool
  line : Bytes
  deriving DecidableEq, Repr

def headerParts (header : Bytes) : List Part :=
  (pieces (· = newline) (MAX_LINE_LENGTH - 1) (header ++ [newline])).map (⟨false, ·⟩)

def Section.parts (s : Section) : List Part :=
  headerParts s.name ++ s.body.map fun l => ⟨s.Wanted, l ++ [newline]⟩

def Page.parts (page : Page) : List Part :=
  headerParts page.title ++ page.sections.flatMap Section.parts

/-- The keyword is found in a part, behind the parts before it. -/
def Found (keyword : Bytes) (before : List Part) (q : Part) : Prop :=
  Searched (headings [] (before.map Part.line)) q.line ∧ strstr q.line keyword = true

/-- The keyword is found where it should be looked for. -/
def Page.Good (page : Page) (keyword : Bytes) : Prop :=
  ∃ before q after, page.parts = before ++ q :: after ∧ q.wanted = true ∧ Found keyword before q

/-- The keyword is found in another line: a header or a line of another section. -/
def Page.Stray (page : Page) (keyword : Bytes) : Prop :=
  ∃ before q after, page.parts = before ++ q :: after ∧ q.wanted = false ∧ Found keyword before q

/-- The keyword stands where it should be looked for and is not found there. -/
def Page.Missed (page : Page) (keyword : Bytes) : Prop :=
  ∃ before q after, page.parts = before ++ q :: after ∧ q.wanted = true ∧
    keyword <:+: q.line ∧ ¬ Found keyword before q

section Scanning

variable {keyword line : Bytes} {hs : List Heading} {ls : List Bytes}

/-- The variables behind some headings. -/
def state (hs : List Heading) : Scan :=
  ⟨hs.getLast? = some .name ∨ hs.getLast? = some .description, if .name ∈ hs then 1 else 0,
    .inputFiles ∈ hs⟩

theorem count_state : (state hs).count = 0 ↔ .name ∉ hs := by
  rw [state]
  split_ifs with h <;> simp [h]

/-- The variables behind one more heading. -/
theorem state_concat (hs : List Heading) : (h : Heading) → (h = .name → .name ∉ hs) →
    state (hs ++ [h]) = match h with
      | .name => { state hs with scan := true, count := (state hs).count + 1 }
      | .synopsis => { state hs with scan := false }
      | .description => { state hs with scan := true }
      | .inputFiles => { state hs with scan := false, ended := true }
  | .name, hnew => by simp [state, hnew rfl]
  | .synopsis, _ => by simp [state]
  | .description, _ => by simp [state]
  | .inputFiles, _ => by simp [state]

theorem open_iff : Open hs ↔ (state hs).scan = true ∧ (state hs).ended ≠ true := by
  simp [Open, state]

/-- One round: a heading is added, or the line is searched if it is open. -/
theorem scanLoop_cons : scanLoop keyword (state hs) (line :: ls) =
    match heading hs line with
    | some h => scanLoop keyword (state (hs ++ [h])) ls
    | none =>
      if strstr line keyword = true ∧ Open hs then true else scanLoop keyword (state hs) ls := by
  have hfound : ((strstr line keyword = true ∧ (state hs).scan = true) ∧ (state hs).ended ≠ true) ↔
      strstr line keyword = true ∧ Open hs := by rw [and_assoc, open_iff]
  rw [scanLoop, heading]
  simp only [count_state, hfound]
  by_cases hname : strstr line NAME = true ∧ .name ∉ hs
  · rw [if_pos hname, if_pos hname]
    exact congrArg (scanLoop keyword · ls) (state_concat hs .name fun _ => hname.2).symm
  rw [if_neg hname, if_neg hname]
  by_cases hsynopsis : strstr line SYNOPSIS = true
  · rw [if_pos hsynopsis, if_pos hsynopsis]
    exact congrArg (scanLoop keyword · ls) (state_concat hs .synopsis fun h => nomatch h).symm
  rw [if_neg hsynopsis, if_neg hsynopsis]
  by_cases hdescription : strstr line DESCRIPTION = true
  · rw [if_pos hdescription, if_pos hdescription]
    exact congrArg (scanLoop keyword · ls) (state_concat hs .description fun h => nomatch h).symm
  rw [if_neg hdescription, if_neg hdescription]
  by_cases hfiles : strstr line FORMATTED_INPUT_FILES = true
  · rw [if_pos hfiles, if_pos hfiles]
    exact congrArg (scanLoop keyword · ls) (state_concat hs .inputFiles fun h => nomatch h).symm
  · rw [if_neg hfiles, if_neg hfiles]

theorem headings_nil (hs : List Heading) : headings hs [] = hs := rfl

theorem headings_cons (hs : List Heading) (line : Bytes) (ls : List Bytes) :
    headings hs (line :: ls) = headings (hs ++ (heading hs line).toList) ls := rfl

/-- What is sought is the first element, or it stands behind it. -/
theorem exists_split_cons {α : Type*} {P : List α → α → Prop} {x : α} {xs : List α} :
    (∃ before y after, x :: xs = before ++ y :: after ∧ P before y) ↔
      P [] x ∨ ∃ before y after, xs = before ++ y :: after ∧ P (x :: before) y := by
  constructor
  · rintro ⟨before, y, after, heq, hy⟩
    cases before with
    | nil =>
      cases heq
      exact .inl hy
    | cons b before =>
      cases heq
      exact .inr ⟨before, y, after, rfl, hy⟩
  · rintro (hx | ⟨before, y, after, rfl, hy⟩)
    · exact ⟨[], x, xs, rfl, hx⟩
    · exact ⟨x :: before, y, after, rfl, hy⟩

/-- A page is printed if and only if the keyword is found in a line that is searched. -/
theorem scanLoop_iff : scanLoop keyword (state hs) ls = true ↔
    ∃ before line after, ls = before ++ line :: after ∧
      Searched (headings hs before) line ∧ strstr line keyword = true := by
  induction ls generalizing hs with
  | nil => simp [scanLoop]
  | cons line ls ih =>
    rw [exists_split_cons, scanLoop_cons]
    simp only [headings_nil, headings_cons]
    cases hheading : heading hs line with
    | some h =>
      have hnot : ¬ Searched hs line := fun hs' => by simp [hs'.2] at hheading
      rw [ih]
      simp [hnot]
    | none =>
      have hsearched : Searched hs line ↔ Open hs := and_iff_left hheading
      rw [hsearched, Option.toList_none, List.append_nil, ← ih]
      dsimp only
      split_ifs with hhit
      · simp [hhit]
      · rw [and_comm, or_iff_right hhit]

end Scanning

section Pages

variable {keyword l : Bytes} {before : List Part} {q : Part}

theorem pieces_header (header : Bytes) :
    (headerParts header).map Part.line =
      pieces (· = newline) (MAX_LINE_LENGTH - 1) (header ++ [newline]) := by
  rw [headerParts, List.map_map]
  exact List.map_id _

/-- A line of a body is read at once. -/
theorem pieces_body (hone : newline ∉ l) (hshort : l.length < MAX_LINE_LENGTH - 1) :
    pieces (· = newline) (MAX_LINE_LENGTH - 1) (l ++ [newline]) = [l ++ [newline]] := by
  refine pieces_short (by simp) ?_ (single_concat (by rintro x hx rfl; exact hone hx) newline)
  rw [List.length_append]
  exact hshort

theorem pieces_section (s : Section) :
    s.lines.flatMap (pieces (· = newline) (MAX_LINE_LENGTH - 1)) = s.parts.map Part.line := by
  have hbody : s.body.flatMap (fun l => pieces (· = newline) (MAX_LINE_LENGTH - 1) (l ++ [newline])) =
      s.body.map (· ++ [newline]) := by
    rw [List.map_eq_flatMap]
    exact List.flatMap_congr fun l hl => pieces_body (s.single l hl) (s.short l hl)
  rw [Section.lines, List.flatMap_cons, List.flatMap_map, hbody, Section.parts, List.map_append,
    pieces_header, List.map_map]
  rfl

/-- A line of a body is no heading. -/
theorem heading_body (hs : List Heading) (s : Section) (hl : l ∈ s.body) :
    heading hs (l ++ [newline]) = none := by
  have hplain : ∀ w ∈ [NAME, SYNOPSIS, DESCRIPTION, FORMATTED_INPUT_FILES],
      ¬ strstr (l ++ [newline]) w = true := by
    intro w hw hfound
    have hline : w <:+: (l ++ [newline]).takeWhile (· ≠ 0) := of_decide_eq_true hfound
    have hnewline : newline ∉ w ∧ w ≠ [] := by
      clear hfound hline
      revert w
      decide
    rcases List.infix_concat_iff.mp (hline.trans (List.takeWhile_prefix _).isInfix) with hend | hin
    · rcases List.suffix_concat_iff.mp hend with rfl | ⟨t, rfl, -⟩
      · exact hnewline.2 rfl
      · exact hnewline.1 (by simp)
    · exact s.plain l hl w hw hin
  rw [heading, if_neg fun h => hplain NAME (by simp) h.1, if_neg (hplain SYNOPSIS (by simp)),
    if_neg (hplain DESCRIPTION (by simp)), if_neg (hplain FORMATTED_INPUT_FILES (by simp))]

/-- The headings of a section are those of its header line. -/
theorem headings_section (hs : List Heading) (s : Section) :
    headings hs (s.parts.map Part.line) = headings hs ((headerParts s.name).map Part.line) := by
  have hbody : ∀ ls ⊆ s.body, ∀ hs, headings hs (ls.map (· ++ [newline])) = hs := by
    intro ls
    induction ls with
    | nil => exact fun _ hs => rfl
    | cons l ls ih =>
      intro hsub hs
      obtain ⟨hl, hls⟩ := List.cons_subset.mp hsub
      rw [List.map_cons, headings_cons, heading_body hs s hl, Option.toList_none, List.append_nil,
        ih hls]
  rw [Section.parts, List.map_append, headings, List.foldl_append, List.map_map]
  exact hbody s.body (List.Subset.refl _) _

theorem lined_lines (page : Page) : Lined (· = newline) page.lines := by
  refine lined_of_forall fun l hl => ?_
  obtain ⟨k, rfl, hk⟩ : ∃ k, l = k ++ [newline] ∧ newline ∉ k := by
    rcases List.mem_cons.mp hl with rfl | hl
    · exact ⟨page.title, rfl, page.titled⟩
    · obtain ⟨s, -, hl⟩ := List.mem_flatMap.mp hl
      rcases List.mem_cons.mp hl with rfl | hl
      · exact ⟨s.name, rfl, s.named⟩
      · obtain ⟨k, hk, rfl⟩ := List.mem_map.mp hl
        exact ⟨k, rfl, s.single k hk⟩
  exact ⟨single_concat (by rintro x hx rfl; exact hk hx) newline, ends_concat k rfl⟩

/-- What is read of a page. -/
theorem pieces_file (page : Page) :
    pieces (· = newline) (MAX_LINE_LENGTH - 1) page.file = page.parts.map Part.line := by
  rw [Page.file, pieces_lined (by decide) (lined_lines page), Page.lines, List.flatMap_cons,
    Page.parts, List.map_append, pieces_header, List.flatMap_assoc, List.map_flatMap]
  exact congrArg _ (List.flatMap_congr fun s _ => pieces_section s)

/-- A page is reported if and only if the keyword is found in one of its parts. -/
theorem searchAndPrintKeyword_iff (page : Page) : searchAndPrintKeyword keyword page.file = true ↔
    ∃ before q after, page.parts = before ++ q :: after ∧ Found keyword before q := by
  have hstart : (⟨false, 0, false⟩ : Scan) = state [] := rfl
  rw [searchAndPrintKeyword, hstart, pieces_file, scanLoop_iff]
  constructor
  · rintro ⟨lines, line, rest, hparts, hfound⟩
    obtain ⟨before, tail, hsplit, rfl, htail⟩ := List.map_eq_append_iff.mp hparts
    obtain ⟨q, after, rfl, rfl, -⟩ := List.map_eq_cons_iff.mp htail
    exact ⟨before, q, after, hsplit, hfound⟩
  · rintro ⟨before, q, after, hsplit, hfound⟩
    refine ⟨before.map Part.line, q.line, after.map Part.line, ?_, hfound⟩
    rw [hsplit, List.map_append, List.map_cons]

theorem reported_iff (page : Page) : searchAndPrintKeyword keyword page.file = true ↔
    page.Good keyword ∨ page.Stray keyword := by
  rw [searchAndPrintKeyword_iff]
  constructor
  · rintro ⟨before, q, after, hsplit, hfound⟩
    cases hq : q.wanted with
    | true => exact .inl ⟨before, q, after, hsplit, hq, hfound⟩
    | false => exact .inr ⟨before, q, after, hsplit, hq, hfound⟩
  · rintro (⟨before, q, after, hsplit, -, hfound⟩ | ⟨before, q, after, hsplit, -, hfound⟩)
    · exact ⟨before, q, after, hsplit, hfound⟩
    · exact ⟨before, q, after, hsplit, hfound⟩

/-- The wanted parts are the body lines of the wanted sections. -/
theorem mem_parts_wanted (page : Page) : q ∈ page.parts ∧ q.wanted = true ↔
    ∃ s ∈ page.sections, s.Wanted ∧ ∃ l ∈ s.body, q = ⟨true, l ++ [newline]⟩ := by
  have hheader : ∀ header, q ∈ headerParts header → q.wanted = false := by
    intro header hq
    obtain ⟨line, -, rfl⟩ := List.mem_map.mp hq
    rfl
  constructor
  · rintro ⟨hq, hwanted⟩
    rcases List.mem_append.mp hq with hq | hq
    · exact absurd (hheader _ hq) (by simp [hwanted])
    · obtain ⟨s, hs, hq⟩ := List.mem_flatMap.mp hq
      rcases List.mem_append.mp hq with hq | hq
      · exact absurd (hheader _ hq) (by simp [hwanted])
      · obtain ⟨l, hl, rfl⟩ := List.mem_map.mp hq
        exact ⟨s, hs, of_decide_eq_true hwanted, l, hl, congrArg (Part.mk · _) hwanted⟩
  · rintro ⟨s, hs, hwanted, l, hl, rfl⟩
    refine ⟨List.mem_append_right _ (List.mem_flatMap.mpr ⟨s, hs, List.mem_append_right _ ?_⟩), rfl⟩
    exact List.mem_map.mpr ⟨l, hl, congrArg (Part.mk · _) (decide_eq_true hwanted)⟩

theorem Page.mentions_iff (page : Page) :
    page.Mentions keyword ↔ ∃ q ∈ page.parts, q.wanted = true ∧ keyword <:+: q.line := by
  constructor
  · rintro ⟨s, hs, hsection, l, hl, hkeyword⟩
    obtain ⟨hq, hwanted⟩ := (mem_parts_wanted page).mpr ⟨s, hs, hsection, l, hl, rfl⟩
    exact ⟨_, hq, hwanted, hkeyword⟩
  · rintro ⟨q, hq, hwanted, hkeyword⟩
    obtain ⟨s, hs, hsection, l, hl, rfl⟩ := (mem_parts_wanted page).mp ⟨hq, hwanted⟩
    exact ⟨s, hs, hsection, l, hl, hkeyword⟩

theorem mentioned_iff (page : Page) :
    page.Mentions keyword ↔ page.Good keyword ∨ page.Missed keyword := by
  rw [page.mentions_iff]
  constructor
  · rintro ⟨q, hq, hwanted, hkeyword⟩
    obtain ⟨before, after, hsplit⟩ := List.append_of_mem hq
    by_cases hfound : Found keyword before q
    · exact .inl ⟨before, q, after, hsplit, hwanted, hfound⟩
    · exact .inr ⟨before, q, after, hsplit, hwanted, hkeyword, hfound⟩
  · rintro (⟨before, q, after, hsplit, hwanted, -, hfound⟩ |
      ⟨before, q, after, hsplit, hwanted, hkeyword, -⟩)
    · have hline : keyword <:+: q.line.takeWhile (· ≠ 0) := of_decide_eq_true hfound
      exact ⟨q, by simp [hsplit], hwanted, hline.trans (List.takeWhile_prefix _).isInfix⟩
    · exact ⟨q, by simp [hsplit], hwanted, hkeyword⟩

/-- A page is reported as it should be if and only if the keyword is found where it should be, or
what is found elsewhere makes up for what is missed. -/
theorem reports_iff (page : Page) (keyword : CText) :
    (searchAndPrintKeyword keyword.bytes page.file = true ↔ page.Mentions keyword.bytes) ↔
      page.Good keyword.bytes ∨ (page.Stray keyword.bytes ↔ page.Missed keyword.bytes) := by
  rw [reported_iff, mentioned_iff]
  by_cases hgood : page.Good keyword.bytes
  · simp only [hgood, true_or]
  · simp only [hgood, false_or]

/-- A page `t` with the sections `NAME` and `OPTIONS`. -/
def optionsPage : Page :=
  ⟨[116], [⟨NAME, [[97, 32, 45, 32, 98]], by decide, by decide, by decide, by decide⟩,
    ⟨[79, 80, 84, 73, 79, 78, 83], [[107]], by decide, by decide, by decide, by decide⟩], by decide⟩

/-- The keyword `k` stands only under `OPTIONS`. -/
theorem options_reported : ¬ ∀ (page : Page) (keyword : CText),
    searchAndPrintKeyword keyword.bytes page.file = true ↔ page.Mentions keyword.bytes := by
  intro h
  have hreported : searchAndPrintKeyword [107] optionsPage.file = true := by decide
  obtain ⟨s, hs, hwanted, l, hl, hkeyword⟩ := (h optionsPage ⟨[107], by decide⟩).mp hreported
  revert s l
  decide

end Pages

end Wapropos
