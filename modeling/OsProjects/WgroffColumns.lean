import OsProjects.WgroffLines

/-! # The width of a page

The first line of a page always has 80 columns. The last one has them if the date has an even
length of at most 80, and if what is printed before it comes to the end of a line.
-/
namespace WgroffColumns

open CStrings WgroffMarks Lines Wgroff WgroffLines

/-- `YYYY-MM-DD` -/
def DateForm (d : Bytes) : Prop :=
  ∃ year month day, d = year ++ dash :: (month ++ dash :: day) ∧
    year.length = 4 ∧ month.length = 2 ∧ day.length = 2 ∧
    (year ++ month ++ day).all isdigit = true

/-- `l` is the first line of `s`. -/
def FirstLine (s l : Bytes) : Prop := ∃ r, s = l ++ newline :: r ∧ newline ∉ l

/-- `l` is the last line of `s`. -/
def LastLine (s l : Bytes) : Prop :=
  ∃ r, s = r ++ (l ++ [newline]) ∧ (∀ c ∈ r.getLast?, c = newline) ∧ newline ∉ l

/-- 80 columns with the label at both ends. -/
def HeadRight (t : Title) (l : Bytes) : Prop :=
  l.length = 80 ∧ ∃ n, l = t.label ++ List.replicate n space ++ t.label

/-- 80 columns with the date in the middle. -/
def FootRight (t : Title) (l : Bytes) : Prop :=
  l.length = 80 ∧ ∃ n, l = List.replicate n space ++ t.date ++ List.replicate n space

/-- The file that should be written. -/
def Columns (t : Title) (outcome : Except Stop (List Output)) : Prop :=
  ∃ s first last, outcome = .ok [⟨t.name, s⟩] ∧ FirstLine s first ∧ HeadRight t first ∧
    LastLine s last ∧ FootRight t last

/-- The last piece that is no comment comes to the end of its line or is a section header. -/
def Ended (bs : List Bytes) : Prop :=
  ∀ b ∈ (bs.filter fun b => b.headD 0 ≠ hashtag).getLast?, SH <+: b ∨ newline ∈ text b

instance (bs : List Bytes) : Decidable (Ended bs) :=
  inferInstanceAs (Decidable (∀ b ∈ (bs.filter _).getLast?, SH <+: b ∨ newline ∈ text b))

section Widths

variable {creates : Bytes → Bool} {line s l d w : Bytes} {t : Title} {n : ℕ}

/-- A word has no white space. -/
theorem mem_words (h : w ∈ words n s) : ∀ c ∈ w, ¬ isspace c = true := by
  induction n generalizing s with
  | zero => cases h
  | succ n ih =>
    rw [words] at h
    split at h
    next => cases h
    next v rest hcut =>
      rcases List.mem_cons.mp h with rfl | h
      · obtain ⟨-, -, -, -, hplain, -⟩ := Tokens.cut_eq_some hcut
        exact hplain
      · exact ih h

theorem accept_words (h : accept creates n line = .ok t) :
    words 3 ((text line).drop 3) = [t.command, t.sec, t.date] := by
  rw [accept] at h
  dsimp only at h
  split_ifs at h
  split at h
  next command sec date hwords =>
    split_ifs at h
    cases h
    exact hwords
  next => cases h

theorem newline_notMem (h : accept creates n line = .ok t) (hw : w ∈ [t.command, t.sec, t.date]) :
    newline ∉ w := fun hmem =>
  mem_words (accept_words h ▸ hw) newline hmem (by decide)

/-- The text in the line with the date. -/
def foot (d : Bytes) : Bytes :=
  spaces (40 - (d.length / 2 : ℕ)) ++ d ++ spaces (40 - (d.length / 2 : ℕ))

theorem length_foot (d : Bytes) : (foot d).length =
    d.length + 2 * (40 - (d.length / 2 : ℕ) : ℤ).natAbs := by
  simp [foot, spaces]
  omega

theorem newline_notMem_spaces (width : ℤ) : newline ∉ spaces width := fun h =>
  absurd (List.eq_of_mem_replicate h) (by decide)

theorem newline_notMem_foot (h : newline ∉ d) : newline ∉ foot d := by
  simp only [foot, List.mem_append, not_or]
  exact ⟨⟨newline_notMem_spaces _, h⟩, newline_notMem_spaces _⟩

theorem newline_notMem_label (hcommand : newline ∉ t.command) (hsec : newline ∉ t.sec) :
    newline ∉ t.label := by
  simp only [Title.label, List.mem_append, List.mem_cons, List.not_mem_nil, or_false, not_or]
  exact ⟨hcommand, by decide, hsec, by decide⟩

/-- A long date only makes the line longer. -/
theorem foot_wide (d : Bytes) : 80 ≤ (foot d).length := by
  rw [length_foot]
  omega

theorem length_foot_iff (d : Bytes) : (foot d).length = 80 ↔ Even d.length ∧ d.length ≤ 80 := by
  rw [length_foot, Nat.even_iff]
  omega

theorem length_of_dateForm (h : DateForm d) : d.length = 10 := by
  obtain ⟨year, month, day, rfl, hy, hm, hd, -⟩ := h
  simp [hy, hm, hd]

/-- The first line has 80 columns. -/
theorem head_right (h : accept creates n line = .ok t)
    (hshort : 2 * (t.command.length + t.sec.length + 2) ≤ 80) (s : Bytes) :
    ∃ first, FirstLine (t.line ++ s) first ∧ HeadRight t first := by
  have hlabel : t.label.length = t.command.length + t.sec.length + 2 := by
    simp [Title.label]
    omega
  have hnewline := newline_notMem_label (newline_notMem (w := t.command) h (by simp))
    (newline_notMem (w := t.sec) h (by simp))
  refine ⟨_, ⟨s, List.append_assoc _ [newline] s, ?_⟩, ?_, _, rfl⟩
  · simp only [List.mem_append, not_or]
    exact ⟨⟨hnewline, newline_notMem_spaces _⟩, hnewline⟩
  · simp only [List.length_append, spaces, List.length_replicate, hlabel]
    omega

end Widths

section Ends

variable {line s l d b p body : Bytes} {bs ps : List Bytes} {t : Title}

theorem mem_buffers (h : b ∈ buffers line ps) : ∃ l, ∃ p ∈ ps, b = put l p := by
  induction ps generalizing line with
  | nil => cases h
  | cons p ps ih =>
    rw [buffers, List.mem_cons] at h
    rcases h with rfl | h
    · exact ⟨line, p, List.mem_cons_self, rfl⟩
    · obtain ⟨l, q, hq, rfl⟩ := ih h
      exact ⟨l, q, List.mem_cons_of_mem p hq, rfl⟩

/-- A newline ends the text of a piece. -/
theorem text_single (hone : Single (· = newline) p) (h : newline ∈ text p) :
    ∃ q, text p = q ++ [newline] := by
  have hp : newline ∈ p := (List.takeWhile_prefix _).mem h
  rcases List.eq_nil_or_concat p with rfl | ⟨q, c, rfl⟩
  · cases hp
  · rw [List.concat_eq_append] at hone hp h ⊢
    rw [Single, List.dropLast_concat] at hone
    have hq : newline ∉ q := fun hmem => hone newline hmem rfl
    obtain rfl : newline = c := by simpa [hq] using hp
    rw [text, List.takeWhile_append] at h ⊢
    split_ifs at h ⊢ with hall
    · exact ⟨q, rfl⟩
    · exact absurd ((List.takeWhile_prefix _).mem h) hq

/-- What a piece prints comes to the end of a line with its text. -/
theorem bodyOut_ends (hone : Single (· = newline) p) (hb : b = put line p)
    (hhash : b.headD 0 ≠ hashtag) :
    (bodyOut b).getLast? = some newline ↔ SH <+: b ∨ newline ∈ text b := by
  by_cases hsection : SH <+: b
  · rw [bodyOut_section hsection]
    refine iff_of_true ?_ (.inl hsection)
    rw [sectionLine, ← List.cons_append, List.getLast?_concat]
  · rw [bodyOut_plain hhash hsection, or_iff_right hsection, hb, convert_put, text_put]
    constructor
    · intro h
      have hmem := List.mem_of_getLast? h
      have hcount := count_converted (c := newline) (by decide) (text p)
      rcases List.mem_append.mp hmem with hmem | hmem
      · exact absurd (List.eq_of_mem_replicate hmem) (by decide)
      · rw [← List.count_pos_iff] at hmem ⊢
        omega
    · intro h
      obtain ⟨q, hq⟩ := text_single hone h
      rw [hq, converted_concat (by decide), ← List.append_assoc, List.getLast?_concat]

/-- What is printed up to the line with the date comes to the end of a line. -/
theorem body_ends (hbs : ∀ b ∈ bs, ∃ l p, b = put l p ∧ Single (· = newline) p) (t : Title) :
    (t.line ++ bs.flatMap bodyOut).getLast? = some newline ↔ Ended bs := by
  induction bs using List.reverseRecOn with
  | nil =>
    refine iff_of_true ?_ fun b hb => by cases hb
    rw [List.flatMap_nil, List.append_nil, Title.line, List.getLast?_concat]
  | append_singleton bs b ih =>
    rw [List.forall_mem_append] at hbs
    rw [List.flatMap_append, List.flatMap_singleton, Ended, List.filter_append]
    by_cases hhash : b.headD 0 = hashtag
    · rw [bodyOut_hash hhash, List.append_nil, ih hbs.1, List.filter_cons_of_neg (by simpa using hhash),
        List.filter_nil, List.append_nil]
      rfl
    · obtain ⟨l, p, hb, hone⟩ := hbs.2 b (List.mem_singleton_self b)
      have hout : bodyOut b ≠ [] := mt bodyOut_eq_nil.mp hhash
      rw [List.filter_cons_of_pos (by simpa using hhash), List.filter_nil, List.getLast?_concat,
        ← List.append_assoc, List.getLast?_append_of_ne_nil _ hout, bodyOut_ends hone hb hhash]
      simp

/-- The last line has 80 columns only if it is the line with the date. -/
theorem last_iff (hd : newline ∉ t.date) (hs : s ≠ []) :
    (∃ last, LastLine (s ++ dateLine t.date) last ∧ FootRight t last) ↔
      s.getLast? = some newline ∧ Even t.date.length ∧ t.date.length ≤ 80 := by
  have hfoot := newline_notMem_foot hd
  rw [← length_foot_iff]
  constructor
  · rintro ⟨last, ⟨r, hr, hends, -⟩, h80, -⟩
    have hcut : s ++ foot t.date = r ++ last := by
      have happ : s ++ foot t.date ++ [newline] = r ++ last ++ [newline] := by
        rw [List.append_assoc, List.append_assoc]
        exact hr
      exact List.append_cancel_right happ
    obtain ⟨v, hv⟩ : last <:+ foot t.date :=
      List.suffix_of_suffix_length_le (hcut ▸ List.suffix_append r last) (List.suffix_append s _)
        (h80 ▸ foot_wide t.date)
    obtain rfl : s ++ v = r := by
      rw [← hv, ← List.append_assoc] at hcut
      exact List.append_cancel_right hcut
    -- behind the last newline there is only the text with the date
    rcases List.eq_nil_or_concat v with rfl | ⟨u, c, rfl⟩
    · rw [List.nil_append] at hv
      rw [List.append_nil] at hends
      have hlast := List.getLast?_eq_some_getLast hs
      exact ⟨hlast.trans (congrArg some (hends _ hlast)), hv ▸ h80⟩
    · rw [List.concat_eq_append] at hends hv
      have hc : c = newline := hends c (by rw [← List.append_assoc, List.getLast?_concat]; rfl)
      exact absurd (hv ▸ by simp [hc]) hfoot
  · rintro ⟨hlast, h80⟩
    refine ⟨foot t.date, ⟨s, rfl, fun c hc => ?_, hfoot⟩, h80, _, rfl⟩
    rw [hlast] at hc
    exact (Option.some.inj hc).symm

end Ends

section Pages

variable {creates : Bytes → Bool} {old file l₀ p : Bytes} {ls ps : List Bytes} {t : Title}

/-- The widths of a page that is given by its pieces. -/
theorem widths_iff (hparts : parts file = p :: ps) (htitle : TH <+: p)
    (haccept : accept creates 1 p = .ok t)
    (hshort : 2 * (t.command.length + t.sec.length + 2) ≤ 80) :
    Columns t (main creates old file) ↔ Body 1 (put old p) ps ∧ Ended (buffers (put old p) ps) ∧
      Even t.date.length ∧ t.date.length ≤ 80 := by
  have hsingle : ∀ b ∈ buffers (put old p) ps, ∃ l q, b = put l q ∧ Single (· = newline) q := by
    intro b hb
    obtain ⟨l, q, hq, rfl⟩ := mem_buffers hb
    have hmem : q ∈ parts file := hparts ▸ List.mem_cons_of_mem p hq
    exact ⟨l, q, rfl, (mem_pieces (by decide) hmem).2.2⟩
  have hdate := newline_notMem (w := t.date) haccept (by simp)
  have hmain : ∀ o, main creates old file = .ok [o] ↔ _ := fun o =>
    main_ok_iff hparts htitle haccept
  have hends := body_ends hsingle t
  have hne : t.line ++ (buffers (put old p) ps).flatMap bodyOut ≠ [] := by simp [Title.line]
  constructor
  · rintro ⟨s, first, last, hok, -, -, hlast, hfoot⟩
    obtain ⟨hbody, ho⟩ := (hmain _).mp hok
    obtain rfl := (Output.mk.inj ho).2
    obtain ⟨hend, hlen⟩ := (last_iff hdate hne).mp ⟨last, hlast, hfoot⟩
    exact ⟨hbody, hends.mp hend, hlen⟩
  · rintro ⟨hbody, hended, hlen⟩
    obtain ⟨last, hlast⟩ := (last_iff hdate hne).mpr ⟨hends.mpr hended, hlen⟩
    obtain ⟨first, hfirst⟩ := head_right haccept hshort
      ((buffers (put old p) ps).flatMap bodyOut ++ dateLine t.date)
    rw [← List.append_assoc] at hfirst
    exact ⟨_, first, last, (hmain _).mpr ⟨hbody, rfl⟩, hfirst.1, hfirst.2, hlast.1, hlast.2⟩

/-- A page has its 80 columns at both ends if and only if the rest of the file is a body that comes
to the end of a line and the date has an even length of at most 80, as it has in the right form. -/
theorem columns_iff (creates : Bytes → Bool) (old file l₀ : Bytes) (ls : List Bytes) (t : Title)
    (hlines : lines (· = newline) file = l₀ :: ls) (hacc : Accepts creates l₀ t)
    (hshort : 2 * (t.command.length + t.sec.length + 2) ≤ 80) :
    (Columns t (main creates old file) ↔
      Body 1 (put old (l₀.take (lineSize - 1))) (parts file).tail ∧
        Ended (buffers (put old (l₀.take (lineSize - 1))) (parts file).tail) ∧
        Even t.date.length ∧ t.date.length ≤ 80) ∧
    (Columns t (main creates old file) ∧ DateForm t.date ↔
      Body 1 (put old (l₀.take (lineSize - 1))) (parts file).tail ∧
        Ended (buffers (put old (l₀.take (lineSize - 1))) (parts file).tail) ∧
        DateForm t.date) := by
  have hlined : Lined (· = newline) (l₀ :: ls) := hlines ▸ lined_lines file
  have hfile : (l₀ :: ls).flatten = file := hlines ▸ flatten_lines file
  obtain ⟨htitle, haccept⟩ := accepts_first hacc
  have hparts : parts file = l₀.take (lineSize - 1) :: (parts file).tail := by
    rw [← hfile, parts_flatten hlined, List.tail_cons]
  have hcolumns : Columns t (main creates old file) ↔ _ := widths_iff hparts htitle haccept hshort
  refine ⟨hcolumns, ?_⟩
  rw [hcolumns]
  constructor
  · rintro ⟨⟨hbody, hended, -⟩, hform⟩
    exact ⟨hbody, hended, hform⟩
  · rintro ⟨hbody, hended, hform⟩
    have hten := length_of_dateForm hform
    exact ⟨⟨hbody, hended, by rw [hten]; decide, by omega⟩, hform⟩

/-- `.TH a 1 2023-10-10` and the line `x`. -/
def datedText : Bytes :=
  [46, 84, 72, 32, 97, 32, 49, 32, 50, 48, 50, 51, 45, 49, 48, 45, 49, 48, 10]

def datedTitle : Title := ⟨[97], [49], [50, 48, 50, 51, 45, 49, 48, 45, 49, 48]⟩

theorem dated_page : Columns datedTitle (main (fun _ => true) [] (datedText ++ [120, 10])) ∧
    DateForm datedTitle.date :=
  (columns_iff _ [] (datedText ++ [120, 10]) datedText [[120, 10]] datedTitle (by decide)
    ⟨by decide, by decide⟩ (by decide)).2.mpr ⟨by decide, by decide,
      [50, 48, 50, 51], [49, 48], [49, 48], by decide, rfl, rfl, rfl, by decide⟩

/-- The date `2-3-4` is accepted. -/
theorem odd_date : ¬ ∀ creates old file l₀ ls t, lines (· = newline) file = l₀ :: ls →
    Accepts creates l₀ t → 2 * (t.command.length + t.sec.length + 2) ≤ 80 →
      Columns t (main creates old file) ∧ DateForm t.date := by
  intro h
  have hform := (h (fun _ => true) [] titleText titleText [] smallTitle (by decide)
    ⟨by decide, by decide⟩ (by decide)).2
  exact absurd (length_of_dateForm hform) (by decide)

end Pages

end WgroffColumns
