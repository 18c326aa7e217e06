import Mathlib.Data.List.TakeWhile
import Script.Proofs.Locations

/-! What an excerpt shows of a span.

The places of a text are in the same order by byte offset as by line and column
(`Position.InText.index_lt_iff`), so whether a character lies inside a span can be read off its
line and column (`Span.contains_iff`). Every line that the excerpt shows stands in the text
behind as many line feeds as its number says (`Text.isLine_of_split`), and every column of it is
a place of the text; so the carets below it, which are drawn by column, are under the
characters of the span and no others.

Main statement, `Span.excerpt_exact`. -/
namespace Script

/-! ### Lines -/

namespace Text

/-- The characters end where a line starts. -/
def AtLineStart (cs : List Char) : Prop := cs = [] ∨ ∃ ds, cs = ds ++ ['\n']

/-- The characters of the line with this number, counted from zero, without its line feed. -/
def IsLine (text : List Char) (n : Nat) (line : List Char) : Prop :=
  ∃ before behind, text = before ++ line ++ behind ∧ before.count '\n' = n ∧
    AtLineStart before ∧ '\n' ∉ line ∧ Lexeme.AtLineEnd behind

theorem isLine_newline_zero (text : List Char) : IsLine ('\n' :: text) 0 [] :=
  ⟨[], _, rfl, rfl, .inl rfl, List.not_mem_nil, .inr ⟨text, rfl⟩⟩

theorem IsLine.newline {text line : List Char} {n : Nat} (h : IsLine text n line) :
    IsLine ('\n' :: text) (n + 1) line := by
  obtain ⟨before, behind, rfl, rfl, hstart, hline, hend⟩ := h
  refine ⟨'\n' :: before, behind, rfl, by simp, ?_, hline, hend⟩
  rcases hstart with rfl | ⟨ds, rfl⟩
  · exact .inr ⟨[], rfl⟩
  · exact .inr ⟨'\n' :: ds, rfl⟩

/-- A character before a text lengthens its first line. -/
theorem IsLine.first {text line : List Char} {c : Char} (hc : c ≠ '\n') (h : IsLine text 0 line) :
    IsLine (c :: text) 0 (c :: line) := by
  obtain ⟨before, behind, rfl, hcount, hstart, hline, hend⟩ := h
  have hbefore : before = [] := by
    rcases hstart with rfl | ⟨ds, rfl⟩
    · rfl
    · simp at hcount
  subst hbefore
  refine ⟨[], behind, rfl, rfl, .inl rfl, ?_, hend⟩
  simp [Ne.symm hc, hline]

theorem IsLine.later {text line : List Char} {n : Nat} {c : Char} (hc : c ≠ '\n')
    (h : IsLine text (n + 1) line) : IsLine (c :: text) (n + 1) line := by
  obtain ⟨before, behind, rfl, hcount, hstart, hline, hend⟩ := h
  refine ⟨c :: before, behind, rfl, by simp [hc, hcount], ?_, hline, hend⟩
  rcases hstart with rfl | ⟨ds, rfl⟩
  · simp at hcount
  · exact .inr ⟨c :: ds, rfl⟩

/-- The pieces between line feeds are the lines. -/
theorem isLine_of_split {text line : List Char} {n : Nat}
    (h : (split '\n' text)[n]? = some line) : IsLine text n line := by
  induction text generalizing n line with
  | nil =>
    obtain ⟨rfl, rfl⟩ : n = 0 ∧ line = [] := by
      cases n <;> simp_all [split]
    exact ⟨[], [], rfl, rfl, .inl rfl, List.not_mem_nil, .inl rfl⟩
  | cons c text ih =>
    unfold split at h
    by_cases hc : c = '\n'
    · subst hc
      rw [if_pos rfl] at h
      cases n with
      | zero =>
        cases h
        exact isLine_newline_zero text
      | succ n => exact (ih h).newline
    · rw [if_neg hc] at h
      cases hpieces : split '\n' text with
      | nil =>
        have hlength := length_split '\n' text
        rw [hpieces] at hlength
        cases hlength
      | cons piece pieces =>
        rw [hpieces] at h ih
        cases n with
        | zero =>
          cases h
          exact (ih (n := 0) rfl).first hc
        | succ n => exact (ih (n := n + 1) h).later hc

/-- A line as shown: without the carriage returns at its end, and with tabs as blanks. -/
def Displays (line shown : List Char) : Prop :=
  ∃ body returns, line = body ++ List.replicate returns '\r' ∧ body.getLast? ≠ some '\r' ∧
    shown = body.map fun c => if c = '\t' then ' ' else c

theorem displays_shownLine (line : List Char) : Displays line (shownLine line) := by
  refine ⟨dropEndWhile (· == '\r') line, (line.reverse.takeWhile (· == '\r')).length, ?_, ?_, rfl⟩
  · have hreturns : line.reverse.takeWhile (· == '\r') =
        List.replicate (line.reverse.takeWhile (· == '\r')).length '\r' := by
      rw [List.eq_replicate_iff]
      refine ⟨rfl, fun c hc => ?_⟩
      simpa using List.mem_takeWhile_imp hc
    rw [← List.reverse_replicate, ← hreturns, dropEndWhile, ← List.reverse_append,
      List.takeWhile_append_dropWhile, List.reverse_reverse]
  · rw [dropEndWhile, List.getLast?_reverse]
    intro hhead
    have := List.head?_dropWhile_not (· == '\r') line.reverse
    rw [hhead] at this
    simp at this

theorem length_shownLine_le (line : List Char) : (shownLine line).length ≤ line.length := by
  have := (List.dropWhile_suffix (· == '\r') (l := line.reverse)).length_le
  simpa [shownLine, dropEndWhile] using this

end Text

/-! ### The order of places -/

namespace Position

variable {source : Source} {p q : Position} {cs ds : List Char}

theorem columnOf_append (h : '\n' ∉ ds) : columnOf (cs ++ ds) = columnOf cs + ds.length := by
  have hall : ∀ c ∈ ds.reverse, decide (c ≠ '\n') = true := by
    intro c hc
    simp only [ne_eq, decide_eq_true_eq]
    rintro rfl
    exact h (List.mem_reverse.mp hc)
  unfold columnOf
  rw [List.reverse_append, List.takeWhile_append_of_pos hall, List.length_append,
    List.length_reverse, Nat.add_comm]

theorem columnOf_of_atLineStart (h : Text.AtLineStart cs) : columnOf cs = 0 := by
  rcases h with rfl | ⟨ds, rfl⟩
  · rfl
  · simp [columnOf]

/-- The place is on an earlier line, or on the same line and further to the left. -/
def Precedes (p q : Position) : Prop :=
  p.line < q.line ∨ p.line = q.line ∧ p.column < q.column

theorem precedes_after (hne : ds ≠ []) : (after source cs).Precedes (after source (cs ++ ds)) := by
  rw [after_eq, after_eq, Precedes]
  by_cases hd : '\n' ∈ ds
  · left
    have := List.count_pos_iff.mpr hd
    simp only [List.count_append]
    omega
  · right
    have := List.length_pos_iff.mpr hne
    simp only [List.count_append, List.count_eq_zero_of_not_mem hd, columnOf_append hd]
    omega

theorem Precedes.asymm (h : p.Precedes q) : ¬ q.Precedes p := by
  unfold Precedes at *
  omega

/-- Places of one text have the same order by offset as by line and column. -/
theorem InText.index_lt_iff (hp : InText source p) (hq : InText source q) :
    p.index < q.index ↔ p.Precedes q := by
  obtain ⟨cs, hcs, rfl, _⟩ := hp
  obtain ⟨ds, hds, rfl, _⟩ := hq
  rcases List.prefix_or_prefix_of_prefix hcs hds with ⟨r, rfl⟩ | ⟨r, rfl⟩
  · by_cases hr : r = []
    · simp [hr, Precedes]
    · exact iff_of_true (after_index_lt source cs r hr) (precedes_after hr)
  · refine iff_of_false (Nat.not_lt.mpr (after_index_le source ds r)) ?_
    by_cases hr : r = []
    · simp [hr, Precedes]
    · exact (precedes_after hr).asymm

/-- Every column of a line, and the one behind its end, is a place of the text. -/
theorem inText_of_isLine {n k : Nat} {line : List Char}
    (h : Text.IsLine source.text.toList n line) (hk : k ≤ line.length) :
    ∃ p, InText source p ∧ p.line = n ∧ p.column = k := by
  obtain ⟨before, behind, htext, hcount, hstart, hline, _⟩ := h
  have htake : '\n' ∉ line.take k := fun hmem => hline (List.mem_of_mem_take hmem)
  refine ⟨after source (before ++ line.take k), inText_after ?_, ?_, ?_⟩
  · refine ⟨line.drop k ++ behind, ?_⟩
    rw [htext, List.append_assoc, ← List.append_assoc (line.take k), List.take_append_drop]
    simp
  · rw [after_eq]
    simp [List.count_eq_zero_of_not_mem htake, hcount]
  · rw [after_eq]
    simp only [columnOf_append htake, columnOf_of_atLineStart hstart, List.length_take]
    omega

end Position

/-! ### Characters inside a span -/

namespace Span

variable {source : Source} {s : Span} {p : Position} {n k width : Nat}

/-- The source character at this line and column lies inside the span. The line feed of a
line is its last character. -/
def Contains (s : Span) (n k : Nat) : Prop :=
  ∃ before c behind, s.source.text.toList = before ++ c :: behind ∧
    (Position.after s.source before).line = n ∧ (Position.after s.source before).column = k ∧
    s.start.index ≤ (Position.after s.source before).index ∧
    (Position.after s.source before).index < s.stop.index

theorem In.source_eq (h : s.In source) : s.source = source := h.start.source_eq

/-- A character inside a span stands at a place that is not before the start, and before the
end. -/
theorem In.contains_iff (h : s.In source) : s.Contains n k ↔
    ∃ p, Position.InText source p ∧ p.line = n ∧ p.column = k ∧
      ¬ p.Precedes s.start ∧ p.Precedes s.stop := by
  unfold Contains
  rw [h.source_eq]
  constructor
  · rintro ⟨before, c, behind, htext, hline, hcolumn, hstart, hstop⟩
    have hp : Position.InText source (Position.after source before) :=
      Position.inText_after ⟨c :: behind, htext.symm⟩
    rw [hp.index_lt_iff h.stop] at hstop
    rw [← Nat.not_lt, hp.index_lt_iff h.start] at hstart
    exact ⟨_, hp, hline, hcolumn, hstart, hstop⟩
  · rintro ⟨p, hp, hline, hcolumn, hstart, hstop⟩
    rw [← hp.index_lt_iff h.start, Nat.not_lt] at hstart
    rw [← hp.index_lt_iff h.stop] at hstop
    obtain ⟨before, ⟨rest, htext⟩, rfl, hindex, _⟩ := hp
    cases rest with
    | nil =>
      -- The end of the text is before no place of it.
      have hend := h.stop.index_le
      rw [List.append_nil] at htext
      rw [hindex, htext, String.ofList_toList] at hstop
      omega
    | cons c behind => exact ⟨before, c, behind, htext.symm, hline, hcolumn, hstart, hstop⟩

/-! ### Lines of an excerpt -/

/-- The lines from the first to the last of an excerpt are those that have a character of the
span. -/
theorem In.exists_contains_iff (h : s.In source) (hne : s.start.index < s.stop.index) :
    (∃ k, s.Contains n k) ↔ s.start.line ≤ n ∧ n ≤ s.lastLine.1 := by
  rw [h.start.index_lt_iff h.stop] at hne
  constructor
  · rintro ⟨k, hk⟩
    obtain ⟨p, _, rfl, rfl, hstart, hstop⟩ := h.contains_iff.mp hk
    unfold Position.Precedes at hstart hstop
    unfold lastLine
    split <;> omega
  · rintro ⟨hfirst, hlast⟩
    by_cases hn : n = s.start.line
    · exact ⟨_, h.contains_iff.mpr ⟨s.start, h.start, hn.symm, rfl, by simp [Position.Precedes], hne⟩⟩
    · -- A later line has a character of the span at its start.
      obtain ⟨line, hline⟩ := h.line_exists hlast
      obtain ⟨p, hp, hpline, hpcolumn⟩ :=
        Position.inText_of_isLine (Text.isLine_of_split hline) (Nat.zero_le _)
      refine ⟨0, h.contains_iff.mpr ⟨p, hp, hpline, hpcolumn, ?_, ?_⟩⟩
      · unfold Position.Precedes
        omega
      · unfold Position.Precedes
        unfold lastLine at hlast
        split at hlast <;> omega

/-! ### Carets -/

theorem getElem?_carets (blanks carets k : Nat) :
    (List.replicate blanks ' ' ++ List.replicate carets '^')[k]? = some '^' ↔
      blanks ≤ k ∧ k < blanks + carets := by
  rw [List.getElem?_append, List.length_replicate]
  by_cases hk : k < blanks
  · simp only [if_pos hk, List.getElem?_replicate, Option.some.injEq, Char.reduceEq, false_iff]
    omega
  · by_cases hcaret : k - blanks < carets
    · simp only [if_neg hk, List.getElem?_replicate, if_pos hcaret, true_iff]
      omega
    · simp only [if_neg hk, List.getElem?_replicate, if_neg hcaret, reduceCtorEq, false_iff]
      omega

/-- Within the width of a line the carets are at the columns of the span. -/
theorem caretRow_iff (hne : s.start.Precedes s.stop) (hfirst : s.start.line ≤ n)
    (hlast : n ≤ s.lastLine.1) (hk : k < width) :
    (s.caretRow n width)[k]? = some '^' ↔
      ¬ (n < s.start.line ∨ n = s.start.line ∧ k < s.start.column) ∧
        (n < s.stop.line ∨ n = s.stop.line ∧ k < s.stop.column) := by
  unfold Position.Precedes at hne
  by_cases hbreak : s.start.line < s.stop.line ∧ s.stop.column = 0
  · have hlines : s.lastLine = (s.stop.line - 1, none) := if_pos hbreak
    rw [hlines] at hlast
    simp only [caretRow, hlines, getElem?_carets]
    split_ifs <;> omega
  · have hlines : s.lastLine = (max s.stop.line s.start.line, some s.stop.column) := if_neg hbreak
    rw [hlines] at hlast
    simp only [caretRow, hlines, getElem?_carets]
    split_ifs <;> omega

/-- There are blanks, and then at least one caret. -/
theorem exists_caretRow_eq (s : Span) (n width : Nat) : ∃ blanks more,
    s.caretRow n width = List.replicate blanks ' ' ++ List.replicate (more + 1) '^' := by
  unfold caretRow
  exact ⟨_, max _ 1 - 1, by rw [Nat.sub_add_cancel (Nat.le_max_right ..)]⟩

/-- What stands in an excerpt for the line `n`: the line as shown, and below it blanks and at
least one caret, where the columns with a caret are those of the span. -/
structure Shows (s : Span) (n : Nat) (shown carets : List Char) : Prop where
  line : ∃ line, Text.IsLine s.source.text.toList n line ∧ Text.Displays line shown
  row : ∃ blanks more, carets = List.replicate blanks ' ' ++ List.replicate (more + 1) '^'
  marks : ∀ k < shown.length, carets[k]? = some '^' ↔ s.Contains n k

/-- The line with a number as an excerpt shows it. -/
def shownAt (s : Span) (n : Nat) : List Char :=
  Text.shownLine ((Text.split '\n' s.source.text.toList)[n]?.getD [])

theorem In.shownAt_eq (h : s.In source) (hlast : n ≤ s.lastLine.1) :
    ∃ line, Text.IsLine s.source.text.toList n line ∧ s.shownAt n = Text.shownLine line := by
  obtain ⟨line, hsplit⟩ := h.line_exists hlast
  unfold shownAt
  rw [h.source_eq, hsplit, Option.getD_some]
  exact ⟨line, Text.isLine_of_split hsplit, rfl⟩

theorem In.shows (h : s.In source) (hne : s.start.index < s.stop.index)
    (hfirst : s.start.line ≤ n) (hlast : n ≤ s.lastLine.1) :
    s.Shows n (s.shownAt n) (s.caretRow n (s.shownAt n).length) := by
  obtain ⟨line, hline, hshown⟩ := h.shownAt_eq hlast
  refine ⟨⟨line, hline, hshown ▸ Text.displays_shownLine line⟩, s.exists_caretRow_eq n _,
    fun k hk => ?_⟩
  rw [caretRow_iff ((h.start.index_lt_iff h.stop).mp hne) hfirst hlast hk, h.contains_iff]
  rw [hshown] at hk
  rw [h.source_eq] at hline
  obtain ⟨p, hp, rfl, rfl⟩ := Position.inText_of_isLine hline
    (Nat.le_of_lt (Nat.lt_of_lt_of_le hk (Text.length_shownLine_le line)))
  constructor
  · rintro ⟨hstart, hstop⟩
    exact ⟨p, hp, rfl, rfl, hstart, hstop⟩
  · rintro ⟨q, _, hqline, hqcolumn, hstart, hstop⟩
    rw [← hqline, ← hqcolumn]
    exact ⟨hstart, hstop⟩

/-- An empty span starts and ends on the same line and in the same column. -/
theorem In.stop_eq (h : s.In source) (hempty : s.start.index = s.stop.index) :
    s.stop.line = s.start.line ∧ s.stop.column = s.start.column := by
  have hstart := (h.start.index_lt_iff h.stop).mpr.mt (by omega)
  have hstop := (h.stop.index_lt_iff h.start).mpr.mt (by omega)
  unfold Position.Precedes at hstart hstop
  omega

theorem excerpt_eq (s : Span) : s.excerpt = String.intercalate "\n"
    ((List.range' s.start.line (s.lastLine.1 + 1 - s.start.line)).flatMap fun n =>
      [String.ofList (s.shownAt n), String.ofList (s.caretRow n (s.shownAt n).length)]) := by
  unfold excerpt excerptRows
  rw [List.range'_eq_map_range, List.flatMap_map, List.map_flatMap]
  rfl

/-- **Carets mark exactly the span.** For a span of places of one text, the excerpt of one that
is not empty shows, in order, the lines that have a character of the span and no others, each
above a row with a caret under the characters of the span and no others. That of an empty span
shows the line of its start and one caret, at the column of its start. -/
theorem excerpt_exact (h : s.In source) :
    (s.start.index < s.stop.index → ∃ (lines : List Nat) (shown carets : Nat → List Char),
      lines.Pairwise (· < ·) ∧ (∀ n, n ∈ lines ↔ ∃ k, s.Contains n k) ∧
      (∀ n ∈ lines, s.Shows n (shown n) (carets n)) ∧
      s.excerpt = String.intercalate "\n" (lines.flatMap fun n =>
        [String.ofList (shown n), String.ofList (carets n)])) ∧
    (s.start.index = s.stop.index → ∃ line shown,
      Text.IsLine s.source.text.toList s.start.line line ∧ Text.Displays line shown ∧
      s.excerpt = String.intercalate "\n"
        [String.ofList shown, String.ofList (List.replicate s.start.column ' ' ++ ['^'])]) := by
  refine ⟨fun hne => ⟨_, _, _, List.pairwise_lt_range', fun n => ?_, fun n hn => ?_, s.excerpt_eq⟩,
    fun hempty => ?_⟩
  · rw [h.exists_contains_iff hne, List.mem_range'_1]
    omega
  · rw [List.mem_range'_1] at hn
    exact h.shows hne hn.1 (by omega)
  · obtain ⟨hline, hcolumn⟩ := h.stop_eq hempty
    have hlines : s.lastLine = (s.start.line, some s.start.column) := by
      simp [lastLine, hline, hcolumn]
    have hrow : ∀ width, s.caretRow s.start.line width =
        List.replicate s.start.column ' ' ++ ['^'] := by
      intro width
      simp [caretRow, hlines]
    obtain ⟨line, hisLine, hshown⟩ := h.shownAt_eq (n := s.start.line) (by rw [hlines])
    refine ⟨line, s.shownAt s.start.line, hisLine, hshown ▸ Text.displays_shownLine line, ?_⟩
    rw [excerpt_eq, hlines]
    simp [hrow, List.range'_one]

/-! ### A span over three lines -/

/-- The first line ends in a carriage return, the second is empty, the third has a tab. -/
def ragged : Source := ⟨"<test>", "ab\r\n\nc\td"⟩

/-- From the second character of the first line to the tab. -/
def raggedSpan : Span :=
  ⟨Position.after ragged ['a'], Position.after ragged ['a', 'b', '\r', '\n', '\n', 'c', '\t']⟩

theorem excerpt_exact_ragged :
    raggedSpan.excerpt = "ab\n ^\n\n^\nc d\n^^" ∧
      ∃ (lines : List Nat) (shown carets : Nat → List Char),
        (∀ n, n ∈ lines ↔ ∃ k, raggedSpan.Contains n k) ∧
        (∀ n ∈ lines, raggedSpan.Shows n (shown n) (carets n)) ∧
        raggedSpan.excerpt = String.intercalate "\n" (lines.flatMap fun n =>
          [String.ofList (shown n), String.ofList (carets n)]) := by
  have hin : raggedSpan.In ragged :=
    ⟨Position.inText_after ⟨_, rfl⟩, Position.inText_after ⟨_, rfl⟩, by decide +kernel⟩
  obtain ⟨lines, shown, carets, _, hlines, hshows, hexcerpt⟩ :=
    (excerpt_exact hin).1 (by decide +kernel)
  exact ⟨by decide +kernel, lines, shown, carets, hlines, hshows, hexcerpt⟩

end Span

end Script
