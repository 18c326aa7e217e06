import Mathlib.Data.List.Induction
import Script.Lexer
import Script.Proofs.Trivia

/-! A token stream cuts its text into pieces.

`Tiles` describes the cut: spans in order, each over at least one character, and
nothing but blanks and comments in the gaps. Every step of the lexer lengthens the
cut by one piece or one gap (`step_tiles`), so a whole run does (`all_tiles`).
Asking the stream item by item gives the same items and then nothing
(`answer_eq`). -/
namespace Script

/-! ### Positions -/

namespace Position

theorem after_append (source : Source) (cs ds : List Char) :
    after source (cs ++ ds) = (after source cs).advanceAll ds :=
  advanceAll_append _ cs ds

theorem after_concat (source : Source) (cs : List Char) (c : Char) :
    after source (cs ++ [c]) = (after source cs).advance c :=
  after_append source cs [c]

/-- The column: how many characters stand behind the last line feed. -/
def columnOf (cs : List Char) : Nat := (cs.reverse.takeWhile (· ≠ '\n')).length

/-- The three ways in which a position names a place agree. -/
theorem after_eq (source : Source) (cs : List Char) :
    after source cs = ⟨source, (String.ofList cs).utf8ByteSize, cs.count '\n', columnOf cs⟩ := by
  induction cs using List.reverseRecOn with
  | nil => rfl
  | append_singleton cs c ih =>
    have hsize : (String.ofList (cs ++ [c])).utf8ByteSize =
        (String.ofList cs).utf8ByteSize + c.utf8Size := by
      rw [← String.utf8ByteSize_push, String.push_eq_append, String.ofList_append]
      rfl
    rw [after_concat, ih, hsize]
    by_cases hc : c = '\n'
    · subst hc
      simp [advance, columnOf]
    · simp [advance, columnOf, hc]

/-- Behind more characters the index is larger. -/
theorem after_index_lt (source : Source) (cs ds : List Char) (hne : ds ≠ []) :
    (after source cs).index < (after source (cs ++ ds)).index := by
  obtain ⟨d, ds, rfl⟩ := List.exists_cons_of_ne_nil hne
  have hd := Char.utf8Size_pos d
  rw [after_eq, after_eq]
  simp only [String.ofList_append, String.ofList_cons, String.utf8ByteSize_append]
  simp only [String.utf8ByteSize_singleton]
  omega

theorem after_index_le (source : Source) (cs ds : List Char) :
    (after source cs).index ≤ (after source (cs ++ ds)).index := by
  rw [after_eq, after_eq]
  simp only [String.ofList_append, String.utf8ByteSize_append]
  omega

/-- A place in a source: the fold over some beginning of its text, with the index
its size in bytes, the line its number of line feeds, and the column as many
characters as stand behind the last of them. -/
def InText (source : Source) (p : Position) : Prop :=
  ∃ cs, cs <+: source.text.toList ∧ p = after source cs ∧
    p.index = (String.ofList cs).utf8ByteSize ∧ p.line = cs.count '\n' ∧ p.column = columnOf cs

theorem inText_after {source : Source} {cs : List Char} (h : cs <+: source.text.toList) :
    InText source (after source cs) :=
  ⟨cs, h, rfl, by rw [after_eq], by rw [after_eq], by rw [after_eq]⟩

end Position

/-! ### Items -/

namespace Item

def span : Item → Span
  | .ok token => token.span
  | .error failure => failure.span

def isMarker : Item → Bool
  | .ok token => token.kind.isNoBlankLine
  | .error _ => false

def isEof : Item → Bool
  | .ok token => token.kind.isEof
  | .error _ => false

end Item

/-- The spans of the items that take up text, in order. -/
def pieceSpans (items : List Item) : List Span :=
  (items.filter fun item => !item.isMarker && !item.isEof).map Item.span

/-- `Tiles source before spans rest`: behind the beginning `before` of the source,
the spans cut `rest` into pieces, none of them empty, with gaps between. -/
inductive Tiles (source : Source) : List Char → List Span → List Char → Prop where
  | done {before gap} : Lexeme.Trivia gap [] → Tiles source before [] gap
  | piece {before gap taken rest spans} : Lexeme.Trivia gap (taken ++ rest) → taken ≠ [] →
      Tiles source (before ++ gap ++ taken) spans rest →
      Tiles source before
        (⟨Position.after source (before ++ gap), Position.after source (before ++ gap ++ taken)⟩
          :: spans)
        (gap ++ (taken ++ rest))

/-- A blank or a comment lengthens the first gap. -/
theorem Tiles.lead {source : Source} {before taken rest : List Char} {spans : List Span}
    (ht : ∀ gap rest', rest = gap ++ rest' → Lexeme.Trivia gap rest' →
      Lexeme.Trivia (taken ++ gap) rest')
    (h : Tiles source (before ++ taken) spans rest) : Tiles source before spans (taken ++ rest) := by
  cases h with
  | done hg => exact .done (ht _ [] (List.append_nil _).symm hg)
  | @piece _ gap piece rest spans hg hne h =>
    rw [← List.append_assoc]
    rw [List.append_assoc before taken gap] at h ⊢
    exact .piece (ht gap (piece ++ rest) rfl hg) hne h

/-- The first piece of a text without a gap before it. -/
theorem Tiles.cons {source : Source} {before taken rest : List Char} {spans : List Span}
    (hne : taken ≠ []) (h : Tiles source (before ++ taken) spans rest) :
    Tiles source before
      (⟨Position.after source before, Position.after source (before ++ taken)⟩ :: spans)
      (taken ++ rest) := by
  have hgap : Lexeme.Trivia [] (taken ++ rest) := .nil
  have h : Tiles source (before ++ [] ++ taken) spans rest := by simpa using h
  simpa using Tiles.piece hgap hne h

/-- Spans that cut a text lie in it, and none is empty. -/
theorem Tiles.within {source : Source} {before rest : List Char} {spans : List Span}
    (h : Tiles source before spans rest) :
    ∀ s ∈ spans, (Position.after source before).index ≤ s.start.index ∧
      s.start.index < s.stop.index ∧
      s.stop.index ≤ (Position.after source (before ++ rest)).index := by
  induction h with
  | done => intro s hs; cases hs
  | @piece before gap taken rest spans _ hne h ih =>
    intro s hs
    rcases List.mem_cons.mp hs with rfl | hs
    · refine ⟨Position.after_index_le source before gap,
        Position.after_index_lt source (before ++ gap) taken hne, ?_⟩
      have := Position.after_index_le source (before ++ gap ++ taken) rest
      simpa using this
    · obtain ⟨hstart, hlt, hstop⟩ := ih s hs
      have hbefore := Position.after_index_le source before (gap ++ taken)
      rw [← List.append_assoc] at hbefore
      refine ⟨Nat.le_trans hbefore hstart, hlt, ?_⟩
      simpa using hstop

/-- Spans that cut a text stand in its order and do not overlap. -/
theorem Tiles.pairwise {source : Source} {before rest : List Char} {spans : List Span}
    (h : Tiles source before spans rest) :
    spans.Pairwise fun s t => s.stop.index ≤ t.start.index := by
  induction h with
  | done => exact .nil
  | piece _ _ h ih => exact .cons (fun t ht => (h.within t ht).1) ih

/-! ### One step of the lexer -/

namespace Lexeme

/-- Whether a piece is handed out as an item: tokens and faults, and no token of
the text is a marker or the end token. -/
def isPiece : Lexeme → Bool
  | .blank | .comment => false
  | .token kind => !kind.isNoBlankLine && !kind.isEof
  | .fault _ => true

theorem isPiece_integer (digits : List Char) : (integer digits).isPiece = true := by
  unfold integer
  cases int64? (Text.digitsValue digits) <;> rfl

theorem isPiece_scanNumber (cs : List Char) : (scanNumber cs).lexeme.isPiece = true := by
  unfold scanNumber
  split
  · simp only [decimal, isPiece, TokenKind.isNoBlankLine, TokenKind.isEof, Bool.not_false,
      Bool.and_self]
  · rw [isPiece_integer]

theorem isPiece_scanWord (cs : List Char) : (scanWord cs).lexeme.isPiece = true := by
  simp only [scanWord, word]
  split <;> rfl

theorem isPiece_scanString (cs : List Char) : (scanString cs).lexeme.isPiece = true := by
  simp only [scanString]
  split <;> rfl

theorem isPiece_scanSymbol (c : Char) (cs : List Char) :
    (scanSymbol c cs).lexeme.isPiece = true := by
  fun_cases scanSymbol c cs <;> rfl

/-- What the first piece of a text can be: a comment, a blank, or an item. -/
theorem scan_cases (c : Char) (cs : List Char) :
    (scanComment? c cs = some (scan c cs) ∧ (scan c cs).lexeme = .comment) ∨
      ((c = ' ' ∨ c = '\t' ∨ c = '\r') ∧ scan c cs = ⟨.blank, [c], cs⟩) ∨
      (scan c cs).lexeme.isPiece = true := by
  unfold scan
  split
  · rename_i s h
    refine .inl ⟨h, ?_⟩
    unfold scanComment? at h
    split at h <;> cases h <;> rfl
  · right
    split
    · exact .inl ⟨‹_›, rfl⟩
    · right
      split
      · rfl
      · split
        · exact isPiece_scanString cs
        · split
          · exact isPiece_scanNumber (c :: cs)
          · split
            · exact isPiece_scanWord (c :: cs)
            · exact isPiece_scanSymbol c cs

/-- A piece leaves less text. -/
theorem scan_shorter (c : Char) (cs : List Char) : (scan c cs).rest.length ≤ cs.length := by
  have happ := congrArg List.length (scan_append c cs)
  have hne := List.length_pos_iff.mpr (scan_taken_ne_nil c cs)
  rw [List.length_append, List.length_cons] at happ
  omega

end Lexeme

namespace Lexer

@[simp] theorem watch_rest (l : Lexer) (x : Lexeme) : (l.watch x).rest = l.rest := by
  unfold watch
  split <;> rfl

@[simp] theorem watch_position (l : Lexer) (x : Lexeme) : (l.watch x).position = l.position := by
  unfold watch
  split <;> rfl

theorem step_rest (l : Lexer) (c : Char) (cs : List Char) :
    (l.step c cs).2.rest = (Lexeme.scan c cs).rest := by
  simp [step, move]

theorem step_position (l : Lexer) (c : Char) (cs : List Char) :
    (l.step c cs).2.position = l.position.advanceAll (Lexeme.scan c cs).taken := by
  simp [step, move]

/-- A step leaves less text. -/
theorem step_shorter (l : Lexer) (c : Char) (cs : List Char) :
    (l.step c cs).2.rest.length ≤ cs.length := by
  rw [step_rest]
  exact Lexeme.scan_shorter c cs

/-- Every item of a marker list is one, and points at the lexer's position. -/
theorem mem_marker {l : Lexer} {item : Item} (h : item ∈ l.marker) :
    item.isMarker = true ∧ item.isEof = false ∧ item.span = Span.point l.position := by
  unfold marker at h
  split at h
  · rw [List.mem_singleton] at h
    subst h
    exact ⟨rfl, rfl, rfl⟩
  · cases h

theorem pieceSpans_append (a b : List Item) : pieceSpans (a ++ b) = pieceSpans a ++ pieceSpans b := by
  simp [pieceSpans]

theorem pieceSpans_marker (l : Lexer) : pieceSpans l.marker = [] := by
  unfold marker
  split <;> rfl

/-- An item of the text is handed out with the span of its piece, markers apart. -/
theorem pieceSpans_emit (l : Lexer) (span : Span) {x : Lexeme} (h : x.isPiece = true) :
    pieceSpans (l.emit span x) = [span] := by
  unfold emit
  split
  · cases h
  · cases h
  · rw [pieceSpans_append, pieceSpans_marker]
    rfl
  · rename_i kind _
    simp only [Lexeme.isPiece, Bool.and_eq_true, Bool.not_eq_eq_eq_not, Bool.not_true] at h
    simp [pieceSpans, Item.isMarker, Item.isEof, Item.span, h.1, h.2]
  · rfl

/-- Every item of a step is no end token, and spans the piece or points at its
start. -/
theorem mem_emit {l : Lexer} {span : Span} {x : Lexeme} {item : Item} (h : item ∈ l.emit span x)
    (hx : ∀ kind, x = .token kind → kind.isEof = false) :
    item.isEof = false ∧ (item.span = span ∨ item.span = Span.point l.position) := by
  unfold emit at h
  split at h
  · cases h
  · exact ⟨(mem_marker h).2.1, .inr (mem_marker h).2.2⟩
  · rcases List.mem_append.mp h with h | h
    · exact ⟨(mem_marker h).2.1, .inr (mem_marker h).2.2⟩
    · rw [List.mem_singleton] at h
      subst h
      exact ⟨rfl, .inl rfl⟩
  · rw [List.mem_singleton] at h
    subst h
    exact ⟨hx _ rfl, .inl rfl⟩
  · rw [List.mem_singleton] at h
    subst h
    exact ⟨rfl, .inl rfl⟩

/-- A lexer behind the beginning `before` of its source. -/
structure Behind (source : Source) (before : List Char) (l : Lexer) : Prop where
  position : l.position = Position.after source before
  text : before ++ l.rest = source.text.toList

theorem Behind.inText {source : Source} {before : List Char} {l : Lexer}
    (h : Behind source before l) : Position.InText source l.position := by
  rw [h.position]
  exact Position.inText_after ⟨l.rest, h.text⟩

theorem Behind.step {source : Source} {before cs : List Char} {c : Char} {l : Lexer}
    (h : Behind source before l) (hr : l.rest = c :: cs) :
    Behind source (before ++ (Lexeme.scan c cs).taken) (l.step c cs).2 := by
  refine ⟨?_, ?_⟩
  · rw [step_position, h.position, Position.after_append]
  · rw [step_rest, List.append_assoc, Lexeme.scan_append, ← hr, h.text]

/-- One step lengthens the cut: by the span of its piece, or by a gap. -/
theorem step_tiles {source : Source} {before cs : List Char} {c : Char} {l : Lexer}
    {spans : List Span} (h : Behind source before l) (hr : l.rest = c :: cs)
    (ht : Tiles source (before ++ (Lexeme.scan c cs).taken) spans (l.step c cs).2.rest) :
    Tiles source before (pieceSpans (l.step c cs).1 ++ spans) l.rest := by
  have htext : l.rest = (Lexeme.scan c cs).taken ++ (l.step c cs).2.rest := by
    rw [step_rest, Lexeme.scan_append, hr]
  rw [htext]
  rcases Lexeme.scan_cases c cs with ⟨hs, hx⟩ | ⟨hc, hs⟩ | hx
  · have hspans : pieceSpans (l.step c cs).1 = [] := by
      simp only [Lexer.step, hx, emit, pieceSpans_marker]
    rw [hspans]
    refine ht.lead fun gap rest hrest hg => Lexeme.scanComment?_trivia hs ?_ hg
    rw [← step_rest l, hrest]
  · have hspans : pieceSpans (l.step c cs).1 = [] := by
      simp only [Lexer.step, hs, emit]
      rfl
    rw [hspans]
    refine ht.lead fun gap rest _ hg => ?_
    rw [hs]
    exact .blank hc hg
  · have hspans : pieceSpans (l.step c cs).1 = [⟨l.position, (l.step c cs).2.position⟩] :=
      pieceSpans_emit l _ hx
    rw [hspans, h.position, (h.step hr).position]
    exact ht.cons (Lexeme.scan_taken_ne_nil c cs)

/-- The items of one step lie in the text, and none of them is the end. -/
theorem step_items {source : Source} {before cs : List Char} {c : Char} {l : Lexer} {item : Item}
    (h : Behind source before l) (hr : l.rest = c :: cs) (hi : item ∈ (l.step c cs).1) :
    item.isEof = false ∧ Position.InText source item.span.start ∧
      Position.InText source item.span.stop := by
  have hkind : ∀ kind, (Lexeme.scan c cs).lexeme = .token kind → kind.isEof = false := by
    intro kind hk
    rcases Lexeme.scan_cases c cs with ⟨_, hx⟩ | ⟨_, hs⟩ | hx
    · rw [hx] at hk
      cases hk
    · rw [hs] at hk
      cases hk
    · rw [hk] at hx
      simp only [Lexeme.isPiece, Bool.and_eq_true, Bool.not_eq_eq_eq_not, Bool.not_true] at hx
      exact hx.2
  obtain ⟨he, hspan⟩ := mem_emit hi hkind
  refine ⟨he, ?_⟩
  rcases hspan with hspan | hspan <;> rw [hspan]
  · exact ⟨h.inText, (h.step hr).inText⟩
  · exact ⟨h.inText, h.inText⟩

/-! ### A whole run -/

/-- Everything that is left: the items, and the lexer at the end. -/
def all (l : Lexer) : List Item × Lexer := l.run l.rest.length

theorem run_enough (n m : Nat) (l : Lexer) (hn : l.rest.length ≤ n) (hm : l.rest.length ≤ m) :
    l.run n = l.run m := by
  induction n generalizing m l with
  | zero =>
    have hr : l.rest = [] := List.length_eq_zero_iff.mp (Nat.le_zero.mp hn)
    cases m with
    | zero => rfl
    | succ m => simp [run, hr]
  | succ n ih =>
    cases hr : l.rest with
    | nil => cases m <;> simp [run, hr]
    | cons c cs =>
      rw [hr, List.length_cons] at hn hm
      have hs := step_shorter l c cs
      obtain ⟨m, rfl⟩ : ∃ k, m = k + 1 := ⟨m - 1, by omega⟩
      simp only [run, hr]
      rw [ih m (l.step c cs).2 (by omega) (by omega)]

theorem all_nil {l : Lexer} (hr : l.rest = []) : l.all = ([], l) := by
  simp [all, hr, run]

theorem all_cons {l : Lexer} {c : Char} {cs : List Char} (hr : l.rest = c :: cs) :
    l.all = ((l.step c cs).1 ++ (l.step c cs).2.all.1, (l.step c cs).2.all.2) := by
  have hrun : (l.step c cs).2.run cs.length = (l.step c cs).2.all :=
    run_enough _ _ _ (step_shorter l c cs) (Nat.le_refl _)
  simp only [all, hr, List.length_cons, run]
  rw [hrun]
  rfl

/-- A property that holds at the end of the text and is carried over every step, from
behind it to before it. -/
theorem all_induction {motive : Lexer → Prop} (l : Lexer)
    (done : ∀ l : Lexer, l.rest = [] → motive l)
    (step : ∀ (l : Lexer) (c : Char) (cs : List Char), l.rest = c :: cs →
      motive (l.step c cs).2 → motive l) : motive l := by
  induction hn : l.rest.length using Nat.strongRecOn generalizing l with
  | ind n ih =>
    cases hr : l.rest with
    | nil => exact done l hr
    | cons c cs =>
      have hs := step_shorter l c cs
      rw [hr, List.length_cons] at hn
      exact step l c cs hr (ih _ (by omega) _ rfl)

/-- A run cuts the rest of its text. -/
theorem all_tiles {source : Source} (l : Lexer) : ∀ before, Behind source before l →
    Tiles source before (pieceSpans l.all.1) l.rest ∧
      Behind source source.text.toList l.all.2 := by
  induction l using all_induction with
  | done l hr =>
    intro before h
    rw [all_nil hr, hr]
    have htext := h.text
    rw [hr, List.append_nil] at htext
    exact ⟨.done .nil, ⟨htext ▸ h.position, by rw [hr, List.append_nil]⟩⟩
  | step l c cs hr ih =>
    intro before h
    obtain ⟨ht, hlast⟩ := ih _ (h.step hr)
    rw [all_cons hr, pieceSpans_append]
    exact ⟨step_tiles h hr ht, hlast⟩

/-- The items of a run lie in the text, and none of them is the end. -/
theorem all_items {source : Source} (l : Lexer) : ∀ before, Behind source before l →
    ∀ item ∈ l.all.1, item.isEof = false ∧ Position.InText source item.span.start ∧
      Position.InText source item.span.stop := by
  induction l using all_induction with
  | done l hr =>
    intro before h item hi
    rw [all_nil hr] at hi
    cases hi
  | step l c cs hr ih =>
    intro before h item hi
    rw [all_cons hr] at hi
    rcases List.mem_append.mp hi with hi | hi
    · exact step_items h hr hi
    · exact ih _ (h.step hr) item hi

/-! ### Item by item -/

/-- Seeking goes to the first items of a run, and without any to its end. -/
theorem seek_all (n : Nat) (l : Lexer) (hn : l.rest.length ≤ n) :
    l.all = ((l.seek n).1 ++ (l.seek n).2.all.1, (l.seek n).2.all.2) ∧
      ((l.seek n).1 = [] → (l.seek n).2.rest = []) := by
  induction n generalizing l with
  | zero =>
    have hr : l.rest = [] := List.length_eq_zero_iff.mp (Nat.le_zero.mp hn)
    exact ⟨rfl, fun _ => hr⟩
  | succ n ih =>
    cases hr : l.rest with
    | nil => simp [seek, hr]
    | cons c cs =>
      rw [hr, List.length_cons] at hn
      have hs := step_shorter l c cs
      cases hstep : l.step c cs with
      | mk items next =>
        rw [hstep] at hs
        rw [all_cons hr, hstep]
        cases items with
        | nil =>
          have hseek : l.seek (n + 1) = next.seek n := by simp [seek, hr, hstep]
          rw [hseek]
          exact ih next (Nat.le_trans hs (by omega))
        | cons item more =>
          have hseek : l.seek (n + 1) = (item :: more, next) := by simp [seek, hr, hstep]
          rw [hseek]
          exact ⟨rfl, fun h => nomatch h⟩

namespace Stream

/-- The items that a stream still has to hand out. -/
def remaining (s : Stream) : List Item :=
  s.pending ++ s.lexer.all.1 ++ if s.finished then [] else [.ok s.lexer.all.2.eof]

/-- A stream hands out the first of its remaining items and keeps the others. -/
theorem next_remaining (s : Stream) :
    s.next.1 = s.remaining.head? ∧ s.next.2.remaining = s.remaining.tail := by
  obtain ⟨l, pending, finished⟩ := s
  cases pending with
  | cons item pending => exact ⟨rfl, rfl⟩
  | nil =>
    obtain ⟨hall, hend⟩ := seek_all l.rest.length l (Nat.le_refl _)
    cases hseek : l.seek l.rest.length with
    | mk items last =>
      rw [hseek] at hall hend
      cases items with
      | cons item more => simp [next, remaining, hseek, hall]
      | nil =>
        have hlast := all_nil (hend rfl)
        rw [hlast] at hall
        cases finished <;> simp [next, remaining, hseek, hall, hlast]

theorem answer_eq_remaining (s : Stream) (n : Nat) : s.answer n = s.remaining[n]? := by
  induction n generalizing s with
  | zero =>
    rw [← List.head?_eq_getElem?]
    exact (next_remaining s).1
  | succ n ih =>
    have hnext : s.answer (n + 1) = s.next.2.answer n := rfl
    rw [hnext, ih, (next_remaining s).2, List.getElem?_tail]

/-- Asked again and again, a stream answers with its items in order and then with
nothing, ever after. -/
theorem answer_eq (source : Source) (n : Nat) :
    (ofSource source).answer n = source.items[n]? :=
  answer_eq_remaining _ n

end Stream

end Lexer

/-! ### The whole text -/

theorem Lexer.behind_ofSource (source : Source) : Behind source [] (Lexer.ofSource source) :=
  ⟨rfl, rfl⟩

/-- What the items of a source have to do with its text. -/
structure Source.Partitioned (source : Source) (items : List Item) : Prop where
  /-- The end token is the last item, empty and at the end of the text. There is no other. -/
  ends : ∃ before, items =
      before ++ [.ok ⟨.eof, Span.point (Position.after source source.text.toList)⟩] ∧
    ∀ item ∈ before, item.isEof = false
  /-- All other items but the markers cut the text into pieces. -/
  tiles : Tiles source [] (pieceSpans items) source.text.toList
  /-- No piece is empty. -/
  nonempty : ∀ item ∈ items, item.isMarker = false → item.isEof = false →
    item.span.start.index < item.span.stop.index
  /-- All items but the markers stand in the order of the text and do not overlap. -/
  ordered : ((items.filter fun item => !item.isMarker).map Item.span).Pairwise
    fun s t => s.stop.index ≤ t.start.index
  /-- All positions, those of the markers included, are places of the text. -/
  inText : ∀ item ∈ items, Position.InText source item.span.start ∧
    Position.InText source item.span.stop

namespace Source

/-- The items before the end token cut the text, in which they all lie; no other
end token is among them. -/
theorem scan_spec (source : Source) :
    source.scan.2 = ⟨.eof, Span.point (Position.after source source.text.toList)⟩ ∧
      Tiles source [] (pieceSpans source.scan.1) source.text.toList ∧
      ∀ item ∈ source.scan.1, item.isEof = false ∧ Position.InText source item.span.start ∧
        Position.InText source item.span.stop := by
  have h := Lexer.behind_ofSource source
  obtain ⟨ht, hlast⟩ := Lexer.all_tiles _ _ h
  refine ⟨?_, ht, Lexer.all_items _ _ h⟩
  show (Lexer.ofSource source).all.2.eof = _
  rw [Lexer.eof, hlast.position]

theorem items_eq (source : Source) : source.items = source.scan.1 ++ [.ok source.scan.2] := rfl

/-- Without end tokens, what is no marker is a piece. -/
theorem map_span_eq_pieceSpans {items : List Item} (h : ∀ item ∈ items, item.isEof = false) :
    (items.filter fun item => !item.isMarker).map Item.span = pieceSpans items := by
  unfold pieceSpans
  congr 1
  apply List.filter_congr
  intro item hi
  rw [h item hi, Bool.not_false, Bool.and_true]

theorem mem_pieceSpans {items : List Item} {item : Item} (hi : item ∈ items)
    (hm : item.isMarker = false) (he : item.isEof = false) : item.span ∈ pieceSpans items :=
  List.mem_map_of_mem (List.mem_filter.mpr ⟨hi, by rw [hm, he]; rfl⟩)

/-- **A token stream partitions its text.** Asked for items until it has none left, it
hands out finitely many, the end token last, and they cover the text in order but
for blanks and comments. -/
theorem stream_partitions (source : Source) :
    (∀ n, (Lexer.Stream.ofSource source).answer n = source.items[n]?) ∧
      source.Partitioned source.items := by
  obtain ⟨heof, ht, hitems⟩ := scan_spec source
  have hpieces : pieceSpans source.items = pieceSpans source.scan.1 := by
    rw [items_eq, heof, Lexer.pieceSpans_append]
    exact List.append_nil _
  refine ⟨Lexer.Stream.answer_eq source, ?_⟩
  refine ⟨⟨source.scan.1, by rw [items_eq, heof], fun item hi => (hitems item hi).1⟩,
    by rw [hpieces]; exact ht, ?_, ?_, ?_⟩
  · intro item hi hm he
    exact ((hpieces ▸ ht).within item.span (mem_pieceSpans hi hm he)).2.1
  · have hspans : (source.items.filter fun item => !item.isMarker).map Item.span =
        pieceSpans source.scan.1 ++ [Span.point (Position.after source source.text.toList)] := by
      rw [items_eq, heof, List.filter_append, List.map_append,
        map_span_eq_pieceSpans fun item hi => (hitems item hi).1]
      rfl
    rw [hspans]
    refine List.pairwise_append.mpr ⟨ht.pairwise, List.pairwise_singleton _ _, ?_⟩
    intro s hs t htail
    rw [List.mem_singleton] at htail
    subst htail
    exact (ht.within s hs).2.2
  · intro item hi
    rw [items_eq, heof] at hi
    rcases List.mem_append.mp hi with hi | hi
    · exact (hitems item hi).2
    · rw [List.mem_singleton] at hi
      subst hi
      have hend : Position.InText source (Position.after source source.text.toList) :=
        Position.inText_after (List.prefix_refl _)
      exact ⟨hend, hend⟩

end Source

end Script
