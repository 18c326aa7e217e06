import Mathlib.Data.List.Forall2
import Mathlib.Data.List.TakeWhile
import Script.Proofs.Exactness
import Script.Proofs.Moves

/-! Integers asked for line by line.

Input comes as bytes, a line at a time, and a line is a text only once it is decoded. A line
feed is one byte that stands in no other character, so cutting bytes behind line feeds cuts
the text there (`takeLine_bytes`). A line holds an integer if that is all there is between
blanks (`HoldsInteger`); line ends are blanks, so it does not matter that they have been
taken off before (`integerLine?_iff`).

Main statement, `Eval.input_int_reads`: a program that asks for an integer gets the first one
that a line holds, all lines before are complained of, and no line behind it is touched; if no
line holds one, all are read, all are complained of, and the program fails. -/
namespace Script

namespace Text

/-! ### Lines -/

/-- The lines of a text, each with the line feed that ends it; the last one may have none. -/
def lines : List Char → List (List Char)
  | [] => []
  | c :: cs =>
    if c = '\n' then [c] :: lines cs
    else
      match lines cs with
      | [] => [[c]]
      | line :: rest => (c :: line) :: rest

theorem flatten_lines (cs : List Char) : (lines cs).flatten = cs := by
  induction cs with
  | nil => rfl
  | cons c cs ih =>
    unfold lines
    split
    · rw [List.flatten_cons, ih]
      rfl
    · split
      · next h =>
        rw [h] at ih
        rw [← ih]
        rfl
      · next h =>
        rw [h] at ih
        rw [← ih]
        rfl

/-- A line without the line feeds and carriage returns at its end. -/
def Bare (line text : List Char) : Prop :=
  ∃ ending, line = text ++ ending ∧ (∀ c ∈ ending, c = '\n' ∨ c = '\r') ∧
    ∀ c ∈ text.getLast?, c ≠ '\n' ∧ c ≠ '\r'

/-! ### Bytes -/

/-- The bytes of characters. -/
def bytes (cs : List Char) : List UInt8 := cs.flatMap String.utf8EncodeChar

theorem mk_bytes (cs : List Char) : ByteArray.mk (bytes cs).toArray = cs.utf8Encode :=
  ByteArray.ext List.data_toByteArray.symm

theorem decode?_bytes (cs : List Char) : decode? (bytes cs) = some (String.ofList cs) := by
  have hvalid : ByteArray.IsValidUTF8 ⟨(bytes cs).toArray⟩ := ⟨cs, mk_bytes cs⟩
  unfold decode? String.fromUTF8?
  rw [dif_pos hvalid]
  refine congrArg some (String.toByteArray_inj.mp ?_)
  rw [String.toByteArray_ofList]
  exact mk_bytes cs

/-- Bytes that are a text are the bytes of its characters. -/
theorem bytes_of_decode? {input : List UInt8} {text : String} (h : decode? input = some text) :
    input = bytes text.toList := by
  unfold decode? String.fromUTF8? at h
  split at h
  · next hvalid =>
    obtain ⟨cs, hcs⟩ := hvalid
    have hinput : input = bytes cs := by
      have hdata := congrArg ByteArray.data hcs
      rw [← mk_bytes] at hdata
      exact List.toArray_inj hdata
    subst hinput
    rw [← Option.some.inj ((decode?_bytes cs).symm.trans (dif_pos ⟨cs, hcs⟩ |>.trans h))]
    rw [String.toList_ofList]
  · cases h

/-- The byte of a line feed stands in no other character. -/
theorem linefeed_not_mem {c : Char} (h : c ≠ '\n') : ∀ b ∈ String.utf8EncodeChar c, b ≠ 10 := by
  have hne : c.val.toNat ≠ 10 := by
    intro heq
    apply h
    apply Char.ext
    apply UInt32.toNat_inj.mp
    exact heq
  have hbyte : ∀ n < 256, 10 = UInt8.ofNat n → n = 10 := by
    intro n hn heq
    have hnat := congrArg UInt8.toNat heq
    rw [UInt8.toNat_ofNat', Nat.mod_eq_of_lt hn] at hnat
    exact hnat.symm
  rintro b hb rfl
  unfold String.utf8EncodeChar at hb
  dsimp only at hb
  -- A first byte is the character itself or at least 192, and any other is at least 128.
  split at hb
  · next hsmall => exact hne (hbyte _ (by omega) (List.mem_singleton.mp hb))
  · split at hb
    · simp only [List.mem_cons, List.not_mem_nil, or_false] at hb
      rcases hb with hb | hb <;> have := hbyte _ (by omega) hb <;> omega
    · split at hb
      · simp only [List.mem_cons, List.not_mem_nil, or_false] at hb
        rcases hb with hb | hb | hb <;> have := hbyte _ (by omega) hb <;> omega
      · simp only [List.mem_cons, List.not_mem_nil, or_false] at hb
        rcases hb with hb | hb | hb | hb <;> have := hbyte _ (by omega) hb <;> omega

theorem takeLine_append {xs : List UInt8} (h : ∀ b ∈ xs, b ≠ 10) (ys : List UInt8) :
    takeLine (xs ++ ys) = (xs ++ (takeLine ys).1, (takeLine ys).2) := by
  induction xs with
  | nil => rfl
  | cons b xs ih =>
    rw [List.cons_append, takeLine, if_neg (h b List.mem_cons_self),
      ih fun b hb => h b (List.mem_cons_of_mem _ hb)]
    rfl

/-- Cutting bytes behind the first line feed cuts off the first line. -/
theorem takeLine_bytes {cs line : List Char} {rest : List (List Char)}
    (h : lines cs = line :: rest) : takeLine (bytes cs) = (bytes line, bytes rest.flatten) := by
  induction cs generalizing line rest with
  | nil => cases h
  | cons c cs ih =>
    unfold lines at h
    split at h
    · next hc =>
      cases h
      subst hc
      rw [flatten_lines]
      rfl
    · next hc =>
      have hcut : takeLine (bytes (c :: cs)) = (String.utf8EncodeChar c ++ (takeLine (bytes cs)).1,
          (takeLine (bytes cs)).2) := takeLine_append (linefeed_not_mem hc) (bytes cs)
      rw [hcut]
      split at h
      · next hnone =>
        cases h
        have hcs : cs = [] := by
          rw [← flatten_lines cs, hnone]
          rfl
        subst hcs
        rfl
      · next hsome =>
        cases h
        rw [ih hsome]
        rfl

/-! ### Trimming -/

section Trim

variable {p : Char → Bool} {cs core before after ending : List Char}

/-- What is dropped off the end satisfies `p`, and what is left does not end so. -/
theorem dropEndWhile_spec (p : Char → Bool) (cs : List Char) : ∃ ending,
    cs = dropEndWhile p cs ++ ending ∧ (∀ c ∈ ending, p c = true) ∧
      ∀ c ∈ (dropEndWhile p cs).getLast?, p c = false := by
  refine ⟨(cs.reverse.takeWhile p).reverse, ?_, fun c hc => ?_, fun c hc => ?_⟩
  · rw [dropEndWhile, ← List.reverse_append, List.takeWhile_append_dropWhile, List.reverse_reverse]
  · exact List.mem_takeWhile_imp (List.mem_reverse.mp hc)
  · rw [dropEndWhile, List.getLast?_reverse] at hc
    have hnot := List.head?_dropWhile_not p cs.reverse
    rw [hc] at hnot
    simpa using hnot

theorem dropEndWhile_append (h : ∀ c ∈ ending, p c = true) :
    dropEndWhile p (cs ++ ending) = dropEndWhile p cs := by
  unfold dropEndWhile
  rw [List.reverse_append, List.dropWhile_append_of_pos]
  exact fun c hc => h c (List.mem_reverse.mp hc)

theorem dropEndWhile_of_none (h : ∀ c ∈ cs, p c = false) : dropEndWhile p cs = cs := by
  have hreverse : cs.reverse.dropWhile p = cs.reverse := by
    cases hr : cs.reverse with
    | nil => rfl
    | cons c rest =>
      have hmem : c ∈ cs := List.mem_reverse.mp (by rw [hr]; exact List.mem_cons_self)
      rw [List.dropWhile_cons_of_neg (by rw [h c hmem]; exact Bool.false_ne_true)]
  rw [dropEndWhile, hreverse, List.reverse_reverse]

/-- Blanks at the end make no difference. -/
theorem trim_append (h : ∀ c ∈ ending, isBlank c = true) : trim (cs ++ ending) = trim cs := by
  unfold trim
  rw [List.dropWhile_append]
  split
  · next hempty =>
    rw [List.isEmpty_iff.mp hempty, List.dropWhile_eq_nil_iff.mpr h]
  · exact dropEndWhile_append h

/-- What stands between blanks and has none itself is all that is left. -/
theorem trim_between (hbefore : ∀ c ∈ before, isBlank c = true)
    (hafter : ∀ c ∈ after, isBlank c = true) (hcore : ∀ c ∈ core, isBlank c = false) :
    trim (before ++ core ++ after) = core := by
  rw [trim_append hafter]
  unfold trim
  have hdrop : core.dropWhile isBlank = core := by
    cases core with
    | nil => rfl
    | cons c rest =>
      rw [List.dropWhile_cons_of_neg]
      rw [hcore c List.mem_cons_self]
      exact Bool.false_ne_true
  rw [List.dropWhile_append_of_pos hbefore, hdrop, dropEndWhile_of_none hcore]

theorem exists_trim (cs : List Char) : ∃ before after, cs = before ++ trim cs ++ after ∧
    (∀ c ∈ before, isBlank c = true) ∧ ∀ c ∈ after, isBlank c = true := by
  obtain ⟨after, hafter, hblank, _⟩ := dropEndWhile_spec isBlank (cs.dropWhile isBlank)
  refine ⟨cs.takeWhile isBlank, after, ?_, fun c hc => List.mem_takeWhile_imp hc, hblank⟩
  rw [trim, List.append_assoc, ← hafter, List.takeWhile_append_dropWhile]

end Trim

/-! ### Integers -/

/-- The integer that a text denotes: digits, after at most one sign. -/
inductive Denotes : List Char → Int → Prop where
  | unsigned {ds : List Char} : ds ≠ [] → (∀ d ∈ ds, d.isDigit = true) →
      Denotes ds (digitsValue ds)
  | positive {ds : List Char} : ds ≠ [] → (∀ d ∈ ds, d.isDigit = true) →
      Denotes ('+' :: ds) (digitsValue ds)
  | negative {ds : List Char} : ds ≠ [] → (∀ d ∈ ds, d.isDigit = true) →
      Denotes ('-' :: ds) (-(digitsValue ds : Int))

/-- A line holds a 64-bit integer if that is all there is between blanks. -/
def HoldsInteger (line : List Char) (k : Int64) : Prop :=
  ∃ before core after, line = before ++ core ++ after ∧ (∀ c ∈ before, isBlank c = true) ∧
    (∀ c ∈ after, isBlank c = true) ∧ Denotes core k.toInt

theorem readNatural?_eq_some {cs : List Char} {n : Nat} :
    readNatural? cs = some n ↔ cs ≠ [] ∧ (∀ d ∈ cs, d.isDigit = true) ∧ digitsValue cs = n := by
  unfold readNatural?
  constructor
  · intro h
    split at h
    · next hd => exact ⟨hd.1, List.all_eq_true.mp hd.2, Option.some.inj h⟩
    · cases h
  · rintro ⟨hne, hdigits, rfl⟩
    exact if_pos ⟨hne, List.all_eq_true.mpr hdigits⟩

theorem denotes_of_readInteger? {cs : List Char} {n : Int} (h : readInteger? cs = some n) :
    Denotes cs n := by
  have hread : ∀ {ds : List Char} {f : Option Nat → Option Int}, f none = none →
      f (readNatural? ds) = some n →
      ds ≠ [] ∧ (∀ d ∈ ds, d.isDigit = true) ∧ f (some (digitsValue ds)) = some n := by
    intro ds f hnone hf
    cases hr : readNatural? ds with
    | none =>
      rw [hr, hnone] at hf
      cases hf
    | some k =>
      obtain ⟨hne, hdigits, rfl⟩ := readNatural?_eq_some.mp hr
      exact ⟨hne, hdigits, hr ▸ hf⟩
  unfold readInteger? at h
  split at h
  · obtain ⟨hne, hdigits, hvalue⟩ :=
      hread (f := fun o => Option.map (fun n => -n) (do return ((← o : Nat) : Int))) rfl h
    cases hvalue
    exact .negative hne hdigits
  · obtain ⟨hne, hdigits, hvalue⟩ := hread (f := Option.map Int.ofNat) rfl h
    cases hvalue
    exact .positive hne hdigits
  · obtain ⟨hne, hdigits, hvalue⟩ := hread (f := Option.map Int.ofNat) rfl h
    cases hvalue
    exact .unsigned hne hdigits

theorem readInteger?_of_denotes {cs : List Char} {n : Int} (h : Denotes cs n) :
    readInteger? cs = some n := by
  cases h with
  | unsigned hne hdigits =>
    have hread := readNatural?_eq_some.mpr ⟨hne, hdigits, rfl⟩
    unfold readInteger?
    split
    · cases hdigits '-' List.mem_cons_self
    · cases hdigits '+' List.mem_cons_self
    · rw [hread]
      rfl
  | positive hne hdigits =>
    rw [readInteger?, readNatural?_eq_some.mpr ⟨hne, hdigits, rfl⟩]
    rfl
  | negative hne hdigits =>
    rw [readInteger?, readNatural?_eq_some.mpr ⟨hne, hdigits, rfl⟩]
    rfl

theorem readInteger?_iff {cs : List Char} {n : Int} : readInteger? cs = some n ↔ Denotes cs n :=
  ⟨denotes_of_readInteger?, readInteger?_of_denotes⟩

theorem isBlank_of_isDigit {c : Char} (h : c.isDigit = true) : isBlank c = false := by
  have hbounds : 48 ≤ c.toNat ∧ c.toNat ≤ 57 := by
    simp only [Char.isDigit, Bool.and_eq_true, decide_eq_true_eq, ge_iff_le,
      UInt32.le_iff_toNat_le] at h
    exact h
  simp only [isBlank, blankRanges, List.any_cons, List.any_nil, Bool.or_false, Bool.or_eq_false_iff,
    Bool.and_eq_false_iff, decide_eq_false_iff_not]
  omega

theorem Denotes.not_blank {cs : List Char} {n : Int} (h : Denotes cs n) :
    ∀ c ∈ cs, isBlank c = false := by
  have hdigit : ∀ {ds : List Char}, (∀ d ∈ ds, d.isDigit = true) → ∀ d ∈ ds, isBlank d = false :=
    fun h d hd => isBlank_of_isDigit (h d hd)
  cases h with
  | unsigned _ hdigits => exact hdigit hdigits
  | positive _ hdigits => exact List.forall_mem_cons.mpr ⟨rfl, hdigit hdigits⟩
  | negative _ hdigits => exact List.forall_mem_cons.mpr ⟨rfl, hdigit hdigits⟩

theorem trim_of_bare {line text : List Char} (h : Bare line text) : trim line = trim text := by
  obtain ⟨ending, rfl, hends, _⟩ := h
  apply trim_append
  intro c hc
  rcases hends c hc with rfl | rfl <;> rfl

theorem bare_dropEndWhile (line : List Char) :
    Bare line (dropEndWhile (fun ch => ch == '\n' || ch == '\r') line) := by
  obtain ⟨ending, hline, hends, hlast⟩ :=
    dropEndWhile_spec (fun ch => ch == '\n' || ch == '\r') line
  exact ⟨ending, hline, by simpa using hends, by simpa using hlast⟩

/-- The integer of a line is found in what is left of it without its end. -/
theorem integerLine?_iff {line text : List Char} (h : Bare line text) {k : Int64} :
    Eval.integerLine? (String.ofList text) = some k ↔ HoldsInteger line k := by
  unfold Eval.integerLine?
  rw [String.toList_ofList, ← trim_of_bare h, Option.bind_eq_some_iff]
  constructor
  · rintro ⟨n, hread, hn⟩
    obtain ⟨before, after, hline, hbefore, hafter⟩ := exists_trim line
    have hvalue : k.toInt = n := by
      by_cases hfits : IsInt64 n
      · obtain ⟨j, hj, hvalue⟩ := int64?_of_isInt64 hfits
        rwa [← Option.some.inj (hj.symm.trans hn)]
      · cases (int64?_of_not_isInt64 hfits).symm.trans hn
    exact ⟨before, trim line, after, hline, hbefore, hafter, hvalue ▸ readInteger?_iff.mp hread⟩
  · rintro ⟨before, core, after, rfl, hbefore, hafter, hcore⟩
    rw [trim_between hbefore hafter hcore.not_blank]
    exact ⟨k.toInt, readInteger?_iff.mpr hcore, int64?_toInt k⟩

theorem lines_flatten_tail {cs line : List Char} {rest : List (List Char)}
    (h : lines cs = line :: rest) : lines rest.flatten = rest := by
  induction cs generalizing line rest with
  | nil => cases h
  | cons c cs ih =>
    unfold lines at h
    split at h
    · cases h
      rw [flatten_lines]
    · split at h
      · cases h
        rfl
      · next hsome =>
        cases h
        exact ih hsome

/-- The lines behind others are the lines of what is left. -/
theorem lines_flatten {cs : List Char} {earlier later : List (List Char)}
    (h : lines cs = earlier ++ later) : lines later.flatten = later := by
  induction earlier generalizing cs with
  | nil =>
    subst h
    rw [flatten_lines]
  | cons line earlier ih => exact ih (lines_flatten_tail h)

theorem length_lines_le (cs : List Char) : (lines cs).length ≤ (bytes cs).length := by
  induction cs with
  | nil => exact Nat.le_refl _
  | cons c cs ih =>
    have hc : 0 < (String.utf8EncodeChar c).length := by
      rw [String.length_utf8EncodeChar]
      exact c.utf8Size_pos
    have hbytes : (bytes (c :: cs)).length = (String.utf8EncodeChar c).length + (bytes cs).length :=
      List.length_append
    rw [hbytes]
    unfold lines
    split
    · rw [List.length_cons]
      omega
    · split
      · rw [List.length_singleton]
        omega
      · next h =>
        rw [h, List.length_cons] at ih
        rw [List.length_cons]
        omega

end Text

namespace Eval

open Text

variable (c : Context) (span : Span) {m : Machine}

/-! ### Asking for an integer -/

/-- What is written of a line that holds no integer. -/
def complaint (text : List Char) : String :=
  "'" ++ String.ofList text ++ "' must be an integer. Try again!" ++ "\n"

/-- A machine with other input, and complaints of texts added to its output. -/
def served (m : Machine) (input : List UInt8) (texts : List (List Char)) : Machine :=
  { m with world := { m.world with
      input
      output := m.world.output ++ String.join (texts.map complaint) } }

theorem bind_modifyGet (f : Machine → α × Machine) (g : α → Eval β) :
    (modifyGet f >>= g) m = g (f m).1 (f m).2 := rfl

theorem served_served (input input' : List UInt8) (texts texts' : List (List Char)) :
    served (served m input texts) input' texts' = served m input' (texts ++ texts') := by
  simp [served, String.join_append, String.append_assoc]

theorem readLine_eq : readLine c span m = match m.world.readLine with
    | (.error fault, world) => fail c (.input fault) span { m with world }
    | (.ok none, world) => .ok none { m with world }
    | (.ok (some line), world) => .ok (some (String.ofList
        (dropEndWhile (fun ch => ch == '\n' || ch == '\r') line.toList))) { m with world } := by
  unfold readLine
  rw [bind_modifyGet]
  rcases m.world.readLine with ⟨⟨fault⟩ | ⟨_ | line⟩, world⟩ <;> rfl

/-- Reading takes the first line off the input. -/
theorem readLine_lines {cs line : List Char} {rest : List (List Char)}
    (hinput : m.world.input = bytes cs) (h : lines cs = line :: rest) :
    ∃ text, Bare line text ∧ readLine c span m =
      .ok (some (String.ofList text)) (served m (bytes rest.flatten) []) := by
  refine ⟨_, bare_dropEndWhile line, ?_⟩
  have hworld : m.world.readLine =
      (.ok (some (String.ofList line)), { m.world with input := bytes rest.flatten }) := by
    unfold World.readLine
    split
    · next hnil =>
      have hlength := length_lines_le cs
      rw [← hinput, hnil, h] at hlength
      cases hlength
    · rw [hinput, takeLine_bytes h]
      dsimp only
      rw [decode?_bytes]
  rw [readLine_eq, hworld]
  simp [served]

/-- A line that holds no integer is complained of, and reading goes on behind it. -/
theorem readInteger_skips {cs line : List Char} {rest : List (List Char)}
    (hinput : m.world.input = bytes cs) (h : lines cs = line :: rest)
    (hsink : m.world.sink = .working) (hnone : ∀ k, ¬ HoldsInteger line k) (n : Nat) :
    ∃ text, Bare line text ∧ readInteger c span (n + 1) m =
      readInteger c span n (served m (bytes rest.flatten) [text]) := by
  obtain ⟨text, hbare, hread⟩ := readLine_lines c span hinput h
  refine ⟨text, hbare, ?_⟩
  have hint : integerLine? (String.ofList text) = none := by
    apply Option.eq_none_iff_forall_ne_some.mpr
    intro k hk
    exact hnone k ((integerLine?_iff hbare).mp hk)
  have hwrite : writeLine c span ("'" ++ String.ofList text ++ "' must be an integer. Try again!")
      (served m (bytes rest.flatten) []) = .ok () (served m (bytes rest.flatten) [text]) := by
    rw [writeLine, write, bind_modifyGet]
    simp [World.write, served, hsink, complaint, String.join]
    rfl
  rw [readInteger, bind_ok hread]
  dsimp only
  rw [hint]
  exact bind_ok hwrite

/-- Lines that hold no integer are complained of one by one. -/
theorem readInteger_past {cs : List Char} {earlier later : List (List Char)}
    (hinput : m.world.input = bytes cs) (h : lines cs = earlier ++ later)
    (hsink : m.world.sink = .working) (hnone : ∀ line ∈ earlier, ∀ k, ¬ HoldsInteger line k)
    (n : Nat) :
    ∃ texts, List.Forall₂ Bare earlier texts ∧ readInteger c span (n + earlier.length) m =
      readInteger c span n (served m (bytes later.flatten) texts) := by
  -- One line at a time: the machine behind a line has the other lines as its input.
  induction earlier generalizing m cs with
  | nil =>
    refine ⟨[], .nil, ?_⟩
    have hserved : served m (bytes later.flatten) [] = m := by
      rw [← List.nil_append later, ← h, flatten_lines, ← hinput]
      simp [served]
    rw [hserved]
    rfl
  | cons line earlier ih =>
    rw [List.cons_append] at h
    obtain ⟨hline, hearlier⟩ := List.forall_mem_cons.mp hnone
    obtain ⟨text, hbare, hskip⟩ :=
      readInteger_skips c span hinput h hsink hline (n + earlier.length)
    obtain ⟨texts, hbares, hpast⟩ := ih (m := served m (bytes (earlier ++ later).flatten) [text])
      rfl (lines_flatten_tail h) hsink hearlier
    refine ⟨text :: texts, .cons hbare hbares, ?_⟩
    rw [List.length_cons, ← Nat.add_assoc, hskip, hpast, served_served]
    rfl

/-- Reading stops at a line that holds an integer. -/
theorem readInteger_found {cs line : List Char} {rest : List (List Char)} {k : Int64}
    (hinput : m.world.input = bytes cs) (h : lines cs = line :: rest) (hk : HoldsInteger line k)
    (n : Nat) :
    readInteger c span (n + 1) m = .ok (.int k) (served m (bytes rest.flatten) []) := by
  obtain ⟨text, hbare, hread⟩ := readLine_lines c span hinput h
  rw [readInteger, bind_ok hread]
  dsimp only
  rw [(integerLine?_iff hbare).mpr hk]
  rfl

/-- Without input there is nothing to be read. -/
theorem readInteger_ended (hinput : m.world.input = []) (n : Nat) :
    readInteger c span (n + 1) m = fail c .inputEnded span m := by
  have hread : readLine c span m = .ok none m := by
    rw [readLine_eq, World.readLine, hinput]
  rw [readInteger, bind_ok hread]

/-- The bound on the number of lines is never met: every line has a byte. -/
theorem exists_rounds {input : List UInt8} {cs : List Char} (hinput : input = bytes cs)
    {earlier later : List (List Char)} (h : lines cs = earlier ++ later) :
    ∃ n, input.length + 1 = n + 1 + earlier.length := by
  have hlength := length_lines_le cs
  rw [h, List.length_append] at hlength
  exact ⟨input.length - earlier.length, by rw [hinput]; omega⟩

/-- Asked for an integer, a program whose input is a text gets that of the first line that
holds one. Every line before is complained of, in order and without its end; nothing else is
written, and what is left of the input is the lines behind. If no line holds an integer, all
of them are read and complained of, and then the call fails. -/
theorem input_int_reads (perform : Performer) (c : Context) (span : Span) {m : Machine}
    {text : String} (htext : Text.decode? m.world.input = some text)
    (hsink : m.world.sink = .working) :
    (∀ earlier line later k, Text.lines text.toList = earlier ++ line :: later →
      (∀ before ∈ earlier, ∀ j, ¬ HoldsInteger before j) → HoldsInteger line k →
      ∃ texts, List.Forall₂ Bare earlier texts ∧
        call perform c span (.builtin .inputInt) [] m =
          .ok (.int k) (served m (bytes later.flatten) texts)) ∧
    ((∀ line ∈ Text.lines text.toList, ∀ j, ¬ HoldsInteger line j) →
      ∃ texts failure, List.Forall₂ Bare (Text.lines text.toList) texts ∧
        failure.report.details = "Input ended before an integer was entered" ∧
        call perform c span (.builtin .inputInt) [] m =
          .error (.failed failure) (served m [] texts)) := by
  have hinput := bytes_of_decode? htext
  have hcall : call perform c span (.builtin .inputInt) [] m =
      readInteger ⟨m.globals, ⟨"input_int", some span.start⟩ :: c.calls⟩ span
        (m.world.input.length + 1) m := rfl
  rw [hcall]
  constructor
  · intro earlier line later k hlines hnone hk
    obtain ⟨n, hn⟩ := exists_rounds hinput hlines
    obtain ⟨texts, hbares, hpast⟩ := readInteger_past _ span hinput hlines hsink hnone (n + 1)
    refine ⟨texts, hbares, ?_⟩
    rw [hn, hpast, readInteger_found _ span rfl (lines_flatten hlines) hk, served_served,
      List.append_nil]
  · intro hnone
    have hlines := (List.append_nil (Text.lines text.toList)).symm
    obtain ⟨n, hn⟩ := exists_rounds hinput hlines
    obtain ⟨texts, hbares, hpast⟩ := readInteger_past _ span hinput hlines hsink hnone (n + 1)
    refine ⟨texts, .ofCalls .inputEnded span (⟨"input_int", some span.start⟩ :: c.calls), hbares,
      rfl, ?_⟩
    rw [hn, hpast, readInteger_ended _ span rfl]
    rfl

/-- Behind a line of letters and an empty one, a signed integer between blanks. -/
theorem input_int_reads_third : ∃ m : Machine, m.world.sink = .working ∧
    Text.decode? m.world.input = some "abc\r\n\n -7\t\nrest" ∧
    ∃ texts, List.Forall₂ Bare ["abc\r\n".toList, "\n".toList] texts ∧
      call (fun _ => throw .exhausted) default default (.builtin .inputInt) [] m =
        .ok (.int (-7)) (served m (bytes "rest".toList) texts) := by
  let m : Machine :=
    { (default : Machine) with
      world := { (default : World) with input := bytes "abc\r\n\n -7\t\nrest".toList } }
  have htext : Text.decode? m.world.input = some "abc\r\n\n -7\t\nrest" := decode?_bytes _
  have hnone : ∀ line : List Char, integerLine? (String.ofList (dropEndWhile
      (fun ch => ch == '\n' || ch == '\r') line)) = none → ∀ k, ¬ HoldsInteger line k := by
    intro line hline k hk
    cases hline.symm.trans ((integerLine?_iff (bare_dropEndWhile line)).mpr hk)
  refine ⟨m, rfl, htext, (input_int_reads _ _ _ htext rfl).1 _ " -7\t\n".toList ["rest".toList]
    (-7) (by decide +kernel) ?_ ?_⟩
  · intro line hline
    simp only [List.mem_cons, List.not_mem_nil, or_false] at hline
    rcases hline with rfl | rfl <;> exact hnone _ (by decide +kernel)
  · exact (integerLine?_iff (bare_dropEndWhile _)).mp (by decide +kernel)

end Eval

end Script
