import Mathlib
import Script.Text.Quoted

/-! Nested parentheses as text, and that they can be read in one way only.

An item ends where a blank or a closing parenthesis stands behind it. Numbers and words
have no such character in them, a list ends with its own parenthesis, and a quoted text
with its second quote: within it every quote stands behind a backslash, and how a
character is escaped can be told from its first characters (`Text.escape_append_inj`).

Main statement, `Sexp.eq_of_text`: plain items that are written alike are equal. -/
namespace Script

/-- Where the characters of a kind end is determined. -/
theorem split_append {p : Char → Bool} {a b r r' : List Char} (ha : ∀ c ∈ a, p c = true)
    (hb : ∀ c ∈ b, p c = true) (hr : ∀ c ∈ r.head?, p c = false)
    (hr' : ∀ c ∈ r'.head?, p c = false) (h : a ++ r = b ++ r') : a = b ∧ r = r' := by
  have htake : ∀ {a r : List Char}, (∀ c ∈ a, p c = true) → (∀ c ∈ r.head?, p c = false) →
      (a ++ r).takeWhile p = a := by
    intro a r ha hr
    have hnone : r.takeWhile p = [] := by
      cases r with
      | nil => rfl
      | cons c cs => simp [hr c rfl]
    rw [List.takeWhile_append_of_pos ha, hnone, List.append_nil]
  have hab : a = b := by rw [← htake ha hr, h, htake hb hr']
  subst hab
  exact ⟨rfl, List.append_cancel_left h⟩

/-! ### Quoted texts -/

namespace Text

variable {c d : Char} {r r' : List Char}

theorem digitChar_inj {i j : Nat} (hi : i < 16) (hj : j < 16)
    (h : Nat.digitChar i = Nat.digitChar j) : i = j := by
  have hall : ∀ a b : Fin 16, Nat.digitChar a = Nat.digitChar b → a = b := by decide
  exact congrArg Fin.val (hall ⟨i, hi⟩ ⟨j, hj⟩ h)

theorem one_lt_length_toDigits {n : Nat} (h : ¬ n < 16) : 1 < (Nat.toDigits 16 n).length := by
  have hpos := List.length_pos_iff.mpr (Nat.toDigits_ne_nil (n := n / 16) (b := 16))
  rw [Nat.toDigits_eq_if (by decide), if_neg h, List.length_append]
  exact Nat.lt_add_of_pos_left hpos

theorem toDigits_inj {n m : Nat} (h : Nat.toDigits 16 n = Nat.toDigits 16 m) : n = m := by
  induction n using Nat.strongRecOn generalizing m with
  | ind n ih =>
    have hsmall : ∀ {k : Nat}, k < 16 → (Nat.toDigits 16 k).length = 1 := fun hk => by
      rw [Nat.toDigits_of_lt_base hk, List.length_singleton]
    by_cases hn : n < 16
    · by_cases hm : m < 16
      · rw [Nat.toDigits_of_lt_base hn, Nat.toDigits_of_lt_base hm] at h
        exact digitChar_inj hn hm (List.singleton_inj.mp h)
      · have hlong := one_lt_length_toDigits hm
        rw [← h, hsmall hn] at hlong
        exact absurd hlong (Nat.lt_irrefl 1)
    · by_cases hm : m < 16
      · have hlong := one_lt_length_toDigits hn
        rw [h, hsmall hm] at hlong
        exact absurd hlong (Nat.lt_irrefl 1)
      · rw [Nat.toDigits_of_base_le (by decide) (Nat.le_of_not_lt hn),
          Nat.toDigits_of_base_le (by decide) (Nat.le_of_not_lt hm)] at h
        obtain ⟨hinit, hlast⟩ := List.append_inj' h rfl
        have hquotient := ih (n / 16) (by omega) hinit
        have hremainder := digitChar_inj (Nat.mod_lt _ (by decide)) (Nat.mod_lt _ (by decide))
          (List.singleton_inj.mp hlast)
        omega

/-- The characters that stand for others behind a backslash. -/
def short : Char → Char
  | '0' => '\x00'
  | 't' => '\t'
  | 'r' => '\r'
  | 'n' => '\n'
  | k => k

/-- A character is escaped by one behind a backslash, stands for itself, or is escaped by
its number. -/
theorem escape_cases (c : Char) :
    (∃ k, (escape c).toList = ['\\', k] ∧ k ≠ 'u' ∧ short k = c) ∨
      ((escape c).toList = [c] ∧ c ≠ '\\' ∧ c ≠ '"') ∨
      (escape c).toList = '\\' :: 'u' :: '\x7b' :: (Nat.toDigits 16 c.toNat ++ ['\x7d']) := by
  unfold escape
  split
  · next hc => exact .inl ⟨'0', rfl, by decide, hc.symm⟩
  · split
    · next hc => exact .inl ⟨'t', rfl, by decide, hc.symm⟩
    · split
      · next hc => exact .inl ⟨'r', rfl, by decide, hc.symm⟩
      · split
        · next hc => exact .inl ⟨'n', rfl, by decide, hc.symm⟩
        · split
          · next hc => exact .inl ⟨'"', rfl, by decide, hc.symm⟩
          · split
            · next hc => exact .inl ⟨'\\', rfl, by decide, hc.symm⟩
            · next hquote hbackslash =>
              split
              · exact .inr (.inl ⟨by simp, hbackslash, hquote⟩)
              · exact .inr (.inr (by simp [hex]))

theorem ne_brace_of_mem_toDigits {n : Nat} (h : c ∈ Nat.toDigits 16 n) : c ≠ '\x7d' := by
  have hdigit : ∀ i : Fin 16, Nat.digitChar i ≠ '\x7d' := by decide
  induction n using Nat.strongRecOn with
  | ind n ih =>
    by_cases hn : n < 16
    · rw [Nat.toDigits_of_lt_base hn] at h
      cases List.mem_singleton.mp h
      exact hdigit ⟨n, hn⟩
    · rw [Nat.toDigits_of_base_le (by decide) (Nat.le_of_not_lt hn)] at h
      rcases List.mem_append.mp h with h | h
      · exact ih (n / 16) (by omega) h
      · cases List.mem_singleton.mp h
        exact hdigit ⟨n % 16, Nat.mod_lt _ (by decide)⟩

/-- A number ends with its brace. -/
theorem toDigits_append_inj {n m : Nat}
    (h : Nat.toDigits 16 n ++ '\x7d' :: r = Nat.toDigits 16 m ++ '\x7d' :: r') :
    n = m ∧ r = r' := by
  obtain ⟨hdigits, hrest⟩ := split_append (p := fun c => decide (c ≠ '\x7d'))
    (fun c hc => decide_eq_true (ne_brace_of_mem_toDigits hc))
    (fun c hc => decide_eq_true (ne_brace_of_mem_toDigits hc))
    (fun c hc => by cases hc; rfl) (fun c hc => by cases hc; rfl) h
  exact ⟨toDigits_inj hdigits, (List.cons.inj hrest).2⟩

/-- Of two escaped characters, none is the beginning of the other. -/
theorem escape_append_inj (h : (escape c).toList ++ r = (escape d).toList ++ r') :
    c = d ∧ r = r' := by
  rcases escape_cases c with ⟨k, hc, hk, rfl⟩ | ⟨hc, hback, _⟩ | hc <;>
  rcases escape_cases d with ⟨l, hd, hl, rfl⟩ | ⟨hd, hback', _⟩ | hd <;>
    rw [hc, hd] at h
  · obtain ⟨rfl, rfl⟩ := by simpa using h
    exact ⟨rfl, rfl⟩
  · exact absurd (List.cons.inj h).1.symm hback'
  · exact absurd (List.cons.inj (List.cons.inj h).2).1 hk
  · exact absurd (List.cons.inj h).1 hback
  · exact List.cons.inj h
  · exact absurd (List.cons.inj h).1 hback
  · exact absurd (List.cons.inj (List.cons.inj h).2).1.symm hl
  · exact absurd (List.cons.inj h).1.symm hback'
  · simp only [List.cons_append, List.append_assoc, List.cons.injEq, true_and,
      List.nil_append] at h
    obtain ⟨hnumber, hrest⟩ := toDigits_append_inj h
    exact ⟨Char.toNat_inj.mp hnumber, hrest⟩

/-- The quotes around a text are told from those in it. -/
theorem escaped_append_inj {cs ds : List Char}
    (h : cs.flatMap (fun c => (escape c).toList) ++ '"' :: r =
      ds.flatMap (fun c => (escape c).toList) ++ '"' :: r') : cs = ds ∧ r = r' := by
  have hquote : ∀ {c : Char} {x : List Char}, '"' :: r ≠ (escape c).toList ++ x ∧
      '"' :: r' ≠ (escape c).toList ++ x := by
    intro c x
    rcases escape_cases c with ⟨k, hc, _⟩ | ⟨hc, _, hne⟩ | hc <;> rw [hc]
    · exact ⟨nofun, nofun⟩
    · exact ⟨fun h => hne (List.cons.inj h).1.symm, fun h => hne (List.cons.inj h).1.symm⟩
    · exact ⟨nofun, nofun⟩
  induction cs generalizing ds with
  | nil =>
    cases ds with
    | nil => exact ⟨rfl, (List.cons.inj h).2⟩
    | cons d ds =>
      rw [List.flatMap_cons, List.append_assoc] at h
      exact absurd h hquote.1
  | cons c cs ih =>
    cases ds with
    | nil =>
      rw [List.flatMap_cons, List.append_assoc] at h
      exact absurd h.symm hquote.2
    | cons d ds =>
      rw [List.flatMap_cons, List.flatMap_cons, List.append_assoc, List.append_assoc] at h
      obtain ⟨rfl, hrest⟩ := escape_append_inj h
      obtain ⟨rfl, rfl⟩ := ih hrest
      exact ⟨rfl, rfl⟩

theorem toList_quoted (s : String) :
    (quoted s).toList = '"' :: (s.toList.flatMap (fun c => (escape c).toList) ++ ['"']) := by
  simp [quoted, List.flatMap_map]

theorem quoted_append_inj {s t : String} (h : (quoted s).toList ++ r = (quoted t).toList ++ r') :
    s = t ∧ r = r' := by
  rw [toList_quoted, toList_quoted] at h
  simp only [List.cons_append, List.append_assoc, List.nil_append, List.cons.injEq, true_and] at h
  obtain ⟨hlist, hrest⟩ := escaped_append_inj h
  exact ⟨String.toList_inj.mp hlist, hrest⟩

end Text

/-! ### Items -/

/-- A number, a word, a quoted text, or items in parentheses. -/
inductive Sexp where
  | number (n : Int64)
  | word (w : String)
  | quote (s : String)
  | list (items : List Sexp)

namespace Sexp

mutual

def text : Sexp → List Char
  | .number n => (toString n.toInt).toList
  | .word w => w.toList
  | .quote s => (Text.quoted s).toList
  | .list items => '(' :: (textAll items ++ [')'])

/-- With a blank between each two. -/
def textAll : List Sexp → List Char
  | [] => []
  | x :: xs => x.text ++ textTail xs

/-- A blank before each. -/
def textTail : List Sexp → List Char
  | [] => []
  | x :: xs => ' ' :: (x.text ++ textTail xs)

end

attribute [simp] text textAll textTail

@[simp] theorem textTail_append (xs ys : List Sexp) :
    textTail (xs ++ ys) = textTail xs ++ textTail ys := by
  induction xs with
  | nil => rfl
  | cons x xs ih => simp [ih]

theorem text_quote (s : String) : (quote s).text =
    '"' :: (s.toList.flatMap (fun c => (Text.escape c).toList) ++ ['"']) := Text.toList_quoted s

/-- The characters that words and numbers end at. -/
def isDelimiter (c : Char) : Bool := c == ' ' || c == '(' || c == ')' || c == '"'

/-- Characters that are not empty and have no delimiter among them. -/
structure Lexical (cs : List Char) : Prop where
  ne_nil : cs ≠ []
  free : ∀ c ∈ cs, isDelimiter c = false

theorem mem_toString {n : Int} {c : Char} (h : c ∈ (toString n).toList) :
    c.isDigit = true ∨ c = '-' := by
  have hdigits : ∀ k : Nat, c ∈ k.repr.toList → c.isDigit = true := by
    intro k hk
    rw [Nat.repr_eq_ofList_toDigits, String.toList_ofList] at hk
    exact Nat.isDigit_of_mem_toDigits (by decide) (by decide) hk
  rw [Int.toString_eq_repr, Int.repr_eq_if] at h
  split at h
  · exact .inl (hdigits _ h)
  · rw [String.toList_append] at h
    rcases List.mem_append.mp h with h | h
    · exact .inr (List.mem_singleton.mp h)
    · exact .inl (hdigits _ h)

theorem exists_digit (n : Int) : ∃ c ∈ (toString n).toList, c.isDigit = true := by
  have hdigits : ∀ k : Nat, ∃ c ∈ k.repr.toList, c.isDigit = true := by
    intro k
    rw [Nat.repr_eq_ofList_toDigits, String.toList_ofList]
    obtain ⟨c, cs, hcs⟩ := List.exists_cons_of_ne_nil (Nat.toDigits_ne_nil (n := k) (b := 10))
    have hc : c ∈ Nat.toDigits 10 k := by
      rw [hcs]
      exact List.mem_cons_self
    exact ⟨c, hc, Nat.isDigit_of_mem_toDigits (by decide) (by decide) hc⟩
  rw [Int.toString_eq_repr, Int.repr_eq_if]
  split
  · exact hdigits _
  · obtain ⟨c, hc, hdigit⟩ := hdigits (-n).toNat
    rw [String.toList_append]
    exact ⟨c, List.mem_append_right _ hc, hdigit⟩

theorem lexical_toString (n : Int) : Lexical (toString n).toList := by
  constructor
  · obtain ⟨c, hc, _⟩ := exists_digit n
    exact List.ne_nil_of_mem hc
  · intro c hc
    rcases mem_toString hc with hdigit | rfl
    · rw [Bool.eq_false_iff]
      intro hdelimiter
      simp only [isDelimiter, Bool.or_eq_true, beq_iff_eq] at hdelimiter
      rcases hdelimiter with ((rfl | rfl) | rfl) | rfl <;> cases hdigit
    · rfl

/-- A word that is written as no number is. -/
structure IsWord (w : String) : Prop where
  lexical : Lexical w.toList
  number : ∀ n : Int64, toString n.toInt ≠ w

/-- Whether there is neither a delimiter nor a digit in a word. -/
def isMark (w : String) : Bool :=
  !w.toList.isEmpty && w.toList.all fun c => !isDelimiter c && !c.isDigit

theorem IsWord.of_isMark {w : String} (h : isMark w = true) : IsWord w := by
  simp only [isMark, Bool.and_eq_true, Bool.not_eq_true', List.isEmpty_eq_false_iff,
    List.all_eq_true] at h
  obtain ⟨hne, hchar⟩ := h
  refine ⟨⟨hne, fun c hc => (hchar c hc).1⟩, ?_⟩
  rintro n rfl
  obtain ⟨c, hc, hdigit⟩ := exists_digit n.toInt
  exact Bool.false_ne_true ((hchar c hc).2.symm.trans hdigit)

/-- All words in it are words. -/
inductive Plain : Sexp → Prop where
  | number (n : Int64) : Plain (.number n)
  | word {w : String} : IsWord w → Plain (.word w)
  | quote (s : String) : Plain (.quote s)
  | list {items : List Sexp} : (∀ x ∈ items, Plain x) → Plain (.list items)

def AllPlain (items : List Sexp) : Prop := ∀ x ∈ items, Plain x

theorem AllPlain.nil : AllPlain [] := nofun

theorem AllPlain.cons {x : Sexp} {xs : List Sexp} (hx : Plain x) (hxs : AllPlain xs) :
    AllPlain (x :: xs) :=
  List.forall_mem_cons.mpr ⟨hx, hxs⟩

/-- What may stand behind an item. -/
def Stops (r : List Char) : Prop := ∀ c ∈ r.head?, c = ' ' ∨ c = ')'

variable {x y : Sexp} {xs ys items : List Sexp} {r r' : List Char}

theorem Stops.delimiter (h : Stops r) : ∀ c ∈ r.head?, isDelimiter c = true := by
  intro c hc
  rcases h c hc with rfl | rfl <;> rfl

theorem stops_tail (xs : List Sexp) (r : List Char) : Stops (textTail xs ++ ')' :: r) := by
  intro c hc
  cases xs with
  | nil =>
    cases hc
    exact .inr rfl
  | cons x xs =>
    cases hc
    exact .inl rfl

/-- An item that nothing else is written as, whatever stands behind it. -/
def Determined (x : Sexp) : Prop :=
  ∀ y r r', Plain y → Stops r → Stops r' → x.text ++ r = y.text ++ r' → x = y ∧ r = r'

/-- What is not the beginning of a list or of a quoted text is not written as one. -/
theorem Lexical.ne_cons {cs ds : List Char} (h : Lexical cs) {c : Char}
    (hc : isDelimiter c = true) : cs ++ r ≠ c :: ds := by
  obtain ⟨d, cs, rfl⟩ := List.exists_cons_of_ne_nil h.ne_nil
  intro heq
  have hd := h.free d List.mem_cons_self
  rw [(List.cons.inj heq).1, hc] at hd
  cases hd

theorem Lexical.append_inj {cs ds : List Char} (h : Lexical cs) (h' : Lexical ds) (hr : Stops r)
    (hr' : Stops r') (heq : cs ++ r = ds ++ r') : cs = ds ∧ r = r' := by
  apply split_append (p := fun c => !isDelimiter c) _ _ _ _ heq
  · exact fun c hc => by rw [h.free c hc]; rfl
  · exact fun c hc => by rw [h'.free c hc]; rfl
  · exact fun c hc => by rw [hr.delimiter c hc]; rfl
  · exact fun c hc => by rw [hr'.delimiter c hc]; rfl

theorem determined_number (n : Int64) : Determined (.number n) := by
  intro y r r' hy hr hr' heq
  have hn := lexical_toString n.toInt
  cases hy with
  | number m =>
    obtain ⟨htext, hrest⟩ := hn.append_inj (lexical_toString m.toInt) hr hr' heq
    have hint : n.toInt = m.toInt := Int.repr_inj.mp (String.toList_inj.mp htext)
    exact ⟨congrArg _ (Int64.toInt_inj.mp hint), hrest⟩
  | word hw =>
    obtain ⟨htext, _⟩ := hn.append_inj hw.lexical hr hr' heq
    exact absurd (String.toList_inj.mp htext) (hw.number n)
  | quote s =>
    rw [text_quote] at heq
    exact absurd heq (hn.ne_cons rfl)
  | list => exact absurd heq (hn.ne_cons rfl)

theorem determined_word {w : String} (hw : IsWord w) : Determined (.word w) := by
  intro y r r' hy hr hr' heq
  cases hy with
  | number m =>
    obtain ⟨htext, _⟩ := hw.lexical.append_inj (lexical_toString m.toInt) hr hr' heq
    exact absurd (String.toList_inj.mp htext).symm (hw.number m)
  | word hv =>
    obtain ⟨htext, hrest⟩ := hw.lexical.append_inj hv.lexical hr hr' heq
    exact ⟨congrArg _ (String.toList_inj.mp htext), hrest⟩
  | quote s =>
    rw [text_quote] at heq
    exact absurd heq (hw.lexical.ne_cons rfl)
  | list => exact absurd heq (hw.lexical.ne_cons rfl)

theorem determined_quote (s : String) : Determined (.quote s) := by
  intro y r r' hy hr hr' heq
  cases hy with
  | number m =>
    rw [text_quote] at heq
    exact absurd heq.symm ((lexical_toString m.toInt).ne_cons rfl)
  | word hv =>
    rw [text_quote] at heq
    exact absurd heq.symm (hv.lexical.ne_cons rfl)
  | quote t =>
    obtain ⟨rfl, hrest⟩ := Text.quoted_append_inj heq
    exact ⟨rfl, hrest⟩
  | list =>
    rw [text_quote] at heq
    exact absurd (List.cons.inj heq).1 (by decide)

/-- No item starts with a closing parenthesis. -/
theorem Plain.ne_close (hx : Plain x) : x.text ++ r ≠ ')' :: r' := by
  cases hx with
  | number n => exact (lexical_toString n.toInt).ne_cons rfl
  | word hw => exact hw.lexical.ne_cons rfl
  | quote s =>
    rw [text_quote]
    nofun
  | list => nofun

/-- Items behind blanks, up to the parenthesis. -/
theorem textTail_append_inj (hxs : ∀ x ∈ xs, Determined x) (hys : AllPlain ys)
    (heq : textTail xs ++ ')' :: r = textTail ys ++ ')' :: r') : xs = ys ∧ r = r' := by
  induction xs generalizing ys with
  | nil =>
    cases ys with
    | nil => exact ⟨rfl, (List.cons.inj heq).2⟩
    | cons y ys => exact absurd (List.cons.inj heq).1 (by decide)
  | cons x xs ih =>
    cases ys with
    | nil => exact absurd (List.cons.inj heq).1 (by decide)
    | cons y ys =>
      obtain ⟨hx, hxtail⟩ := List.forall_mem_cons.mp hxs
      obtain ⟨hy, hytail⟩ := List.forall_mem_cons.mp hys
      simp only [textTail, List.cons_append, List.append_assoc, List.cons.injEq, true_and] at heq
      obtain ⟨rfl, htail⟩ := hx y _ _ hy (stops_tail _ _) (stops_tail _ _) heq
      obtain ⟨rfl, hrest⟩ := ih hxtail hytail htail
      exact ⟨rfl, hrest⟩

theorem determined_list (hitems : AllPlain items) (h : ∀ x ∈ items, Determined x) :
    Determined (.list items) := by
  intro y r r' hy _ _ heq
  cases hy with
  | number m => exact absurd heq.symm ((lexical_toString m.toInt).ne_cons rfl)
  | word hv => exact absurd heq.symm (hv.lexical.ne_cons rfl)
  | quote s =>
    rw [text_quote] at heq
    exact absurd (List.cons.inj heq).1 (by decide)
  | @list ys hys =>
    simp only [text, List.cons_append, List.append_assoc, List.nil_append, List.cons.injEq,
      true_and] at heq
    cases items with
    | nil =>
      cases ys with
      | nil => exact ⟨rfl, (List.cons.inj heq).2⟩
      | cons y ys =>
        rw [textAll, textAll, List.append_assoc] at heq
        exact absurd heq.symm (hys y List.mem_cons_self).ne_close
    | cons x xs =>
      cases ys with
      | nil =>
        rw [textAll, textAll, List.append_assoc] at heq
        exact absurd heq (hitems x List.mem_cons_self).ne_close
      | cons y ys =>
        obtain ⟨hx, hxtail⟩ := List.forall_mem_cons.mp h
        obtain ⟨hy, hytail⟩ := List.forall_mem_cons.mp hys
        simp only [textAll, List.append_assoc] at heq
        obtain ⟨rfl, htail⟩ := hx y _ _ hy (stops_tail _ _) (stops_tail _ _) heq
        obtain ⟨rfl, hrest⟩ := textTail_append_inj hxtail hytail htail
        exact ⟨rfl, hrest⟩

theorem Plain.determined (hx : Plain x) : Determined x := by
  induction hx with
  | number n => exact determined_number n
  | word hw => exact determined_word hw
  | quote s => exact determined_quote s
  | list hitems ih => exact determined_list hitems ih

/-- **Plain items that are written alike are equal.** -/
theorem eq_of_text (hx : Plain x) (hy : Plain y) (h : x.text = y.text) : x = y :=
  (hx.determined y [] [] hy nofun nofun (by rw [h])).1

end Sexp

end Script
