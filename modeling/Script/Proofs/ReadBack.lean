import Mathlib.Data.Fintype.Card
import Script.Proofs.Literals
import Script.Proofs.Moves
import Script.Session

/-! Values that are written down are read back.

A value is *plain* if it is an integer other than the least, a string without quotes
and backslashes, or a list of plain values. Plain values are finite, so each stands
for a literal (`Holds`), and for one only. Its text is the text of that literal, and
what comes of running that text stands for the same literal in a new place. Two values
that stand for one literal are equal.

Lists that are shared stay shared: what bounds the depth of a literal is not how the
store was filled, but that the lists on the way down, one for each depth, differ
(`Holds.depth_le`).

Main statement, `Machine.repr_reads_back`: the text of a plain value, run by a new
session, yields a list with one element, which equals the value. -/
namespace Script

namespace Store

/-- Values that can be read back from their text. -/
inductive Plain (s : Store) : Value → Prop where
  | int {n : Int64} : Int64.minValue < n → s.Plain (.int n)
  | string {t : String} : '"' ∉ t.toList → '\\' ∉ t.toList → s.Plain (.string t)
  | list {id : Nat} {elements : Array Value} : s.lists[id]? = some elements →
      (∀ v ∈ elements.toList, s.Plain v) → s.Plain (.list id)

mutual

/-- The values that stand for a literal. -/
def Holds (s : Store) : Literal → Value → Prop
  | .int n, v => v = .int n
  | .string t, v => v = .string t
  | .list ds, v => ∃ id elements, v = .list id ∧ s.lists[id]? = some elements ∧
      s.HoldsAll ds elements.toList

def HoldsAll (s : Store) : List Literal → List Value → Prop
  | [], vs => vs = []
  | d :: ds, vs => ∃ v vs', vs = v :: vs' ∧ s.Holds d v ∧ s.HoldsAll ds vs'

end

/-- The lists of one store are all in another, as they are. -/
def Extends (s t : Store) : Prop :=
  ∀ (id : Nat) (elements : Array Value), s.lists[id]? = some elements →
    t.lists[id]? = some elements

variable {s t u : Store} {v w : Value} {vs : List Value} {d : Literal} {ds : List Literal}

theorem Extends.refl : s.Extends s := fun _ _ h => h

theorem Extends.trans (h : s.Extends t) (h' : t.Extends u) : s.Extends u :=
  fun id elements hid => h' id elements (h id elements hid)

theorem Extends.newList (elements : Array Value) : s.Extends (s.newList elements).2 := by
  intro id old hid
  have hlt : id < s.lists.size := (Array.getElem?_eq_some_iff.mp hid).1
  show (s.lists.push elements)[id]? = some old
  rw [Array.getElem?_push, if_neg (Nat.ne_of_lt hlt), hid]

/-! ### Literals of values -/

/-- A literal for each element. -/
theorem exists_holdsAll (h : ∀ v ∈ vs, ∃ d : Literal, d.isPlain = true ∧ s.Holds d v) :
    ∃ ds, Literal.allPlain ds = true ∧ s.HoldsAll ds vs := by
  induction vs with
  | nil => exact ⟨[], rfl, rfl⟩
  | cons v vs ih =>
    obtain ⟨d, hplain, hd⟩ := h v List.mem_cons_self
    obtain ⟨ds, hplains, hds⟩ := ih fun v hv => h v (List.mem_cons_of_mem _ hv)
    refine ⟨d :: ds, ?_, v, vs, rfl, hd, hds⟩
    simp [Literal.allPlain, hplain, hplains]

theorem Plain.exists_holds (h : s.Plain v) : ∃ d : Literal, d.isPlain = true ∧ s.Holds d v := by
  induction h with
  | int hn => exact ⟨.int _, by simpa [Literal.isPlain] using hn, rfl⟩
  | string hquote hbackslash =>
    exact ⟨.string _, by simpa [Literal.isPlain] using ⟨hquote, hbackslash⟩, rfl⟩
  | list hid _ ih =>
    obtain ⟨ds, hplain, hds⟩ := exists_holdsAll ih
    exact ⟨.list ds, by simpa [Literal.isPlain] using hplain, _, _, rfl, hid, hds⟩

mutual

/-- A value stands for one literal only. -/
theorem Holds.unique : (d d' : Literal) → (v : Value) → s.Holds d v → s.Holds d' v → d = d'
  | .int n, d', _, h, h' => by
    cases h
    cases d' <;> simp_all [Holds, Value.int]
  | .string t, d', _, h, h' => by
    cases h
    cases d' <;> simp_all [Holds, Value.int]
  | .list ds, d', _, h, h' => by
    obtain ⟨id, elements, rfl, hid, hds⟩ := h
    cases d' with
    | int => exact Value.noConfusion h'
    | string => exact Value.noConfusion h'
    | list ds' =>
      obtain ⟨_, elements', ⟨⟩, hid', hds'⟩ := h'
      rw [hid] at hid'
      cases hid'
      rw [HoldsAll.unique ds ds' _ hds hds']

theorem HoldsAll.unique : (ds ds' : List Literal) → (vs : List Value) → s.HoldsAll ds vs →
    s.HoldsAll ds' vs → ds = ds'
  | [], ds', _, h, h' => by
    cases h
    cases ds' with
    | nil => rfl
    | cons => obtain ⟨_, _, ⟨⟩, _⟩ := h'
  | d :: ds, ds', _, h, h' => by
    obtain ⟨v, vs, rfl, hd, hds⟩ := h
    cases ds' with
    | nil => cases h'
    | cons d' ds' =>
      obtain ⟨_, _, ⟨⟩, hd', hds'⟩ := h'
      rw [Holds.unique d d' v hd hd', HoldsAll.unique ds ds' vs hds hds']

end

mutual

/-- On the way down to where a literal is deepest there is a list for each depth. -/
theorem Holds.exists_depth : (d : Literal) → (v : Value) → s.Holds d v → (j : Nat) → j < d.depth →
    ∃ (d' : Literal) (id : Nat), id < s.lists.size ∧ s.Holds d' (.list id) ∧ d'.depth = j + 1
  | .int _, _, _, _, hj | .string _, _, _, _, hj => absurd hj (Nat.not_lt_zero _)
  | .list ds, v, h, j, hj => by
    have hdepth : (Literal.list ds).depth = Literal.depthAll ds + 1 := by rw [Literal.depth]
    rcases Nat.lt_succ_iff_lt_or_eq.mp (hdepth ▸ hj) with hj | rfl
    · obtain ⟨id, elements, rfl, hid, hds⟩ := h
      exact HoldsAll.exists_depth ds _ hds j hj
    · have ⟨id, elements, hv, hid, _⟩ := h
      exact ⟨.list ds, id, (Array.getElem?_eq_some_iff.mp hid).1, hv ▸ h, hdepth⟩

theorem HoldsAll.exists_depth : (ds : List Literal) → (vs : List Value) → s.HoldsAll ds vs →
    (j : Nat) → j < Literal.depthAll ds →
    ∃ (d' : Literal) (id : Nat), id < s.lists.size ∧ s.Holds d' (.list id) ∧ d'.depth = j + 1
  | [], _, _, _, hj => absurd hj (Nat.not_lt_zero _)
  | d :: ds, _, h, j, hj => by
    obtain ⟨v, vs, rfl, hd, hds⟩ := h
    rw [Literal.depthAll] at hj
    rcases lt_max_iff.mp hj with hj | hj
    · exact Holds.exists_depth d v hd j hj
    · exact HoldsAll.exists_depth ds vs hds j hj

end

/-- Lists nest no deeper than there are lists: those of different depths differ. -/
theorem Holds.depth_le (h : s.Holds d v) : d.depth ≤ s.lists.size := by
  choose literal id hlt hholds hdepth using Holds.exists_depth d v h
  let place (j : Fin d.depth) : Fin s.lists.size := ⟨id j j.2, hlt j j.2⟩
  have hinj : Function.Injective place := by
    intro i j hij
    have hid : id i i.2 = id j j.2 := congrArg Fin.val hij
    have hsame := Holds.unique _ _ _ (hholds i i.2) (hid ▸ hholds j j.2)
    have hi := hdepth i i.2
    rw [hsame, hdepth j j.2] at hi
    exact Fin.ext (by omega)
  simpa using Fintype.card_le_of_injective place hinj

mutual

theorem Holds.mono (hext : s.Extends t) : (d : Literal) → (v : Value) → s.Holds d v → t.Holds d v
  | .int _, _, h | .string _, _, h => h
  | .list ds, _, h => by
    obtain ⟨id, elements, rfl, hid, hds⟩ := h
    exact ⟨id, elements, rfl, hext id elements hid, HoldsAll.mono hext ds _ hds⟩

theorem HoldsAll.mono (hext : s.Extends t) : (ds : List Literal) → (vs : List Value) →
    s.HoldsAll ds vs → t.HoldsAll ds vs
  | [], _, h => h
  | d :: ds, _, h => by
    obtain ⟨v, vs, rfl, hd, hds⟩ := h
    exact ⟨v, vs, rfl, Holds.mono hext d v hd, HoldsAll.mono hext ds vs hds⟩

end

theorem HoldsAll.length_eq (h : s.HoldsAll ds vs) : ds.length = vs.length := by
  induction ds generalizing vs with
  | nil =>
    cases h
    rfl
  | cons d ds ih =>
    obtain ⟨v, vs, rfl, _, hds⟩ := h
    simp [ih hds]

/-! ### Equal values -/

mutual

/-- Two values that stand for one literal are equal. -/
theorem Holds.equalTo : (d : Literal) → (v w : Value) → s.Holds d v → s.Holds d w →
    (n : Nat) → d.depth ≤ n → s.equalTo n v w = some true
  | .int k, _, _, hv, hw, n, _ => by
    cases hv
    cases hw
    simp [Store.equalTo, Value.int, Number.same, Number.compare]
  | .string t, _, _, hv, hw, n, _ => by
    cases hv
    cases hw
    simp [Store.equalTo]
  | .list ds, _, _, hv, hw, n, hn => by
    rw [Literal.depth] at hn
    obtain ⟨n, rfl⟩ := Nat.exists_eq_succ_of_ne_zero (Nat.ne_zero_of_lt hn)
    obtain ⟨a, as, rfl, ha, hds⟩ := hv
    obtain ⟨b, bs, rfl, hb, hds'⟩ := hw
    have hsize : as.size = bs.size := by
      rw [← Array.length_toList, ← Array.length_toList, ← hds.length_eq, ← hds'.length_eq]
    have hall := HoldsAll.allEqual ds _ _ hds hds' n (Nat.le_of_succ_le_succ hn)
    unfold Store.equalTo elements
    simp only [ha, hb, Option.getD_some, hsize, if_true, hall, ite_self]

theorem HoldsAll.allEqual : (ds : List Literal) → (vs ws : List Value) → s.HoldsAll ds vs →
    s.HoldsAll ds ws → (n : Nat) → Literal.depthAll ds ≤ n →
    Store.allEqual (s.equalTo n) vs ws = some true
  | [], _, _, hv, hw, _, _ => by
    cases hv
    cases hw
    rfl
  | d :: ds, _, _, hv, hw, n, hn => by
    obtain ⟨v, vs, rfl, hd, hds⟩ := hv
    obtain ⟨w, ws, rfl, hd', hds'⟩ := hw
    obtain ⟨hdepth, hdepths⟩ := Nat.max_le.mp hn
    rw [Store.allEqual, Holds.equalTo d v w hd hd' n hdepth]
    exact HoldsAll.allEqual ds vs ws hds hds' n hdepths

end

theorem Holds.equal (hv : s.Holds d v) (hw : s.Holds d w) : s.equal v w = some true := by
  have hdepth := hv.depth_le
  have hsquare := Nat.le_mul_self s.lists.size
  exact Holds.equalTo d v w hv hw _ (by omega)

/-! ### Texts -/

/-- With commas between them, as with a comma before each but the first. -/
theorem intercalate_chars (d : Literal) (ds : List Literal) :
    [',', ' '].intercalate (d.chars :: ds.map Literal.chars) =
      d.chars ++ Literal.moreChars ds := by
  induction ds generalizing d with
  | nil => simp [List.intercalate, Literal.moreChars]
  | cons d' ds ih =>
    have hmore : Literal.moreChars (d' :: ds) =
        [',', ' '] ++ (d'.chars ++ Literal.moreChars ds) := by
      rw [Literal.moreChars]
      rfl
    rw [hmore, ← ih d']
    simp [List.intercalate]

mutual

/-- The text of a value is that of the literal that it stands for. -/
theorem Holds.write : (d : Literal) → (v : Value) → s.Holds d v → (n : Nat) → d.depth ≤ n →
    ∃ text, s.write sourceStyle n v = some text ∧ text.toList = d.chars
  | .int k, _, h, n, _ => by
    cases h
    cases n <;> exact ⟨_, rfl, rfl⟩
  | .string t, _, h, n, _ => by
    cases h
    refine ⟨"\"" ++ t ++ "\"", ?_, ?_⟩
    · cases n <;> rfl
    · simp [Literal.chars]
  | .list ds, _, h, n, hn => by
    rw [Literal.depth] at hn
    obtain ⟨n, rfl⟩ := Nat.exists_eq_succ_of_ne_zero (Nat.ne_zero_of_lt hn)
    obtain ⟨id, es, rfl, hid, hds⟩ := h
    obtain ⟨texts, hmap, htexts⟩ := HoldsAll.writes ds _ hds n (Nat.le_of_succ_le_succ hn)
    refine ⟨"[" ++ String.intercalate ", " texts ++ "]", ?_, ?_⟩
    · simp only [Store.write, elements, hid, Option.getD_some, hmap]
      rfl
    · have hitems : [',', ' '].intercalate (ds.map Literal.chars) = Literal.itemChars ds := by
        cases ds with
        | nil => rfl
        | cons d ds => exact intercalate_chars d ds
      rw [String.toList_append, String.toList_append, String.toList_intercalate, htexts]
      show ['['] ++ [',', ' '].intercalate (ds.map Literal.chars) ++ [']'] = _
      rw [hitems, Literal.chars]
      simp

theorem HoldsAll.writes : (ds : List Literal) → (vs : List Value) → s.HoldsAll ds vs → (n : Nat) →
    Literal.depthAll ds ≤ n → ∃ texts, vs.mapM (s.write sourceStyle n) = some texts ∧
      texts.map String.toList = ds.map Literal.chars
  | [], _, h, _, _ => by
    cases h
    exact ⟨[], rfl, rfl⟩
  | d :: ds, _, h, n, hn => by
    obtain ⟨v, vs, rfl, hd, hds⟩ := h
    obtain ⟨hdepth, hdepths⟩ := Nat.max_le.mp hn
    obtain ⟨text, hwrite, htext⟩ := Holds.write d v hd n hdepth
    obtain ⟨texts, hmap, htexts⟩ := HoldsAll.writes ds vs hds n hdepths
    refine ⟨text :: texts, ?_, ?_⟩
    · rw [List.mapM_cons, hwrite, hmap]
      rfl
    · rw [List.map_cons, List.map_cons, htext, htexts]

end

theorem Holds.repr (h : s.Holds d v) : ∃ text, s.repr v = some text ∧ text.toList = d.chars :=
  Holds.write d v h _ h.depth_le

end Store

/-- A minus sign before the negative of an integer. -/
theorem Number.neg_int_neg {n : Int64} (hn : Int64.minValue < n) :
    Number.neg (.int (-n)) = .int n := by
  simp only [Number.neg, Lexer.toInt_neg_of_lt hn, Int.neg_neg, int64?_toInt]

namespace Eval

variable {c : Context}

/-- The list of some values holds the literals that they stand for. -/
theorem collect_holds {perform : Performer} {nodes : List (Node Span)} {vs : List Value}
    {m k : Machine} (hall : evalAll perform c nodes m = .ok vs k) {ds : List Literal}
    (h : k.store.HoldsAll ds vs) :
    ∃ id l, (evalAll perform c nodes >>= fun vs => newList vs.toArray) m = .ok (.list id) l ∧
      k.store.Extends l.store ∧ l.store.lists[id]? = some vs.toArray ∧ l.store.HoldsAll ds vs := by
  have hext : k.store.Extends (k.store.newList vs.toArray).2 := .newList _
  exact ⟨k.store.lists.size, { k with store := (k.store.newList vs.toArray).2 }, bind_ok hall, hext,
    Array.getElem?_push_size, Store.HoldsAll.mono hext ds vs h⟩

mutual

/-- A node that stands for a literal has a value that stands for it too. -/
theorem perform_literal : (d : Literal) → (node : Node Span) → d.ReadAs node → (n : Nat) →
    d.depth + 2 ≤ n → (m : Machine) → ∃ v k, Task.perform n (.node node c) m = .ok v k ∧
      m.store.Extends k.store ∧ k.store.Holds d v
  | .int n, _, hread, steps, hsteps, m => by
    obtain ⟨steps, rfl⟩ := Nat.exists_eq_add_of_le' hsteps
    rcases hread with ⟨tag, rfl⟩ | ⟨tag, tag', hn, rfl⟩
    · exact ⟨_, m, rfl, .refl, rfl⟩
    · exact ⟨.number (Number.neg (.int (-n))), m, rfl, .refl, by rw [Number.neg_int_neg hn]; rfl⟩
  | .string t, _, hread, steps, hsteps, m => by
    obtain ⟨steps, rfl⟩ := Nat.exists_eq_add_of_le' hsteps
    obtain ⟨tag, rfl⟩ := hread
    exact ⟨_, m, rfl, .refl, rfl⟩
  | .list ds, _, hread, steps, hsteps, m => by
    rw [Literal.depth] at hsteps
    obtain ⟨steps, rfl⟩ := Nat.exists_eq_succ_of_ne_zero (Nat.ne_zero_of_lt hsteps)
    obtain ⟨tag, nodes, rfl, hnodes⟩ := hread
    obtain ⟨vs, k, hall, hext, hholds⟩ := evalAll_literals ds nodes hnodes steps (by omega) m
    obtain ⟨id, l, hlist, hext', hid, hholds'⟩ := collect_holds hall hholds
    exact ⟨.list id, l, hlist, hext.trans hext', id, _, rfl, hid, hholds'⟩

theorem evalAll_literals : (ds : List Literal) → (nodes : List (Node Span)) →
    Literal.ReadAsAll ds nodes → (n : Nat) → Literal.depthAll ds + 2 ≤ n → (m : Machine) →
    ∃ vs k, evalAll (Task.perform n) c nodes m = .ok vs k ∧ m.store.Extends k.store ∧
      k.store.HoldsAll ds vs
  | [], _, hread, _, _, m => by
    cases hread
    exact ⟨[], m, rfl, .refl, rfl⟩
  | d :: ds, _, hread, n, hn, m => by
    obtain ⟨node, nodes, rfl, hnode, hnodes⟩ := hread
    rw [Literal.depthAll] at hn
    obtain ⟨v, k, hperform, hext, hd⟩ := perform_literal d node hnode n (by omega) m
    obtain ⟨vs, l, hall, hext', hds⟩ := evalAll_literals ds nodes hnodes n (by omega) k
    refine ⟨v :: vs, l, ?_, hext.trans hext', v, vs, rfl, Store.Holds.mono hext' d v hd, hds⟩
    rw [evalAll, bind_ok hperform, bind_ok hall]
    rfl

end

/-- A script that is no source file yields what its program does. -/
theorem runScript_of_ok {perform : Performer} {source : Source} {program : Node Span}
    (hparse : source.parse = .ok program) (hname : Path.isSourceFile source.name = false)
    {m k : Machine} {v : Value}
    (h : perform (.node program (topLevel m.globals)) m = .ok v k) :
    runScript perform source m = .ok v k := by
  unfold runScript
  rw [hparse]
  dsimp only
  rw [bind_get]
  refine (bind_ok (lookup_eq "main")).trans ?_
  rw [h]
  simp [hname]

end Eval

namespace Machine

/-- A program that is a literal yields a list with one element, which stands for it. -/
theorem run_literal {d : Literal} (hp : d.isPlain = true) (source : Source)
    (htext : source.text.toList = d.chars) (hname : Path.isSourceFile source.name = false)
    {n : Nat} (hn : d.depth + 4 ≤ n) (m : Machine) :
    ∃ id w k, m.run n source = (.value (.list id), k) ∧ k.store.elements id = #[w] ∧
      m.store.Extends k.store ∧ k.store.Holds d w := by
  obtain ⟨n, rfl⟩ : ∃ n', n = n' + 2 := ⟨n - 2, by omega⟩
  obtain ⟨tag, item, hparse, hitem⟩ := Literal.parse_chars hp htext
  obtain ⟨vs, k, hall, hext, hholds⟩ := Eval.evalAll_literals (c := Eval.topLevel m.globals) [d]
    [item] ⟨item, [], rfl, hitem, rfl⟩ n (by simp [Literal.depthAll]; omega) m
  obtain ⟨id, l, hblock, hext', hid, hholds'⟩ := Eval.collect_holds hall hholds
  obtain ⟨w, _, rfl, hw, rfl⟩ := hholds'
  refine ⟨id, w, l, ?_, ?_, hext.trans hext', hw⟩
  · have hscript : Task.perform (n + 2) (.script source) m = .ok (.list id) l :=
      Eval.runScript_of_ok hparse hname hblock
    unfold run
    rw [hscript]
  · simp [Store.elements, hid]

/-- **A value that is written down is read back.** The text of a plain value, run by a
new session under a name that is no source file, yields a list whose one element equals
the value; the lists that were there are left as they were. -/
theorem repr_reads_back (m : Machine) (v : Value) (hv : m.store.Plain v) (name : String)
    (hname : Path.isSourceFile name = false) :
    ∃ text, m.store.repr v = some text ∧ ∀ n, m.store.lists.size + 4 ≤ n →
      ∃ id w k, m.renew.run n ⟨name, text⟩ = (.value (.list id), k) ∧
        k.store.elements id = #[w] ∧ k.store.equal w v = some true ∧
        m.store.Extends k.store := by
  obtain ⟨d, hplain, hd⟩ := hv.exists_holds
  obtain ⟨text, hrepr, htext⟩ := hd.repr
  refine ⟨text, hrepr, fun n hn => ?_⟩
  have hdepth := hd.depth_le
  obtain ⟨id, w, k, hrun, hid, hext, hw⟩ :=
    run_literal hplain ⟨name, text⟩ htext hname (by omega : d.depth + 4 ≤ n) m.renew
  exact ⟨id, w, k, hrun, hid, hw.equal (Store.Holds.mono hext d v hd), hext⟩

/-- A machine with an empty list, one with a negative number and a string like a
comment, and one with each of these, the second twice. -/
def sharing : Machine :=
  { (default : Machine) with
    store := ⟨#[#[], #[.int (-7), .string "# [\n"], #[.list 1, .list 0, .list 1]], #[], #[], #[]⟩ }

theorem plain_sharing : sharing.store.Plain (.list 2) := by
  have hempty : sharing.store.Plain (.list 0) := .list rfl nofun
  have hpair : sharing.store.Plain (.list 1) := by
    refine .list rfl fun v hv => ?_
    rcases List.mem_pair.mp hv with rfl | rfl
    · exact .int (by decide)
    · exact .string (by decide) (by decide)
  refine .list rfl fun v hv => ?_
  rcases List.mem_cons.mp hv with rfl | hv
  · exact hpair
  · rcases List.mem_pair.mp hv with rfl | rfl
    · exact hempty
    · exact hpair

theorem repr_reads_back_sharing : sharing.store.Plain (.list 2) ∧
    ∃ text, sharing.store.repr (.list 2) = some text ∧ ∀ n, 7 ≤ n →
      ∃ id w k, sharing.renew.run n ⟨"<test>", text⟩ = (.value (.list id), k) ∧
        k.store.elements id = #[w] ∧ k.store.equal w (.list 2) = some true ∧
        sharing.store.Extends k.store :=
  ⟨plain_sharing, repr_reads_back sharing (.list 2) plain_sharing "<test>" (by decide)⟩

end Machine

end Script
