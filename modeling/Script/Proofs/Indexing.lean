import Mathlib.Data.List.Forall2
import Script.Proofs.Exactness
import Script.Proofs.Moves
import Script.Session

/-! Indices mean the same everywhere.

An index addresses one of `n` items if it lies between `-n` and `n`, counted from the front,
or from the back if it is negative (`IndexIn`, `indexedPlace`). One function resolves all of
them (`resolveIndex_eq`); `list[k]`, `list / k`, `list - k`, `pop(list, k)` and `text[k]` differ
only in what they then do with the place.

Main statement, `Eval.indexing_agrees`. -/
namespace Script

/-! ### Places -/

/-- The index addresses one of `n` items. -/
def IndexIn (n : Nat) (k : Int64) : Prop := -(n : Int) ≤ k.toInt ∧ k.toInt < n

instance (n : Nat) (k : Int64) : Decidable (IndexIn n k) :=
  inferInstanceAs (Decidable (_ ∧ _))

/-- The place that an index addresses among `n` items. -/
def indexedPlace (n : Nat) (k : Int64) : Nat :=
  if 0 ≤ k.toInt then k.toInt.toNat else (n + k.toInt).toNat

variable {n : Nat} {k : Int64} {fault : OperationFault}

theorem IndexIn.place_lt (h : IndexIn n k) : indexedPlace n k < n := by
  obtain ⟨hlow, hhigh⟩ := h
  unfold indexedPlace
  split <;> omega

theorem resolveIndex_eq (n : Nat) (k : Int64) :
    resolveIndex n k = if IndexIn n k then some (indexedPlace n k) else none := by
  have hneg : k < 0 ↔ k.toInt < 0 := Int64.lt_iff_toInt_lt
  unfold resolveIndex indexedPlace IndexIn
  by_cases hk : k.toInt < 0
  · have hnot : ¬ 0 ≤ k.toInt := Int.not_le.mpr hk
    simp only [hneg.mpr hk, hnot, if_true, if_false, Int.add_comm k.toInt]
    exact if_congr (by omega) rfl rfl
  · have hpos : 0 ≤ k.toInt := Int.not_lt.mp hk
    simp only [mt hneg.mp hk, hpos, if_true, if_false, true_and]
    exact if_congr (by omega) rfl rfl

theorem toInt_ofNat (hn : IsInt64 n) : (Int64.ofNat n).toInt = n :=
  Int64.toInt_ofInt_of_le hn.1 hn.2

/-- The sum that resolves a negative index does not overflow if the number of items has 64
bits. -/
theorem toInt_add_length (hk : k.toInt < 0) (hn : IsInt64 n) :
    (k + Int64.ofNat n).toInt = k.toInt + n := by
  have hlow := k.le_toInt
  have hhigh := hn.2
  rw [Int64.toInt_add, toInt_ofNat hn]
  exact Int.bmod_eq_of_le (by omega) (by omega)

/-- The place of an index, found in 64-bit arithmetic. -/
def resolveInWord (length index : Int64) : Option Nat :=
  let i := if index < 0 then index + length else index
  if 0 ≤ i ∧ i < length then some i.toInt.toNat else none

theorem resolveInWord_eq (hn : IsInt64 n) (k : Int64) :
    resolveInWord (Int64.ofNat n) k = resolveIndex n k := by
  have hzero : (0 : Int64).toInt = 0 := rfl
  unfold resolveInWord resolveIndex
  simp only [Int64.le_iff_toInt_le, Int64.lt_iff_toInt_lt, hzero, toInt_ofNat hn]
  by_cases hk : k.toInt < 0
  · simp only [hk, if_true, toInt_add_length hk hn]
  · simp only [hk, if_false]

theorem placeOf_of_in (h : IndexIn n k) : placeOf n (.int k) fault = .ok (indexedPlace n k) := by
  simp only [placeOf, Number.toInteger?, resolveIndex_eq, if_pos h]

theorem placeOf_of_not_in (h : ¬ IndexIn n k) : placeOf n (.int k) fault = .error fault := by
  simp only [placeOf, Number.toInteger?, resolveIndex_eq, if_neg h]

/-! ### Lists and strings -/

variable {elements : Array Value} {s : String} {v : Value} {c : Char}

theorem toList_without (elements : Array Value) (place : Nat) :
    (without elements place).toList = elements.toList.eraseIdx place := by
  rw [List.eraseIdx_eq_take_drop_succ]
  simp [without, List.take_of_length_le]

theorem elementAt_of_in (h : IndexIn elements.size k)
    (hv : elements[indexedPlace elements.size k]? = some v) :
    elementAt elements (.int k) = .ok v := by
  unfold elementAt
  rw [placeOf_of_in h]
  simp only [bind, Except.bind, hv]

theorem elementAt_of_not_in (h : ¬ IndexIn elements.size k) :
    elementAt elements (.int k) = .error (.listBounds .retrieval) := by
  unfold elementAt
  rw [placeOf_of_not_in h]
  rfl

theorem removeAt_of_in (h : IndexIn elements.size k) :
    removeAt elements (.int k) = .ok (without elements (indexedPlace elements.size k)) := by
  unfold removeAt
  rw [placeOf_of_in h]
  rfl

theorem removeAt_of_not_in (h : ¬ IndexIn elements.size k) :
    removeAt elements (.int k) = .error (.listBounds .removal) := by
  unfold removeAt
  rw [placeOf_of_not_in h]
  rfl

theorem characterAt_of_in (h : IndexIn s.length k)
    (hc : s.toList[indexedPlace s.length k]? = some c) :
    characterAt s (.int k) = .ok (.string c.toString) := by
  simp only [characterAt, String.length_toList, placeOf_of_in h, bind, Except.bind, hc]

theorem characterAt_of_not_in (h : ¬ IndexIn s.length k) :
    characterAt s (.int k) = .error .stringBounds := by
  simp only [characterAt, String.length_toList, placeOf_of_not_in h, bind, Except.bind]

theorem join_map_toString (cs : List Char) :
    String.join (cs.map Char.toString) = String.ofList cs := by
  induction cs with
  | nil => rfl
  | cons c cs ih =>
    rw [List.map_cons, String.join_cons, ih, String.ofList_cons]
    rfl

/-! ### Operators and builtins -/

namespace Eval

variable {m : Machine} {id : Nat} {ctx : Context} {left right : Node Span}

/-- The evaluation fails, and leaves all objects as they were. -/
def Refuses (x : Eval α) (m : Machine) : Prop :=
  ∃ f m', x m = .error (.failed f) m' ∧ m'.store = m.store

theorem applyIndex_of_ok {t i : Value} (h : m.store.index t i = .ok v) :
    applyIndex ctx left right t i m = .ok v m := by
  refine (bind_get _).trans ?_
  simp only [h]
  rfl

theorem applyIndex_of_error {t i : Value} (h : m.store.index t i = .error fault) :
    Refuses (applyIndex ctx left right t i) m := by
  unfold Refuses applyIndex
  simp only [bind_get, h]
  cases fault <;> exact ⟨_, m, rfl, rfl⟩

theorem applyBinary_of_ok {op : BinaryOp} {l r : Value} {y : Yield}
    (h : m.store.binary op l r = .ok y) : applyBinary ctx op left right l r m = settle y m := by
  refine (bind_get _).trans ?_
  simp only [h]

theorem applyBinary_of_error {op : BinaryOp} {l r : Value} (h : m.store.binary op l r = .error fault) :
    Refuses (applyBinary ctx op left right l r) m := by
  unfold Refuses applyBinary
  simp only [bind_get, h]
  cases fault <;> exact ⟨_, m, rfl, rfl⟩

/-- The list with this number has these elements now, and all other lists are as before. -/
def ListBecomes (m m' : Machine) (id : Nat) (elements : List Value) : Prop :=
  (m'.store.elements id).toList = elements ∧
    ∀ other ≠ id, m'.store.lists[other]? = m.store.lists[other]?

theorem listBecomes_newList (m : Machine) (elements : Array Value) :
    ∃ m', newList elements m = .ok (.list m.store.lists.size) m' ∧
      ListBecomes m m' m.store.lists.size elements.toList := by
  refine ⟨_, rfl, ?_, fun other hother => ?_⟩
  · simp [Store.newList, Store.elements]
  · simp [Store.newList, Array.getElem?_push, hother]

theorem listBecomes_modify (hid : id < m.store.lists.size) (f : Array Value → Array Value)
    (journal : List Effect) :
    ListBecomes m { m with store := m.store.modifyList id f, journal } id
      (f (m.store.elements id)).toList := by
  refine ⟨?_, fun other hother => ?_⟩
  · simp [Store.modifyList, Store.elements, Array.getElem_modify_self, hid]
  · simp [Store.modifyList, Array.getElem?_modify, Ne.symm hother]

/-- A list that has elements exists. -/
theorem lt_of_size_pos (h : 0 < (m.store.elements id).size) : id < m.store.lists.size := by
  by_contra hid
  simp [Store.elements, Array.getElem?_eq_none (Nat.not_lt.mp hid)] at h

/-! ### Each way to use an index -/

section Lists

variable {perform : Performer} {span : Span}

theorem retrieve_of_in (he : m.store.elements id = elements) (h : IndexIn elements.size k)
    (hv : elements[indexedPlace elements.size k]? = some v) :
    applyIndex ctx left right (.list id) (.int k) m = .ok v m ∧
      applyBinary ctx .div left right (.list id) (.int k) m = .ok v m := by
  have hindex : m.store.index (.list id) (.int k) = .ok v := by
    show elementAt (m.store.elements id) (.int k) = _
    rw [he, elementAt_of_in h hv]
  have hdiv : m.store.binary .div (.list id) (.int k) = .ok (.value v) := by
    show (elementAt (m.store.elements id) (.int k)).map Yield.value = _
    rw [he, elementAt_of_in h hv]
    rfl
  exact ⟨applyIndex_of_ok hindex, applyBinary_of_ok hdiv⟩

theorem retrieve_of_not_in (he : m.store.elements id = elements) (h : ¬ IndexIn elements.size k) :
    Refuses (applyIndex ctx left right (.list id) (.int k)) m ∧
      Refuses (applyBinary ctx .div left right (.list id) (.int k)) m := by
  have hindex : m.store.index (.list id) (.int k) = .error (.listBounds .retrieval) := by
    show elementAt (m.store.elements id) (.int k) = _
    rw [he, elementAt_of_not_in h]
  have hdiv : m.store.binary .div (.list id) (.int k) = .error (.listBounds .retrieval) := by
    show (elementAt (m.store.elements id) (.int k)).map Yield.value = _
    rw [he, elementAt_of_not_in h]
    rfl
  exact ⟨applyIndex_of_error hindex, applyBinary_of_error hdiv⟩

theorem subtract_of_in (he : m.store.elements id = elements) (h : IndexIn elements.size k) :
    ∃ new m', applyBinary ctx .sub left right (.list id) (.int k) m = .ok (.list new) m' ∧
      m.store.lists[new]? = none ∧
      ListBecomes m m' new (elements.toList.eraseIdx (indexedPlace elements.size k)) := by
  have hsub : m.store.binary .sub (.list id) (.int k) =
      .ok (.list (without elements (indexedPlace elements.size k))) := by
    show (removeAt (m.store.elements id) (.int k)).map Yield.list = _
    rw [he, removeAt_of_in h]
    rfl
  obtain ⟨m', hnew, hbecomes⟩ :=
    listBecomes_newList m (without elements (indexedPlace elements.size k))
  rw [toList_without] at hbecomes
  exact ⟨_, m', (applyBinary_of_ok hsub).trans hnew, Array.getElem?_eq_none (Nat.le_refl _),
    hbecomes⟩

theorem subtract_of_not_in (he : m.store.elements id = elements) (h : ¬ IndexIn elements.size k) :
    Refuses (applyBinary ctx .sub left right (.list id) (.int k)) m := by
  have hsub : m.store.binary .sub (.list id) (.int k) = .error (.listBounds .removal) := by
    show (removeAt (m.store.elements id) (.int k)).map Yield.list = _
    rw [he, removeAt_of_not_in h]
    rfl
  exact applyBinary_of_error hsub

/-- A machine on which a builtin that changes the list was called. -/
def noted (m : Machine) (id : Nat) : Machine := { m with journal := .listChange id :: m.journal }

/-- Popping finds the place first, and changes the list only if there is one. -/
theorem call_pop (perform : Performer) (ctx : Context) (span : Span)
    (he : m.store.elements id = elements) (k : Int64) :
    ∃ c, call perform ctx span (.builtin .pop) [.list id, .int k] m =
      (match placeOf elements.size (.int k) (.listBounds .removal) with
        | .error fault => fail c (.operation fault) span
        | .ok place => do
          changeList id (without · place)
          return elements[place]?.getD .null : Eval Value) (noted m id) := by
  subst he
  exact ⟨_, rfl⟩

theorem pop_of_in (he : m.store.elements id = elements) (h : IndexIn elements.size k)
    (hv : elements[indexedPlace elements.size k]? = some v) :
    ∃ m', call perform ctx span (.builtin .pop) [.list id, .int k] m = .ok v m' ∧
      ListBecomes m m' id (elements.toList.eraseIdx (indexedPlace elements.size k)) := by
  have hid : id < m.store.lists.size := by
    apply lt_of_size_pos
    rw [he]
    exact Nat.zero_lt_of_lt h.place_lt
  have hbecomes := listBecomes_modify hid (without · (indexedPlace elements.size k))
    (.listChange id :: m.journal)
  rw [he, toList_without] at hbecomes
  obtain ⟨c, hcall⟩ := call_pop perform ctx span he k
  refine ⟨_, ?_, hbecomes⟩
  rw [hcall, placeOf_of_in h]
  simp only [hv]
  rfl

theorem pop_of_not_in (he : m.store.elements id = elements) (h : ¬ IndexIn elements.size k) :
    Refuses (call perform ctx span (.builtin .pop) [.list id, .int k]) m := by
  obtain ⟨c, hcall⟩ := call_pop perform ctx span he k
  rw [placeOf_of_not_in h] at hcall
  exact ⟨_, noted m id, hcall, rfl⟩

end Lists

theorem character_of_in (h : IndexIn s.length k)
    (hc : s.toList[indexedPlace s.length k]? = some c) :
    applyIndex ctx left right (.string s) (.int k) m = .ok (.string c.toString) m := by
  have hindex : m.store.index (.string s) (.int k) = .ok (.string c.toString) :=
    characterAt_of_in h hc
  exact applyIndex_of_ok hindex

theorem character_of_not_in (h : ¬ IndexIn s.length k) :
    Refuses (applyIndex ctx left right (.string s) (.int k)) m := by
  have hindex : m.store.index (.string s) (.int k) = .error .stringBounds :=
    characterAt_of_not_in h
  exact applyIndex_of_error hindex

/-- The characters of a string, one by one. -/
theorem characters_joined (hs : IsInt64 s.length) :
    ∃ pieces, List.Forall₂ (fun i piece => applyIndex ctx left right (.string s)
        (.int (Int64.ofNat i)) m = .ok (.string piece) m) (List.range s.length) pieces ∧
      String.join pieces = s := by
  refine ⟨s.toList.map Char.toString, ?_, ?_⟩
  · rw [List.forall₂_map_right_iff, List.forall₂_iff_get]
    refine ⟨by rw [List.length_range, String.length_toList], fun i hrange htext => ?_⟩
    rw [List.length_range] at hrange
    have hvalue : (Int64.ofNat i).toInt = i := toInt_ofNat ⟨by omega, by have := hs.2; omega⟩
    have hin : IndexIn s.length (Int64.ofNat i) := by
      unfold IndexIn
      omega
    have hplace : indexedPlace s.length (Int64.ofNat i) = i := by
      unfold indexedPlace
      rw [if_pos (by omega)]
      omega
    have hchar : s.toList[indexedPlace s.length (Int64.ofNat i)]? = some (s.toList.get ⟨i, htext⟩) := by
      rw [hplace]
      exact List.getElem?_eq_getElem htext
    simpa using character_of_in hin hchar
  · rw [join_map_toString, String.ofList_toList]

/-- **All indices agree.** On any machine: an index from `-n` up to `n`, counted from the back
if it is negative, addresses an element of a list of `n`, and `list[k]`, `list / k` and
`pop(list, k)` all yield it; `list - k` is a new list of the other elements in order, and `pop`
leaves the list with just these. With any other index all four fail and change no object. In
the same way `text[k]` yields the one character at that place, or fails; the characters at 0,
1 and so on up to the length together are the text. All indices can be resolved in 64-bit
arithmetic, which does not overflow. -/
theorem indexing_agrees (m : Machine) (c : Context) (span : Span) (perform : Performer)
    (left right : Node Span) :
    (∀ (id : Nat) (elements : Array Value) (k : Int64), m.store.elements id = elements →
      (IndexIn elements.size k → ∃ v, elements[indexedPlace elements.size k]? = some v ∧
        applyIndex c left right (.list id) (.int k) m = .ok v m ∧
        applyBinary c .div left right (.list id) (.int k) m = .ok v m ∧
        (∃ new m', applyBinary c .sub left right (.list id) (.int k) m = .ok (.list new) m' ∧
          m.store.lists[new]? = none ∧
          ListBecomes m m' new (elements.toList.eraseIdx (indexedPlace elements.size k))) ∧
        ∃ m', call perform c span (.builtin .pop) [.list id, .int k] m = .ok v m' ∧
          ListBecomes m m' id (elements.toList.eraseIdx (indexedPlace elements.size k))) ∧
      (¬ IndexIn elements.size k →
        Refuses (applyIndex c left right (.list id) (.int k)) m ∧
        Refuses (applyBinary c .div left right (.list id) (.int k)) m ∧
        Refuses (applyBinary c .sub left right (.list id) (.int k)) m ∧
        Refuses (call perform c span (.builtin .pop) [.list id, .int k]) m)) ∧
    (∀ (s : String) (k : Int64),
      (IndexIn s.length k → ∃ ch, s.toList[indexedPlace s.length k]? = some ch ∧
        applyIndex c left right (.string s) (.int k) m = .ok (.string ch.toString) m) ∧
      (¬ IndexIn s.length k → Refuses (applyIndex c left right (.string s) (.int k)) m)) ∧
    (∀ s : String, IsInt64 s.length →
      call perform c span (.builtin .len) [.string s] m =
        .ok (.int (Int64.ofNat s.length)) m ∧
      ∃ pieces, List.Forall₂ (fun i piece => applyIndex c left right (.string s)
          (.int (Int64.ofNat i)) m = .ok (.string piece) m) (List.range s.length) pieces ∧
        String.join pieces = s) ∧
    ∀ (n : Nat) (k : Int64), IsInt64 n →
      resolveIndex n k = resolveInWord (Int64.ofNat n) k ∧
      (k.toInt < 0 → (k + Int64.ofNat n).toInt = k.toInt + n) := by
  refine ⟨fun id elements k he => ⟨fun h => ?_, fun h => ?_⟩, fun s k => ⟨fun h => ?_, ?_⟩,
    fun s hs => ⟨rfl, characters_joined hs⟩,
    fun n k hn => ⟨(resolveInWord_eq hn k).symm, fun hk => toInt_add_length hk hn⟩⟩
  · obtain ⟨v, hv⟩ : ∃ v, elements[indexedPlace elements.size k]? = some v :=
      ⟨_, Array.getElem?_eq_getElem h.place_lt⟩
    obtain ⟨hindex, hdiv⟩ := retrieve_of_in he h hv
    exact ⟨v, hv, hindex, hdiv, subtract_of_in he h, pop_of_in he h hv⟩
  · obtain ⟨hindex, hdiv⟩ := retrieve_of_not_in he h
    exact ⟨hindex, hdiv, subtract_of_not_in he h, pop_of_not_in he h⟩
  · obtain ⟨ch, hch⟩ : ∃ ch, s.toList[indexedPlace s.length k]? = some ch :=
      ⟨_, List.getElem?_eq_getElem (by rw [String.length_toList]; exact h.place_lt)⟩
    exact ⟨ch, hch, character_of_in h hch⟩
  · exact character_of_not_in

/-! ### The first of three elements, and the place before it -/

/-- A machine with one list. -/
def listed : Machine :=
  { Machine.start default with store := (Store.empty.newList #[.int 7, .int 8, .int 9]).2 }

theorem indexing_agrees_at_front :
    (∃ m', call (Task.perform 0) (topLevel 0) default (.builtin .pop) [.list 0, .int (-3)] listed =
        .ok (.int 7) m' ∧ (m'.store.elements 0).toList = [.int 8, .int 9]) ∧
      Refuses (call (Task.perform 0) (topLevel 0) default (.builtin .pop) [.list 0, .int (-4)])
        listed := by
  obtain ⟨hlist, _⟩ := indexing_agrees listed (topLevel 0) default (Task.perform 0)
    (.int default 0) (.int default 0)
  constructor
  · obtain ⟨v, hv, _, _, _, m', hpop, hrest, _⟩ := (hlist 0 _ (-3) rfl).1 (by decide)
    cases hv
    exact ⟨m', hpop, hrest⟩
  · exact ((hlist 0 _ (-4) rfl).2 (by decide)).2.2.2

end Eval

end Script
