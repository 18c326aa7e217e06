import Script.Proofs.Constants
import Script.Proofs.Forest

/-! Names belong to the nearest table that binds them.

`Nearest` says which table that is, from the parents alone. Reading a name, assigning to it
and protecting it walk upwards each in their own way; they all follow the one list of
levels, and the first of these that binds a name is the nearest (`Formed.find?_chain`). What
is bound, where it may be bound at all, is one name of one table (`Rebinds`); what is refused
leaves everything as it was, also on a machine that runs.

Main statement, `nearest_binding`. -/
namespace Script

namespace Scopes

variable {s t : Scopes α} {id level top parent : ScopeId} {name : String} {value : α}
  {constant : Bool}

/-! ### Tables that can come about -/

/-- The tables that come about from none: new roots, and all that is done to tables. -/
inductive Reachable : Scopes α → Prop where
  | empty : Reachable empty
  | root {s : Scopes α} : Reachable s → Reachable (s.grow none).2
  | change {s : Scopes α} (c : ScopeChange α) : Reachable s → Reachable (s.change c)

theorem Reachable.formed (h : s.Reachable) : s.Formed := by
  induction h with
  | empty => exact formed_empty
  | root _ ih => exact ih.grow nofun
  | change c _ ih => exact ih.change c

theorem Reachable.changes (h : s.Reachable) (cs : List (ScopeChange α)) :
    (s.changes cs).Reachable := by
  induction cs generalizing s with
  | nil => exact h
  | cons c cs ih => exact ih (.change c h)

/-! ### The nearest table that binds a name -/

/-- On the way up from a table, the first that binds the name. -/
inductive Nearest (s : Scopes α) (name : String) : ScopeId → ScopeId → Prop where
  | here {id : ScopeId} : s.bindsAt name id = true → Nearest s name id id
  | above {id parent level : ScopeId} : s.bindsAt name id = false →
      s.parent? id = some parent → Nearest s name parent level → Nearest s name id level

theorem Nearest.bindsAt (h : s.Nearest name id level) : s.bindsAt name level = true := by
  induction h with
  | here hb => exact hb
  | above _ _ _ ih => exact ih

theorem lt_of_bindsAt (h : s.bindsAt name level = true) : level < s.tables.size := by
  simp only [Scopes.bindsAt, table?, Option.any_eq_true] at h
  obtain ⟨t, ht, _⟩ := h
  exact (Array.getElem?_eq_some_iff.mp ht).1

/-- A name that some table above binds has a nearest one that does. -/
theorem exists_nearest (hb : s.bindsAt name top = true)
    (hup : Relation.ReflTransGen (fun id parent => s.parent? id = some parent) id top) :
    ∃ level, s.Nearest name id level := by
  induction hup using Relation.ReflTransGen.head_induction_on with
  | refl => exact ⟨top, .here hb⟩
  | @head id parent hp _ ih =>
    cases hid : s.bindsAt name id with
    | true => exact ⟨id, .here hid⟩
    | false =>
      obtain ⟨level, hnear⟩ := ih
      exact ⟨level, .above hid hp hnear⟩

/-- Binding a name where it is nearest, or right here, makes that table the nearest. -/
theorem nearest_bind (hlevel : level < s.tables.size)
    (h : s.Nearest name id level ∨ level = id) (value : α) (constant : Bool) :
    (s.bind level name value constant).Nearest name id level := by
  have hself : (s.bind level name value constant).bindsAt name level = true := by
    rw [bindsAt_eq, own?_bind, if_pos ⟨rfl, rfl⟩, table?, Array.getElem?_eq_getElem hlevel]
    rfl
  rcases h with h | rfl
  · induction h with
    | here => exact .here hself
    | @above id parent level hid hp hnear ih =>
      refine .above ?_ (by rwa [parent?_bind]) (ih hlevel hself)
      have hne : level ≠ id := by
        rintro rfl
        rw [hnear.bindsAt] at hid
        cases hid
      rw [bindsAt_eq, own?_bind, if_neg fun hat => hne hat.1, ← bindsAt_eq]
      exact hid
  · exact .here hself

/-! ### The walk upwards -/

theorem walk_none (ht : s.table? id = none) (n : Nat) : s.walk n id = [] := by
  cases n with
  | zero => rfl
  | succ n => simp only [walk, ht]

theorem walk_succ (ht : (s.table? id).isSome) (n : Nat) :
    s.walk (n + 1) id = id :: ((s.parent? id).map (s.walk n)).getD [] := by
  obtain ⟨t, ht⟩ := Option.isSome_iff_exists.mp ht
  cases hp : t.parent <;> simp [walk, parent?, ht, hp]

/-- All levels of a walk are the table itself or above it. -/
theorem reaches_of_mem_walk {n : Nat} (h : level ∈ s.walk n id) :
    Relation.ReflTransGen (fun id parent => s.parent? id = some parent) id level := by
  induction n generalizing id with
  | zero => cases h
  | succ n ih =>
    cases ht : s.table? id with
    | none =>
      rw [walk_none ht] at h
      cases h
    | some t =>
      rw [walk_succ (by rw [ht]; rfl)] at h
      rcases List.mem_cons.mp h with rfl | h
      · exact .refl
      · cases hp : s.parent? id with
        | none => simp [hp] at h
        | some parent => exact .head hp (ih (by simpa [hp] using h))

/-- The first level of a walk that binds a name is the nearest table that does. -/
theorem Formed.find?_walk (h : s.Formed) {n : Nat} (hn : id < n) :
    (s.walk n id).find? (s.bindsAt name) = some level ↔ s.Nearest name id level := by
  induction n generalizing id with
  | zero => exact absurd hn (Nat.not_lt_zero id)
  | succ n ih =>
    cases ht : s.table? id with
    | none =>
      rw [walk_none ht]
      constructor
      · intro hfound
        cases hfound
      · rintro (hb | ⟨_, hp, _⟩)
        · simp [Scopes.bindsAt, ht] at hb
        · simp [parent?, ht] at hp
    | some t =>
      rw [walk_succ (by rw [ht]; rfl)]
      cases hb : s.bindsAt name id with
      | true =>
        rw [List.find?_cons_of_pos hb]
        constructor
        · rintro ⟨⟩
          exact .here hb
        · rintro (_ | ⟨hfree, _, _⟩)
          · rfl
          · rw [hb] at hfree
            cases hfree
      | false =>
        rw [List.find?_cons_of_neg (by simp [hb])]
        cases hp : s.parent? id with
        | none =>
          constructor
          · intro hfound
            cases hfound
          · rintro (hself | ⟨_, hp', _⟩)
            · rw [hb] at hself
              cases hself
            · rw [hp] at hp'
              cases hp'
        | some parent =>
          have hlt : parent < n := Nat.lt_of_lt_of_le (h.older id parent hp) (Nat.le_of_lt_succ hn)
          refine (ih hlt).trans ⟨.above hb hp, ?_⟩
          rintro (hself | ⟨_, hp', hnear⟩)
          · rw [hb] at hself
            cases hself
          · rw [hp] at hp'
            cases hp'
            exact hnear

theorem Formed.find?_chain (h : s.Formed) :
    (s.chain id).find? (s.bindsAt name) = some level ↔ s.Nearest name id level :=
  h.find?_walk (Nat.lt_succ_self id)

theorem Formed.find?_chain_none (h : s.Formed) :
    (s.chain id).find? (s.bindsAt name) = none ↔ ¬ ∃ level, s.Nearest name id level := by
  rw [Option.eq_none_iff_forall_ne_some, not_exists]
  exact forall_congr' fun level => not_congr h.find?_chain

/-! ### Reading -/

/-- The first level that has a value under a name is the first that binds it. -/
theorem findSome?_own? (levels : List ScopeId) :
    levels.findSome? (fun level => s.own? level name) =
      (levels.find? (s.bindsAt name)).bind fun level => s.own? level name := by
  induction levels with
  | nil => rfl
  | cons level levels ih =>
    rw [List.findSome?_cons, List.find?_cons, bindsAt_eq]
    cases hown : s.own? level name with
    | none => simpa using ih
    | some value => simp [hown]

theorem Formed.get?_of_nearest (h : s.Formed) (hnear : s.Nearest name id level) :
    s.get? id name = s.own? level name := by
  show (s.chain id).findSome? (fun level => s.own? level name) = _
  rw [findSome?_own?, h.find?_chain.mpr hnear, Option.bind_some]

theorem Formed.get?_of_none (h : s.Formed) (hnone : ¬ ∃ level, s.Nearest name id level) :
    s.get? id name = none := by
  show (s.chain id).findSome? (fun level => s.own? level name) = _
  rw [findSome?_own?, h.find?_chain_none.mpr hnone, Option.bind_none]

/-! ### Binding -/

/-- Between `s` and `t` only the name in the table `level` has changed: it now has this
value, and is constant or not. -/
structure Rebinds (s t : Scopes α) (level : ScopeId) (name : String) (value : α)
    (constant : Bool) : Prop where
  value : t.own? level name = some value
  mark : t.isConstant level name = constant
  names : ∀ other ≠ name, t.own? level other = s.own? level other ∧
    t.isConstant level other = s.isConstant level other
  parent : t.parent? level = s.parent? level
  tables : ∀ other ≠ level, t.table? other = s.table? other

theorem rebinds_bind (hlevel : level < s.tables.size) (hfree : s.isConstant level name = false)
    (value : α) (constant : Bool) :
    s.Rebinds (s.bind level name value constant) level name value constant := by
  have htable : s.table? level = some s.tables[level] := Array.getElem?_eq_getElem hlevel
  refine ⟨?_, ?_, fun other hother => ⟨?_, ?_⟩, parent?_bind .., fun other hother => ?_⟩
  · rw [own?_bind, if_pos ⟨rfl, rfl⟩, htable, Option.map_some]
  · simp [isConstant_bind, hfree, htable]
  · rw [own?_bind, if_neg fun hat => hother hat.2.symm]
  · simp [isConstant_bind, Ne.symm hother]
  · rw [table?_bind, if_neg (Ne.symm hother)]

/-- A name may not be bound where it is constant, nor where it is not bound and constant
above. -/
theorem Formed.isProtected_iff (h : s.Formed) :
    s.isProtected id name = true ↔ s.isConstant id name = true ∨
      s.bindsAt name id = false ∧ ∃ top, s.Below id top ∧ s.isConstant top name = true := by
  constructor
  · intro hp
    simp only [isProtected, Bool.or_eq_true, Bool.and_eq_true, Bool.not_eq_eq_eq_not, Bool.not_true,
      List.any_eq_true] at hp
    refine hp.imp_right fun ⟨hfree, top, hmem, hc⟩ => ⟨hfree, top, ?_, hc⟩
    cases ht : s.table? id with
    | none =>
      rw [chain, walk_none ht] at hmem
      cases hmem
    | some t =>
      rw [chain, walk_succ (by rw [ht]; rfl), List.tail_cons] at hmem
      cases hparent : s.parent? id with
      | none => simp [hparent] at hmem
      | some parent =>
        rw [hparent] at hmem
        exact .head' hparent (reaches_of_mem_walk hmem)
  · rintro (hc | ⟨hfree, top, hb, hc⟩)
    · simp [isProtected, hc]
    · exact h.isProtected_of_below hc hb hfree

theorem set_eq_none_iff : s.set id name value constant = none ↔ s.isProtected id name = true := by
  unfold set
  cases s.isProtected id name <;> simp

theorem set_eq_some_iff : s.set id name value constant = some t ↔
    s.isProtected id name = false ∧ s.bind id name value constant = t := by
  unfold set
  cases s.isProtected id name <;> simp

theorem isConstant_of_free (h : s.isProtected id name = false) : s.isConstant id name = false := by
  simp only [isProtected, Bool.or_eq_false_iff] at h
  exact h.1

/-- Where a name is bound, only its own mark protects it. -/
theorem isProtected_of_bindsAt (h : s.bindsAt name id = true) :
    s.isProtected id name = s.isConstant id name := by
  simp [isProtected, h]

/-- A name that no table on the way up binds is protected nowhere on it. -/
theorem Formed.isProtected_of_none (h : s.Formed) (hnone : ¬ ∃ level, s.Nearest name id level) :
    s.isProtected id name = false := by
  rw [Bool.eq_false_iff]
  intro hp
  rcases h.isProtected_iff.mp hp with hc | ⟨_, top, hb, hc⟩
  · exact hnone ⟨id, .here (h.bound id name hc)⟩
  · exact hnone (exists_nearest (h.bound top name hc) hb.to_reflTransGen)

theorem Formed.home_of_nearest (h : s.Formed) (hnear : s.Nearest name id level) :
    s.home id name = level := by
  rw [home, h.find?_chain.mpr hnear, Option.getD_some]

theorem Formed.home_of_none (h : s.Formed) (hnone : ¬ ∃ level, s.Nearest name id level) :
    s.home id name = id := by
  rw [home, h.find?_chain_none.mpr hnone, Option.getD_none]

theorem Formed.assign_eq_none_iff (h : s.Formed) : s.assign id name value = none ↔
    ∃ level, s.Nearest name id level ∧ s.isConstant level name = true := by
  rw [assign, set_eq_none_iff]
  by_cases hex : ∃ level, s.Nearest name id level
  · obtain ⟨level, hnear⟩ := hex
    rw [h.home_of_nearest hnear, isProtected_of_bindsAt hnear.bindsAt]
    refine ⟨fun hc => ⟨level, hnear, hc⟩, fun ⟨other, hother, hc⟩ => ?_⟩
    rw [← h.home_of_nearest hnear, h.home_of_nearest hother]
    exact hc
  · rw [h.home_of_none hex, h.isProtected_of_none hex]
    exact ⟨nofun, fun ⟨level, hnear, _⟩ => absurd ⟨level, hnear⟩ hex⟩

/-- The table on which an assignment binds: the nearest, or else the one it is made in. -/
def AssignedAt (s : Scopes α) (name : String) (id level : ScopeId) : Prop :=
  s.Nearest name id level ∨ (¬ ∃ other, s.Nearest name id other) ∧ level = id

theorem Formed.assign_eq_some (h : s.Formed) (hid : id < s.tables.size)
    (ht : s.assign id name value = some t) :
    ∃ level, s.AssignedAt name id level ∧ s.Rebinds t level name value false ∧
      t.get? id name = some value := by
  obtain ⟨hfree, rfl⟩ := set_eq_some_iff.mp ht
  have hat : s.AssignedAt name id (s.home id name) := by
    by_cases hex : ∃ level, s.Nearest name id level
    · obtain ⟨level, hnear⟩ := hex
      rw [h.home_of_nearest hnear]
      exact .inl hnear
    · exact .inr ⟨hex, h.home_of_none hex⟩
  have hlt : s.home id name < s.tables.size := by
    rcases hat with hnear | ⟨_, hhome⟩
    · exact lt_of_bindsAt hnear.bindsAt
    · rw [hhome]
      exact hid
  have hrebinds := rebinds_bind hlt (isConstant_of_free hfree) value false
  have hnear := nearest_bind hlt (hat.imp_right And.right) value false
  refine ⟨s.home id name, hat, hrebinds, ?_⟩
  rw [(h.bind _ _ _ _).get?_of_nearest hnear, hrebinds.value]

theorem rebinds_of_set (hid : id < s.tables.size) (ht : s.set id name value constant = some t) :
    s.Rebinds t id name value constant := by
  obtain ⟨hfree, rfl⟩ := set_eq_some_iff.mp ht
  exact rebinds_bind hid (isConstant_of_free hfree) value constant

end Scopes

/-! ### On a machine -/

namespace Eval

variable {m : Machine} {c : Context} {span : Span} {name : String} {value : Value}
  {constant : Bool} {scope : ScopeId} {t : Scopes Value}

theorem bindAt_of_set (h : m.scopes.set scope name value constant = some t) :
    bindAt c scope name value constant span m =
      .ok () { m with scopes := t, journal := .bound scope name :: m.journal } := by
  obtain ⟨hfree, rfl⟩ := Scopes.set_eq_some_iff.mp h
  exact bindAt_of_free hfree

theorem bindAt_of_refused (h : m.scopes.set scope name value constant = none) :
    bindAt c scope name value constant span m = .error (refusal c name span) m :=
  bindAt_of_protected (Scopes.set_eq_none_iff.mp h)

end Eval

namespace Scopes

/-- **Names are read, assigned and set where they are nearest, and a refusal changes
nothing.** Of all tables that can come about: a name has the value of the nearest table that
binds it. An assignment is refused exactly if it is constant there, and else changes that one
name there, or makes it in the table at hand if none binds it; it then has the new value. Setting
a name in a table is refused exactly if it is constant there, or is not bound there and
constant above; else it changes that one name there. What is refused leaves all tables, and
the machine that tried it, as they were. -/
theorem nearest_binding {s : Scopes Value} (hs : s.Reachable) {id : ScopeId}
    (hid : id < s.tables.size) (name : String) (value : Value) (constant : Bool) :
    ((∀ level, s.Nearest name id level →
        s.get? id name = s.own? level name ∧ (s.own? level name).isSome) ∧
      ((¬ ∃ level, s.Nearest name id level) → s.get? id name = none)) ∧
    ((s.assign id name value = none ↔
        ∃ level, s.Nearest name id level ∧ s.isConstant level name = true) ∧
      (∀ t, s.assign id name value = some t →
        ∃ level, s.AssignedAt name id level ∧ s.Rebinds t level name value false ∧
          t.get? id name = some value) ∧
      (s.assign id name value = none → s.change (.assign id name value) = s)) ∧
    ((s.set id name value constant = none ↔ s.isConstant id name = true ∨
        s.bindsAt name id = false ∧ ∃ top, s.Below id top ∧ s.isConstant top name = true) ∧
      (∀ t, s.set id name value constant = some t → s.Rebinds t id name value constant) ∧
      (s.set id name value constant = none → s.change (.set id name value constant) = s)) ∧
    ∀ (m : Machine) (calls : List Call) (span : Span), m.scopes = s →
      (s.assign id name value = none →
        ∃ e, Eval.assign ⟨id, calls⟩ name value span m = .error e m) ∧
      (∀ t, s.assign id name value = some t → ∃ journal,
        Eval.assign ⟨id, calls⟩ name value span m = .ok () { m with scopes := t, journal }) ∧
      (s.set id name value constant = none →
        ∃ e, Eval.define ⟨id, calls⟩ name value constant span m = .error e m) ∧
      (∀ t, s.set id name value constant = some t → ∃ journal,
        Eval.define ⟨id, calls⟩ name value constant span m =
          .ok () { m with scopes := t, journal }) := by
  have hf := hs.formed
  refine ⟨⟨fun level hnear => ⟨hf.get?_of_nearest hnear, ?_⟩, hf.get?_of_none⟩,
    ⟨hf.assign_eq_none_iff, fun t => hf.assign_eq_some hid, fun h => by simp [change, h]⟩,
    ⟨set_eq_none_iff.trans hf.isProtected_iff, fun t => rebinds_of_set hid,
      fun h => by simp [change, h]⟩, ?_⟩
  · rw [← bindsAt_eq]
    exact hnear.bindsAt
  · rintro m calls span rfl
    have hassign : ∀ c, Eval.assign c name value span m =
        Eval.bindAt c (m.scopes.home c.scope name) name value false span m := fun _ => rfl
    refine ⟨fun h => ⟨_, (hassign _).trans (Eval.bindAt_of_refused h)⟩,
      fun t h => ⟨_, (hassign _).trans (Eval.bindAt_of_set h)⟩,
      fun h => ⟨_, Eval.bindAt_of_refused h⟩, fun t h => ⟨_, Eval.bindAt_of_set h⟩⟩

/-! ### A constant behind a nearer binding -/

/-- Table 1 binds `k` before the root makes it a constant; table 2 lies below both. -/
def sheltered : List (ScopeChange Value) :=
  [.child 0, .set 1 "k" (.int 1) false, .set 0 "k" (.int 9) true, .child 1]

theorem nearest_binding_sheltered :
    let s := (root : Scopes Value).changes sheltered
    s.Nearest "k" 2 1 ∧ s.get? 2 "k" = some (.int 1) ∧ s.set 2 "k" .null false = none ∧
      ∃ t, s.assign 2 "k" .null = some t ∧ t.get? 2 "k" = some .null ∧
        t.own? 0 "k" = some (.int 9) := by
  intro s
  have hs : s.Reachable := Reachable.changes (.root .empty) sheltered
  have hnear : s.Nearest "k" 2 1 := .above rfl rfl (.here rfl)
  have hbelow : s.Below 2 0 := .tail (.single (b := 1) rfl) rfl
  obtain ⟨⟨hget, _⟩, ⟨_, hassign, _⟩, ⟨hrefused, _⟩, _⟩ :=
    nearest_binding hs (show 2 < s.tables.size by decide) "k" .null false
  refine ⟨hnear, (hget 1 hnear).1, hrefused.mpr (.inr ⟨rfl, 0, hbelow, rfl⟩), _, rfl, ?_, rfl⟩
  obtain ⟨_, _, _, hvalue⟩ := hassign _ rfl
  exact hvalue

end Scopes

end Script
