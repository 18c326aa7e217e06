import Mathlib.Logic.Relation
import Script.Scope

/-! Scopes as a forest that grows.

Tables are added below others, and names are bound, assigned and removed on any of
them, in any order; what is refused changes nothing (`change`). Three readings of a
table say all that matters of it: the table above it, the value that it has itself
under a name, and whether that name is constant in it. `change_cases` is the one place
that says what a change can do.

Main statement, `constants_permanent`: a constant stays one, with its value, and no
table that is added below it later ever binds its name. A table that was there before
may go on to bind it. -/
namespace Script

/-- Something that is done to the tables. -/
inductive ScopeChange (α : Type) where
  | child (parent : ScopeId)
  | set (id : ScopeId) (name : String) (value : α) (constant : Bool)
  | assign (id : ScopeId) (name : String) (value : α)
  | remove (id : ScopeId) (name : String)
deriving Repr, Inhabited

namespace Bindings

theorem find?_filter_ne (name other : String) (entries : List (String × α)) :
    find? other (entries.filter fun e => e.1 ≠ name) =
      if name = other then none else find? other entries := by
  induction entries with
  | nil => simp [find?]
  | cons e rest ih =>
    obtain ⟨k, v⟩ := e
    by_cases hk : k = name
    · subst hk
      by_cases ho : k = other <;> simp_all [find?]
    · by_cases ho : k = other
      · subst ho
        simp [find?, hk, Ne.symm hk]
      · simp_all [find?]

@[simp] theorem get?_erase (b : Bindings α) (name other : String) :
    (b.erase name).get? other = if name = other then none else b.get? other :=
  find?_filter_ne name other b.entries

end Bindings

namespace Scopes

variable {s : Scopes α} {id top parent : ScopeId} {name other : String} {value : α}

/-! ### What is read off a table -/

/-- The table above a table. -/
def parent? (s : Scopes α) (id : ScopeId) : Option ScopeId := (s.table? id).bind Table.parent

/-- The value that a table has itself under a name. -/
def own? (s : Scopes α) (id : ScopeId) (name : String) : Option α :=
  (s.table? id).bind (·.bindings.get? name)

theorem bindsAt_eq (s : Scopes α) (name : String) (id : ScopeId) :
    s.bindsAt name id = (s.own? id name).isSome := by
  unfold bindsAt own? Table.binds Bindings.binds
  cases s.table? id <;> rfl

/-- A table lies below the one above it, and below all that are above that. -/
def Below (s : Scopes α) : ScopeId → ScopeId → Prop :=
  Relation.TransGen fun id parent => s.parent? id = some parent

/-! ### What is done to a table -/

theorem table?_modify (s : Scopes α) (id level : ScopeId) (f : Table α → Table α) :
    table? ⟨s.tables.modify id f⟩ level =
      if id = level then (s.table? level).map f else s.table? level := by
  simp [table?, Array.getElem?_modify]

/-- A table without a name. -/
def unbind (s : Scopes α) (id : ScopeId) (name : String) : Scopes α :=
  ⟨s.tables.modify id fun t => { t with bindings := t.bindings.erase name }⟩

@[simp] theorem parent?_bind (s : Scopes α) (id level : ScopeId) (name : String) (value : α)
    (constant : Bool) : (s.bind id name value constant).parent? level = s.parent? level := by
  unfold parent? bind
  rw [table?_modify]
  split
  · cases s.table? level <;> rfl
  · rfl

@[simp] theorem parent?_unbind (s : Scopes α) (id level : ScopeId) (name : String) :
    (s.unbind id name).parent? level = s.parent? level := by
  unfold parent? unbind
  rw [table?_modify]
  split
  · cases s.table? level <;> rfl
  · rfl

theorem own?_bind (s : Scopes α) (id level : ScopeId) (name other : String) (value : α)
    (constant : Bool) :
    (s.bind id name value constant).own? level other =
      if id = level ∧ name = other then (s.table? level).map fun _ => value
      else s.own? level other := by
  unfold own? bind
  rw [table?_modify]
  by_cases hid : id = level
  · cases s.table? level with
    | none => simp
    | some t => by_cases hname : name = other <;> simp [hid, hname, Table.bind]
  · simp [hid]

theorem own?_unbind (s : Scopes α) (id level : ScopeId) (name other : String) :
    (s.unbind id name).own? level other =
      if id = level ∧ name = other then none else s.own? level other := by
  unfold own? unbind
  rw [table?_modify]
  by_cases hid : id = level
  · cases s.table? level with
    | none => simp
    | some t => by_cases hname : name = other <;> simp [hid, hname]
  · simp [hid]

/-- Binding marks a name at most, and takes no mark away. -/
theorem isConstant_bind (s : Scopes α) (id level : ScopeId) (name other : String) (value : α)
    (constant : Bool) :
    (s.bind id name value constant).isConstant level other =
      (s.isConstant level other ||
        (constant && decide (id = level ∧ name = other) && (s.table? level).isSome)) := by
  unfold isConstant bind
  rw [table?_modify]
  by_cases hid : id = level
  · cases s.table? level with
    | none => simp
    | some t =>
      cases constant
      · simp [hid, Table.bind, Table.isConstant]
      · by_cases hname : name = other
        · simp [hid, hname, Table.bind, Table.isConstant]
        · simp [hid, hname, Ne.symm hname, Table.bind, Table.isConstant]
  · simp [hid]

@[simp] theorem isConstant_unbind (s : Scopes α) (id level : ScopeId) (name other : String) :
    (s.unbind id name).isConstant level other = s.isConstant level other := by
  unfold isConstant unbind
  rw [table?_modify]
  split
  · cases s.table? level <;> rfl
  · rfl

/-- A new table has a parent and nothing else. -/
theorem table?_grow (s : Scopes α) (above : Option ScopeId) (level : ScopeId) :
    (s.grow above).2.table? level =
      if level = s.tables.size then some (.empty above) else s.table? level := by
  simp [grow, table?, Array.getElem?_push]

/-! ### Changes -/

/-- One table, which is empty. -/
def root : Scopes α := (empty.grow none).2

/-- What a change leaves. One that is refused, or that names no table, does nothing. -/
def change (s : Scopes α) : ScopeChange α → Scopes α
  | .child parent => if parent < s.tables.size then (s.grow (some parent)).2 else s
  | .set id name value constant => (s.set id name value constant).getD s
  | .assign id name value => (s.assign id name value).getD s
  | .remove id name => ((s.remove id name).map Prod.snd).getD s

/-- What changes leave that are made one after the other. -/
def changes (s : Scopes α) (cs : List (ScopeChange α)) : Scopes α := cs.foldl change s

theorem set_cases (s : Scopes α) (id : ScopeId) (name : String) (value : α) (constant : Bool) :
    (s.set id name value constant).getD s = s ∨
      s.isProtected id name = false ∧
        (s.set id name value constant).getD s = s.bind id name value constant := by
  unfold set
  cases hp : s.isProtected id name
  · exact .inr ⟨rfl, rfl⟩
  · exact .inl rfl

/-- All that a change can do: nothing, a new table below another, a name bound where it
is not protected, or a name removed where it is no constant. -/
theorem change_cases (s : Scopes α) (c : ScopeChange α) :
    s.change c = s ∨
    (∃ parent < s.tables.size, s.change c = (s.grow (some parent)).2) ∨
    (∃ id name value constant, s.isProtected id name = false ∧
      s.change c = s.bind id name value constant) ∨
    ∃ id name, s.isConstant id name = false ∧ s.change c = s.unbind id name := by
  cases c with
  | child parent =>
    by_cases hp : parent < s.tables.size
    · exact .inr (.inl ⟨parent, hp, if_pos hp⟩)
    · exact .inl (if_neg hp)
  | set id name value constant =>
    rcases s.set_cases id name value constant with h | ⟨hp, h⟩
    · exact .inl h
    · exact .inr (.inr (.inl ⟨_, _, _, _, hp, h⟩))
  | assign id name value =>
    rcases s.set_cases (s.home id name) name value false with h | ⟨hp, h⟩
    · exact .inl h
    · exact .inr (.inr (.inl ⟨_, _, _, _, hp, h⟩))
  | remove id name =>
    cases hc : s.isConstant id name
    · exact .inr (.inr (.inr ⟨id, name, hc, by simp [change, remove, hc, unbind]⟩))
    · exact .inl (by simp [change, remove, hc])

/-! ### What every change keeps -/

/-- Constants are bound where they are constant, and parents are older. -/
structure Formed (s : Scopes α) : Prop where
  bound : ∀ id name, s.isConstant id name = true → s.bindsAt name id = true
  older : ∀ id parent, s.parent? id = some parent → parent < id

theorem formed_empty : (empty : Scopes α).Formed := by
  have htable : ∀ id, (empty : Scopes α).table? id = none := fun _ => rfl
  constructor
  · intro id name h
    simp [isConstant, htable] at h
  · intro id parent h
    simp [parent?, htable] at h

theorem Formed.bind (h : s.Formed) (id : ScopeId) (name : String) (value : α) (constant : Bool) :
    (s.bind id name value constant).Formed := by
  refine ⟨fun level other hc => ?_, fun level parent hp => h.older level parent (by simpa using hp)⟩
  rw [bindsAt_eq, own?_bind]
  rw [isConstant_bind] at hc
  by_cases hat : id = level ∧ name = other
  · rw [if_pos hat, Option.isSome_map]
    cases ht : s.table? level with
    | some t => rfl
    | none => simp [isConstant, ht] at hc
  · rw [if_neg hat, ← bindsAt_eq]
    apply h.bound
    simpa [hat] using hc

theorem Formed.unbind (h : s.Formed) (hc : s.isConstant id name = false) :
    (s.unbind id name).Formed := by
  refine ⟨fun level other hl => ?_, fun level parent hp => h.older level parent (by simpa using hp)⟩
  rw [isConstant_unbind] at hl
  rw [bindsAt_eq, own?_unbind, if_neg, ← bindsAt_eq]
  · exact h.bound level other hl
  · rintro ⟨rfl, rfl⟩
    rw [hc] at hl
    exact Bool.noConfusion hl

theorem parent?_grow (s : Scopes α) (above : Option ScopeId) (level : ScopeId) :
    (s.grow above).2.parent? level = if level = s.tables.size then above else s.parent? level := by
  unfold parent?
  rw [table?_grow]
  split <;> rfl

theorem own?_grow (s : Scopes α) (above : Option ScopeId) (level : ScopeId) (name : String) :
    (s.grow above).2.own? level name =
      if level = s.tables.size then none else s.own? level name := by
  unfold own?
  rw [table?_grow]
  split <;> rfl

theorem isConstant_grow (s : Scopes α) (above : Option ScopeId) (level : ScopeId) (name : String) :
    (s.grow above).2.isConstant level name =
      (decide (level ≠ s.tables.size) && s.isConstant level name) := by
  unfold isConstant
  rw [table?_grow]
  by_cases h : level = s.tables.size <;> simp [h, Table.empty, Table.isConstant]

/-- A new table, which may be a root. -/
theorem Formed.grow (h : s.Formed) {above : Option ScopeId}
    (ha : ∀ parent ∈ above, parent < s.tables.size) : (s.grow above).2.Formed := by
  constructor
  · intro level name hc
    rw [isConstant_grow] at hc
    rw [bindsAt_eq, own?_grow, if_neg (by simp_all), ← bindsAt_eq]
    apply h.bound
    simp_all
  · intro level parent hp
    rw [parent?_grow] at hp
    by_cases hl : level = s.tables.size
    · rw [if_pos hl] at hp
      exact hl ▸ ha parent hp
    · rw [if_neg hl] at hp
      exact h.older level parent hp

theorem formed_root : (root : Scopes α).Formed := formed_empty.grow nofun

theorem Formed.change (h : s.Formed) (c : ScopeChange α) : (s.change c).Formed := by
  rcases s.change_cases c with hc | ⟨parent, hp, hc⟩ | ⟨id, name, value, constant, _, hc⟩ |
    ⟨id, name, hfree, hc⟩
  · rw [hc]
    exact h
  · rw [hc]
    exact h.grow (by simpa using hp)
  · rw [hc]
    exact h.bind id name value constant
  · rw [hc]
    exact h.unbind hfree

theorem Formed.changes (h : s.Formed) (cs : List (ScopeChange α)) : (s.changes cs).Formed := by
  induction cs generalizing s with
  | nil => exact h
  | cons c cs ih => exact ih (h.change c)

/-! ### Above and below -/

theorem Formed.lt_of_below (h : s.Formed) (hb : s.Below id top) : top < id := by
  induction hb with
  | single hp => exact h.older _ _ hp
  | tail _ hp ih => exact Nat.lt_trans (h.older _ _ hp) ih

/-- A walk that is long enough comes to every table above. -/
theorem Formed.mem_walk (h : s.Formed) {n : Nat} (hn : id < n) (htop : (s.table? top).isSome)
    (hb : Relation.ReflTransGen (fun id parent => s.parent? id = some parent) id top) :
    top ∈ s.walk n id := by
  induction n generalizing id with
  | zero => exact absurd hn (Nat.not_lt_zero id)
  | succ n ih =>
    unfold walk
    rcases hb.cases_head with rfl | ⟨parent, hp, hrest⟩
    · obtain ⟨t, ht⟩ := Option.isSome_iff_exists.mp htop
      rw [ht]
      dsimp only
      split <;> simp
    · obtain ⟨t, ht, htp⟩ := Option.bind_eq_some_iff.mp hp
      have hlt : parent < n := Nat.lt_of_lt_of_le (h.older id parent hp) (Nat.le_of_lt_succ hn)
      simp [ht, htp, ih hlt hrest]

theorem Formed.mem_chain_tail (h : s.Formed) (htop : (s.table? top).isSome)
    (hb : s.Below id top) : top ∈ (s.chain id).tail := by
  obtain ⟨parent, hp, hrest⟩ := Relation.TransGen.head'_iff.mp hb
  obtain ⟨t, ht, htp⟩ := Option.bind_eq_some_iff.mp hp
  have hlt := h.older id parent hp
  unfold chain walk
  simp [ht, htp, h.mem_walk hlt htop hrest]

/-- Below a constant its name is protected wherever it is not bound. -/
theorem Formed.isProtected_of_below (h : s.Formed) (hc : s.isConstant top name = true)
    (hb : s.Below id top) (hfree : s.bindsAt name id = false) : s.isProtected id name = true := by
  have htop : (s.table? top).isSome := by
    unfold isConstant at hc
    cases ht : s.table? top with
    | some t => rfl
    | none => simp [ht] at hc
  have hany : (s.chain id).tail.any (fun level => s.isConstant level name) = true :=
    List.any_eq_true.mpr ⟨top, h.mem_chain_tail htop hb, hc⟩
  simp [isProtected, hfree, hany]

/-- The tables above an old table are what they were before a new one came. -/
theorem Formed.below_of_grow (h : s.Formed) (hid : id < s.tables.size)
    (hb : (s.grow (some parent)).2.Below id top) : s.Below id top := by
  induction hb with
  | single hp =>
    rw [parent?_grow, if_neg (Nat.ne_of_lt hid)] at hp
    exact .single hp
  | tail hb hp ih =>
    rw [parent?_grow, if_neg (Nat.ne_of_lt (Nat.lt_trans (h.lt_of_below ih) hid))] at hp
    exact ih.tail hp

/-! ### Constants -/

/-- The name is a constant of the table `top`, with a value, and no table from the
number `since` on that lies below `top` binds it. -/
structure Stands (s : Scopes α) (top : ScopeId) (name : String) (value : α) (since : ScopeId) :
    Prop where
  constant : s.isConstant top name = true
  value : s.own? top name = some value
  clear : ∀ id, since ≤ id → s.Below id top → s.bindsAt name id = false

theorem Stands.bind {since : ScopeId} (hs : s.Formed) (h : s.Stands top name value since)
    (hfree : s.isProtected id other = false) (new : α) (constant : Bool) :
    (s.bind id other new constant).Stands top name value since := by
  have htop : ¬(id = top ∧ other = name) := by
    rintro ⟨rfl, rfl⟩
    simp [isProtected, h.constant] at hfree
  refine ⟨by simp [isConstant_bind, h.constant], by rw [own?_bind, if_neg htop, h.value], ?_⟩
  intro level hlevel hb
  have hb : s.Below level top := by simpa [Below] using hb
  have hclear := h.clear level hlevel hb
  rw [bindsAt_eq, own?_bind, if_neg, ← bindsAt_eq]
  · exact hclear
  · rintro ⟨rfl, rfl⟩
    rw [hs.isProtected_of_below h.constant hb hclear] at hfree
    exact Bool.noConfusion hfree

theorem Stands.unbind {since : ScopeId} (h : s.Stands top name value since)
    (hfree : s.isConstant id other = false) : (s.unbind id other).Stands top name value since := by
  have htop : ¬(id = top ∧ other = name) := by
    rintro ⟨rfl, rfl⟩
    rw [h.constant] at hfree
    exact Bool.noConfusion hfree
  refine ⟨by simp [h.constant], by rw [own?_unbind, if_neg htop, h.value], ?_⟩
  intro level hlevel hb
  have hclear := h.clear level hlevel (by simpa [Below] using hb)
  rw [bindsAt_eq] at hclear ⊢
  rw [own?_unbind]
  split
  · rfl
  · exact hclear

theorem Stands.grow {since : ScopeId} (hs : s.Formed) (h : s.Stands top name value since) :
    (s.grow (some parent)).2.Stands top name value since := by
  have htop : top ≠ s.tables.size := by
    rintro rfl
    simpa [isConstant, table?] using h.constant
  refine ⟨by simp [isConstant_grow, h.constant, htop], ?_, ?_⟩
  · rw [own?_grow, if_neg htop, h.value]
  · intro level hlevel hb
    rw [bindsAt_eq, own?_grow]
    by_cases hnew : level = s.tables.size
    · rw [if_pos hnew]
      rfl
    · rw [if_neg hnew, ← bindsAt_eq]
      by_cases hold : level < s.tables.size
      · exact h.clear level hlevel (hs.below_of_grow hold hb)
      · simp [bindsAt, table?, Array.getElem?_eq_none (Nat.le_of_not_lt hold)]

theorem Stands.change {since : ScopeId} (hs : s.Formed) (h : s.Stands top name value since)
    (c : ScopeChange α) : (s.change c).Stands top name value since := by
  rcases s.change_cases c with hc | ⟨parent, _, hc⟩ | ⟨id, other, new, constant, hfree, hc⟩ |
    ⟨id, other, hfree, hc⟩
  · rw [hc]
    exact h
  · rw [hc]
    exact h.grow hs
  · rw [hc]
    exact h.bind hs hfree new constant
  · rw [hc]
    exact h.unbind hfree

theorem Stands.changes {since : ScopeId} (hs : s.Formed) (h : s.Stands top name value since)
    (cs : List (ScopeChange α)) : (s.changes cs).Stands top name value since := by
  induction cs generalizing s with
  | nil => exact h
  | cons c cs ih => exact ih (hs.change c) (h.change hs c)

/-- No table from the number that the next one will get on is there yet. -/
theorem Formed.stands (h : s.Formed) (hc : s.isConstant top name = true) :
    ∃ value, s.Stands top name value s.tables.size := by
  have hb := h.bound top name hc
  rw [bindsAt_eq] at hb
  obtain ⟨value, hvalue⟩ := Option.isSome_iff_exists.mp hb
  refine ⟨value, hc, hvalue, fun id hid _ => ?_⟩
  simp [bindsAt, table?, Array.getElem?_eq_none hid]

/-- **Constants are permanent, and protect every table that comes below them.** In all
states that changes lead to from one empty table, constants are bound where they are
constant, and no table lies below itself. Once a name is constant in a table it stays
so, with its value, through all further changes, and none of the tables that these add
below that table binds the name. -/
theorem constants_permanent (before : List (ScopeChange α)) :
    let s := (root : Scopes α).changes before
    (∀ id name, s.isConstant id name = true → s.bindsAt name id = true) ∧
    (∀ id, ¬ s.Below id id) ∧
    ∀ top name, s.isConstant top name = true → ∃ value, s.own? top name = some value ∧
      ∀ later, (s.changes later).isConstant top name = true ∧
        (s.changes later).own? top name = some value ∧
        ∀ id, s.tables.size ≤ id → (s.changes later).Below id top →
          (s.changes later).bindsAt name id = false := by
  intro s
  have hs : s.Formed := formed_root.changes before
  refine ⟨hs.bound, fun id hb => Nat.lt_irrefl id (hs.lt_of_below hb), ?_⟩
  intro top name hc
  obtain ⟨value, hstands⟩ := hs.stands hc
  refine ⟨value, hstands.value, fun later => ?_⟩
  have hlater := hstands.changes hs later
  exact ⟨hlater.constant, hlater.value, hlater.clear⟩

/-! ### A table that was there before the constant, and one that came later -/

/-- Table 1 binds `k`, and then the root makes it a constant. -/
def shadowing : List (ScopeChange Nat) := [.child 0, .set 1 "k" 1 false, .set 0 "k" 9 true]

/-- Table 2 comes below table 1 and tries to bind `k`; then the constant is tried. -/
def challenging : List (ScopeChange Nat) :=
  [.child 1, .set 2 "k" 2 false, .assign 2 "k" 3, .remove 0 "k", .assign 0 "k" 4]

theorem constants_permanent_shadowed :
    let s := ((root : Scopes Nat).changes shadowing).changes challenging
    s.own? 0 "k" = some 9 ∧ s.own? 1 "k" = some 3 ∧ s.Below 2 0 ∧ s.bindsAt "k" 2 = false := by
  intro s
  have hbelow : s.Below 2 0 := .tail (.single (b := 1) rfl) rfl
  obtain ⟨_, _, hstands⟩ := constants_permanent shadowing
  obtain ⟨value, hvalue, hlater⟩ := hstands 0 "k" rfl
  obtain ⟨_, hown, hclear⟩ := hlater challenging
  refine ⟨hown.trans (hvalue.symm.trans rfl), rfl, hbelow, hclear 2 ?_ hbelow⟩
  decide

end Scopes

end Script
