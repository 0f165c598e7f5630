import FieldSelection.Proofs.Expansion.Aggregate
import FieldSelection.Proofs.Expansion.Meaning

/-!
# What the union adds to an expression

An expression that names a view selects more once there is a union of all aliases.
`AliasTable.Reads` says which views the expansion of an expression comes upon, and
`AliasTable.Hands` which values it hands to their fields. `Means.selects_iff` says that the union
adds the fields of the former and the paths that the latter lead to, and nothing else. An expansion
without a union reports that it missed one exactly if there is a view to be read
(`missesIff_expand`).
-/

namespace FieldSelection

namespace AliasTable

/-- `Reads aliases expr view` says that the expansion of an expression comes upon a view. -/
inductive Reads (aliases : AliasTable) : Expr → Name → Prop where
  | view {name : Name} : name.isReserved → Reads aliases (.name name) name
  | reference {name view : Name} {definition : Expr} :
      ¬ name.isReserved → aliases.reference? name = some definition →
      Reads aliases definition view → Reads aliases (.name name) view
  | item {items : List Expr} {item : Expr} {view : Name} :
      item ∈ items → Reads aliases item view → Reads aliases (.list items) view
  | key {entries : List (Name × Expr)} {entry : Name × Expr} {view : Name} :
      entry ∈ entries → Reads aliases (.name entry.1) view → Reads aliases (.selection entries) view

/-- `Hands aliases expr view value` says that the expansion of an expression hands a value to the
fields of a view, because the key that has the value comes to the view. -/
inductive Hands (aliases : AliasTable) : Expr → Name → Expr → Prop where
  | value {entries : List (Name × Expr)} {entry : Name × Expr} {view : Name} :
      entry ∈ entries → Reads aliases (.name entry.1) view →
      Hands aliases (.selection entries) view entry.2
  | reference {name view : Name} {definition value : Expr} :
      ¬ name.isReserved → aliases.reference? name = some definition →
      Hands aliases definition view value → Hands aliases (.name name) view value
  | item {items : List Expr} {item value : Expr} {view : Name} :
      item ∈ items → Hands aliases item view value → Hands aliases (.list items) view value
  | key {entries : List (Name × Expr)} {entry : Name × Expr} {view : Name} {value : Expr} :
      entry ∈ entries → Hands aliases (.name entry.1) view value →
      Hands aliases (.selection entries) view value

variable {aliases : AliasTable} {name view : Name} {definition value : Expr} {items : List Expr}
  {entries : List (Name × Expr)}

/-- A value is handed only to a view that is read. -/
theorem Hands.reads {expr : Expr} (h : aliases.Hands expr view value) :
    aliases.Reads expr view := by
  induction h with
  | value hmem hreads => exact .key hmem hreads
  | reference hnot hreference _ ih => exact .reference hnot hreference ih
  | item hmem _ ih => exact .item hmem ih
  | key hmem _ ih => exact .key hmem ih

theorem reads_reserved (h : name.isReserved) : aliases.Reads (.name name) view ↔ view = name := by
  constructor
  · intro hreads
    cases hreads with
    | view => rfl
    | reference hnot => exact absurd h hnot
  · rintro rfl
    exact .view h

theorem reads_reference (hnot : ¬ name.isReserved)
    (hreference : aliases.reference? name = some definition) :
    aliases.Reads (.name name) view ↔ aliases.Reads definition view := by
  constructor
  · intro hreads
    cases hreads with
    | view hreserved => exact absurd hreserved hnot
    | reference _ hsame hreads =>
        obtain rfl := Option.some.inj (hreference.symm.trans hsame)
        exact hreads
  · exact .reference hnot hreference

theorem not_reads_field (hnot : ¬ name.isReserved) (hnone : aliases.reference? name = none) :
    ¬ aliases.Reads (.name name) view := by
  intro hreads
  cases hreads with
  | view hreserved => exact hnot hreserved
  | reference _ hreference => exact absurd (hnone.symm.trans hreference) nofun

/-- The expansion of a list comes upon a view exactly if that of an item does. -/
theorem exists_reads_list :
    (∃ item ∈ items, ∃ view, aliases.Reads item view) ↔ ∃ view, aliases.Reads (.list items) view := by
  constructor
  · rintro ⟨item, hmem, view, hreads⟩
    exact ⟨view, .item hmem hreads⟩
  · rintro ⟨view, hreads⟩
    cases hreads with
    | item hmem hreads => exact ⟨_, hmem, view, hreads⟩

/-- The expansion of a selection comes upon a view exactly if that of a key does. -/
theorem exists_reads_selection :
    (∃ entry ∈ entries, ∃ view, aliases.Reads (.name entry.1) view) ↔
      ∃ view, aliases.Reads (.selection entries) view := by
  constructor
  · rintro ⟨entry, hmem, view, hreads⟩
    exact ⟨view, .key hmem hreads⟩
  · rintro ⟨view, hreads⟩
    cases hreads with
    | key hmem hreads => exact ⟨_, hmem, view, hreads⟩

theorem not_hands_reserved (h : name.isReserved) : ¬ aliases.Hands (.name name) view value := by
  intro hhands
  cases hhands with
  | reference hnot => exact hnot h

theorem hands_reference (hnot : ¬ name.isReserved)
    (hreference : aliases.reference? name = some definition) :
    aliases.Hands (.name name) view value ↔ aliases.Hands definition view value := by
  constructor
  · intro hhands
    cases hhands with
    | reference _ hsame hhands =>
        obtain rfl := Option.some.inj (hreference.symm.trans hsame)
        exact hhands
  · exact .reference hnot hreference

end AliasTable

namespace Expansion.Context

open AliasTable

/-- Whether the union adds a path to what an expression selects: the path leads into a view that is
read, or by way of a field of a view into a value that is handed to it. -/
def Adds (context : Context) (expr : Expr) (first : Name) (path : List Name) : Prop :=
  (∃ view, context.aliases.Reads expr view ∧ (context.view view).Selects (first :: path)) ∨
    ∃ view value, context.aliases.Hands expr view value ∧ first ∈ (context.view view).names ∧
      value.normalize.Selects path

variable {context : Context} {first name : Name} {path : List Name}

/-- The fields that the union adds are those of the views that are read. -/
theorem adds_nil {expr : Expr} : context.Adds expr first [] ↔
    ∃ view, context.aliases.Reads expr view ∧ first ∈ (context.view view).names := by
  simp only [Adds, Tree.selects_singleton_iff, Tree.selects_nil, and_true]
  constructor
  · intro heither
    rcases heither with h | ⟨view, value, hhands, hfirst⟩
    · exact h
    · exact ⟨view, hhands.reads, hfirst⟩
  · exact Or.inl

theorem not_adds_empty : ¬ context.Adds .empty first path := by
  intro heither
  rcases heither with ⟨_, hreads, _⟩ | ⟨_, _, hhands, _⟩
  · cases hreads
  · cases hhands

theorem adds_reserved (h : name.isReserved) :
    context.Adds (.name name) first path ↔ (context.view name).Selects (first :: path) := by
  simp [Adds, reads_reserved h, not_hands_reserved h]

theorem adds_reference (hnot : ¬ name.isReserved) {definition : Expr}
    (hreference : context.aliases.reference? name = some definition) :
    context.Adds (.name name) first path ↔ context.Adds definition first path := by
  simp only [Adds, reads_reference hnot hreference, hands_reference hnot hreference]

theorem not_adds_field (hnot : ¬ name.isReserved)
    (hnone : context.aliases.reference? name = none) : ¬ context.Adds (.name name) first path := by
  intro heither
  rcases heither with ⟨_, hreads, _⟩ | ⟨_, _, hhands, _⟩
  · exact not_reads_field hnot hnone hreads
  · exact not_reads_field hnot hnone hhands.reads

theorem adds_list {items : List Expr} :
    context.Adds (.list items) first path ↔ ∃ item ∈ items, context.Adds item first path := by
  constructor
  · intro heither
    rcases heither with ⟨view, hreads, hpath⟩ | ⟨view, value, hhands, hpath⟩
    · cases hreads with
      | item hmem hreads => exact ⟨_, hmem, Or.inl ⟨view, hreads, hpath⟩⟩
    · cases hhands with
      | item hmem hhands => exact ⟨_, hmem, Or.inr ⟨view, value, hhands, hpath⟩⟩
  · intro hexists
    obtain ⟨item, hmem, hitem⟩ := hexists
    rcases hitem with ⟨view, hreads, hpath⟩ | ⟨view, value, hhands, hpath⟩
    · exact Or.inl ⟨view, .item hmem hreads, hpath⟩
    · exact Or.inr ⟨view, value, .item hmem hhands, hpath⟩

/-- To a selection the union adds what it adds to a key, and the value beneath every field that it
adds to the key. -/
theorem adds_selection {entries : List (Name × Expr)} :
    context.Adds (.selection entries) first path ↔
      ∃ entry ∈ entries, context.Adds (.name entry.1) first path ∨
        context.Adds (.name entry.1) first [] ∧ entry.2.normalize.Selects path := by
  simp only [adds_nil]
  constructor
  · intro heither
    rcases heither with ⟨view, hreads, hpath⟩ | ⟨view, value, hhands, hfirst, hpath⟩
    · cases hreads with
      | key hmem hreads => exact ⟨_, hmem, Or.inl (Or.inl ⟨view, hreads, hpath⟩)⟩
    · cases hhands with
      | value hmem hreads => exact ⟨_, hmem, Or.inr ⟨⟨view, hreads, hfirst⟩, hpath⟩⟩
      | key hmem hhands =>
          exact ⟨_, hmem, Or.inl (Or.inr ⟨view, value, hhands, hfirst, hpath⟩)⟩
  · intro hexists
    obtain ⟨entry, hmem, hkey⟩ := hexists
    rcases hkey with hkey | ⟨⟨view, hreads, hfirst⟩, hpath⟩
    · rcases hkey with ⟨view, hreads, hpath⟩ | ⟨view, value, hhands, hfirst, hpath⟩
      · exact Or.inl ⟨view, .key hmem hreads, hpath⟩
      · exact Or.inr ⟨view, value, .key hmem hhands, hfirst, hpath⟩
    · exact Or.inr ⟨view, entry.2, .value hmem hreads, hfirst, hpath⟩

/-- Under the union an expression selects what it selects without one, and what the union adds. -/
theorem Means.selects_iff {expr : Expr} {tree bare : Tree} (h : context.Means expr tree)
    (hbare : (context.withAggregate none).Means expr bare) :
    tree.Selects (first :: path) ↔
      bare.Selects (first :: path) ∨ context.Adds expr first path := by
  induction h generalizing bare first path with
  | empty =>
      cases hbare
      simp [not_adds_empty]
  | view hreserved =>
      cases hbare with
      | view =>
          rw [adds_reserved hreserved]
          exact (or_iff_right (Tree.selects_empty.not.mpr (List.cons_ne_nil _ _))).symm
      | reference hnot | field hnot => exact absurd hreserved hnot
  | reference hnot hreference _ ih =>
      cases hbare with
      | view hreserved => exact absurd hreserved hnot
      | reference _ hsame hbare =>
          obtain rfl := Option.some.inj (hreference.symm.trans hsame)
          rw [adds_reference hnot hreference, ih hbare]
      | field _ hnone => exact absurd (hnone.symm.trans hreference) nofun
  | field hnot hnone =>
      cases hbare with
      | view hreserved => exact absurd hreserved hnot
      | reference _ hreference => exact absurd (hnone.symm.trans hreference) nofun
      | field => simp [not_adds_field hnot hnone]
  | list tree _ ih =>
      cases hbare with
      | list bare hitems =>
          simp only [Tree.selects_union, List.mem_map, exists_exists_and_eq_and, adds_list,
            ← exists_or, ← and_or_left]
          exact exists_congr fun item => and_congr_right fun hmem => ih item hmem (hitems item hmem)
  | selection tree _ ih =>
      cases hbare with
      | selection bare hentries =>
          simp only [Tree.selects_union, List.mem_map, exists_exists_and_eq_and, adds_selection,
            ← exists_or, ← and_or_left, Tree.selects_mergeBeneath]
          refine exists_congr fun entry => and_congr_right fun hmem => ?_
          -- A key counts twice: for its own paths and for the fields that get the value.
          have hkey (rest : List Name) : (tree entry.1).Selects (first :: rest) ↔
              (bare entry.1).Selects (first :: rest) ∨ context.Adds (.name entry.1) first rest :=
            ih entry hmem (hentries entry hmem)
          rw [hkey, ← Tree.selects_singleton_iff, hkey, ← Tree.selects_singleton_iff]
          tauto

end Expansion.Context

namespace Expansion

variable {α β : Type} {x : Expansion α} {p q : Prop}

/-- Whether a computation that succeeds missed the union exactly if `p` holds. -/
def MissesIff (x : Expansion α) (p : Prop) : Prop :=
  ∀ a, x.outcome = .ok a → (x.missed = true ↔ p)

theorem missesIff_of_missed (h : x.missed = true ↔ p) : x.MissesIff p :=
  fun _ _ => h

theorem missesIff_of_error {error : ExpansionError} (h : x.outcome = .error error) :
    x.MissesIff p := by
  intro a ha
  rw [h] at ha
  cases ha

theorem MissesIff.congr (h : x.MissesIff p) (hiff : p ↔ q) : x.MissesIff q :=
  fun a ha => (h a ha).trans hiff

theorem MissesIff.bind {f : α → Expansion β} (h : x.MissesIff p)
    (hnext : ∀ a, (f a).MissesIff q) : (x >>= f).MissesIff (p ∨ q) := by
  intro b hb
  obtain ⟨a, ha, hfa⟩ := outcome_bind_eq_ok.mp hb
  rw [missed_bind_of_ok ha, Bool.or_eq_true, h a ha, hnext a b hfa]

theorem MissesIff.map (h : x.MissesIff p) (f : α → β) :
    (x >>= fun a => pure (f a)).MissesIff p :=
  (h.bind fun _ => missesIff_of_missed (iff_false_intro Bool.false_ne_true)).congr
    (iff_of_eq (or_false p))

theorem MissesIff.each {f : α → Expansion β} {as : List α} {p : α → Prop}
    (h : ∀ a ∈ as, (f a).MissesIff (p a)) : (each f as).MissesIff (∃ a ∈ as, p a) := by
  induction as with
  | nil => exact missesIff_of_missed (iff_of_false Bool.false_ne_true (by simp))
  | cons a rest ih =>
      obtain ⟨hfirst, hrest⟩ := List.forall_mem_cons.mp h
      refine (hfirst.bind fun b => (ih hrest).map (b :: ·)).congr ?_
      simp

namespace Context

open AliasTable

variable {context : Context} {enter : List Name → Expr → Expansion Expr} {depth : Nat}
  {stack : List Name} {name : Name}

theorem missesIff_expandName (hnone : context.aggregate = none)
    (h : ∀ definition, context.aliases.target? name = some definition → name ∉ stack →
      (enter (stack ++ [name]) definition).MissesIff
        (∃ view, context.aliases.Reads definition view)) :
    (context.expandName enter depth stack name).MissesIff
      (∃ view, context.aliases.Reads (.name name) view) := by
  by_cases hreserved : name.isReserved
  · rw [expandName_reserved hreserved, expandView, hnone]
    exact missesIff_of_missed (iff_of_true rfl ⟨name, .view hreserved⟩)
  · cases hreference : context.aliases.reference? name with
    | none =>
        rw [expandName_field hreserved hreference]
        exact missesIff_of_missed (iff_of_false Bool.false_ne_true
          (not_exists.mpr fun view => not_reads_field hreserved hreference))
    | some definition =>
        have htarget := target?_eq_some_iff.mpr ⟨hreserved, hreference⟩
        simp only [reads_reference hreserved hreference]
        by_cases hstack : name ∈ stack
        · rw [expandName_cycle hreserved hreference hstack]
          exact missesIff_of_error rfl
        · rw [expandName_alias hreserved hreference hstack]
          exact h definition htarget hstack

theorem missesIff_expandWithin (hnone : context.aggregate = none) (room : Nat) (stack : List Name)
    (expr : Expr) : (context.expandWithin room stack expr).MissesIff
      (∃ view, context.aliases.Reads expr view) := by
  induction room using Nat.strongRecOn generalizing stack expr with
  | ind room ih =>
      cases room with
      | zero => cases expr <;> exact missesIff_of_error rfl
      | succ room =>
          have hless := ih room (Nat.lt_succ_self room)
          cases expr with
          | empty =>
              refine missesIff_of_missed (iff_of_false Bool.false_ne_true ?_)
              intro hexists
              obtain ⟨view, hreads⟩ := hexists
              cases hreads
          | name name => exact missesIff_expandName hnone fun definition _ _ => hless _ definition
          | list items =>
              refine MissesIff.congr ?_ exists_reads_list
              exact (MissesIff.each fun item _ => hless stack item).map Expr.list
          | selection entries =>
              rw [expandWithin_selection]
              refine MissesIff.congr ?_ exists_reads_selection
              refine MissesIff.map (MissesIff.each fun entry _ => MissesIff.map ?_ _) Expr.assemble
              exact missesIff_expandName hnone fun definition _ _ => ih _ (by omega) _ definition

/-- An expansion without a union that succeeds missed the union exactly if there is a view that it
comes upon. -/
theorem missesIff_expand (hnone : context.aggregate = none) (expr : Expr) :
    (context.expand expr).MissesIff (∃ view, context.aliases.Reads expr view) :=
  missesIff_expandWithin hnone (context.limit + 1) [] expr

end Context

end Expansion

end FieldSelection
