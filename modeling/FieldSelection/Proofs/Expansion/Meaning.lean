import FieldSelection.Proofs.Expansion.Computation
import FieldSelection.Proofs.Expansion.Selection

/-!
# The meaning of an expression

`Context.Means context expr tree` says that `expr` selects `tree`: a name that is an alias means
what its definition means, and a selection hands each value to every field that its key means.
Neither depth nor the aliases under expansion play a part in it. An expression means one tree at
most (`Means.unique`), and `expand_normalize_same` says that a successful expansion normalizes to
that tree.
-/

namespace FieldSelection

/-- Whether the trees of a facet list no field twice, as every tree made by the operations on trees
does. -/
def Facet.Distinct (facet : Facet) : Prop :=
  facet.fields.Distinct ∧ facet.attributes.Distinct

namespace Expansion.Context

/-- The fields of the view that a reserved name denotes. Without a union there are none. -/
def view (context : Context) (name : Name) : Tree :=
  match context.aggregate with
  | none => .empty
  | some facet => if name = Name.allAttributes then facet.attributes else facet.fields

theorem distinct_view {context : Context} (hunion : ∀ facet ∈ context.aggregate, facet.Distinct)
    (name : Name) : (context.view name).Distinct := by
  unfold view
  split
  · trivial
  · next facet hfacet =>
      obtain ⟨hfields, hattributes⟩ := hunion facet hfacet
      split
      · exact hattributes
      · exact hfields

/-- Without a union there is none that could list a field twice. -/
theorem distinct_of_aggregate_eq_none {context : Context} (h : context.aggregate = none) :
    ∀ facet ∈ context.aggregate, facet.Distinct :=
  fun facet hfacet => absurd (h ▸ hfacet) (Option.not_mem_none facet)

/-- `Means context expr tree` says that the expression selects the tree. -/
inductive Means (context : Context) : Expr → Tree → Prop where
  | empty : Means context .empty .empty
  | view {name : Name} : name.isReserved → Means context (.name name) (context.view name)
  | reference {name : Name} {definition : Expr} {tree : Tree} :
      ¬ name.isReserved → context.aliases.reference? name = some definition →
      Means context definition tree → Means context (.name name) tree
  | field {name : Name} :
      ¬ name.isReserved → context.aliases.reference? name = none →
      Means context (.name name) (.leaf name)
  /-- A list selects what its items do, from left to right. -/
  | list {items : List Expr} (tree : Expr → Tree) :
      (∀ item ∈ items, Means context item (tree item)) →
      Means context (.list items) (.union (items.map tree))
  /-- Each entry selects what its key means, with the value merged in beneath every field. The
  value is taken as it is. -/
  | selection {entries : List (Name × Expr)} (tree : Name → Tree) :
      (∀ entry ∈ entries, Means context (.name entry.1) (tree entry.1)) →
      Means context (.selection entries)
        (.union (entries.map fun entry => (tree entry.1).mergeBeneath entry.2.normalize))

variable {context : Context}

/-- An expression means one tree at most. -/
theorem Means.unique {expr : Expr} {tree other : Tree} (h : context.Means expr tree)
    (hother : context.Means expr other) : tree = other := by
  induction h generalizing other with
  | empty => cases hother; rfl
  | view hreserved =>
      cases hother with
      | view => rfl
      | reference hnot | field hnot => exact absurd hreserved hnot
  | reference hnot hreference _ ih =>
      cases hother with
      | view hreserved => exact absurd hreserved hnot
      | reference _ hsame hdefinition =>
          obtain rfl := Option.some.inj (hreference.symm.trans hsame)
          exact ih hdefinition
      | field _ hnone => exact absurd (hnone.symm.trans hreference) nofun
  | field hnot hnone =>
      cases hother with
      | view hreserved => exact absurd hreserved hnot
      | reference _ hreference => exact absurd (hnone.symm.trans hreference) nofun
      | field => rfl
  | list tree _ ih =>
      cases hother with
      | list _ hitems =>
          rw [List.map_congr_left fun item hmem => ih item hmem (hitems item hmem)]
  | selection tree _ ih =>
      cases hother with
      | selection _ hentries =>
          rw [List.map_congr_left fun entry hmem => by rw [ih entry hmem (hentries entry hmem)]]

theorem Means.exists_and_iff {expr : Expr} {tree : Tree} {p : Tree → Prop}
    (h : context.Means expr tree) : (∃ other, context.Means expr other ∧ p other) ↔ p tree := by
  constructor
  · intro hexists
    obtain ⟨other, hother, hp⟩ := hexists
    exact hother.unique h ▸ hp
  · exact fun hp => ⟨tree, h, hp⟩

/-- A list selects what its items mean. -/
theorem Means.selects_list_iff {items : List Expr} {tree : Tree} {first : Name} {path : List Name}
    (h : context.Means (.list items) tree) :
    tree.Selects (first :: path) ↔
      ∃ item ∈ items, ∃ part, context.Means item part ∧ part.Selects (first :: path) := by
  cases h with
  | list part hparts =>
      simp only [Tree.selects_union, List.mem_map, exists_exists_and_eq_and]
      refine exists_congr fun item => and_congr_right fun hmem => ?_
      rw [(hparts item hmem).exists_and_iff]

/-- A selection selects what its keys mean, each with its value handed to every field. -/
theorem Means.selects_selection_iff {entries : List (Name × Expr)} {tree : Tree} {first : Name}
    {path : List Name} (h : context.Means (.selection entries) tree) :
    tree.Selects (first :: path) ↔
      ∃ entry ∈ entries, ∃ part, context.Means (.name entry.1) part ∧
        (part.mergeBeneath entry.2.normalize).Selects (first :: path) := by
  cases h with
  | selection part hparts =>
      simp only [Tree.selects_union, List.mem_map, exists_exists_and_eq_and]
      refine exists_congr fun entry => and_congr_right fun hmem => ?_
      rw [(hparts entry hmem).exists_and_iff]

/-- What an expression means lists no field twice, if the union does not. -/
theorem Means.distinct {expr : Expr} {tree : Tree} (h : context.Means expr tree)
    (hunion : ∀ facet ∈ context.aggregate, facet.Distinct) : tree.Distinct := by
  induction h with
  | empty => trivial
  | view => exact distinct_view hunion _
  | reference _ _ _ ih => exact ih
  | field => exact ⟨List.not_mem_nil, trivial, trivial⟩
  | list tree _ ih => exact Tree.distinct_union (List.forall_mem_map.mpr ih)
  | selection tree _ ih =>
      refine Tree.distinct_union (List.forall_mem_map.mpr fun entry hmem => ?_)
      exact Tree.distinct_mergeBeneath (ih entry hmem) (Expr.distinct_normalize _)

/-- The meanings of all expressions that have one, as a function. -/
theorem exists_meaning (context : Context) :
    ∃ meaning : Expr → Tree, ∀ expr tree, context.Means expr tree → meaning expr = tree := by
  have pointwise (expr : Expr) : ∃ meaning, ∀ tree, context.Means expr tree → meaning = tree := by
    by_cases h : ∃ tree, context.Means expr tree
    · obtain ⟨meaning, hmeaning⟩ := h
      exact ⟨meaning, fun _ => hmeaning.unique⟩
    · exact ⟨.empty, fun tree htree => absurd ⟨tree, htree⟩ h⟩
  choose meaning hmeaning using pointwise
  exact ⟨meaning, hmeaning⟩

/-- Whether an expression has a meaning, and the tree of `expanded` has the paths of that
meaning. -/
def Expresses (context : Context) (expr expanded : Expr) : Prop :=
  ∃ tree, context.Means expr tree ∧ ∀ path, expanded.normalize.Selects path ↔ tree.Selects path

theorem outcome_expandView (context : Context) (name : Name) :
    (context.expandView name).outcome = .ok (context.view name).toExpr := by
  unfold expandView view
  cases context.aggregate <;> rfl

variable {enter : List Name → Expr → Expansion Expr} {depth : Nat} {stack : List Name}

/-- A name is expanded to its meaning, if definitions are. -/
theorem expresses_of_expandName (hunion : ∀ facet ∈ context.aggregate, facet.Distinct)
    (henter : ∀ stack definition expanded,
      (enter stack definition).outcome = .ok expanded → context.Expresses definition expanded)
    {name : Name} {expanded : Expr}
    (h : (context.expandName enter depth stack name).outcome = .ok expanded) :
    context.Expresses (.name name) expanded := by
  by_cases hreserved : name.isReserved
  · rw [expandName_reserved hreserved, outcome_expandView] at h
    cases h
    refine ⟨_, .view hreserved, fun path => ?_⟩
    rw [Tree.normalize_toExpr (distinct_view hunion name)]
  · cases hreference : context.aliases.reference? name with
    | none =>
        rw [expandName_field hreserved hreference] at h
        cases h
        exact ⟨_, .field hreserved hreference, fun path => Iff.rfl⟩
    | some definition =>
        by_cases hstack : name ∈ stack
        · rw [expandName_cycle hreserved hreference hstack] at h
          cases h
        · rw [expandName_alias hreserved hreference hstack] at h
          obtain ⟨_, _, h⟩ := outcome_bind_eq_ok.mp h
          obtain ⟨tree, htree, hpaths⟩ := henter _ _ _ h
          exact ⟨tree, .reference hreserved hreference htree, hpaths⟩

/-- A list is expanded to its meaning, if its items are. -/
theorem expresses_of_each {f : Expr → Expansion Expr}
    (hitem : ∀ item expanded, (f item).outcome = .ok expanded → context.Expresses item expanded)
    {items expanded : List Expr} (h : (each f items).outcome = .ok expanded) :
    context.Expresses (.list items) (.list expanded) := by
  obtain ⟨meaning, hmeaning⟩ := exists_meaning context
  have hmeans : ∀ item ∈ items, context.Means item (meaning item) := by
    intro item hmem
    obtain ⟨result, _, hresult⟩ := exists_result_of_each h hmem
    obtain ⟨tree, htree, _⟩ := hitem item result hresult
    exact hmeaning item tree htree ▸ htree
  have hpaths : ∀ item result path, (f item).outcome = .ok result →
      (result.normalize.Selects path ↔ (meaning item).Selects path) := by
    intro item result path hresult
    obtain ⟨tree, htree, hpaths⟩ := hitem item result hresult
    rw [hpaths, hmeaning item tree htree]
  refine ⟨_, .list meaning hmeans, fun path => ?_⟩
  cases path with
  | nil => simp
  | cons first path =>
      simp only [Expr.selects_normalize_list, Tree.selects_union, List.mem_map,
        exists_exists_and_eq_and]
      constructor
      · intro hexists
        obtain ⟨result, hmem, hresult⟩ := hexists
        obtain ⟨item, hitem, houtcome⟩ := exists_member_of_each h hmem
        exact ⟨item, hitem, (hpaths item result _ houtcome).mp hresult⟩
      · intro hexists
        obtain ⟨item, hmem, hselects⟩ := hexists
        obtain ⟨result, hresult, houtcome⟩ := exists_result_of_each h hmem
        exact ⟨result, hresult, (hpaths item result _ houtcome).mpr hselects⟩

/-- A selection is expanded to its meaning, if its keys are. -/
theorem expresses_of_expandEntries
    (hkey : ∀ key expanded, (context.expandName enter depth stack key).outcome = .ok expanded →
      context.Expresses (.name key) expanded)
    {entries : List (Name × Expr)} {expanded : Expr}
    (h : (context.expandEntries enter depth stack entries).outcome = .ok expanded) :
    context.Expresses (.selection entries) expanded := by
  obtain ⟨meaning, hmeaning⟩ := exists_meaning context
  obtain ⟨pairs, heach, rfl⟩ := outcome_bind_pure_eq_ok.mp h
  have hmeans : ∀ entry ∈ entries, context.Means (.name entry.1) (meaning (.name entry.1)) := by
    intro entry hmem
    obtain ⟨_, _, houtcome⟩ := exists_result_of_each heach hmem
    obtain ⟨result, hresult, _⟩ := outcome_bind_pure_eq_ok.mp houtcome
    obtain ⟨tree, htree, _⟩ := hkey entry.1 result hresult
    exact hmeaning _ tree htree ▸ htree
  -- The expansion of a key and the meaning of the key select the same once the value is handed on.
  have hpaths : ∀ (entry : Name × Expr) result path,
      (context.expandName enter depth stack entry.1).outcome = .ok result →
      ((result.normalize.mergeBeneath (Expr.normalize entry.2)).Selects path ↔
        ((meaning (.name entry.1)).mergeBeneath (Expr.normalize entry.2)).Selects path) := by
    intro entry result path houtcome
    obtain ⟨tree, htree, hpaths⟩ := hkey entry.1 result houtcome
    cases path with
    | nil => simp
    | cons first path =>
        simp only [Tree.selects_mergeBeneath, ← Tree.selects_singleton_iff, hpaths,
          hmeaning _ tree htree]
  refine ⟨_, .selection (fun key => meaning (.name key)) hmeans, fun path => ?_⟩
  cases path with
  | nil => simp
  | cons first path =>
      simp only [Expr.selects_assemble, Tree.selects_union, List.mem_map, exists_exists_and_eq_and]
      constructor
      · intro hexists
        obtain ⟨pair, hmem, hselects⟩ := hexists
        obtain ⟨entry, hentry, houtcome⟩ := exists_member_of_each heach hmem
        obtain ⟨result, hresult, rfl⟩ := outcome_bind_pure_eq_ok.mp houtcome
        exact ⟨entry, hentry, (hpaths entry result _ hresult).mp hselects⟩
      · intro hexists
        obtain ⟨entry, hentry, hselects⟩ := hexists
        obtain ⟨pair, hmem, houtcome⟩ := exists_result_of_each heach hentry
        obtain ⟨result, hresult, rfl⟩ := outcome_bind_pure_eq_ok.mp houtcome
        exact ⟨_, hmem, (hpaths entry result _ hresult).mpr hselects⟩

/-- Whatever the room and the stack, an expansion that succeeds comes to the meaning of the
expression. -/
theorem expresses_of_expandWithin (hunion : ∀ facet ∈ context.aggregate, facet.Distinct)
    {room : Nat} {stack : List Name} {expr expanded : Expr}
    (h : (context.expandWithin room stack expr).outcome = .ok expanded) :
    context.Expresses expr expanded := by
  -- Definitions of keys are expanded with two units of room less, hence strong induction.
  induction room using Nat.strongRecOn generalizing stack expr expanded with
  | ind room ih =>
      cases room with
      | zero => cases expr <;> cases h
      | succ room =>
          cases expr with
          | empty =>
              cases h
              exact ⟨_, .empty, fun _ => Iff.rfl⟩
          | name name =>
              exact expresses_of_expandName hunion (fun _ _ _ => ih room (Nat.lt_succ_self _)) h
          | list items =>
              obtain ⟨results, heach, rfl⟩ := outcome_bind_pure_eq_ok.mp h
              exact expresses_of_each (fun _ _ => ih room (Nat.lt_succ_self _)) heach
          | selection entries =>
              rw [expandWithin_selection] at h
              refine expresses_of_expandEntries (fun key result hresult => ?_) h
              exact expresses_of_expandName hunion (fun _ _ _ => ih (room - 1) (by omega)) hresult

/-- A successful expansion normalizes to the one tree that the expression means, up to the order
of fields. -/
theorem expand_normalize_same {expr expanded : Expr}
    (hunion : ∀ facet ∈ context.aggregate, facet.Distinct)
    (h : (context.expand expr).outcome = .ok expanded) :
    ∃ tree, (∀ other, context.Means expr other ↔ other = tree) ∧ expanded.normalize.same tree := by
  obtain ⟨tree, htree, hpaths⟩ := expresses_of_expandWithin hunion h
  refine ⟨tree, fun other => ⟨fun hother => hother.unique htree, fun heq => heq ▸ htree⟩, ?_⟩
  exact (Tree.same_iff (Expr.distinct_normalize expanded) (htree.distinct hunion)).mpr hpaths

/-- A context with one alias and a union of one field. -/
def directory : Context where
  aliases := .ofList [(⟨"contact"⟩, .list [.name ⟨"email"⟩, .name ⟨"phone"⟩])]
  aggregate := some ⟨.leaf ⟨"id"⟩, .leaf ⟨"id"⟩⟩
  limit := 4

theorem distinct_directory : ∀ facet ∈ directory.aggregate, facet.Distinct := by
  intro facet hfacet
  obtain rfl := Option.some.inj hfacet
  exact ⟨⟨nofun, trivial, trivial⟩, nofun, trivial, trivial⟩

/-- A key hands its value to both fields of an alias, one of which is a key as well. -/
theorem expand_normalize_same_directory :
    ∃ tree,
      (∀ other, directory.Means (.selection [(⟨"contact"⟩, .name ⟨"kind"⟩), (.all, .empty),
        (⟨"email"⟩, .name ⟨"verified"⟩)]) other ↔ other = tree) ∧
      (Expr.list [.selection [(⟨"email"⟩, .list [.name ⟨"kind"⟩, .name ⟨"verified"⟩]),
        (⟨"phone"⟩, .name ⟨"kind"⟩)], .selection [(⟨"id"⟩, .empty)]]).normalize.same tree :=
  expand_normalize_same distinct_directory rfl

end Expansion.Context

end FieldSelection
