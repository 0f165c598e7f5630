import FieldSelection.Proofs.Expansion.Related

/-!
# What an expansion depends on

An expansion looks up names that the expression mentions, and then names that definitions mention
which it has looked up. Tables that agree on all of these are as good as one another
(`expand_local`). The values of selections are handed on unread, so that an alias which occurs in
them only may be defined one way or another, or not at all.
-/

namespace FieldSelection

namespace AliasTable

variable {aliases : AliasTable} {names : Set Name}

/-- Whether some names include, with every alias among them, the names that its definition
mentions. -/
def Closed (aliases : AliasTable) (names : Set Name) : Prop :=
  ∀ name ∈ names, ∀ definition, aliases.target? name = some definition →
    ∀ next, definition.mentions next → next ∈ names

theorem Closed.carries (h : aliases.Closed names) :
    aliases.Carries fun _ _ expr => ∀ name, expr.mentions name → name ∈ names where
  name hnames htarget _ := h _ (hnames _ (beq_self_eq_true _)) _ htarget
  list hnames hmem := fun name hmentions =>
    hnames name (Expr.mentions_list.mpr ⟨_, hmem, hmentions⟩)
  selection hnames hmem htarget _ :=
    h _ (hnames _ (Expr.mentions_selection.mpr (List.mem_map_of_mem hmem))) _ htarget

end AliasTable

namespace Expansion

theorem compatible_eq : Compatible fun _ x y => x = y where
  value _ := rfl
  report _ h := by rw [h]
  map _ h := by rw [h]
  cons h hs := by rw [h, hs]

namespace Context

open AliasTable

variable {aliases others : AliasTable} {aggregate : Option Facet} {limit : Nat} {expr : Expr}
  {names : Set Name} {name : Name}

/-- Tables that agree on a closed set of names expand every expression alike that mentions none but
these. -/
theorem expand_congr (hnames : ∀ name, expr.mentions name → name ∈ names)
    (hclosed : aliases.Closed names)
    (hsame : ∀ name ∈ names, aliases.reference? name = others.reference? name) :
    expand ⟨aliases, aggregate, limit⟩ expr = expand ⟨others, aggregate, limit⟩ expr := by
  have halongside : Alongside (fun _ x y => x = y)
      (fun _ _ expr => ∀ name, expr.mentions name → name ∈ names)
      ⟨aliases, aggregate, limit⟩ ⟨others, aggregate, limit⟩ :=
    { limit := rfl
      carries := hclosed.carries
      target := fun hnames hmentions => (target?_congr (hsame _ (hnames _ hmentions))).symm
      view := fun _ => rfl
      refuse := fun _ => rfl
      cycle := fun _ _ _ _ => rfl }
  exact halongside.expandWithin compatible_eq hnames

/-- Tables that differ in a single alias expand every expression alike, if neither the expression
nor the definition of any other alias mentions it. -/
theorem expand_congr_of_ne (hexpr : ¬ expr.mentions name)
    (hothers : ∀ other definition, other ≠ name → aliases.target? other = some definition →
      ¬ definition.mentions name)
    (hsame : ∀ other, other ≠ name → others.get? other = aliases.get? other) :
    expand ⟨others, aggregate, limit⟩ expr = expand ⟨aliases, aggregate, limit⟩ expr := by
  have hclosed : aliases.Closed {other | other ≠ name} := by
    intro other hne definition htarget next hmentions heq
    exact hothers other definition hne htarget (heq ▸ hmentions)
  have hnames : ∀ other, expr.mentions other → other ≠ name := by
    intro other hmentions heq
    exact hexpr (heq ▸ hmentions)
  exact (expand_congr hnames hclosed fun other hne => reference?_congr (hsame other hne).symm).symm

/-- An expansion depends on the definitions of the names only that the expression mentions, or a
definition it depends on already. In particular it makes no difference whether and how an alias is
defined that is mentioned nowhere at top level, or in its own definition only. -/
theorem expand_local (aliases : AliasTable) (aggregate : Option Facet) (limit : Nat) (expr : Expr) :
    (∀ (names : Set Name) (others : AliasTable), (∀ name, expr.mentions name → name ∈ names) →
      aliases.Closed names →
      (∀ name ∈ names, aliases.reference? name = others.reference? name) →
      expand ⟨aliases, aggregate, limit⟩ expr = expand ⟨others, aggregate, limit⟩ expr) ∧
    ∀ name, ¬ expr.mentions name →
      (∀ other definition, other ≠ name → aliases.target? other = some definition →
        ¬ definition.mentions name) →
      (∀ definition, expand ⟨aliases.insert name definition, aggregate, limit⟩ expr =
        expand ⟨aliases, aggregate, limit⟩ expr) ∧
      ∀ others : AliasTable, (∀ other, other ≠ name → others.get? other = aliases.get? other) →
        expand ⟨others, aggregate, limit⟩ expr = expand ⟨aliases, aggregate, limit⟩ expr := by
  refine ⟨fun names others hnames hclosed hsame => expand_congr hnames hclosed hsame,
    fun name hexpr hothers => ⟨fun definition => ?_, fun others hsame => ?_⟩⟩
  · exact expand_congr_of_ne hexpr hothers fun other hne => get?_insert_of_ne aliases definition hne
  · exact expand_congr_of_ne hexpr hothers hsame

/-- An alias whose definition names another only in the value of a key. -/
def people : AliasTable :=
  .ofList [(⟨"author"⟩, .selection [(⟨"person"⟩, .name ⟨"basic"⟩)])]

/-- The name `basic` makes no difference while it occurs in values only. -/
theorem expand_local_people :
    people.Closed {⟨"author"⟩, ⟨"person"⟩} ∧
      expand ⟨people, none, 2⟩ (.selection [(⟨"author"⟩, .name ⟨"basic"⟩)]) =
        expand ⟨people.insert ⟨"basic"⟩ (.name ⟨"id"⟩), none, 2⟩
          (.selection [(⟨"author"⟩, .name ⟨"basic"⟩)]) ∧
      expand ⟨people.insert ⟨"basic"⟩ (.name ⟨"all"⟩), none, 2⟩
          (.selection [(⟨"author"⟩, .name ⟨"basic"⟩)]) =
        expand ⟨people, none, 2⟩ (.selection [(⟨"author"⟩, .name ⟨"basic"⟩)]) := by
  have htarget : people.target? ⟨"author"⟩ =
    some (.selection [(⟨"person"⟩, .name ⟨"basic"⟩)]) := rfl
  have hclosed : people.Closed {⟨"author"⟩, ⟨"person"⟩} := by
    intro name hname definition hdefinition next hmentions
    rcases hname with rfl | rfl
    · obtain rfl := Option.some.inj (htarget.symm.trans hdefinition)
      exact Or.inr (List.mem_singleton.mp (Expr.mentions_selection.mp hmentions))
    · cases hdefinition
  have hlocal := expand_local people none 2 (.selection [(⟨"author"⟩, .name ⟨"basic"⟩)])
  refine ⟨hclosed, ?_, ?_⟩
  · refine hlocal.1 _ _ (fun name hmentions => ?_) hclosed fun name hname => ?_
    · exact Or.inl (List.mem_singleton.mp (Expr.mentions_selection.mp hmentions))
    · rcases hname with rfl | rfl <;> rfl
  · refine (hlocal.2 ⟨"basic"⟩ (by decide) fun other definition _ hdefinition => ?_).1 _
    obtain ⟨_, rfl⟩ := Prod.ext_iff.mp (List.mem_singleton.mp (mem_entries_of_target? hdefinition))
    decide

end Context

end Expansion

end FieldSelection
