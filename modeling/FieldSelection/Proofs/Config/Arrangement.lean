import FieldSelection.Proofs.Config.Validation
import FieldSelection.Proofs.Expansion.Alike
import FieldSelection.Proofs.Expr.Arrangement

/-!
# Requests in another arrangement

While a configuration is compiled, the order of what a request lists and how often it lists the same
make no difference to what the request comes to, nor to whether it is too deep
(`History.expand_rearranged`).
-/

namespace FieldSelection.History

/-- While a configuration is compiled, requests that are rearrangements of each other are expanded
alike once they are completed: both are too deep, or they come to the same selection up to the order
of fields. -/
theorem expand_rearranged (history : History) {config : Config} (hconfig : history.config = config)
    (h : config.compiled) {request other : Expr} (hrearranged : request.Rearranged other) :
    ∃ all, config.aggregate? = some all ∧
      ((((config.context (some all)).expand (request.withDefault config.defaults)).outcome =
            .error (.tooDeep config.limit) ∧
          ((config.context (some all)).expand (other.withDefault config.defaults)).outcome =
            .error (.tooDeep config.limit)) ∨
        ∃ expanded otherExpanded,
          ((config.context (some all)).expand (request.withDefault config.defaults)).outcome =
            .ok expanded ∧
          ((config.context (some all)).expand (other.withDefault config.defaults)).outcome =
            .ok otherExpanded ∧
          expanded.normalize.same otherExpanded.normalize) := by
  subst hconfig
  have hcoherent := history.coherent h
  obtain ⟨all, _, hall, _⟩ := hcoherent.union
  have hunion := hcoherent.distinct_aggregate
  rw [hall] at hunion
  refine ⟨all, hall, ?_⟩
  rcases Expansion.Context.expand_of_alike (.refl (history.config.context (some all))) rfl
    hcoherent.fits.acyclic hunion hunion (hrearranged.alike.withDefault _) with
    hfails | ⟨expanded, otherExpanded, hexpanded, hotherExpanded, hpaths⟩
  · exact Or.inl hfails
  · exact Or.inr ⟨expanded, otherExpanded, hexpanded, hotherExpanded,
      (Tree.same_iff expanded.distinct_normalize otherExpanded.distinct_normalize).mpr hpaths⟩

/-- Entries in another order, one of whose values lists a name twice. -/
theorem expand_rearranged_contact :
    ∃ all expanded otherExpanded, contact.config.aggregate? = some all ∧
      ((contact.config.context (some all)).expand (Expr.withDefault .standard
        (.selection [(⟨"owner"⟩, .list [.name ⟨"name"⟩, .name ⟨"age"⟩, .name ⟨"name"⟩]),
          (⟨"contact"⟩, .name ⟨"kind"⟩)]))).outcome = .ok expanded ∧
      ((contact.config.context (some all)).expand (Expr.withDefault .standard
        (.selection [(⟨"contact"⟩, .name ⟨"kind"⟩),
          (⟨"owner"⟩, .list [.name ⟨"age"⟩, .name ⟨"name"⟩])]))).outcome = .ok otherExpanded ∧
      expanded.normalize.same otherExpanded.normalize := by
  have hvalue : Expr.Rearranged (.list [.name ⟨"name"⟩, .name ⟨"age"⟩, .name ⟨"name"⟩])
      (.list [.name ⟨"age"⟩, .name ⟨"name"⟩]) :=
    .repeated (List.mem_cons_of_mem _ List.mem_cons_self)
  have hrearranged : Expr.Rearranged
      (.selection [(⟨"owner"⟩, .list [.name ⟨"name"⟩, .name ⟨"age"⟩, .name ⟨"name"⟩]),
        (⟨"contact"⟩, .name ⟨"kind"⟩)])
      (.selection [(⟨"contact"⟩, .name ⟨"kind"⟩),
        (⟨"owner"⟩, .list [.name ⟨"age"⟩, .name ⟨"name"⟩])]) :=
    .trans (.value [] _ _ hvalue) (.reordered (.swap _ _ []))
  obtain ⟨all, hall, hfails | hsame⟩ := expand_rearranged contact rfl rfl hrearranged
  · -- Neither request is too deep.
    obtain rfl := Option.some.inj hall
    exact absurd hfails.1 nofun
  · obtain ⟨expanded, otherExpanded, hexpanded, hotherExpanded, hsame⟩ := hsame
    exact ⟨all, expanded, otherExpanded, hall, hexpanded, hotherExpanded, hsame⟩

end FieldSelection.History
