import FieldSelection.Proofs.Config.Validation
import FieldSelection.Proofs.Expansion.Views

/-!
# What the union decides in a compilation

The union decides what views select, and nothing else: whether and how an expansion fails, and which
aliases it comes by, is the same under every union, and an expansion without one tells whether there
is a view that it comes upon (`expand_union_independent`). For the passes of a compilation this
means that an alias which reads no view needs no second pass, and that the second pass does not
fail.
-/

namespace FieldSelection.Config

open Expansion

/-- The first pass puts off exactly the aliases that read a view. -/
theorem deferred_iff_reads {config : Config} {first : List (Name × Tree × Bool)} {name : Name}
    {tree : Tree} {deferred : Bool} (h : config.firstPass.outcome = .ok first)
    (hmem : (name, tree, deferred) ∈ first) :
    deferred = true ↔ ∃ view, config.aliases.Reads (.name name) view := by
  obtain ⟨_, _, hresult⟩ := exists_member_of_each h hmem
  obtain ⟨rfl, htree, hmissed⟩ := outcome_firstPass_step.mp hresult
  have hexpand : ((config.context none).expand (.name name)).MissesIff
      (∃ view, config.aliases.Reads (.name name) view) := Context.missesIff_expand rfl _
  have hdeferred : deferred = ((config.context none).treeOf name).missed := hmissed.symm
  rw [hdeferred]
  exact hexpand.map Expr.normalize _ htree

/-- Expansions of one expression report the same events and fail alike, whatever the union is and
whether there is one. Without a union, an expansion that succeeds tells whether it comes upon a view,
and if it does not, it comes to the same under every union. Under a union none is missed. So a
compilation succeeds when its first pass does. An alias that this pass does not put off reads no view
and comes to the same tree under every union, and a second pass over all aliases would come to the
trees that there are. -/
theorem expand_union_independent :
    (∀ (aliases : AliasTable) (limit : Nat) (expr : Expr),
      (∀ aggregate other : Option Facet,
        (Context.expand ⟨aliases, other, limit⟩ expr).events =
            (Context.expand ⟨aliases, aggregate, limit⟩ expr).events ∧
          ∀ error, (Context.expand ⟨aliases, aggregate, limit⟩ expr).outcome = .error error ↔
            (Context.expand ⟨aliases, other, limit⟩ expr).outcome = .error error) ∧
      (∀ expanded, (Context.expand ⟨aliases, none, limit⟩ expr).outcome = .ok expanded →
        ((Context.expand ⟨aliases, none, limit⟩ expr).missed = true ↔
          ∃ view, aliases.Reads expr view) ∧
        ((Context.expand ⟨aliases, none, limit⟩ expr).missed = false →
          ∀ aggregate,
            (Context.expand ⟨aliases, aggregate, limit⟩ expr).outcome = .ok expanded)) ∧
      ∀ facet, (Context.expand ⟨aliases, some facet, limit⟩ expr).missed = false) ∧
    ∀ (config : Config) (first : List (Name × Tree × Bool)),
      config.firstPass.outcome = .ok first →
      (∀ name tree deferred, (name, tree, deferred) ∈ first →
        (deferred = true ↔ ∃ view, config.aliases.Reads (.name name) view) ∧
        (deferred = false →
          ∀ aggregate, ((config.context aggregate).treeOf name).outcome = .ok tree)) ∧
      ∀ isAssociation, (config.compile isAssociation).answer = .ok () ∧
        ∃ aggregate trees, (config.passes isAssociation).outcome = .ok (aggregate, trees) ∧
          (config.secondPass aggregate config.aliases.names).outcome = .ok trees := by
  refine ⟨fun aliases limit expr => ⟨fun aggregate other => ?_,
    fun expanded hok => ⟨?_, fun hmissed aggregate => ?_⟩, fun facet => ?_⟩,
    fun config first hfirst => ⟨fun name tree deferred hmem => ⟨?_, fun hdeferred => ?_⟩,
      fun isAssociation => ?_⟩⟩
  · have hcourse := Context.expand_sameCourse ⟨aliases, aggregate, limit⟩ other expr
    exact ⟨hcourse.events, hcourse.fails⟩
  · exact Context.missesIff_expand rfl expr expanded hok
  · have hsame : SameUnlessMissed (Context.expand ⟨aliases, none, limit⟩ expr)
        (Context.expand ⟨aliases, aggregate, limit⟩ expr) := Context.expand_unless_missed rfl expr
    exact (hsame hmissed).trans hok
  · exact Context.missed_expand rfl expr
  · exact deferred_iff_reads hfirst hmem
  · subst hdeferred
    exact treeOf_of_firstPass hfirst hmem
  · have hfits := fits_of_firstPass hfirst
    obtain ⟨⟨aggregate, trees⟩, hpasses⟩ := hfits.exists_passes isAssociation
    exact ⟨answer_compile_eq_ok_iff.mpr hfits, aggregate, trees, hpasses, secondPass_names hpasses⟩

/-- An alias that reads the union, and one that does not. -/
def wide : Config where
  aliases := .ofList [(⟨"wide"⟩, .list [.name ⟨"key"⟩, .name .all]), (⟨"narrow"⟩, .name ⟨"key"⟩)]

theorem expand_union_independent_wide :
    wide.firstPass.outcome =
        .ok [(⟨"wide"⟩, .leaf ⟨"key"⟩, true), (⟨"narrow"⟩, .leaf ⟨"key"⟩, false)] ∧
      (∃ view, wide.aliases.Reads (.name ⟨"wide"⟩) view) ∧
      (∀ aggregate, ((wide.context aggregate).treeOf ⟨"narrow"⟩).outcome = .ok (.leaf ⟨"key"⟩)) ∧
      (∀ isAssociation, (wide.compile isAssociation).answer = .ok ()) ∧
      ∀ aggregate, (Context.expand ⟨wide.aliases, aggregate, 1⟩ (.name ⟨"narrow"⟩)).outcome =
        .ok (.name ⟨"key"⟩) := by
  have hfirst : wide.firstPass.outcome =
      .ok [(⟨"wide"⟩, .leaf ⟨"key"⟩, true), (⟨"narrow"⟩, .leaf ⟨"key"⟩, false)] := rfl
  obtain ⟨hexpand, hpasses⟩ := expand_union_independent
  obtain ⟨htree, hcompile⟩ := hpasses wide _ hfirst
  refine ⟨hfirst, ?_, ?_, fun isAssociation => (hcompile isAssociation).1, ?_⟩
  · exact (htree _ _ _ List.mem_cons_self).1.mp rfl
  · exact (htree _ _ _ (List.mem_cons_of_mem _ List.mem_cons_self)).2 rfl
  · exact ((hexpand wide.aliases 1 (.name ⟨"narrow"⟩)).2.1 _ rfl).2 rfl

end FieldSelection.Config
