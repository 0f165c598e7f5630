import FieldSelection.Proofs.Config.Procedure
import FieldSelection.Proofs.Config.Validation

/-!
# When a configuration is compiled

A configuration is compiled exactly when a compilation has succeeded and nothing has made it stale
since then: no registration that was accepted, no inheritance and no compilation that failed
(`History.compiled_iff_upToDate`). As long as it is stale it refuses whatever rests on compilation,
and as long as it is compiled it refuses nothing for that reason (`History.compiled_guard`).

To read a configuration and to copy it are no occurrences: reading it leaves no trace, and a copy
continues the course of its original.
-/

namespace FieldSelection

/-- What may happen to a configuration: an operation with its answer, or the inheritance of the
aliases of another configuration. -/
inductive Occurrence : Type 1 where
  | operation (operation : Operation) (answer : Except ConfigError Unit)
  | inheritance

namespace Occurrence

/-- Whether an occurrence is a compilation that succeeds. -/
def Compiles : Occurrence → Prop
  | .operation (.compile _) answer => answer = .ok ()
  | _ => False

/-- Whether an occurrence makes what was compiled stale: a registration that is accepted, a
compilation that fails, or an inheritance. -/
def Stales : Occurrence → Prop
  | .operation (.register ..) answer
  | .operation (.registerText ..) answer
  | .operation (.expose _) answer => answer = .ok ()
  | .operation (.compile _) answer => answer ≠ .ok ()
  | .operation _ _ => False
  | .inheritance => True

/-- Whether a compilation succeeds in a course of occurrences, the earliest first, and nothing after
it makes what was compiled stale. -/
def UpToDate (course : List Occurrence) : Prop :=
  ∃ earlier compilation later, course = earlier ++ compilation :: later ∧
    compilation.Compiles ∧ ∀ occurrence ∈ later, ¬ occurrence.Stales

theorem not_upToDate_nil : ¬ UpToDate [] := by
  intro h
  obtain ⟨earlier, compilation, later, heq, _⟩ := h
  exact List.append_ne_nil_of_right_ne_nil earlier (List.cons_ne_nil _ _) heq.symm

/-- One more occurrence is the compilation that counts, or it leaves the one before valid. -/
theorem upToDate_append_iff {course : List Occurrence} {occurrence : Occurrence} :
    UpToDate (course ++ [occurrence]) ↔
      occurrence.Compiles ∨ UpToDate course ∧ ¬ occurrence.Stales := by
  constructor
  · intro h
    obtain ⟨earlier, compilation, later, heq, hcompiles, hlater⟩ := h
    rcases List.eq_nil_or_concat later with rfl | ⟨before, last, rfl⟩
    · obtain ⟨_, hlast⟩ := List.append_inj' heq rfl
      obtain rfl := List.singleton_inj.mp hlast
      exact Or.inl hcompiles
    · have hsnoc : course ++ [occurrence] = (earlier ++ compilation :: before) ++ [last] := by
        simpa using heq
      obtain ⟨rfl, hlast⟩ := List.append_inj' hsnoc rfl
      obtain rfl := List.singleton_inj.mp hlast
      refine Or.inr ⟨⟨earlier, compilation, before, rfl, hcompiles, ?_⟩, ?_⟩
      · exact fun other hother => hlater other (by simp [hother])
      · exact hlater _ (by simp)
  · intro h
    rcases h with hcompiles | ⟨⟨earlier, compilation, later, rfl, hcompiles, hlater⟩, hkeeps⟩
    · exact ⟨course, occurrence, [], rfl, hcompiles, nofun⟩
    · refine ⟨earlier, compilation, later ++ [occurrence], by simp, hcompiles, ?_⟩
      intro other hother
      rcases List.mem_append.mp hother with hother | hother
      · exact hlater other hother
      · exact List.mem_singleton.mp hother ▸ hkeeps

end Occurrence

namespace Config

open Occurrence

variable {config : Config}

/-- A configuration is compiled after a registration if it was before, and the registration was
refused. -/
theorem compiled_registered_iff {registration : Except ConfigError Config}
    (hstale : ∀ next, registration = .ok next → next.compiled = false) :
    (config.registered registration).compiled ↔
      config.compiled ∧ ¬ (registration.map fun _ => ()) = .ok () := by
  cases registration with
  | error error => simp [registered, Except.map]
  | ok next => simp [registered, Except.map, hstale next rfl]

theorem compiled_of_register {next : Config} {name : Name} {definition : Expr}
    (h : config.register name definition = .ok next) : next.compiled = false := by
  by_cases hreserved : name.isReserved
  · rw [register_of_reserved config hreserved] at h
    cases h
  · rw [register_of_not_reserved config hreserved] at h
    cases h
    rfl

theorem compiled_of_registerText {next : Config} {name : Name} {text : String}
    (h : config.registerText name text = .ok next) : next.compiled = false := by
  rw [registerText] at h
  cases hparse : Expr.parse text with
  | error error =>
      rw [hparse] at h
      cases h
  | ok definition =>
      rw [hparse] at h
      exact compiled_of_register h

/-- A configuration is compiled after a compilation if that succeeded. -/
theorem compiled_compile_iff {isAssociation : Name → Bool} :
    (config.compile isAssociation).config.compiled ↔
      (config.compile isAssociation).answer = .ok () := by
  rcases config.compile_cases isAssociation with
    ⟨_, hanswer, hconfig⟩ | ⟨_, _, _, hanswer, hconfig⟩
  · simp [hanswer, hconfig]
  · simp [hanswer, hconfig]

theorem compiled_perform_of_serves {operation : Operation} (h : operation.Serves) :
    (config.perform operation).compiled ↔ config.compiled := by
  obtain ⟨_, hperform⟩ := config.perform_of_serves h
  rw [hperform]

/-- One operation leaves a configuration compiled if it is a compilation that succeeds, or if the
configuration was compiled before and the operation does not make it stale. -/
theorem compiled_perform_iff (config : Config) (operation : Operation) :
    (config.perform operation).compiled ↔
      (Occurrence.operation operation (config.answer operation)).Compiles ∨
        config.compiled ∧ ¬ (Occurrence.operation operation (config.answer operation)).Stales := by
  cases operation with
  | register | expose =>
      refine (compiled_registered_iff fun _ => compiled_of_register).trans ?_
      exact (iff_of_eq (false_or _)).symm
  | registerText =>
      refine (compiled_registered_iff fun _ => compiled_of_registerText).trans ?_
      exact (iff_of_eq (false_or _)).symm
  | compile isAssociation =>
      refine compiled_compile_iff.trans (or_iff_left_of_imp fun hkept => ?_).symm
      exact not_not.mp hkept.2
  | resolve | iterate | tryIterate | clearCache =>
      refine (compiled_perform_of_serves (by exact trivial)).trans ?_
      simp [Compiles, Stales]

/-- Whether a configuration refuses whatever rests on compilation. An operation that it refuses
reports nothing, leaves the configuration as it was and makes no visit. -/
structure Refuses (config : Config) : Prop where
  resolve (request : Expr) : config.resolve request = ⟨.error .notCompiled, config, []⟩
  iterate {σ : Type} (request : Expr) (visit : σ → Name → Tree → σ) (start : σ) :
    config.iterate request visit start = ⟨.error .notCompiled, config, []⟩ ∧
      (Procedure.iterate request visit).runOn (config, start) =
        (.error .notCompiled, config, start)
  tryIterate {σ ε : Type} (request : Expr) (visit : σ → Name → Tree → Except ε σ) (start : σ) :
    config.tryIterate request visit start = ⟨.error .notCompiled, config, []⟩ ∧
      (Procedure.tryIterate request visit).runOn (config, start) =
        (.error .notCompiled, config, start)
  facet? (name : Name) : config.facet? name = .error .notCompiled
  allFields : config.allFields = .error .notCompiled
  allAttributes : config.allAttributes = .error .notCompiled
  exposedFields : config.exposedFields = .error .notCompiled

/-- Whether a configuration refuses nothing for not being compiled. What it was compiled to can be
read, and requests fail for other reasons only. -/
structure Answers (config : Config) : Prop where
  resolve (request : Expr) : (config.resolve request).answer ≠ .error .notCompiled
  iterate {σ : Type} (request : Expr) (visit : σ → Name → Tree → σ) (start : σ) :
    (config.iterate request visit start).answer ≠ .error .notCompiled
  tryIterate {σ ε : Type} (request : Expr) (visit : σ → Name → Tree → Except ε σ) (start : σ) :
    (config.tryIterate request visit start).answer ≠ .error .notCompiled
  facet? (name : Name) : ∃ facet, config.facet? name = .ok facet
  aggregate : ∃ all, config.aggregate? = some all
  allFields : ∃ fields, config.allFields = .ok fields
  allAttributes : ∃ attributes, config.allAttributes = .ok attributes
  exposedFields : ∃ names, config.exposedFields = .ok names

theorem refuses_of_stale (h : ¬ config.compiled) : config.Refuses := by
  have hfacet (name : Name) : config.facet? name = .error .notCompiled := if_neg h
  have haggregate : config.aggregate = .error .notCompiled := by
    rw [aggregate, hfacet]
  have hfields : config.allFields = .error .notCompiled := by
    rw [allFields, haggregate]
    rfl
  constructor
  case resolve => exact resolve_of_stale h
  case iterate =>
    intro σ request visit start
    have hiterate : config.iterate request visit start = ⟨.error .notCompiled, config, []⟩ := by
      rw [iterate, resolve_of_stale h]
      rfl
    refine ⟨hiterate, ?_⟩
    rw [Procedure.runOn_iterate, hiterate]
  case tryIterate =>
    intro σ ε request visit start
    have hiterate : config.tryIterate request visit start = ⟨.error .notCompiled, config, []⟩ := by
      rw [tryIterate, resolve_of_stale h]
      rfl
    refine ⟨hiterate, ?_⟩
    rw [Procedure.runOn_tryIterate, hiterate]
  case facet? => exact hfacet
  case allFields => exact hfields
  case allAttributes =>
    rw [allAttributes, haggregate]
    rfl
  case exposedFields =>
    rw [exposedFields, hfields]
    rfl

/-- A compiled configuration has a facet of `all` to read, and requests fail only when they are
expanded. -/
theorem Coherent.answers (h : config.Coherent) (hcompiled : config.compiled) : config.Answers := by
  obtain ⟨all, _, hall, _⟩ := h.union
  have haggregate := aggregate_eq_ok hcompiled hall
  have hfields : config.allFields = .ok all.fields := congrArg (Except.map Facet.fields) haggregate
  have hresolve (request : Expr) : (config.resolve request).answer ≠ .error .notCompiled := by
    intro herror
    have hafresh := h.fits.error_afresh (afresh_of_error_resolve hcompiled herror)
    exact absurd hafresh.1 nofun
  constructor
  case resolve => exact hresolve
  case iterate | tryIterate =>
    exact fun request _ _ herror => hresolve request (except_map_eq_error.mp herror)
  case facet? => exact fun name => ⟨_, if_pos hcompiled⟩
  case aggregate => exact ⟨all, hall⟩
  case allFields => exact ⟨_, hfields⟩
  case allAttributes => exact ⟨_, congrArg (Except.map Facet.attributes) haggregate⟩
  case exposedFields => exact ⟨_, congrArg (Except.map Tree.names) hfields⟩

end Config

namespace History

/-- What happened to the configuration since it was built, the earliest first. -/
def course : History → List Occurrence
  | build .. => []
  | perform before operation =>
      before.course ++ [.operation operation (before.config.answer operation)]
  | inherit before _ => before.course ++ [.inheritance]

/-- A configuration is compiled exactly when a compilation has succeeded and nothing has made it
stale since then. -/
theorem compiled_iff_upToDate (history : History) :
    history.config.compiled ↔ Occurrence.UpToDate history.course := by
  induction history with
  | build aliases limit defaults config built =>
      rw [show (build aliases limit defaults config built).config.compiled = false from
        Config.compiled_of_build built]
      exact iff_of_false Bool.false_ne_true Occurrence.not_upToDate_nil
  | perform before operation ih =>
      rw [config, course, Config.compiled_perform_iff, Occurrence.upToDate_append_iff, ih]
  | inherit before parent =>
      rw [course, Occurrence.upToDate_append_iff]
      refine iff_of_false Bool.false_ne_true fun hkept => ?_
      rcases hkept with hcompiles | ⟨_, hkeeps⟩
      · exact hcompiles
      · exact hkeeps trivial

/-- Along every history, the configuration is compiled exactly when a compilation has succeeded and
since then no registration was accepted, no aliases were inherited and no compilation failed. While
it is stale, everything that rests on compilation is refused without a visit and without a change;
while it is compiled, nothing is refused for that reason. -/
theorem compiled_guard (history : History) :
    (history.config.compiled ↔ Occurrence.UpToDate history.course) ∧
      (¬ history.config.compiled → history.config.Refuses) ∧
      (history.config.compiled → history.config.Answers) :=
  ⟨history.compiled_iff_upToDate, Config.refuses_of_stale,
    fun h => (history.coherent h).answers h⟩

end History

end FieldSelection
