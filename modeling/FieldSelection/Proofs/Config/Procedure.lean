import FieldSelection.Proofs.Config.Coherence
import FieldSelection.Proofs.Expansion.InPlace

/-!
# Operations in place

The operations of a configuration as procedures, which change it assignment by assignment. What was
assigned before an error stays, so that the order of checks and assignments matters: a procedure
could well leave half of its work behind. `Operation.runOn_procedure` says that it comes to the
answer of its operation and to the configuration that the operation leaves. Therefore an operation
that fails changes nothing, and a compilation that fails leaves nothing compiled
(`Operation.failure_atomic`).
-/

namespace FieldSelection

/-- A procedure changes a state of type `σ`, and comes to a value of type `α` unless it stops with
an error. -/
abbrev Procedure (σ α : Type) : Type := ExceptT ConfigError (StateM σ) α

namespace Procedure

open Expansion

variable {σ α β ε : Type}

/-- The result of a procedure and the state in which it stops. -/
def runOn (procedure : Procedure σ α) (state : σ) : Except ConfigError α × σ :=
  (ExceptT.run procedure).run state

/-- The value that an expansion comes to. -/
def expand (x : Expansion α) : Procedure σ α :=
  ofExcept (x.outcome.mapError .expansion)

/-- A procedure on one part of a state. -/
def onFirst (procedure : Procedure σ α) : Procedure (σ × β) α :=
  ExceptT.mk fun state =>
    let (result, first) := procedure.runOn state.1
    (result, first, state.2)

/-- A procedure on a state to which a second part is added at the start and taken away at the
end. -/
def startingWith (start : β) (procedure : Procedure (σ × β) α) : Procedure σ Unit :=
  ExceptT.mk fun state =>
    let (result, next) := procedure.runOn (state, start)
    (result.map fun _ => (), next.1)

/-- Registers an alias. Reserved names are refused. -/
def register (name : Name) (definition : Expr) : Procedure Config Unit := do
  if name.isReserved then throw (.reserved name)
  modify fun config => { config with compiled := false }
  modify fun config => { config with aliases := config.aliases.insert name definition }

/-- Registers an alias whose definition is given as text. -/
def registerText (name : Name) (text : String) : Procedure Config Unit := do
  let definition ← ofExcept ((Expr.parse text).mapError .invalidFacet)
  register name definition

/-- Makes a configuration stale and empties it of all facets. -/
def clear : Procedure Config Unit := do
  modify fun config => { config with compiled := false }
  modify fun config => { config with facets := [] }
  modify fun config => { config with requests := [] }

/-- Expands every alias, and then again those that missed the union of all. Either pass stops at the
first alias that cannot be expanded. -/
def passes (isAssociation : Name → Bool) : Procedure Config (Facet × List (Name × Tree)) := do
  let config ← get
  let first ← config.aliases.names.mapM fun name => do
    let seen ← expand (observe ((config.context none).treeOf name))
    return (name, seen)
  let aggregate := Facet.ofFields isAssociation (.union (first.map fun entry => entry.2.1))
  let deferred := (first.filter fun entry => entry.2.2).map Prod.fst
  let second ← deferred.mapM fun name => do
    let tree ← expand ((config.context (some aggregate)).treeOf name)
    return (name, tree)
  return (aggregate, Entries.extend (first.map fun entry => (entry.1, entry.2.1)) second)

/-- Stores a compiled facet. -/
def store (key : String) (facet : Facet) : Procedure Config Unit :=
  modify fun config => { config with facets := Entries.put key facet config.facets }

/-- Stores what the passes come to, one facet after the other. -/
def storeAll (isAssociation : Name → Bool) (aggregate : Facet) (trees : List (Name × Tree)) :
    Procedure Config Unit := do
  store Name.all.text aggregate
  trees.forM fun entry => store entry.1.text (.ofFields isAssociation entry.2)

/-- Compiles every alias and the union of all. -/
def compile (isAssociation : Name → Bool) : Procedure Config Unit := do
  clear
  let (aggregate, trees) ← passes isAssociation
  storeAll isAssociation aggregate trees
  modify fun config => { config with isAssociation := isAssociation }
  modify fun config => { config with compiled := true }

/-- The facet of a request, which is remembered unless it was found. -/
def resolve (request : Expr) : Procedure Config Facet := do
  let config ← get
  if !config.compiled then throw .notCompiled
  match config.found? request with
  | some facet => return facet
  | none =>
      let facet ← expand (config.evaluate (request.withDefault config.defaults))
      modify fun config =>
        { config with
          requests := Entries.put (request.withDefault config.defaults).cacheKey facet
            config.requests }
      return facet

/-- Hands every field of a request at top level to `visit`, which changes the second part of the
state. -/
def iterate (request : Expr) (visit : σ → Name → Tree → σ) : Procedure (Config × σ) Unit := do
  let facet ← onFirst (resolve request)
  facet.fields.toList.forM fun entry =>
    modify fun state => (state.1, visit state.2 entry.1 entry.2)

/-- Visits fields in order until a visit fails, and returns the failure if there was one. -/
def visitWhile (visit : σ → Name → Tree → Except ε σ) :
    List (Name × Tree) → Procedure (Config × σ) (Option ε)
  | [] => return none
  | entry :: rest => do
      let state ← get
      match visit state.2 entry.1 entry.2 with
      | .error error => return some error
      | .ok next =>
          set (state.1, next)
          visitWhile visit rest

/-- Hands the fields of a request at top level to `visit` until a visit fails. -/
def tryIterate (request : Expr) (visit : σ → Name → Tree → Except ε σ) :
    Procedure (Config × σ) (Option ε) := do
  let facet ← onFirst (resolve request)
  visitWhile visit facet.fields.toList

/-- Forgets the facets of requests. -/
def clearCache : Procedure Config Unit :=
  modify fun config => { config with requests := [] }

/-! ## Runs -/

variable {procedure : Procedure σ α} {f : α → Procedure σ β} {state next : σ}

theorem runOn_bind_of_ok {a : α} (h : procedure.runOn state = (.ok a, next)) :
    (procedure >>= f).runOn state = (f a).runOn next :=
  exceptT_run_bind_of_ok h

theorem runOn_bind_of_error {error : ConfigError}
    (h : procedure.runOn state = (.error error, next)) :
    (procedure >>= f).runOn state = (.error error, next) :=
  exceptT_run_bind_of_error h

theorem runOn_get_bind (f : σ → Procedure σ α) (state : σ) :
    (get >>= f).runOn state = (f state).runOn state :=
  rfl

/-- A loop of assignments. -/
theorem runOn_forM_modify (f : σ → α → σ) (as : List α) (state : σ) :
    (as.forM fun a => (modify fun state => f state a : Procedure σ Unit)).runOn state =
      (.ok (), as.foldl f state) := by
  induction as generalizing state with
  | nil => rfl
  | cons a rest ih => exact ih (f state a)

theorem runOn_expand (x : Expansion α) (state : σ) :
    (expand x).runOn state = (x.outcome.mapError .expansion, state) := by
  unfold expand
  cases x.outcome <;> rfl

theorem expand_bind (x : Expansion α) (f : α → Expansion β) :
    (expand (x >>= f) : Procedure σ β) = expand x >>= fun a => expand (f a) := by
  unfold expand
  rw [outcome_bind]
  cases x.outcome <;> rfl

theorem expand_each (f : α → Expansion β) (as : List α) :
    (expand (each f as) : Procedure σ (List β)) = as.mapM fun a => expand (f a) := by
  induction as with
  | nil => rfl
  | cons a rest ih =>
      rw [List.mapM_cons, ← ih, each, expand_bind]
      simp only [expand_bind]
      rfl

/-- The passes come to the same one by one and as a whole. They only read the configuration. -/
theorem runOn_passes (config : Config) (isAssociation : Name → Bool) :
    (passes isAssociation).runOn config =
      ((config.passes isAssociation).outcome.mapError .expansion, config) := by
  rw [← runOn_expand, passes, runOn_get_bind]
  simp only [Config.passes, Config.firstPass, Config.secondPass, expand_bind, expand_each]
  rfl

theorem runOn_storeAll (config : Config) (isAssociation : Name → Bool) (aggregate : Facet)
    (trees : List (Name × Tree)) :
    (storeAll isAssociation aggregate trees).runOn config =
      (.ok (), { config with
        facets := Entries.extend config.facets ((Name.all.text, aggregate) ::
          trees.map fun entry => (entry.1.text, Facet.ofFields isAssociation entry.2)) }) := by
  refine (runOn_forM_modify _ trees _).trans ?_
  rw [Entries.extend, List.foldl_cons, List.foldl_map]
  exact congrArg _ (List.foldl_hom (fun facets => { config with facets := facets }) fun _ _ => rfl)

theorem runOn_register (config : Config) (name : Name) (definition : Expr) :
    (register name definition).runOn config =
      ((config.register name definition).map fun _ => (),
        config.registered (config.register name definition)) := by
  by_cases hreserved : name.isReserved
  · rw [config.register_of_reserved hreserved, register, if_pos hreserved]
    rfl
  · rw [config.register_of_not_reserved hreserved, register, if_neg hreserved]
    rfl

theorem runOn_registerText (config : Config) (name : Name) (text : String) :
    (registerText name text).runOn config =
      ((config.registerText name text).map fun _ => (),
        config.registered (config.registerText name text)) := by
  rw [Config.registerText, registerText]
  cases Expr.parse text with
  | error error => rfl
  | ok definition => exact runOn_register config name definition

theorem runOn_compile (config : Config) (isAssociation : Name → Bool) :
    (compile isAssociation).runOn config =
      ((config.compile isAssociation).answer, (config.compile isAssociation).config) := by
  have hclear : clear.runOn config =
      (.ok (), { config with compiled := false, facets := [], requests := [] }) := rfl
  rw [compile, runOn_bind_of_ok hclear, Config.compile]
  -- The passes read nothing of what was cleared.
  have hpasses : (passes isAssociation).runOn
      { config with compiled := false, facets := [], requests := [] } =
        ((config.passes isAssociation).outcome.mapError ConfigError.expansion,
          { config with compiled := false, facets := [], requests := [] }) :=
    runOn_passes _ isAssociation
  cases houtcome : (config.passes isAssociation).outcome with
  | error error =>
      rw [houtcome] at hpasses
      exact runOn_bind_of_error hpasses
  | ok result =>
      rw [houtcome] at hpasses
      rw [runOn_bind_of_ok hpasses, runOn_bind_of_ok (runOn_storeAll _ _ _ _)]
      rfl

theorem runOn_resolve (config : Config) (request : Expr) :
    (resolve request).runOn config =
      ((config.resolve request).answer, (config.resolve request).config) := by
  rw [resolve, runOn_get_bind]
  cases hcompiled : config.compiled with
  | false =>
      rw [Config.resolve, hcompiled]
      rfl
  | true =>
      cases hfound : config.found? request with
      | some facet =>
          rw [Config.resolve_of_found hcompiled hfound]
          rfl
      | none =>
          rw [Config.resolve_of_missing hcompiled hfound, Config.afresh_eq_evaluate]
          have hevaluate :=
            runOn_expand (config.evaluate (request.withDefault config.defaults)) config
          cases houtcome : (config.evaluate (request.withDefault config.defaults)).outcome with
          | error error =>
              rw [houtcome] at hevaluate
              exact runOn_bind_of_error hevaluate
          | ok facet =>
              rw [houtcome] at hevaluate
              exact runOn_bind_of_ok hevaluate

theorem runOn_onFirst (procedure : Procedure σ α) (first : σ) (second : β) :
    (onFirst procedure).runOn (first, second) =
      ((procedure.runOn first).1, (procedure.runOn first).2, second) :=
  rfl

/-- Whatever follows the answer to a request, it does not take place if the request fails. -/
theorem runOn_resolve_bind (config : Config) (request : Expr)
    (f : Facet → Procedure (Config × σ) α) (start : σ) :
    (onFirst (resolve request) >>= f).runOn (config, start) =
      match (config.resolve request).answer with
      | .error error => (.error error, (config.resolve request).config, start)
      | .ok facet => (f facet).runOn ((config.resolve request).config, start) := by
  have hresolve := runOn_onFirst (resolve request) config start
  rw [runOn_resolve] at hresolve
  cases hanswer : (config.resolve request).answer with
  | error error => exact runOn_bind_of_error (hanswer ▸ hresolve)
  | ok facet => exact runOn_bind_of_ok (hanswer ▸ hresolve)

theorem runOn_iterate (config : Config) (request : Expr) (visit : σ → Name → Tree → σ)
    (start : σ) :
    (iterate request visit).runOn (config, start) =
      match (config.iterate request visit start).answer with
      | .error error => (.error error, (config.iterate request visit start).config, start)
      | .ok state => (.ok (), (config.iterate request visit start).config, state) := by
  rw [iterate, runOn_resolve_bind, Config.iterate]
  cases (config.resolve request).answer with
  | error error => rfl
  | ok facet =>
      refine (runOn_forM_modify _ facet.fields.toList _).trans ?_
      exact congrArg _ (List.foldl_hom (Prod.mk (config.resolve request).config) fun _ _ => rfl)

theorem runOn_visitWhile (config : Config) (visit : σ → Name → Tree → Except ε σ) (start : σ)
    (entries : List (Name × Tree)) :
    (visitWhile visit entries).runOn (config, start) =
      (.ok (Config.visitWhile visit start entries).2, config,
        (Config.visitWhile visit start entries).1) := by
  induction entries generalizing start with
  | nil => rfl
  | cons entry rest ih =>
      rw [visitWhile, runOn_get_bind, Config.visitWhile]
      cases visit start entry.1 entry.2 with
      | error error => rfl
      | ok next => exact ih next

theorem runOn_tryIterate (config : Config) (request : Expr)
    (visit : σ → Name → Tree → Except ε σ) (start : σ) :
    (tryIterate request visit).runOn (config, start) =
      match (config.tryIterate request visit start).answer with
      | .error error => (.error error, (config.tryIterate request visit start).config, start)
      | .ok result => (.ok result.2, (config.tryIterate request visit start).config, result.1) := by
  rw [tryIterate, runOn_resolve_bind, Config.tryIterate]
  cases (config.resolve request).answer with
  | error error => rfl
  | ok facet => exact runOn_visitWhile _ visit start _

theorem runOn_startingWith (procedure : Procedure (σ × β) α) (state : σ) (start : β) :
    (procedure.startingWith start).runOn state =
      ((procedure.runOn (state, start)).1.map fun _ => (), (procedure.runOn (state, start)).2.1) :=
  rfl

end Procedure

namespace Operation

/-- The procedure of an operation. A visitor has a state of its own. -/
def procedure : Operation → Procedure Config Unit
  | .register name definition => Procedure.register name definition
  | .registerText name text => Procedure.registerText name text
  | .expose name => Procedure.register name (.name name)
  | .compile isAssociation => Procedure.compile isAssociation
  | .resolve request => do
      let _ ← Procedure.resolve request
      return
  | .iterate request visit start => (Procedure.iterate request visit).startingWith start
  | .tryIterate request visit start => (Procedure.tryIterate request visit).startingWith start
  | .clearCache => Procedure.clearCache

/-- A procedure comes to the answer of its operation, and to the configuration that the operation
leaves. -/
theorem runOn_procedure (config : Config) (operation : Operation) :
    operation.procedure.runOn config = (config.answer operation, config.perform operation) := by
  cases operation with
  | register name definition => exact Procedure.runOn_register config name definition
  | registerText name text => exact Procedure.runOn_registerText config name text
  | expose name => exact Procedure.runOn_register config name _
  | compile isAssociation => exact Procedure.runOn_compile config isAssociation
  | resolve request =>
      have hresolve := Procedure.runOn_resolve config request
      rw [Config.answer, Config.perform]
      cases hanswer : (config.resolve request).answer with
      | error error => exact Procedure.runOn_bind_of_error (hanswer ▸ hresolve)
      | ok facet => exact Procedure.runOn_bind_of_ok (hanswer ▸ hresolve)
  | iterate request visit start =>
      rw [procedure, Procedure.runOn_startingWith, Procedure.runOn_iterate, Config.answer,
        Config.perform]
      cases (config.iterate request visit start).answer <;> rfl
  | tryIterate request visit start =>
      rw [procedure, Procedure.runOn_startingWith, Procedure.runOn_tryIterate, Config.answer,
        Config.perform]
      cases (config.tryIterate request visit start).answer <;> rfl
  | clearCache => rfl

/-- An operation that fails has changed nothing when it stops, unless it is a compilation. A
compilation that fails, in whichever pass and at whichever alias, has kept the aliases, the settings
and the test for associations; nothing is compiled and no request is remembered. -/
theorem failure_atomic {config left : Config} {operation : Operation} {error : ConfigError}
    (h : operation.procedure.runOn config = (.error error, left)) :
    config.answer operation = .error error ∧ config.perform operation = left ∧
      ((∀ isAssociation, operation ≠ .compile isAssociation) → left = config) ∧
      ∀ isAssociation, operation = .compile isAssociation →
        left = { config with compiled := false, facets := [], requests := [] } := by
  rw [runOn_procedure, Prod.mk.injEq] at h
  obtain ⟨hanswer, rfl⟩ := h
  refine ⟨hanswer, rfl, Config.perform_of_error hanswer, ?_⟩
  rintro isAssociation rfl
  exact Config.config_compile_of_error hanswer

end Operation

namespace History

/-- A history whose last alias leads back to itself, so that it ends stale. -/
def looped : History :=
  .perform contact (.register ⟨"loop"⟩ (.list [.name ⟨"loop"⟩]))

/-- A refused registration leaves a configuration compiled, and a compilation that fails at the last
alias leaves none of the facets. -/
theorem failure_atomic_looped :
    (∃ left, (Operation.expose .all).procedure.runOn contact.config =
        (.error (.reserved .all), left) ∧
      left = contact.config ∧ left.compiled ∧ left.requests ≠ []) ∧
    ∃ left, (Operation.compile fun _ => true).procedure.runOn looped.config =
        (.error (.expansion (.cycle [⟨"loop"⟩, ⟨"loop"⟩])), left) ∧
      left = { looped.config with compiled := false, facets := [], requests := [] } ∧
      looped.config.requests ≠ [] ∧ left.isAssociation = (· == ⟨"owner"⟩) := by
  constructor
  · have hrefused : (Operation.expose .all).procedure.runOn contact.config =
        (.error (.reserved .all), _) := rfl
    obtain ⟨_, _, hsame, _⟩ := Operation.failure_atomic hrefused
    exact ⟨_, hrefused, hsame nofun, rfl, nofun⟩
  · have hfails : (Operation.compile fun _ => true).procedure.runOn looped.config =
        (.error (.expansion (.cycle [⟨"loop"⟩, ⟨"loop"⟩])), _) := rfl
    obtain ⟨_, _, _, hcleared⟩ := Operation.failure_atomic hfails
    exact ⟨_, hfails, hcleared _ rfl, nofun, rfl⟩

end History

end FieldSelection
