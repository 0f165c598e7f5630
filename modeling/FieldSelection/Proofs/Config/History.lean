import FieldSelection.Proofs.Config.Compile
import FieldSelection.Proofs.Config.Resolve

/-!
# Histories of a configuration

A configuration is built with some aliases, and then operations follow on each other in any order.
A `History` records one such course, and `History.config` is the configuration it leads to. A copy
of a configuration has the history of its original, and either is continued by itself.

`build_eq` says what building comes to, and `change_of_perform` once and for all what an operation
other than a compilation may change.
That no alias carries a reserved name (`History.not_isReserved`) and that requests are answered with
the associations of the last successful compilation (`History.config_isAssociation`) holds along
every history.
-/

namespace FieldSelection

/-- An operation on a configuration by itself. -/
inductive Operation : Type 1 where
  | register (name : Name) (definition : Expr)
  | registerText (name : Name) (text : String)
  | expose (name : Name)
  | compile (isAssociation : Name → Bool)
  | resolve (request : Expr)
  | iterate {σ : Type} (request : Expr) (visit : σ → Name → Tree → σ) (start : σ)
  | tryIterate {σ ε : Type} (request : Expr) (visit : σ → Name → Tree → Except ε σ) (start : σ)
  | clearCache

/-- Whether an operation answers requests or forgets them, and so leaves aliases and compiled
facets alone. -/
def Operation.Serves : Operation → Prop
  | resolve .. | iterate .. | tryIterate .. | clearCache => True
  | register .. | registerText .. | expose .. | compile .. => False

namespace Config

/-- The configuration after a registration. One that is refused changes nothing. -/
def registered (config : Config) : Except ConfigError Config → Config
  | .ok next => next
  | .error _ => config

/-- The configuration that an operation leaves behind. -/
def perform (config : Config) : Operation → Config
  | .register name definition => config.registered (config.register name definition)
  | .registerText name text => config.registered (config.registerText name text)
  | .expose name => config.registered (config.expose name)
  | .compile isAssociation => (config.compile isAssociation).config
  | .resolve request => (config.resolve request).config
  | .iterate request visit start => (config.iterate request visit start).config
  | .tryIterate request visit start => (config.tryIterate request visit start).config
  | .clearCache => config.clearCache.config

/-- Whether an operation succeeds, or the error by which it fails. That a visit fails does not make
an operation fail. -/
def answer (config : Config) : Operation → Except ConfigError Unit
  | .register name definition => (config.register name definition).map fun _ => ()
  | .registerText name text => (config.registerText name text).map fun _ => ()
  | .expose name => (config.expose name).map fun _ => ()
  | .compile isAssociation => (config.compile isAssociation).answer
  | .resolve request => (config.resolve request).answer.map fun _ => ()
  | .iterate request visit start => (config.iterate request visit start).answer.map fun _ => ()
  | .tryIterate request visit start =>
      (config.tryIterate request visit start).answer.map fun _ => ()
  | .clearCache => config.clearCache.answer

end Config

/-- One way in which a configuration comes about. -/
inductive History : Type 1 where
  | build (aliases : AliasTable) (limit : Nat) (defaults : Defaults) (config : Config)
      (built : Config.build aliases limit defaults = .ok config)
  | perform (before : History) (operation : Operation)
  | inherit (before parent : History)

namespace History

/-- The configuration that a history leads to. -/
def config : History → Config
  | build _ _ _ config _ => config
  | perform before operation => before.config.perform operation
  | inherit before parent => before.config.inherit parent.config

/-- Which names are associations, according to the last compilation that succeeded. -/
def isAssociation : History → Name → Bool
  | build .. => fun _ => false
  | perform before (.compile isAssociation) =>
      match (before.config.compile isAssociation).answer with
      | .ok () => isAssociation
      | .error _ => before.isAssociation
  | perform before _ => before.isAssociation
  | inherit before _ => before.isAssociation

/-- A history continued by several operations. -/
def run (history : History) (operations : List Operation) : History :=
  operations.foldl perform history

end History

namespace Config

/-- The ways in which an operation other than a compilation may change a configuration. -/
inductive Change (config : Config) : Config → Prop where
  | none : Change config config
  | registration {name : Name} (definition : Expr) : ¬ name.isReserved →
      Change config
        { config with compiled := false, aliases := config.aliases.insert name definition }
  | request {request : Expr} {facet : Facet} : config.found? request = .none →
      config.afresh config.isAssociation (request.withDefault config.defaults) = .ok facet →
      Change config
        { config with
          requests := Entries.put (request.withDefault config.defaults).cacheKey facet
            config.requests }
  | clearing : Change config { config with requests := [] }

theorem register_of_reserved (config : Config) {name : Name} {definition : Expr}
    (h : name.isReserved) : config.register name definition = .error (.reserved name) :=
  if_pos h

theorem register_of_not_reserved (config : Config) {name : Name} {definition : Expr}
    (h : ¬ name.isReserved) :
    config.register name definition =
      .ok { config with compiled := false, aliases := config.aliases.insert name definition } :=
  if_neg h

theorem change_of_register (config : Config) (name : Name) (definition : Expr) :
    config.Change (config.registered (config.register name definition)) := by
  by_cases hreserved : name.isReserved
  · rw [register_of_reserved config hreserved]
    exact .none
  · rw [register_of_not_reserved config hreserved]
    exact .registration definition hreserved

theorem change_of_resolve (config : Config) (request : Expr) :
    config.Change (config.resolve request).config := by
  rcases config.resolve_cases request with hsame | ⟨facet, hmissing, hfacet, hput⟩
  · rw [hsame]
    exact .none
  · rw [hput]
    exact .request hmissing hfacet

/-- What an operation other than a compilation may change. -/
theorem change_of_perform (config : Config) {operation : Operation}
    (h : ∀ isAssociation, operation ≠ .compile isAssociation) :
    config.Change (config.perform operation) := by
  cases operation with
  | register name definition => exact config.change_of_register name definition
  | registerText name text =>
      rw [perform, registerText]
      cases Expr.parse text with
      | error error => exact .none
      | ok definition => exact config.change_of_register name definition
  | expose name => exact config.change_of_register name _
  | compile isAssociation => exact absurd rfl (h isAssociation)
  | resolve request | iterate request | tryIterate request => exact config.change_of_resolve request
  | clearCache => exact .clearing

/-- A registration that is refused changes nothing. -/
theorem registered_of_error {config : Config} {registration : Except ConfigError Config}
    {error : ConfigError} (h : (registration.map fun _ => ()) = .error error) :
    config.registered registration = config := by
  rw [except_map_eq_error.mp h]
  rfl

/-- An operation that fails changes nothing, unless it is a compilation. -/
theorem perform_of_error {config : Config} {operation : Operation} {error : ConfigError}
    (h : config.answer operation = .error error)
    (hcompile : ∀ isAssociation, operation ≠ .compile isAssociation) :
    config.perform operation = config := by
  cases operation with
  | register | registerText | expose => exact registered_of_error h
  | compile isAssociation => exact absurd rfl (hcompile isAssociation)
  | resolve request => exact config_resolve_of_error (except_map_eq_error.mp h)
  | iterate request | tryIterate request =>
      exact config_resolve_of_error (except_map_eq_error.mp (except_map_eq_error.mp h))
  | clearCache => cases h

theorem Change.isAssociation {config next : Config} (h : config.Change next) :
    next.isAssociation = config.isAssociation := by
  cases h <;> rfl

/-- Only names that are not reserved become aliases. -/
theorem Change.mem_names {config next : Config} (h : config.Change next) {name : Name}
    (hname : name ∈ next.aliases.names) : name ∈ config.aliases.names ∨ ¬ name.isReserved := by
  cases h with
  | none | request | clearing => exact Or.inl hname
  | registration definition hreserved =>
      rcases Entries.mem_keys_put.mp hname with rfl | hname
      · exact Or.inr hreserved
      · exact Or.inl hname

/-- Registering aliases in turn stops at the first reserved name, and otherwise puts each among the
aliases there are. -/
theorem foldlM_register (config : Config) (hstale : config.compiled = false)
    (entries : List (Name × Expr)) :
    entries.foldlM (fun config entry => config.register entry.1 entry.2) config =
      match (Entries.keys entries).find? Name.isReserved with
      | some name => .error (.reserved name)
      | none => .ok { config with
          aliases := ⟨Entries.extend config.aliases.entries entries,
            Entries.nodup_extend entries config.aliases.distinct⟩ } := by
  induction entries generalizing config with
  | nil => rfl
  | cons entry rest ih =>
      rw [List.foldlM_cons, Entries.keys, List.map_cons]
      by_cases hreserved : entry.1.isReserved
      · rw [register_of_reserved config hreserved, List.find?_cons_of_pos hreserved]
        rfl
      · rw [register_of_not_reserved config hreserved, List.find?_cons_of_neg hreserved, ← hstale]
        exact ih _ hstale

/-- Building fails for the first reserved name among the aliases. Without one, it comes to the
configuration that has exactly these aliases, in their order. -/
theorem build_eq (aliases : AliasTable) (limit : Nat) (defaults : Defaults) :
    build aliases limit defaults =
      match aliases.names.find? Name.isReserved with
      | some name => .error (.reserved name)
      | none => .ok { aliases := aliases, limit := limit, defaults := defaults } := by
  have hentries : Entries.extend [] aliases.entries = aliases.entries :=
    Entries.ofList_eq_self aliases.distinct
  refine (foldlM_register _ rfl aliases.entries).trans ?_
  simp only [hentries]
  rfl

/-- What has been built has the given aliases, none of which carries a reserved name. -/
theorem eq_of_build {aliases : AliasTable} {limit : Nat} {defaults : Defaults} {config : Config}
    (h : build aliases limit defaults = .ok config) :
    (∀ name ∈ aliases.names, ¬ name.isReserved) ∧
      config = { aliases := aliases, limit := limit, defaults := defaults } := by
  rw [build_eq] at h
  split at h
  · cases h
  · next hfound =>
      cases h
      exact ⟨List.find?_eq_none.mp hfound, rfl⟩

/-- A configuration that has been built is yet to be compiled. -/
theorem compiled_of_build {limit : Nat} {defaults : Defaults} {aliases : AliasTable}
    {config : Config} (h : Config.build aliases limit defaults = .ok config) :
    config.compiled = false := by
  rw [(eq_of_build h).2]

/-- Serving requests changes nothing but what is remembered of them. -/
theorem perform_of_serves (config : Config) {operation : Operation} (h : operation.Serves) :
    ∃ requests, config.perform operation = { config with requests := requests } := by
  cases operation with
  | register | registerText | expose | compile => cases h
  | resolve request | iterate request | tryIterate request =>
      rcases config.resolve_cases request with hsame | ⟨facet, _, _, hput⟩
      · exact ⟨config.requests, hsame⟩
      · exact ⟨_, hput⟩
  | clearCache => exact ⟨[], rfl⟩

end Config

namespace History

/-- The configuration keeps the test for associations of the last compilation that succeeded. -/
theorem config_isAssociation (history : History) :
    history.config.isAssociation = history.isAssociation := by
  induction history with
  | build aliases limit defaults config built =>
      obtain ⟨-, rfl⟩ := Config.eq_of_build built
      rfl
  | perform before operation ih =>
      cases operation with
      | compile isAssociation =>
          rcases before.config.compile_cases isAssociation with
            ⟨error, hanswer, hconfig⟩ | ⟨_, _, _, hanswer, hconfig⟩
          · -- A compilation that fails keeps the test it found.
            rw [config, Config.perform, hconfig, History.isAssociation, hanswer]
            exact ih
          · rw [config, Config.perform, hconfig, History.isAssociation, hanswer]
      | _ => exact (before.config.change_of_perform (by nofun)).isAssociation.trans ih
  | inherit before parent ih => exact ih

/-- No alias carries a reserved name. -/
theorem not_isReserved (history : History) {name : Name}
    (h : name ∈ history.config.aliases.names) : ¬ name.isReserved := by
  induction history with
  | build aliases limit defaults config built =>
      obtain ⟨hnames, rfl⟩ := Config.eq_of_build built
      exact hnames name h
  | perform before operation ih =>
      cases operation with
      | compile isAssociation =>
          rw [config, Config.perform, Config.aliases_compile] at h
          exact ih h
      | _ => exact ((before.config.change_of_perform (by nofun)).mem_names h).elim ih id
  | inherit before parent ihBefore ihParent =>
      rcases Entries.mem_keys_extend.mp h with h | h
      · exact ihBefore h
      · exact ihParent h

end History

end FieldSelection
