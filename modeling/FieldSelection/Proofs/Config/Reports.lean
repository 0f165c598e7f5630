import FieldSelection.Proofs.Config.Course
import FieldSelection.Proofs.Expansion.Events

/-!
# What an operation reports and remembers

An operation that asks for a request looks up the key of the request. If the key is new and the
request is answered, its facet is remembered, and one event says so; nothing else is ever
remembered, and no other event says that something is. `Config.Adds` lists the cases, and
`Config.exists_adds` says that they are all there are unless an operation forgets everything, as
compilations and clearings do.
-/

namespace FieldSelection

/-- Whether an event says that a facet is remembered. -/
def Event.isCached : Event → Bool
  | cached .. => true
  | _ => false

/-- The event which says that a request is remembered. -/
def Event.remembered (entry : String × Facet) : Event :=
  .cached entry.1 entry.2.fields.size

namespace Operation

/-- The request that an operation asks for. -/
def request? : Operation → Option Expr
  | resolve request => some request
  | iterate request .. => some request
  | tryIterate request .. => some request
  | _ => none

/-- Whether an operation forgets every request, as a compilation does whether it succeeds or
not. -/
def forgets : Operation → Bool
  | compile .. => true
  | clearCache => true
  | _ => false

/-- Whether an operation registers an alias. -/
def Registers : Operation → Prop
  | register .. => True
  | registerText .. => True
  | expose .. => True
  | _ => False

/-- What does not forget either asks for a request or registers an alias. -/
theorem registers_of_keeps {operation : Operation} (h : operation.forgets = false)
    (hrequest : operation.request? = none) : operation.Registers := by
  cases operation with
  | register | registerText | expose => trivial
  | compile | clearCache => cases h
  | resolve | iterate | tryIterate => cases hrequest

end Operation

/-- The key of the request that is answered with success. -/
def Occurrence.key? (defaults : Defaults) : Occurrence → Option String
  | .operation performed (.ok ()) =>
      performed.request?.map fun request => (request.withDefault defaults).cacheKey
  | _ => none

/-- Whether every request is forgotten. -/
def Occurrence.forgets : Occurrence → Bool
  | .operation performed _ => performed.forgets
  | .inheritance => false

namespace Config

open Expansion

variable {config : Config} {operation : Operation} {request : Expr}

/-- The events that an operation reports. A registration reports none. -/
def reports (config : Config) : Operation → List Event
  | .register .. => []
  | .registerText .. => []
  | .expose .. => []
  | .compile isAssociation => (config.compile isAssociation).events
  | .resolve request => (config.resolve request).events
  | .iterate request visit start => (config.iterate request visit start).events
  | .tryIterate request visit start => (config.tryIterate request visit start).events
  | .clearCache => config.clearCache.events

/-- The occurrence that an operation is. -/
def occurrence (config : Config) (operation : Operation) : Occurrence :=
  .operation operation (config.answer operation)

/-- Whether there is an answer does not depend on what is made of it. -/
theorem except_map_unit {ε α β : Type} (answer : Except ε α) (f : α → β) :
    (answer.map f).map (fun _ => ()) = answer.map fun _ => () := by
  cases answer <;> rfl

theorem perform_of_request (h : operation.request? = some request) :
    config.perform operation = (config.resolve request).config := by
  cases operation <;> cases h <;> rfl

theorem reports_of_request (h : operation.request? = some request) :
    config.reports operation = (config.resolve request).events := by
  cases operation <;> cases h <;> rfl

theorem answer_of_request (config : Config) (h : operation.request? = some request) :
    config.answer operation = (config.resolve request).answer.map fun _ => () := by
  cases operation with
  | register | registerText | expose | compile | clearCache => cases h
  | resolve =>
      cases h
      rfl
  | iterate | tryIterate =>
      cases h
      exact except_map_unit _ _

/-- The key of the request that an operation answers with success. -/
def key? (config : Config) (operation : Operation) : Option String :=
  (config.occurrence operation).key? config.defaults

theorem key?_of_error {error : ConfigError} (h : config.answer operation = .error error) :
    config.key? operation = none := by
  rw [key?, occurrence, h]
  rfl

theorem key?_of_request {facet : Facet} (hrequest : operation.request? = some request)
    (hanswer : (config.resolve request).answer = .ok facet) :
    config.key? operation = some (request.withDefault config.defaults).cacheKey := by
  have hok : config.answer operation = .ok () := by
    rw [answer_of_request config hrequest, hanswer]
    rfl
  rw [key?, occurrence, hok, Occurrence.key?, hrequest]
  rfl

theorem key?_of_request?_eq_none (h : operation.request? = none) :
    config.key? operation = none := by
  cases hanswer : config.answer operation with
  | error error => exact key?_of_error hanswer
  | ok value =>
      rw [key?, occurrence, hanswer, Occurrence.key?, h]
      rfl

/-- What an operation adds to the requests remembered. -/
inductive Adds (config : Config) (operation : Operation) : List (String × Facet) → Prop where
  | nothing : config.key? operation = none → Adds config operation []
  | known {key : String} : config.key? operation = some key →
      key ∈ Entries.keys config.facets ∨ key ∈ Entries.keys config.requests →
      Adds config operation []
  | request {request : Expr} {facet : Facet} : operation.request? = some request →
      (config.resolve request).answer = .ok facet →
      (request.withDefault config.defaults).cacheKey ∉ Entries.keys config.facets →
      (request.withDefault config.defaults).cacheKey ∉ Entries.keys config.requests →
      Adds config operation [((request.withDefault config.defaults).cacheKey, facet)]

theorem found?_eq_none_iff : config.found? request = none ↔
    (request.withDefault config.defaults).cacheKey ∉ Entries.keys config.facets ∧
      (request.withDefault config.defaults).cacheKey ∉ Entries.keys config.requests := by
  rw [found?, Option.or_eq_none_iff, Entries.lookup_eq_none_iff, Entries.lookup_eq_none_iff]

theorem reports_expand (context : Context) (expr : Expr) :
    (context.expand expr).Reports fun event => event.isCached = false :=
  (context.narrates_expand expr).reports (fun _ _ _ => rfl) (fun _ => rfl) rfl

theorem filter_isCached_of_reports {α : Type} {x : Expansion α}
    (h : x.Reports fun event => event.isCached = false) : x.events.filter Event.isCached = [] :=
  List.filter_eq_nil_iff.mpr fun event hmem => ne_true_of_eq_false (h event hmem)

/-- The evaluation of a request does not say that anything is remembered. -/
theorem filter_evaluate (config : Config) (request : Expr) :
    (config.evaluate request).events.filter Event.isCached = [] :=
  filter_isCached_of_reports ((reports_expand _ request).map _)

/-- A compilation does not say that a request is remembered. -/
theorem filter_compile (config : Config) (isAssociation : Name → Bool) :
    (config.compile isAssociation).events.filter Event.isCached = [] := by
  have hpasses : (config.passes isAssociation).Reports fun event => event.isCached = false := by
    refine Reports.bind ?_ fun first => Reports.map ?_ _
    · exact Reports.each fun name => ((reports_expand _ _).map _).observe.map _
    · refine Reports.each fun name => ((reports_expand _ _).map _).bind fun tree => ?_
      refine Reports.map (reports_report ?_) _
      rfl
  have hnone := filter_isCached_of_reports hpasses
  rw [compile]
  cases (config.passes isAssociation).outcome with
  | error error => exact hnone
  | ok result =>
      refine (List.filter_cons_of_neg Bool.false_ne_true).trans ?_
      rw [List.filter_append, hnone]
      rfl

/-- An operation that asks for a request finds its key, fails, or adds what it comes to. -/
theorem exists_adds_of_request (h : operation.request? = some request) :
    ∃ added, config.Adds operation added ∧
      (config.perform operation).requests = config.requests ++ added ∧
      (config.reports operation).filter Event.isCached = added.map Event.remembered := by
  have hanswer := answer_of_request config h
  rw [perform_of_request h, reports_of_request h]
  by_cases hcompiled : config.compiled
  · cases hfound : config.found? request with
    | some facet =>
        have hresolve := resolve_of_found hcompiled hfound
        have hkey := key?_of_request h (congrArg Step.answer hresolve)
        rw [hresolve]
        refine ⟨[], .known hkey ?_, (List.append_nil _).symm, rfl⟩
        by_contra hnot
        have hnone := found?_eq_none_iff.mpr (not_or.mp hnot)
        cases hfound.symm.trans hnone
    | none =>
        obtain ⟨hfacets, hrequests⟩ := found?_eq_none_iff.mp hfound
        have hresolve := resolve_of_missing hcompiled hfound
        cases hafresh : config.afresh config.isAssociation (request.withDefault config.defaults) with
        | error error =>
            rw [hafresh] at hresolve
            rw [hresolve] at hanswer ⊢
            exact ⟨[], .nothing (key?_of_error hanswer), (List.append_nil _).symm,
              filter_evaluate config _⟩
        | ok facet =>
            rw [hafresh] at hresolve
            have hadds := Adds.request h (congrArg Step.answer hresolve) hfacets hrequests
            rw [hresolve]
            refine ⟨_, hadds, Entries.insertWith_eq_append _ hrequests, ?_⟩
            rw [List.filter_append, filter_evaluate]
            rfl
  · rw [resolve_of_stale hcompiled] at hanswer ⊢
    exact ⟨[], .nothing (key?_of_error hanswer), (List.append_nil _).symm, rfl⟩

theorem requests_registered (config : Config) (name : Name) (definition : Expr) :
    (config.registered (config.register name definition)).requests = config.requests := by
  by_cases hreserved : name.isReserved
  · rw [register_of_reserved config hreserved]
    rfl
  · rw [register_of_not_reserved config hreserved]
    rfl

/-- A registration leaves alone what is remembered. -/
theorem requests_of_registers (config : Config) (h : operation.Registers) :
    (config.perform operation).requests = config.requests := by
  cases operation with
  | register name definition => exact config.requests_registered name definition
  | registerText name text =>
      rw [perform, registerText]
      cases Expr.parse text with
      | error error => rfl
      | ok definition => exact config.requests_registered name definition
  | expose name => exact config.requests_registered name _
  | compile | resolve | iterate | tryIterate | clearCache => cases h

theorem reports_of_registers (config : Config) (h : operation.Registers) :
    config.reports operation = [] := by
  cases operation with
  | register | registerText | expose => rfl
  | compile | resolve | iterate | tryIterate | clearCache => cases h

/-- Nothing but a request is ever remembered, and it is reported when it is. -/
theorem exists_adds (config : Config) (h : operation.forgets = false) :
    ∃ added, config.Adds operation added ∧
      (config.perform operation).requests = config.requests ++ added ∧
      (config.reports operation).filter Event.isCached = added.map Event.remembered := by
  cases hrequest : operation.request? with
  | some request => exact exists_adds_of_request hrequest
  | none =>
      have hregisters := Operation.registers_of_keeps h hrequest
      refine ⟨[], .nothing (key?_of_request?_eq_none hrequest), ?_, ?_⟩
      · rw [requests_of_registers config hregisters, List.append_nil]
      · rw [reports_of_registers config hregisters]
        rfl

theorem Change.facets {next : Config} (h : config.Change next) : next.facets = config.facets := by
  cases h <;> rfl

theorem Change.defaults {next : Config} (h : config.Change next) :
    next.defaults = config.defaults := by
  cases h <;> rfl

/-- What does not forget is no compilation, and so changes one thing at most. -/
theorem change_of_keeps (config : Config) (h : operation.forgets = false) :
    config.Change (config.perform operation) := by
  refine config.change_of_perform fun isAssociation => ?_
  rintro rfl
  cases h

/-- What forgets leaves nothing remembered, and does not say that anything is. -/
theorem requests_of_forgets (config : Config) (h : operation.forgets) :
    (config.perform operation).requests = [] ∧
      (config.reports operation).filter Event.isCached = [] := by
  cases operation with
  | compile isAssociation =>
      refine ⟨?_, filter_compile config isAssociation⟩
      rcases config.compile_cases isAssociation with ⟨_, _, hconfig⟩ | ⟨_, _, _, _, hconfig⟩ <;>
        rw [perform, hconfig]
  | clearCache => exact ⟨rfl, rfl⟩
  | register | registerText | expose | resolve | iterate | tryIterate => cases h

end Config

end FieldSelection
