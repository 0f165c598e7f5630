import FieldSelection.Config.Resolve
import FieldSelection.Proofs.Expansion.Computation

/-!
# How requests are answered

`Config.afresh` says what a request comes to when nothing is looked up. A request is answered by
the facet found under its key (`resolve_of_found`), and otherwise by the one computed afresh
(`resolve_of_missing`). `resolve_cases` says what answering changes: nothing but the
remembered requests.
-/

namespace FieldSelection.Config

open Expansion

/-- An answer fails by the same error when its value is changed. -/
theorem except_map_eq_error {ε α β : Type} {answer : Except ε α} {f : α → β} {error : ε} :
    answer.map f = .error error ↔ answer = .error error := by
  cases answer <;> simp [Except.map]

/-- The facet that a request, once completed, comes to under the compiled union. Of what is compiled
or remembered, nothing else plays a part. -/
def afresh (config : Config) (isAssociation : Name → Bool) (request : Expr) :
    Except ConfigError Facet :=
  match ((config.context config.aggregate?).expand request).outcome with
  | .error error => .error (.expansion error)
  | .ok expanded => .ok (.ofFields isAssociation expanded.normalize)

variable {config : Config} {request : Expr} {facet : Facet}

theorem afresh_eq_ok_iff {isAssociation : Name → Bool} :
    config.afresh isAssociation request = .ok facet ↔
      ∃ expanded, ((config.context config.aggregate?).expand request).outcome = .ok expanded ∧
        facet = .ofFields isAssociation expanded.normalize := by
  unfold afresh
  cases ((config.context config.aggregate?).expand request).outcome with
  | error error => simp
  | ok expanded => simp [eq_comm]

/-- The evaluation of a request is the computation afresh, with the associations of the last
compilation. -/
theorem afresh_eq_evaluate (config : Config) (request : Expr) :
    config.afresh config.isAssociation request =
      (config.evaluate request).outcome.mapError .expansion := by
  rw [afresh, evaluate, outcome_bind]
  cases ((config.context config.aggregate?).expand request).outcome <;> rfl

theorem aggregate_eq_ok (hcompiled : config.compiled) (hall : config.aggregate? = some facet) :
    config.aggregate = .ok facet := by
  have hfacet : config.facet? .all = .ok (some facet) := by
    rw [facet?, if_pos hcompiled]
    exact congrArg Except.ok hall
  rw [aggregate, hfacet]

/-- The facet found under the key of a request, among those compiled or those remembered. -/
def found? (config : Config) (request : Expr) : Option Facet :=
  (config.facets.lookup (request.withDefault config.defaults).cacheKey).or
    (config.requests.lookup (request.withDefault config.defaults).cacheKey)

/-- A stale configuration answers no request. -/
theorem resolve_of_stale (h : ¬ config.compiled) (request : Expr) :
    config.resolve request = ⟨.error .notCompiled, config, []⟩ := by
  simp only [resolve, h]
  rfl

/-- A facet found under the key of a request answers it. -/
theorem resolve_of_found (hcompiled : config.compiled) (h : config.found? request = some facet) :
    config.resolve request = ⟨.ok facet, config, []⟩ := by
  unfold found? at h
  simp only [resolve, hcompiled, h]
  rfl

/-- Without a facet under its key, a request is answered by the one computed afresh, which is
remembered. -/
theorem resolve_of_missing (hcompiled : config.compiled) (h : config.found? request = none) :
    config.resolve request =
      match config.afresh config.isAssociation (request.withDefault config.defaults) with
      | .error error =>
          ⟨.error error, config, (config.evaluate (request.withDefault config.defaults)).events⟩
      | .ok facet =>
          ⟨.ok facet,
            { config with
              requests := Entries.put (request.withDefault config.defaults).cacheKey facet
                config.requests },
            (config.evaluate (request.withDefault config.defaults)).events ++
              [.cached (request.withDefault config.defaults).cacheKey facet.fields.size]⟩ := by
  unfold found? at h
  rw [afresh_eq_evaluate]
  simp only [resolve, hcompiled, h]
  cases (config.evaluate (request.withDefault config.defaults)).outcome <;> rfl

theorem answer_resolve_of_missing (hcompiled : config.compiled)
    (h : config.found? request = none) :
    (config.resolve request).answer =
      config.afresh config.isAssociation (request.withDefault config.defaults) := by
  rw [resolve_of_missing hcompiled h]
  cases config.afresh config.isAssociation (request.withDefault config.defaults) <;> rfl

theorem config_resolve_of_missing (hcompiled : config.compiled) (h : config.found? request = none)
    (hfacet : config.afresh config.isAssociation (request.withDefault config.defaults) =
      .ok facet) :
    (config.resolve request).config =
      { config with
        requests := Entries.put (request.withDefault config.defaults).cacheKey facet
          config.requests } := by
  rw [resolve_of_missing hcompiled h, hfacet]

/-- Answering a request leaves the configuration as it was, or remembers the facet of the request
under its key. -/
theorem resolve_cases (config : Config) (request : Expr) :
    (config.resolve request).config = config ∨
      ∃ facet, config.found? request = none ∧
        config.afresh config.isAssociation (request.withDefault config.defaults) = .ok facet ∧
        (config.resolve request).config =
          { config with
            requests := Entries.put (request.withDefault config.defaults).cacheKey facet
              config.requests } := by
  by_cases hcompiled : config.compiled
  · cases hfound : config.found? request with
    | some facet => exact Or.inl (by rw [resolve_of_found hcompiled hfound])
    | none =>
        rw [resolve_of_missing hcompiled hfound]
        cases config.afresh config.isAssociation (request.withDefault config.defaults) with
        | error error => exact Or.inl rfl
        | ok facet => exact Or.inr ⟨facet, rfl, rfl, rfl⟩
  · exact Or.inl (by rw [resolve_of_stale hcompiled])

/-- A request that fails is not remembered. -/
theorem config_resolve_of_error {error : ConfigError}
    (h : (config.resolve request).answer = .error error) :
    (config.resolve request).config = config := by
  rcases config.resolve_cases request with hsame | ⟨facet, hmissing, hfacet, hput⟩
  · exact hsame
  · by_cases hcompiled : config.compiled
    · rw [answer_resolve_of_missing hcompiled hmissing, hfacet] at h
      cases h
    · rw [resolve_of_stale hcompiled]

end FieldSelection.Config
