import FieldSelection.Proofs.Config.Coherence

/-!
# When remembering requests goes unnoticed

A facet is kept under a text: that of a name, or the JSON text of an expression that is no name. An
expression thus shares its key with the name that has its text, and `resolve_transparent_iff` says
that remembering goes unnoticed exactly when, wherever this happens, the name and the expression
come to the same facet. The key of a list or selection starts with a bracket or a brace
(`SharesKey.head?_text`), so that it never happens among names that do not.
-/

namespace FieldSelection

open Expansion

namespace Expr

variable {defaults : Defaults} {name : Name}

/-- What includes a name is that name, or else a list or a selection. -/
theorem including_cases (name : Name) (expr : Expr) :
    expr.including name = .name name ∨
      (expr.including name).asName? = none ∧ expr.including name ≠ .empty := by
  cases expr with
  | empty => exact Or.inl rfl
  | name n => rw [including]; split <;> exact Or.inr ⟨rfl, Expr.noConfusion⟩
  | list items => rw [including]; split <;> exact Or.inr ⟨rfl, Expr.noConfusion⟩
  | selection entries => rw [including]; split <;> exact Or.inr ⟨rfl, Expr.noConfusion⟩

/-- A completed request that is a name is the default facet or the minimal one. -/
theorem eq_of_withDefault_eq_name {expr : Expr} (h : expr.withDefault defaults = .name name) :
    name = defaults.default ∨ name = defaults.minimal := by
  rw [withDefault] at h
  by_cases hmentions : expr.mentions defaults.minimal
  · rw [if_pos hmentions] at h
    rw [h, mentions, beq_iff_eq] at hmentions
    exact Or.inr hmentions
  · rw [if_neg hmentions] at h
    rcases including_cases defaults.default expr with hname | ⟨hcompound, _⟩
    · exact Or.inl (Expr.name.inj (h.symm.trans hname))
    · rw [h] at hcompound
      cases hcompound

/-- A completed request selects something. -/
theorem withDefault_ne_empty (defaults : Defaults) (expr : Expr) :
    expr.withDefault defaults ≠ .empty := by
  rw [withDefault]
  by_cases hmentions : expr.mentions defaults.minimal
  · rw [if_pos hmentions]
    rintro rfl
    cases hmentions
  · rw [if_neg hmentions]
    rcases including_cases defaults.default expr with hname | ⟨_, hempty⟩
    · rw [hname]
      exact nofun
    · exact hempty

/-- Some request comes to the default facet, and some to the minimal one. -/
theorem exists_withDefault_eq_name (h : name = defaults.default ∨ name = defaults.minimal) :
    ∃ expr : Expr, expr.withDefault defaults = .name name := by
  rcases h with rfl | rfl
  · exact ⟨.empty, rfl⟩
  · exact ⟨.name defaults.minimal, by simp [withDefault, mentions]⟩

end Expr

namespace Config

/-- Whether a request shares its key with a name, without being a name once it is completed. The
name is that of an alias, whose facet is kept under the key since compilation, or one of the two
that a completed request may be, whose facet is remembered under it. -/
structure SharesKey (config : Config) (request : Expr) (name : Name) : Prop where
  known : name ∈ config.aliases.names ∨
    name = config.defaults.default ∨ name = config.defaults.minimal
  compound : (request.withDefault config.defaults).asName? = none
  key : (request.withDefault config.defaults).render = name.text

variable {config : Config} {request : Expr} {name : Name}

/-- A name that shares its key with a request starts as a JSON array or object does. -/
theorem SharesKey.head?_text (h : config.SharesKey request name) :
    name.text.toList.head? = some '[' ∨ name.text.toList.head? = some '{' := by
  rw [← h.key]
  exact Expr.head?_render h.compound (Expr.withDefault_ne_empty _ _)

/-- Reserved names share their key with no request. -/
theorem SharesKey.not_isReserved (h : config.SharesKey request name) : ¬ name.isReserved := by
  intro hreserved
  have hhead := h.head?_text
  rcases Name.isReserved_iff.mp hreserved with rfl | rfl <;> revert hhead <;> decide

theorem SharesKey.cacheKey (h : config.SharesKey request name) :
    (request.withDefault config.defaults).cacheKey = name.text :=
  (Expr.cacheKey_of_asName?_eq_none h.compound).trans h.key

/-- Whether a name and a request come to the same facet wherever they share a key. -/
def Unambiguous (config : Config) : Prop :=
  ∀ name request, config.SharesKey request name →
    config.afresh config.isAssociation (.name name) =
      config.afresh config.isAssociation (request.withDefault config.defaults)

/-- A compiled facet found under the key of a request is what the request comes to. -/
theorem Coherent.afresh_of_lookup_facets (h : config.Coherent) (hkeys : config.Unambiguous)
    {facet : Facet}
    (hfacet : config.facets.lookup (request.withDefault config.defaults).cacheKey = some facet) :
    config.afresh config.isAssociation (request.withDefault config.defaults) = .ok facet := by
  obtain ⟨name, hname, hkey, hafresh⟩ := h.exists_name_of_lookup hfacet
  cases hexpr : (request.withDefault config.defaults).asName? with
  | some other =>
      have heq := Expr.eq_name_of_asName? hexpr
      rw [heq] at hkey ⊢
      obtain rfl := Name.text_injective hkey
      exact hafresh
  | none =>
      have hrender := Expr.cacheKey_of_asName?_eq_none hexpr
      have hshares : config.SharesKey request name := by
        refine ⟨Or.inl ?_, hexpr, hrender.symm.trans hkey.symm⟩
        rcases List.mem_cons.mp hname with rfl | hname
        · exact absurd (hrender.symm.trans hkey.symm) (Expr.render_ne_all hexpr)
        · exact hname
      exact (hkeys name request hshares).symm.trans hafresh

/-- A request that is no name shares the key of one that is. -/
theorem SharesKey.of_cacheKey {other : Expr}
    (hname : other.withDefault config.defaults = .name name)
    (hcompound : (request.withDefault config.defaults).asName? = none)
    (hkey : (request.withDefault config.defaults).cacheKey =
      (other.withDefault config.defaults).cacheKey) : config.SharesKey request name := by
  refine ⟨Or.inr (Expr.eq_of_withDefault_eq_name hname), hcompound, ?_⟩
  rw [← Expr.cacheKey_of_asName?_eq_none hcompound, hkey, hname]
  rfl

/-- Requests with one key come to the same facet. -/
theorem Unambiguous.afresh_eq (h : config.Unambiguous) {other : Expr}
    (hkey : (request.withDefault config.defaults).cacheKey =
      (other.withDefault config.defaults).cacheKey) :
    config.afresh config.isAssociation (request.withDefault config.defaults) =
      config.afresh config.isAssociation (other.withDefault config.defaults) := by
  -- Two requests differ only if just one of them is a name, whose text the other one then has.
  cases hrequest : (request.withDefault config.defaults).asName? with
  | none =>
      cases hother : (other.withDefault config.defaults).asName? with
      | none => rw [Expr.cacheKey_injective hkey (by rw [hrequest, hother])]
      | some name =>
          have hname := Expr.eq_name_of_asName? hother
          rw [hname]
          exact (h name request (.of_cacheKey hname hrequest hkey)).symm
  | some name =>
      have hname := Expr.eq_name_of_asName? hrequest
      cases hother : (other.withDefault config.defaults).asName? with
      | none =>
          rw [hname]
          exact h name other (.of_cacheKey hname hother hkey.symm)
      | some => rw [Expr.cacheKey_injective hkey (by rw [hrequest, hother]; simp)]

/-- Where no key is ambiguous, a request is answered by what it comes to. -/
theorem Coherent.answer_resolve (h : config.Coherent) (hcompiled : config.compiled)
    (hkeys : config.Unambiguous) (request : Expr) :
    (config.resolve request).answer =
      config.afresh config.isAssociation (request.withDefault config.defaults) := by
  cases hfound : config.found? request with
  | none => exact answer_resolve_of_missing hcompiled hfound
  | some facet =>
      rw [resolve_of_found hcompiled hfound]
      rcases Option.or_eq_some_iff.mp hfound with hfacet | ⟨_, hfacet⟩
      · exact (h.afresh_of_lookup_facets hkeys hfacet).symm
      · obtain ⟨_, other, hkey, hafresh⟩ := h.requests _ (Entries.mem_of_lookup hfacet)
        exact hafresh.symm.trans (hkeys.afresh_eq hkey)

/-- A name that is not an alias stands for the field of that name. -/
theorem afresh_field (isAssociation : Name → Bool) (hreserved : ¬ name.isReserved)
    (hname : name ∉ config.aliases.names) :
    config.afresh isAssociation (.name name) = .ok (.ofFields isAssociation (.leaf name)) := by
  have hreference : config.aliases.reference? name = none := by
    rw [AliasTable.reference?, AliasTable.get?, Entries.lookup_eq_none_iff.mpr hname]
    rfl
  refine afresh_eq_ok_iff.mpr ⟨.name name, ?_, rfl⟩
  show (Context.expandName _ _ _ _ name).outcome = _
  rw [Context.expandName_field hreserved hreference]
  rfl

/-- Wherever a request shares its key with a name, requests can be served so that the facet of the
name is found under that key. -/
theorem Coherent.exists_serving (h : config.Coherent) (hcompiled : config.compiled)
    (hshares : config.SharesKey request name) :
    ∃ operations : List Operation, (∀ operation ∈ operations, operation.Serves) ∧
      ∃ facet, (operations.foldl perform config).found? request = some facet ∧
        config.afresh config.isAssociation (.name name) = .ok facet := by
  by_cases hname : name ∈ config.aliases.names
  · obtain ⟨facet, hfacet⟩ := h.exists_facet hname
    refine ⟨[], nofun, facet, ?_, h.afresh_alias hname (Entries.mem_of_lookup hfacet)⟩
    rw [List.foldl_nil, found?, hshares.cacheKey, hfacet, Option.some_or]
  · -- Nothing is compiled under the key, so that a request for the name is remembered under it.
    obtain ⟨other, hother⟩ :=
      Expr.exists_withDefault_eq_name (hshares.known.resolve_left hname)
    have hfacets := h.lookup_facets_eq_none hshares.not_isReserved hname
    have hafresh := afresh_field config.isAssociation hshares.not_isReserved hname
    have hmissing : found? { config with requests := [] } other = none := by
      rw [found?, hother]
      exact Option.or_eq_none_iff.mpr ⟨hfacets, rfl⟩
    have hcleared : Config.compiled { config with requests := [] } := hcompiled
    have hresolve := config_resolve_of_missing hcleared hmissing (hother ▸ hafresh)
    refine ⟨[.clearCache, .resolve other], by simp [Operation.Serves], _, ?_, hafresh⟩
    show found? (resolve { config with requests := [] } other).config request = _
    rw [hresolve]
    show (config.facets.lookup (request.withDefault config.defaults).cacheKey).or
      (List.lookup (request.withDefault config.defaults).cacheKey
        [((other.withDefault config.defaults).cacheKey, _)]) = _
    rw [hshares.cacheKey, hother, hfacets, Option.none_or]
    exact List.lookup_cons_self

end Config

namespace History

/-- The configuration after several operations is the one they lead to from that before them. -/
theorem config_run (history : History) (operations : List Operation) :
    (history.run operations).config = operations.foldl Config.perform history.config := by
  induction operations generalizing history with
  | nil => rfl
  | cons operation rest ih => exact ih (history.perform operation)

/-- Serving requests changes nothing but what is remembered of them. -/
theorem config_run_of_serves (history : History) {operations : List Operation}
    (h : ∀ operation ∈ operations, operation.Serves) :
    ∃ requests, (history.run operations).config = { history.config with requests := requests } := by
  induction operations generalizing history with
  | nil => exact ⟨history.config.requests, rfl⟩
  | cons operation rest ih =>
      obtain ⟨hserves, hrest⟩ := List.forall_mem_cons.mp h
      obtain ⟨_, hconfig⟩ := history.config.perform_of_serves hserves
      obtain ⟨requests, hrequests⟩ := ih (history.perform operation) hrest
      refine ⟨requests, hrequests.trans ?_⟩
      show { history.config.perform operation with requests := requests } = _
      rw [hconfig]

/-- Remembering goes unnoticed exactly where requests that share a key with a name come to the same
facet as the name. Then, whatever requests are served or forgotten before, each is answered by the
facet it comes to afresh, or by the error in which that ends. -/
theorem resolve_transparent_iff (history : History) (h : history.config.compiled) :
    (∀ operations : List Operation, (∀ operation ∈ operations, operation.Serves) →
      ∀ request : Expr, ((history.run operations).config.resolve request).answer =
        history.config.afresh history.isAssociation
          (request.withDefault history.config.defaults)) ↔
      ∀ name request, history.config.SharesKey request name →
        history.config.afresh history.isAssociation (.name name) =
          history.config.afresh history.isAssociation
            (request.withDefault history.config.defaults) := by
  rw [← history.config_isAssociation]
  constructor
  · intro htransparent name request hshares
    obtain ⟨operations, hserves, facet, hfound, hfacet⟩ :=
      (history.coherent h).exists_serving h hshares
    have hanswer := htransparent operations hserves request
    obtain ⟨requests, hconfig⟩ := history.config_run_of_serves hserves
    have hcompiled : (history.run operations).config.compiled := hconfig ▸ h
    rw [Config.resolve_of_found hcompiled (history.config_run operations ▸ hfound)] at hanswer
    exact hfacet.trans hanswer
  · intro hkeys operations hserves request
    obtain ⟨requests, hconfig⟩ := history.config_run_of_serves hserves
    have hcoherent := (history.run operations).coherent (by rw [hconfig]; exact h)
    rw [hconfig] at hcoherent ⊢
    refine hcoherent.answer_resolve h (fun name other hshares => ?_) request
    exact hkeys name other ⟨hshares.known, hshares.compound, hshares.key⟩

/-- None of the names of this history starts as a JSON array or object does. -/
theorem resolve_transparent_contact :
    contact.config.compiled ∧
      ∀ operations : List Operation, (∀ operation ∈ operations, operation.Serves) →
        ∀ request : Expr, ((contact.run operations).config.resolve request).answer =
          contact.config.afresh contact.isAssociation
            (request.withDefault contact.config.defaults) := by
  refine ⟨rfl, (resolve_transparent_iff contact rfl).mpr fun name request hshares => ?_⟩
  have hnames : name ∈ [⟨"contact"⟩, ⟨"everything"⟩, Name.basic, Name.minimal] := by
    rcases hshares.known with hname | hname | hname
    · exact List.mem_append_left [Name.basic, Name.minimal] hname
    · exact hname ▸ by decide
    · exact hname ▸ by decide
  have hplain : ∀ plain ∈ [⟨"contact"⟩, ⟨"everything"⟩, Name.basic, Name.minimal],
      ¬ (plain.text.toList.head? = some '[' ∨ plain.text.toList.head? = some '{') := by decide
  exact absurd hshares.head?_text (hplain name hnames)

/-- A history in which an alias carries the text of a list. -/
def bracketed : History :=
  .perform (.build (.ofList [(⟨"[\"x\",\"basic\"]"⟩, .name ⟨"y"⟩)]) 256 .standard _ rfl)
    (.compile fun _ => false)

/-- A request for `x` is answered by the facet of the alias. -/
theorem resolve_bracketed :
    bracketed.config.compiled ∧
      (bracketed.config.resolve (.name ⟨"x"⟩)).answer =
        .ok (.ofFields bracketed.isAssociation (.leaf ⟨"y"⟩)) ∧
      bracketed.config.afresh bracketed.isAssociation
          (Expr.withDefault bracketed.config.defaults (.name ⟨"x"⟩)) =
        .ok (.ofFields bracketed.isAssociation (.field ⟨"x"⟩ .empty (.leaf .basic))) ∧
      (bracketed.config.resolve (.name ⟨"x"⟩)).answer ≠
        bracketed.config.afresh bracketed.isAssociation
          (Expr.withDefault bracketed.config.defaults (.name ⟨"x"⟩)) := by
  have hanswer : (bracketed.config.resolve (.name ⟨"x"⟩)).answer =
      .ok (.ofFields bracketed.isAssociation (.leaf ⟨"y"⟩)) := rfl
  have hafresh : bracketed.config.afresh bracketed.isAssociation
      (Expr.withDefault bracketed.config.defaults (.name ⟨"x"⟩)) =
        .ok (.ofFields bracketed.isAssociation (.field ⟨"x"⟩ .empty (.leaf .basic))) := rfl
  refine ⟨rfl, hanswer, hafresh, ?_⟩
  rw [hanswer, hafresh]
  exact nofun

end History

end FieldSelection
