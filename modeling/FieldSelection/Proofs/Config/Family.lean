import FieldSelection.Proofs.Config.Coherence

/-!
# Families of configurations

Configurations are built, copied and changed side by side, and any of them may inherit from any
other. `Family.run` follows a family from nothing through a course of actions. Each of its members
has a history of its own (`Family.exists_history`), so that what holds along every history holds
throughout a family.

The reserved names stay views in this way: building refuses them (`Config.exists_build_iff`), no
member ever has them as aliases, and compilation puts nothing but the union under `all`
(`Family.reserved_names_are_views`).
-/

namespace FieldSelection

theorem Name.forall_not_isReserved_iff {names : List Name} :
    (∀ name ∈ names, ¬ name.isReserved) ↔ Name.all ∉ names ∧ Name.allAttributes ∉ names := by
  constructor
  · exact fun h => ⟨fun hall => h _ hall rfl, fun hattributes => h _ hattributes rfl⟩
  · intro hboth name hname hreserved
    rcases Name.isReserved_iff.mp hreserved with rfl | rfl
    · exact hboth.1 hname
    · exact hboth.2 hname

namespace Config

variable {aliases : AliasTable} {limit : Nat} {defaults : Defaults}

/-- Building succeeds exactly when no alias carries a reserved name. -/
theorem exists_build_iff : (∃ config, build aliases limit defaults = .ok config) ↔
    ∀ name ∈ aliases.names, ¬ name.isReserved := by
  constructor
  · intro hexists
    obtain ⟨config, h⟩ := hexists
    exact (eq_of_build h).1
  · intro hnames
    rw [build_eq, List.find?_eq_none.mpr hnames]
    exact ⟨_, rfl⟩

theorem context_compile (config : Config) (isAssociation : Name → Bool)
    (aggregate : Option Facet) :
    (config.compile isAssociation).config.context aggregate = config.context aggregate := by
  rw [context, context, config.aliases_compile, (config.settings_compile isAssociation).1]

/-- Compilation of aliases without reserved names stores under `all` the union of what they expand
to without one, in normal form, and their own facets under other keys. -/
theorem facets_compile {config : Config} {isAssociation : Name → Bool}
    (hnames : ∀ name ∈ config.aliases.names, ¬ name.isReserved)
    (hanswer : (config.compile isAssociation).answer = .ok ()) :
    Entries.keys (config.compile isAssociation).config.facets =
        (Name.all :: config.aliases.names).map Name.text ∧
      (Entries.keys (config.compile isAssociation).config.facets).Nodup ∧
      ∃ trees,
        List.Forall₂ (fun name tree => ∃ expanded,
            ((config.context none).expand (.name name)).outcome = .ok expanded ∧
              tree = expanded.normalize)
          config.aliases.names trees ∧
        (config.compile isAssociation).config.facets.lookup Name.all.text =
          some (.ofFields isAssociation (.union trees)) := by
  obtain ⟨hcompiled, -, hassociation⟩ := compiled_of_answer_compile hanswer
  have hcoherent := coherent_compile hnames isAssociation hcompiled
  obtain ⟨all, trees, hall, htrees, hunion⟩ := hcoherent.union
  have hfacet := hcoherent.aggregate_eq_ofFields hall
  have hkeys := hcoherent.keys
  rw [hassociation, hunion] at hfacet
  rw [context_compile, aliases_compile] at htrees
  rw [aliases_compile] at hkeys
  exact ⟨hkeys, hcoherent.distinct, trees, htrees, hall.trans (congrArg some hfacet)⟩

end Config

/-- The configurations that there are, in the order in which they came about. -/
abbrev Family := List Config

namespace Family

/-- Something done in a family. Its members are known by their position. -/
inductive Action : Type 1 where
  /-- A new configuration is built from the given aliases. -/
  | build (aliases : AliasTable) (limit : Nat) (defaults : Defaults)
  /-- A member is copied, with all that is compiled and remembered in it. -/
  | copy (original : Nat)
  | perform (member : Nat) (operation : Operation)
  /-- A member takes over every alias of another one. -/
  | inherit (member parent : Nat)

/-- The family after an action. Nothing comes of a building that fails. -/
def act (family : Family) : Action → Family
  | .build aliases limit defaults =>
      match Config.build aliases limit defaults with
      | .ok config => family ++ [config]
      | .error _ => family
  | .copy original => family ++ family[original]?.toList
  | .perform member operation => family.modify member (·.perform operation)
  | .inherit member parent =>
      match family[parent]? with
      | some parent => family.modify member (·.inherit parent)
      | none => family

/-- The family that several actions lead to. At first it has no members. -/
def run (actions : List Action) : Family :=
  actions.foldl act []

variable {family : Family}

/-- What holds of the members and of one after a change holds when any of them is changed. -/
theorem forall_mem_modify {p : Config → Prop} {change : Config → Config} (position : Nat)
    (h : ∀ config ∈ family, p config) (hchange : ∀ config ∈ family, p (change config)) :
    ∀ config ∈ family.modify position change, p config := by
  intro config hmem
  obtain ⟨index, hindex⟩ := List.mem_iff_getElem?.mp hmem
  rw [List.getElem?_modify] at hindex
  obtain ⟨old, hold, rfl⟩ := Option.map_eq_some_iff.mp hindex
  have hmember := List.mem_of_getElem? hold
  split
  · exact hchange old hmember
  · exact h old hmember

/-- If every member has a history, then so has every member after one more action. -/
theorem exists_history_act (h : ∀ config ∈ family, ∃ history : History, history.config = config)
    (action : Action) :
    ∀ config ∈ family.act action, ∃ history : History, history.config = config := by
  cases action with
  | build aliases limit defaults =>
      rw [act]
      cases hbuilt : Config.build aliases limit defaults with
      | error error => exact h
      | ok config =>
          refine List.forall_mem_append.mpr ⟨h, List.forall_mem_singleton.mpr ?_⟩
          exact ⟨.build aliases limit defaults config hbuilt, rfl⟩
  | copy original =>
      refine List.forall_mem_append.mpr ⟨h, fun config hcopy => ?_⟩
      rw [Option.mem_toList] at hcopy
      exact h config (List.mem_of_getElem? hcopy)
  | perform member operation =>
      refine forall_mem_modify member h fun config hmember => ?_
      obtain ⟨history, rfl⟩ := h config hmember
      exact ⟨history.perform operation, rfl⟩
  | inherit member parent =>
      rw [act]
      cases hfound : family[parent]? with
      | none => exact h
      | some parent =>
          obtain ⟨parentHistory, rfl⟩ := h parent (List.mem_of_getElem? hfound)
          refine forall_mem_modify member h fun config hmember => ?_
          obtain ⟨history, rfl⟩ := h config hmember
          exact ⟨history.inherit parentHistory, rfl⟩

/-- Every member of a family has a history of its own. -/
theorem exists_history (actions : List Action) :
    ∀ config ∈ run actions, ∃ history : History, history.config = config :=
  List.foldlRecOn actions act
    (motive := fun family => ∀ config ∈ family, ∃ history : History, history.config = config)
    nofun fun _ h action _ => exists_history_act h action

/-- Throughout every family, the reserved names stay views. No member has one of them as an alias.
When a member is compiled with success, the facet under `all` unites the normal forms of what its
aliases expand to without a union, and the other facets are those of the aliases under their own
names. Building succeeds exactly when neither of the reserved names is an alias, and then takes the
aliases as they are, in their order. -/
theorem reserved_names_are_views (actions : List Action) :
    (∀ config ∈ run actions,
      Name.all ∉ config.aliases.names ∧ Name.allAttributes ∉ config.aliases.names ∧
      ∀ isAssociation, (config.compile isAssociation).answer = .ok () →
        Entries.keys (config.compile isAssociation).config.facets =
          (Name.all :: config.aliases.names).map Name.text ∧
        (Entries.keys (config.compile isAssociation).config.facets).Nodup ∧
        ∃ trees,
          List.Forall₂ (fun name tree => ∃ expanded,
              ((config.context none).expand (.name name)).outcome = .ok expanded ∧
                tree = expanded.normalize)
            config.aliases.names trees ∧
          (config.compile isAssociation).config.facets.lookup Name.all.text =
            some (.ofFields isAssociation (.union trees))) ∧
    ∀ aliases limit defaults,
      ((∃ config, Config.build aliases limit defaults = .ok config) ↔
        Name.all ∉ aliases.names ∧ Name.allAttributes ∉ aliases.names) ∧
      ∀ config, Config.build aliases limit defaults = .ok config → config.aliases = aliases := by
  refine ⟨fun config hmember => ?_, fun aliases limit defaults => ⟨?_, ?_⟩⟩
  · obtain ⟨history, rfl⟩ := exists_history actions config hmember
    have hnames : ∀ name ∈ history.config.aliases.names, ¬ name.isReserved :=
      fun _ => history.not_isReserved
    obtain ⟨hall, hattributes⟩ := Name.forall_not_isReserved_iff.mp hnames
    exact ⟨hall, hattributes, fun isAssociation => Config.facets_compile hnames⟩
  · rw [Config.exists_build_iff, Name.forall_not_isReserved_iff]
  · intro config hbuilt
    rw [(Config.eq_of_build hbuilt).2]

/-- Two configurations, the second of which reads the union. It inherits from the first and is then
copied, after the first has refused a reserved name. -/
def siblings : List Action :=
  [.build (.ofList [(⟨"contact"⟩, .list [.name ⟨"email"⟩, .name ⟨"owner"⟩])]) 256 .standard,
    .build (.ofList [(⟨"everything"⟩, .name .all)]) 256 .standard,
    .perform 0 (.register .all (.name ⟨"email"⟩)), .inherit 1 0, .copy 1]

/-- The copy is compiled: of its aliases, only the one that it has inherited contributes to the
facet under `all`. -/
theorem reserved_names_are_views_siblings :
    ∃ config ∈ run siblings, config.aliases.names = [⟨"everything"⟩, ⟨"contact"⟩] ∧
      Name.all ∉ config.aliases.names ∧
      (config.compile (· == ⟨"owner"⟩)).answer = .ok () ∧
      Entries.keys (config.compile (· == ⟨"owner"⟩)).config.facets =
        ["all", "everything", "contact"] ∧
      List.Forall₂ (fun name tree => ∃ expanded,
          ((config.context none).expand (.name name)).outcome = .ok expanded ∧
            tree = expanded.normalize)
        [⟨"everything"⟩, ⟨"contact"⟩] [.empty, History.contactFacet.fields] ∧
      (config.compile (· == ⟨"owner"⟩)).config.facets.lookup "all" =
        some History.contactFacet := by
  have hmember : ∃ config ∈ run siblings, config.aliases.names = [⟨"everything"⟩, ⟨"contact"⟩] ∧
      List.Forall₂ (fun name expanded =>
        ((config.context none).expand (.name name)).outcome = .ok expanded)
        [⟨"everything"⟩, ⟨"contact"⟩] [.empty, .list [.name ⟨"email"⟩, .name ⟨"owner"⟩]] ∧
      (config.compile (· == ⟨"owner"⟩)).answer = .ok () :=
    ⟨_, List.mem_of_getElem? (i := 2) rfl, rfl, .cons rfl (.cons rfl .nil), rfl⟩
  obtain ⟨config, hmember, hnames, hexpansions, hanswer⟩ := hmember
  obtain ⟨hall, -, hcompile⟩ := (reserved_names_are_views siblings).1 config hmember
  obtain ⟨hkeys, -, trees, htrees, hlookup⟩ := hcompile _ hanswer
  rw [hnames] at hkeys htrees
  obtain rfl := Expansion.Context.eq_map_normalize hexpansions htrees
  exact ⟨config, hmember, hnames, hall, hanswer, hkeys, htrees, hlookup⟩

end Family

end FieldSelection
