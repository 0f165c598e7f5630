import FieldSelection.Proofs.Config.Reports
import FieldSelection.Proofs.Config.Family
import Mathlib.Data.Finset.Card
import Mathlib.Data.List.DropRight

/-!
# How many requests are remembered

The number of requests remembered is that of the different keys answered with success since
everything was last forgotten, without the keys of compiled facets (`History.Accounts`). Each of the
requests remembered was reported by exactly one event, in the call that answered it first.

`Family.histories` follows the histories of a whole family, so that a copy goes on from the history
of its original and from then on only by what is done with itself (`Family.remembered_requests`).
-/

namespace FieldSelection

/-- Something that happened to a configuration, with the events reported on the way. -/
structure Call : Type 1 where
  occurrence : Occurrence
  events : List Event

namespace Config

variable {config next : Config} {operation : Operation} {added : List (String × Facet)}
  {served : List String} {reported : List Event}

/-- The requests remembered after an operation that were not remembered before. -/
def created (config : Config) (operation : Operation) : List (String × Facet) :=
  (config.perform operation).requests.filter fun entry =>
    entry.1 ∉ Entries.keys config.requests

/-- Whether a configuration remembers what was served under keys that are not compiled, each once,
and what was reported is that it remembers them. -/
structure Remembers (config : Config) (served : List String) (reported : List Event) : Prop where
  distinct : (Entries.keys config.requests).Nodup
  mem_iff (key : String) : key ∈ Entries.keys config.requests ↔
    key ∈ served ∧ key ∉ Entries.keys config.facets
  reported : reported = config.requests.map Event.remembered

theorem remembers_nil (h : config.requests = []) : config.Remembers [] [] := by
  constructor
  · rw [h]
    exact List.nodup_nil
  · intro key
    rw [h]
    exact iff_of_false List.not_mem_nil fun hserved => List.not_mem_nil hserved.1
  · rw [h]
    rfl

theorem Adds.nodup (h : config.Adds operation added)
    (hdistinct : (Entries.keys config.requests).Nodup) :
    (Entries.keys (config.requests ++ added)).Nodup := by
  rw [Entries.keys, List.map_append]
  cases h with
  | nothing | known => rwa [List.map_nil, List.append_nil]
  | request _ _ _ hnew =>
      exact hdistinct.append (List.nodup_singleton _) (List.disjoint_singleton.mpr hnew)

/-- The key under which an operation answers is remembered afterwards, unless it is compiled. -/
theorem Adds.mem_iff (h : config.Adds operation added) (key : String) :
    key ∈ Entries.keys (config.requests ++ added) ↔
      key ∈ Entries.keys config.requests ∨
        config.key? operation = some key ∧ key ∉ Entries.keys config.facets := by
  cases h with
  | nothing hnone => simp [hnone]
  | known hsome hknown =>
      rw [List.append_nil, hsome, Option.some.injEq]
      refine (or_iff_left_of_imp fun hboth => ?_).symm
      obtain ⟨rfl, hnot⟩ := hboth
      exact hknown.resolve_left hnot
  | request hrequest hanswer hfacet _ =>
      rw [key?_of_request hrequest hanswer, Option.some.injEq, Entries.keys, List.map_append,
        List.mem_append, List.map_singleton, List.mem_singleton, eq_comm]
      refine or_congr_right (iff_self_and.mpr ?_)
      rintro rfl
      exact hfacet

/-- What an operation adds is what is there afterwards under new keys. -/
theorem Adds.created (h : config.Adds operation added)
    (hrequests : (config.perform operation).requests = config.requests ++ added) :
    config.created operation = added := by
  have hold : config.requests.filter (fun entry => entry.1 ∉ Entries.keys config.requests) = [] :=
    List.filter_eq_nil_iff.mpr fun entry hmem => by
      rw [decide_eq_true_iff, not_not]
      exact List.mem_map_of_mem hmem
  rw [Config.created, hrequests, List.filter_append, hold, List.nil_append]
  cases h with
  | nothing | known => rfl
  | request _ _ _ hnew => exact List.filter_eq_self.mpr (by simpa using hnew)

/-- The events that say that something is remembered tell what was created. -/
theorem filter_reports (config : Config) (operation : Operation) :
    (config.reports operation).filter Event.isCached =
      (config.created operation).map Event.remembered := by
  cases hforgets : operation.forgets with
  | false =>
      obtain ⟨added, hadds, hrequests, hreports⟩ := config.exists_adds hforgets
      rw [hreports, hadds.created hrequests]
  | true =>
      obtain ⟨hrequests, hreports⟩ := config.requests_of_forgets hforgets
      rw [hreports, created, hrequests]
      rfl

/-- What is created is the facet by which the operation answers its request. -/
theorem answer_of_created {entry : String × Facet} (h : entry ∈ config.created operation) :
    ∃ request, operation.request? = some request ∧
      entry.1 = (request.withDefault config.defaults).cacheKey ∧
      (config.resolve request).answer = .ok entry.2 := by
  cases hforgets : operation.forgets with
  | false =>
      obtain ⟨added, hadds, hrequests, -⟩ := config.exists_adds hforgets
      rw [hadds.created hrequests] at h
      cases hadds with
      | nothing | known => cases h
      | request hrequest hanswer _ _ =>
          obtain rfl := List.mem_singleton.mp h
          exact ⟨_, hrequest, rfl, hanswer⟩
  | true =>
      rw [created, (config.requests_of_forgets hforgets).1] at h
      cases h

/-- One more operation, which adds to what is remembered. -/
theorem Remembers.adds (h : config.Remembers served reported) (hadds : config.Adds operation added)
    (hrequests : next.requests = config.requests ++ added)
    (hfacets : next.facets = config.facets) :
    next.Remembers (served ++ (config.key? operation).toList)
      (reported ++ added.map Event.remembered) := by
  constructor
  · rw [hrequests]
    exact hadds.nodup h.distinct
  · intro key
    rw [hrequests, hfacets, hadds.mem_iff key, h.mem_iff, ← or_and_right, List.mem_append,
      Option.mem_toList]
  · rw [hrequests, h.reported, List.map_append]

/-- The keys of the requests remembered are those served that are not compiled. -/
theorem Remembers.keys (h : config.Remembers served reported) :
    (Entries.keys config.requests).toFinset =
      served.toFinset \ (Entries.keys config.facets).toFinset := by
  ext key
  rw [Finset.mem_sdiff, List.mem_toFinset, List.mem_toFinset, List.mem_toFinset, h.mem_iff]

theorem Remembers.cachedCount (h : config.Remembers served reported) :
    config.cachedCount = (served.toFinset \ (Entries.keys config.facets).toFinset).card := by
  rw [← h.keys, List.toFinset_card_of_nodup h.distinct, Entries.keys, List.length_map,
    Config.cachedCount]

end Config

namespace History

/-- The calls made on the configuration since it was built, the earliest first. -/
def calls : History → List Call
  | build .. => []
  | perform before operation =>
      before.calls ++ [⟨before.config.occurrence operation, before.config.reports operation⟩]
  | inherit before _ => before.calls ++ [⟨.inheritance, []⟩]

/-- The calls since everything was last forgotten. -/
def recent (history : History) : List Call :=
  history.calls.rtakeWhile fun call => !call.occurrence.forgets

/-- The keys of the completed requests that were answered since everything was last forgotten. -/
def served (history : History) : List String :=
  history.recent.filterMap fun call => call.occurrence.key? history.config.defaults

/-- The events since everything was last forgotten which say that something is remembered. -/
def remembered (history : History) : List Event :=
  (history.recent.flatMap Call.events).filter Event.isCached

variable {operation : Operation}

theorem recent_perform_of_forgets (before : History) (h : operation.forgets) :
    (before.perform operation).recent = [] :=
  List.rtakeWhile_concat_neg _ _ _ (by simpa [Config.occurrence, Occurrence.forgets] using h)

theorem recent_perform_of_keeps (before : History) (h : operation.forgets = false) :
    (before.perform operation).recent =
      before.recent ++
        [⟨before.config.occurrence operation, before.config.reports operation⟩] :=
  List.rtakeWhile_concat_pos _ _ _ (by simpa [Config.occurrence, Occurrence.forgets] using h)

theorem recent_inherit (before parent : History) :
    (before.inherit parent).recent = before.recent ++ [⟨.inheritance, []⟩] :=
  List.rtakeWhile_concat_pos _ _ _ rfl

theorem served_of_recent {history before : History} {call : Call}
    (h : history.recent = before.recent ++ [call])
    (hdefaults : history.config.defaults = before.config.defaults) :
    history.served = before.served ++ (call.occurrence.key? before.config.defaults).toList := by
  rw [served, h, hdefaults, List.filterMap_append, served]
  cases hkey : call.occurrence.key? before.config.defaults <;> simp [hkey]

theorem remembered_of_recent {history before : History} {call : Call}
    (h : history.recent = before.recent ++ [call]) :
    history.remembered = before.remembered ++ call.events.filter Event.isCached := by
  rw [remembered, h, List.flatMap_append, List.flatMap_singleton, List.filter_append, remembered]

/-- What is remembered is what was served and reported since everything was last forgotten. -/
theorem remembers (history : History) :
    history.config.Remembers history.served history.remembered := by
  induction history with
  | build aliases limit defaults config built =>
      obtain ⟨-, rfl⟩ := Config.eq_of_build built
      exact Config.remembers_nil rfl
  | perform before operation ih =>
      cases hforgets : operation.forgets with
      | true =>
          rw [served, remembered, recent_perform_of_forgets before hforgets]
          exact Config.remembers_nil (before.config.requests_of_forgets hforgets).1
      | false =>
          obtain ⟨added, hadds, hrequests, hreports⟩ := before.config.exists_adds hforgets
          have hchange := before.config.change_of_keeps hforgets
          have hrecent := recent_perform_of_keeps before hforgets
          rw [served_of_recent hrecent hchange.defaults, remembered_of_recent hrecent, hreports]
          exact ih.adds hadds hrequests hchange.facets
  | inherit before parent ih =>
      have hrecent := recent_inherit before parent
      have hserved : (before.inherit parent).served = before.served :=
        (served_of_recent hrecent rfl).trans (List.append_nil _)
      have hremembered : (before.inherit parent).remembered = before.remembered :=
        (remembered_of_recent hrecent).trans (List.append_nil _)
      rw [hserved, hremembered]
      exact ⟨ih.distinct, ih.mem_iff, ih.reported⟩

/-- Whether what a history remembers is accounted for by the calls since everything was last
forgotten. -/
structure Accounts (history : History) : Prop where
  /-- The keys under which requests were answered are counted, each once, unless they are those of
  compiled facets. -/
  count : history.config.cachedCount =
    (history.served.toFinset \ (Entries.keys history.config.facets).toFinset).card
  /-- These are the keys of the requests remembered, each of which has one entry. -/
  keys : (Entries.keys history.config.requests).toFinset =
    history.served.toFinset \ (Entries.keys history.config.facets).toFinset
  distinct : (Entries.keys history.config.requests).Nodup
  /-- Each of the requests remembered has been reported by one event. -/
  reported : history.remembered = history.config.requests.map Event.remembered
  /-- The operation that creates an entry is the one that reports it. -/
  creation (operation : Operation) :
    (history.config.reports operation).filter Event.isCached =
      (history.config.created operation).map Event.remembered
  /-- What is created is the facet by which an operation answers its request. -/
  origin (operation : Operation) : ∀ entry ∈ history.config.created operation,
    ∃ request, operation.request? = some request ∧
      entry.1 = (request.withDefault history.config.defaults).cacheKey ∧
      (history.config.resolve request).answer = .ok entry.2
  registration (operation : Operation) : operation.Registers →
    (history.perform operation).config.cachedCount = history.config.cachedCount
  inheritance (parent : History) :
    (history.inherit parent).config.cachedCount = history.config.cachedCount

theorem accounts (history : History) : history.Accounts where
  count := history.remembers.cachedCount
  keys := history.remembers.keys
  distinct := history.remembers.distinct
  reported := history.remembers.reported
  creation := history.config.filter_reports
  origin _ _ hmem := history.config.answer_of_created hmem
  registration _ h := congrArg List.length (history.config.requests_of_registers h)
  inheritance _ := rfl

end History

namespace Family

/-- The histories of a family after an action, member by member. -/
def record (histories : List History) : Action → List History
  | .build aliases limit defaults =>
      match built : Config.build aliases limit defaults with
      | .ok config => histories ++ [.build aliases limit defaults config built]
      | .error _ => histories
  | .copy original => histories ++ histories[original]?.toList
  | .perform member operation => histories.modify member (·.perform operation)
  | .inherit member parent =>
      match histories[parent]? with
      | some parent => histories.modify member (·.inherit parent)
      | none => histories

/-- The histories of the family that several actions lead to. -/
def histories (actions : List Action) : List History :=
  actions.foldl record []

/-- Whether an action changes the member at a position. -/
def Action.On (member : Nat) : Action → Prop
  | .perform other _ => other = member
  | .inherit other _ => other = member
  | _ => False

/-- To continue the history of a member is to change its configuration. -/
theorem map_config_modify {next : History → History} {change : Config → Config}
    (h : ∀ history : History, (next history).config = change history.config)
    (histories : List History) (member : Nat) :
    (histories.modify member next).map History.config =
      (histories.map History.config).modify member change := by
  apply List.ext_getElem?
  intro position
  rw [List.getElem?_map, List.getElem?_modify, List.getElem?_modify, List.getElem?_map]
  cases histories[position]? with
  | none => rfl
  | some history =>
      by_cases hmember : member = position
      · simp [hmember, h]
      · simp [hmember]

/-- The histories lead to the configurations of the family. -/
theorem map_config_record (histories : List History) (action : Action) :
    (record histories action).map History.config = act (histories.map History.config) action := by
  cases action with
  | build aliases limit defaults =>
      rw [record]
      split
      · next config built =>
          have hact : act (histories.map History.config) (.build aliases limit defaults) =
              histories.map History.config ++ [config] := by rw [act, built]
          rw [hact, List.map_append]
          rfl
      · next error failed => rw [act, failed]
  | copy original =>
      rw [record, act, List.map_append, List.getElem?_map]
      cases histories[original]? <;> rfl
  | perform member operation =>
      exact map_config_modify (fun _ => rfl) histories member
  | inherit member parent =>
      rw [record, act, List.getElem?_map]
      cases histories[parent]? with
      | none => rfl
      | some parent => exact map_config_modify (fun _ => rfl) histories member

theorem map_config_histories (actions : List Action) :
    (histories actions).map History.config = run actions :=
  (List.foldl_hom (List.map History.config) fun histories action =>
    (map_config_record histories action).symm).symm

theorem histories_append (actions later : List Action) :
    histories (actions ++ later) = later.foldl record (histories actions) :=
  List.foldl_append

/-- An action leaves the members alone that it is not on. -/
theorem getElem?_record {histories : List History} {member : Nat} {history : History}
    {action : Action} (h : histories[member]? = some history) (haction : ¬ action.On member) :
    (record histories action)[member]? = some history := by
  have happend (more : List History) : (histories ++ more)[member]? = some history :=
    List.getElem?_append_left (List.getElem?_eq_some_iff.mp h).1 ▸ h
  cases action with
  | build aliases limit defaults =>
      rw [record]
      split
      · exact happend _
      · exact h
  | copy original => exact happend _
  | perform other operation => exact (List.getElem?_modify_ne _ _ haction).trans h
  | inherit other parent =>
      rw [record]
      cases histories[parent]? with
      | none => exact h
      | some parent => exact (List.getElem?_modify_ne _ _ haction).trans h

/-- So do actions in turn. -/
theorem getElem?_foldl_record {later : List Action} {histories : List History} {member : Nat}
    {history : History} (h : histories[member]? = some history)
    (hlater : ∀ action ∈ later, ¬ action.On member) :
    (later.foldl record histories)[member]? = some history :=
  List.foldlRecOn later record (motive := fun histories => histories[member]? = some history) h
    fun _ hkept action hmem => getElem?_record hkept (hlater action hmem)

/-- Every history accounts for what it remembers, and every member of a family has a history of its
own. A copy starts with the history of its original. An operation continues the history of the
member it is performed on, and what is done with other members leaves it alone. -/
theorem remembered_requests :
    (∀ history : History, history.Accounts) ∧
    ∀ actions : List Action, (histories actions).map History.config = run actions ∧
      ∀ member history, (histories actions)[member]? = some history →
        histories (actions ++ [.copy member]) = histories actions ++ [history] ∧
        (∀ operation, (histories (actions ++ [.perform member operation]))[member]? =
          some (history.perform operation)) ∧
        ∀ later : List Action, (∀ action ∈ later, ¬ action.On member) →
          (histories (actions ++ later))[member]? = some history := by
  refine ⟨History.accounts, fun actions => ⟨map_config_histories actions,
    fun member history h => ⟨?_, fun operation => ?_, fun later hlater => ?_⟩⟩⟩
  · rw [histories_append, List.foldl_cons, List.foldl_nil, record, h]
    rfl
  · rw [histories_append, List.foldl_cons, List.foldl_nil, record, List.getElem?_modify_eq, h]
    rfl
  · rw [histories_append]
    exact getElem?_foldl_record h hlater

/-- A configuration that answers two requests, one of them twice, and is copied before it forgets
them. The visitor of the second call fails, and the other request has the key of an alias. -/
def visited : List Action :=
  [.build (.ofList [(⟨"contact"⟩, .list [.name ⟨"email"⟩, .name ⟨"owner"⟩]),
      (.basic, .name ⟨"id"⟩)]) 256 .standard,
    .perform 0 (.compile (· == ⟨"owner"⟩)), .perform 0 (.resolve (.name ⟨"contact"⟩)),
    .perform 0 (.tryIterate (.name ⟨"contact"⟩) (fun _ _ _ => Except.error ()) ()),
    .perform 0 (.resolve .empty), .copy 0, .perform 0 .clearCache]

theorem remembered_requests_visited :
    (run visited).map Config.cachedCount = [0, 1] ∧
      ∃ history : History, (histories visited)[1]? = some history ∧
        history.served = ["[\"contact\",\"basic\"]", "[\"contact\",\"basic\"]", "basic"] ∧
        history.remembered = [.cached "[\"contact\",\"basic\"]" 3] ∧
        history.config.cachedCount =
          (history.served.toFinset \ (Entries.keys history.config.facets).toFinset).card ∧
        (history.perform (.expose ⟨"phone"⟩)).config.cachedCount = 1 ∧
        (histories (visited ++ [.perform 0 (.compile fun _ => true)]))[1]? = some history := by
  obtain ⟨haccounts, hfamily⟩ := remembered_requests
  have hmember : ∃ history : History, (histories visited)[1]? = some history ∧
      history.served = ["[\"contact\",\"basic\"]", "[\"contact\",\"basic\"]", "basic"] ∧
      history.remembered = [.cached "[\"contact\",\"basic\"]" 3] ∧
      history.config.cachedCount = 1 := ⟨_, rfl, rfl, rfl, rfl⟩
  obtain ⟨history, hmember, hserved, hremembered, hcount⟩ := hmember
  have halone := ((hfamily visited).2 1 history hmember).2.2
  refine ⟨rfl, history, hmember, hserved, hremembered, (haccounts history).count, ?_, ?_⟩
  · exact ((haccounts history).registration (.expose ⟨"phone"⟩) trivial).trans hcount
  · exact halone _ (List.forall_mem_singleton.mpr (Nat.zero_ne_one))

end Family

end FieldSelection
