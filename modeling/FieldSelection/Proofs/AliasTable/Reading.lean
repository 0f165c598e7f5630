import FieldSelection.Config.Basic
import FieldSelection.Proofs.AliasTable
import FieldSelection.Proofs.Expr.Reading

/-!
# Tables read from a text

Defining the entries of an object one after the other comes to reading all of them first
(`define_eq`). A table is loaded from the texts that are read as a selection, with the entries of
the selection, and from no others (`load_eq_ok_iff`). An object that is no selection is refused with
the same error by both, and a text whose value is no object for the kind of that value, whatever it
contains (`load_agrees`).
-/

namespace FieldSelection

namespace Json

variable {τ : Type} {json : Json τ}

theorem kind_dedup [DecidableEq τ] (json : Json τ) : json.dedup.kind = json.kind := by
  cases json <;> rfl

theorem exists_eq_object (h : json.kind = .object) : ∃ entries, json = .object entries := by
  cases json with
  | object entries => exact ⟨entries, rfl⟩
  | _ => cases h

end Json

namespace AliasTable

variable {table : AliasTable} {text : String} {json : Json String}

theorem define_cons (table : AliasTable) (key : String) (value : Json String)
    (rest : List (String × Json String)) :
    table.define ((key, value) :: rest) =
      Expr.ofJson value >>= fun definition => (table.insert ⟨key⟩ definition).define rest := by
  simp only [define, List.foldlM_cons, bind_assoc, pure_bind]

/-- The definitions put one after the other are those that the entries stand for, and the first that
has no meaning is the reason why there is no table. -/
theorem define_eq (table : AliasTable) (values : List (String × Json String)) :
    table.define values = (Expr.ofJsonEntries values).map fun entries =>
      { entries := Entries.extend table.entries entries
        distinct := Entries.nodup_extend entries table.distinct } := by
  induction values generalizing table with
  | nil => rfl
  | cons entry rest ih =>
      obtain ⟨key, value⟩ := entry
      rw [define_cons, Expr.ofJsonEntries]
      cases Expr.ofJson value with
      | error error => rfl
      | ok definition =>
          refine (ih (table.insert ⟨key⟩ definition)).trans ?_
          cases Expr.ofJsonEntries rest <;> rfl

theorem define_empty (values : List (String × Json String)) :
    define {} values = (Expr.ofJsonEntries values).map ofList :=
  define_eq {} values

/-! ## Objects -/

theorem parse_of_object {values : List (String × Json String)}
    (h : Json.ofText? text = some json) (hobject : json.dedup = .object values) :
    parse text = (Expr.ofJsonEntries values).map ofList := by
  rw [parse, h, ← define_empty]
  simp only [hobject]

theorem parse_expr_of_object {values : List (String × Json String)}
    (h : Json.ofText? text = some json) (hobject : json.dedup = .object values) :
    Expr.parse text = (Expr.ofJsonEntries values).map .selection := by
  rw [Expr.parse, h]
  simp only [hobject, Expr.ofJson]

/-- From a text that is read as a selection comes the table with the entries of the selection. -/
theorem exists_load_of_selection {entries : List (Name × Expr)}
    (h : Expr.parse text = .ok (.selection entries)) :
    ∃ table, load text = .ok table ∧ table.entries = entries := by
  -- No key is repeated in what has been read, so that nothing is replaced in the table.
  obtain ⟨hdistinct, -⟩ := Expr.distinct_of_parse h
  refine ⟨ofList entries, ?_, Entries.ofList_eq_self hdistinct⟩
  cases hjson : Json.ofText? text with
  | none =>
      rw [Expr.parse_of_ofText?_eq_none hjson] at h
      cases h
  | some json =>
      have hread := h
      rw [Expr.parse, hjson] at hread
      obtain ⟨values, hobject, -⟩ := Expr.exists_object_of_ofJson hread
      rw [parse_expr_of_object hjson hobject] at h
      obtain ⟨read, hvalues, heq⟩ := except_map_eq_ok.mp h
      cases heq
      rw [load, parse_of_object hjson hobject, hvalues]
      rfl

/-- An object that is not read as a selection is refused for the same reason. -/
theorem load_of_error {error : Expr.ReadError} (h : Json.ofText? text = some json)
    (hkind : json.kind = .object) (herror : Expr.parse text = .error error) :
    load text = .error (.invalidFacet error) := by
  obtain ⟨values, hobject⟩ := Json.exists_eq_object (json.kind_dedup.trans hkind)
  rw [parse_expr_of_object h hobject] at herror
  rw [load, parse_of_object h hobject]
  cases hvalues : Expr.ofJsonEntries values with
  | error reason =>
      rw [hvalues] at herror
      cases herror
      rfl
  | ok entries =>
      rw [hvalues] at herror
      cases herror

/-- An object is read as a selection or not at all. -/
theorem exists_selection_of_object {expr : Expr} (h : Json.ofText? text = some json)
    (hkind : json.kind = .object) (hexpr : Expr.parse text = .ok expr) :
    ∃ entries, expr = .selection entries := by
  obtain ⟨values, hobject⟩ := Json.exists_eq_object (json.kind_dedup.trans hkind)
  rw [parse_expr_of_object h hobject] at hexpr
  obtain ⟨entries, -, rfl⟩ := except_map_eq_ok.mp hexpr
  exact ⟨entries, rfl⟩

/-! ## Other texts -/

/-- A value that is no object is refused for its kind, whatever it contains. -/
theorem load_of_kind_ne (h : Json.ofText? text = some json) (hkind : json.kind ≠ .object) :
    load text = .error (.invalidFacet (.invalidShape json.kind)) := by
  rw [load, parse, h]
  cases json with
  | object entries => exact absurd rfl hkind
  | _ => rfl

theorem load_of_ofText?_eq_none (h : Json.ofText? text = none) :
    load text = .error (.invalidFacet .malformed) := by
  rw [load, parse, h]
  rfl

/-- A table is loaded exactly from the texts that are read as a selection of its entries. -/
theorem load_eq_ok_iff :
    load text = .ok table ↔ Expr.parse text = .ok (.selection table.entries) := by
  constructor
  · intro h
    cases hjson : Json.ofText? text with
    | none =>
        rw [load_of_ofText?_eq_none hjson] at h
        cases h
    | some json =>
        by_cases hkind : json.kind = .object
        · cases hexpr : Expr.parse text with
          | error error =>
              rw [load_of_error hjson hkind hexpr] at h
              cases h
          | ok expr =>
              obtain ⟨entries, rfl⟩ := exists_selection_of_object hjson hkind hexpr
              obtain ⟨loaded, hload, rfl⟩ := exists_load_of_selection hexpr
              cases h.symm.trans hload
              rfl
        · rw [load_of_kind_ne hjson hkind] at h
          cases h
  · intro h
    obtain ⟨loaded, hload, hentries⟩ := exists_load_of_selection h
    rw [hload, entries_injective hentries]

/-- A text whose value is an object gives the table with the entries of the selection it is read as,
in their order, or is refused for the same reason by which it is no expression. Any other text is
refused: for the kind of its value, whatever lies within, or because it is not JSON. There is a
table only where the text is read as a selection. -/
theorem load_agrees (text : String) :
    (∀ json, Json.ofText? text = some json → json.kind = .object →
      (∃ entries, Expr.parse text = .ok (.selection entries) ∧
        ∃ table, load text = .ok table ∧ table.entries = entries) ∨
      ∃ error, Expr.parse text = .error error ∧ load text = .error (.invalidFacet error)) ∧
    (∀ json, Json.ofText? text = some json → json.kind ≠ .object →
      load text = .error (.invalidFacet (.invalidShape json.kind))) ∧
    (Json.ofText? text = none → load text = .error (.invalidFacet .malformed)) ∧
    ∀ table, load text = .ok table ↔ Expr.parse text = .ok (.selection table.entries) := by
  refine ⟨fun json hjson hkind => ?_, fun json => load_of_kind_ne, load_of_ofText?_eq_none,
    fun table => load_eq_ok_iff⟩
  cases hexpr : Expr.parse text with
  | ok expr =>
      obtain ⟨entries, rfl⟩ := exists_selection_of_object hjson hkind hexpr
      exact Or.inl ⟨entries, rfl, exists_load_of_selection hexpr⟩
  | error error => exact Or.inr ⟨error, rfl, load_of_error hjson hkind hexpr⟩

/-- A text in which a definition without a meaning is replaced by another. -/
def redefined : String :=
  "\x7b\"a\":[true],\"b\":\"c\",\"a\":[\"d\"]\x7d"

/-- The aliases that are left. -/
def redefinedAliases : AliasTable :=
  ofList [(⟨"a"⟩, .list [.name ⟨"d"⟩]), (⟨"b"⟩, .name ⟨"c"⟩)]

/-- A text in which a definition without a meaning is not replaced. -/
def undefinable : String :=
  "\x7b\"a\":[\"d\"],\"b\":\x7b\"c\":true\x7d\x7d"

theorem load_agrees_redefined :
    load redefined = .ok redefinedAliases ∧
      load undefinable = .error (.invalidFacet (.invalidShape .boolean)) ∧
      load "[true]" = .error (.invalidFacet (.invalidShape .array)) ∧
      load "[true" = .error (.invalidFacet .malformed) := by
  refine ⟨?_, ?_, ?_, ?_⟩
  · have hread : (Expr.parse redefined).toOption.map Expr.render =
        some (Expr.selection redefinedAliases.entries).render := by decide +kernel
    have hparse : Expr.parse redefined = .ok (.selection redefinedAliases.entries) := by
      cases h : Expr.parse redefined with
      | error error =>
          rw [h] at hread
          cases hread
      | ok expr =>
          rw [h] at hread
          rw [Expr.render_injective (Option.some.inj hread)]
    exact ((load_agrees redefined).2.2.2 redefinedAliases).mpr hparse
  · have hread : (Json.ofText? undefinable).map (fun json => (json.kind, json.survivingKinds)) =
        some (.object, [.object, .array, .string, .object, .boolean]) := by decide +kernel
    obtain ⟨json, hjson, hkinds⟩ := Option.map_eq_some_iff.mp hread
    obtain ⟨hkind, hsurviving⟩ := Prod.mk.inj hkinds
    have hjudged := Expr.judged_parse hjson
    rw [hsurviving] at hjudged
    have herror : Expr.parse undefinable = .error (.invalidShape .boolean) := hjudged
    rcases (load_agrees undefinable).1 json hjson hkind with
      ⟨_, hentries, _⟩ | ⟨error, hsame, hload⟩
    · rw [herror] at hentries
      cases hentries
    · rw [herror] at hsame
      cases hsame
      exact hload
  · have harray : Json.ofText? "[true]" = some (.array [.bool true]) := rfl
    exact (load_agrees "[true]").2.1 _ harray (by decide)
  · have hmalformed : Json.ofText? "[true" = none := rfl
    exact (load_agrees "[true").2.2.1 hmalformed

end AliasTable

end FieldSelection
