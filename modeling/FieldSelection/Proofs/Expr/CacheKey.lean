import FieldSelection.Expr.Json
import FieldSelection.Proofs.Json.RoundTrip

/-!
# Texts and cache keys determine expressions

`render_injective` says that no two expressions have the same text, whatever names they hold and
however deep they nest. Among requests that are not names a cache key is the text
(`cacheKey_injective`), and the text of a list or a selection starts with a bracket or a brace
(`head?_render`), as few names do.
-/

namespace FieldSelection

namespace Expr

theorem itemsToJson_eq_map (items : List Expr) : itemsToJson items = items.map toJson := by
  induction items with
  | nil => rfl
  | cons item rest ih => rw [itemsToJson, ih, List.map_cons]

theorem entriesToJson_eq_map (entries : List (Name × Expr)) :
    entriesToJson entries = entries.map fun entry => (entry.1.text, entry.2.toJson) := by
  induction entries with
  | nil => rfl
  | cons entry rest ih => rw [entriesToJson, ih, List.map_cons]

theorem ofJsonItems_map_toJson {items : List Expr}
    (h : ∀ item ∈ items, ofJson item.toJson = .ok item) :
    ofJsonItems (items.map toJson) = .ok items := by
  induction items with
  | nil => rfl
  | cons item rest ih =>
      obtain ⟨hitem, hrest⟩ := List.forall_mem_cons.mp h
      rw [List.map_cons, ofJsonItems, hitem, ih hrest]
      rfl

theorem ofJsonEntries_map_toJson {entries : List (Name × Expr)}
    (h : ∀ entry ∈ entries, ofJson entry.2.toJson = .ok entry.2) :
    ofJsonEntries (entries.map fun entry => (entry.1.text, entry.2.toJson)) = .ok entries := by
  induction entries with
  | nil => rfl
  | cons entry rest ih =>
      obtain ⟨hentry, hrest⟩ := List.forall_mem_cons.mp h
      rw [List.map_cons, ofJsonEntries, hentry, ih hrest]
      rfl

/-- The JSON value of an expression stands for that expression. -/
theorem ofJson_toJson (expr : Expr) : ofJson expr.toJson = .ok expr := by
  induction expr using induct with
  | empty => rfl
  | name n => rfl
  | list items h =>
      rw [toJson, ofJson, itemsToJson_eq_map, ofJsonItems_map_toJson h]
      rfl
  | selection entries h =>
      rw [toJson, ofJson, entriesToJson_eq_map, ofJsonEntries_map_toJson h]
      rfl

theorem toJson_injective {a b : Expr} (h : a.toJson = b.toJson) : a = b := by
  have hread := ofJson_toJson a
  rw [h, ofJson_toJson, Except.ok.injEq] at hread
  exact hread.symm

theorem noNumber_toJson (expr : Expr) : expr.toJson.NoNumber := by
  induction expr using induct with
  | empty | name => exact fun token hmem => List.mem_singleton.mp hmem ▸ nofun
  | list items h =>
      rw [toJson, itemsToJson_eq_map]
      exact Json.noNumber_array_iff.mpr (List.forall_mem_map.mpr h)
  | selection entries h =>
      rw [toJson, entriesToJson_eq_map]
      exact Json.noNumber_object_iff.mpr (List.forall_mem_map.mpr h)

/-- No two expressions have the same text. -/
theorem render_injective {a b : Expr} (h : a.render = b.render) : a = b :=
  toJson_injective (Json.toText_injective (noNumber_toJson a) (noNumber_toJson b) h)

theorem cacheKey_of_asName?_eq_none {expr : Expr} (h : expr.asName? = none) :
    expr.cacheKey = expr.render := by
  cases expr with
  | name n => cases h
  | _ => rfl

theorem eq_name_of_asName? {expr : Expr} {name : Name} (h : expr.asName? = some name) :
    expr = .name name := by
  cases expr with
  | name n => exact congrArg _ (Option.some.inj h)
  | _ => cases h

theorem asName?_eq_none {expr : Expr} (h : ∀ name, expr ≠ .name name) : expr.asName? = none := by
  cases expr with
  | name n => exact absurd rfl (h n)
  | _ => rfl

/-- Two expressions with one cache key are the same, unless just one of them is a name. -/
theorem cacheKey_injective {a b : Expr} (h : a.cacheKey = b.cacheKey)
    (hnames : a.asName? = none ↔ b.asName? = none) : a = b := by
  cases ha : a.asName? with
  | none =>
      rw [cacheKey_of_asName?_eq_none ha, cacheKey_of_asName?_eq_none (hnames.mp ha)] at h
      exact render_injective h
  | some name =>
      cases hb : b.asName? with
      | none => exact absurd (ha.symm.trans (hnames.mpr hb)) nofun
      | some other =>
          obtain rfl := eq_name_of_asName? ha
          obtain rfl := eq_name_of_asName? hb
          exact congrArg (fun text => Expr.name ⟨text⟩) h

/-- Requests that are not names have one cache key only if they are the same, the order of items and
entries included. -/
theorem cacheKey_separates {a b : Expr} (ha : ∀ name, a ≠ .name name)
    (hb : ∀ name, b ≠ .name name) : a.cacheKey = b.cacheKey ↔ a = b := by
  have hnames : a.asName? = none ↔ b.asName? = none :=
    iff_of_true (asName?_eq_none ha) (asName?_eq_none hb)
  constructor
  · intro h
    exact cacheKey_injective h hnames
  · rintro rfl
    rfl

/-- Two names, side by side. -/
def apart : Expr :=
  .list [.name ⟨"a"⟩, .name ⟨"b"⟩]

/-- One name, with the marks in it that stand between two names in a text. -/
def joined : Expr :=
  .list [.name ⟨"a\",\"b"⟩]

theorem cacheKey_separates_joined :
    (∀ name, joined ≠ .name name) ∧ (∀ name, apart ≠ .name name) ∧
      joined.cacheKey ≠ apart.cacheKey := by
  have hjoined : ∀ name, joined ≠ .name name := fun _ => Expr.noConfusion
  have hapart : ∀ name, apart ≠ .name name := fun _ => Expr.noConfusion
  refine ⟨hjoined, hapart, fun h => ?_⟩
  have heq : joined = apart := (cacheKey_separates hjoined hapart).mp h
  simp [joined, apart] at heq

/-- The text of a list or a selection starts with a bracket or a brace. -/
theorem head?_render {expr : Expr} (h : expr.asName? = none) (hempty : expr ≠ .empty) :
    expr.render.toList.head? = some '[' ∨ expr.render.toList.head? = some '{' := by
  cases expr with
  | empty => exact absurd rfl hempty
  | name n => cases h
  | list items => exact Or.inl (congrArg List.head? String.toList_ofList)
  | selection entries => exact Or.inr (congrArg List.head? String.toList_ofList)

theorem render_ne_all {expr : Expr} (h : expr.asName? = none) : expr.render ≠ Name.all.text := by
  intro heq
  have hne : expr ≠ .empty := by
    rintro rfl
    revert heq
    decide
  have hhead := head?_render h hne
  rw [heq] at hhead
  revert hhead
  decide

end Expr

end FieldSelection
