import FieldSelection.Proofs.Expr.CacheKey
import FieldSelection.Proofs.Expr.Distinct

/-!
# Reading back the text of an expression

`Expr.nesting` counts how deep lists and selections lie inside one another. The text of an
expression is read back as that expression by both readers, as long as it nests no deeper than a
text may, and is refused by both otherwise (`parse_render_eq`, `parseStrict?_render_eq`). Whatever
is read from a text nests no deeper than that (`nesting_le_of_parse`), so that it is read back from
its own text (`parse_render`).
-/

namespace FieldSelection

namespace Json

section Nesting

variable {τ : Type}

theorem nestingEntries_le_iff {entries : List (τ × Json τ)} {bound : Nat} :
    nestingEntries entries ≤ bound ↔ ∀ entry ∈ entries, entry.2.nesting ≤ bound := by
  induction entries with
  | nil => simp [nestingEntries]
  | cons entry rest ih => rw [nestingEntries, Nat.max_le, ih, List.forall_mem_cons]

theorem nestingItems_le_iff {items : List (Json τ)} {bound : Nat} :
    nestingItems items ≤ bound ↔ ∀ item ∈ items, item.nesting ≤ bound := by
  induction items with
  | nil => simp [nestingItems]
  | cons item rest ih => rw [nestingItems, Nat.max_le, ih, List.forall_mem_cons]

/-- Resolving repeated keys makes nothing nest deeper. -/
theorem nesting_dedup_le [DecidableEq τ] (json : Json τ) : json.dedup.nesting ≤ json.nesting := by
  induction json using induct with
  | null | bool | number | string => exact Nat.le_refl _
  | array items ih =>
      rw [dedup, nesting, nesting, Nat.add_le_add_iff_right, dedupItems_eq_map, nestingItems_le_iff,
        List.forall_mem_map]
      exact fun item hmem =>
        Nat.le_trans (ih item hmem) (nestingItems_le_iff.mp (Nat.le_refl _) item hmem)
  | object entries ih =>
      rw [dedup, nesting, nesting, Nat.add_le_add_iff_right, dedupEntries_eq_map,
        nestingEntries_le_iff]
      refine Entries.forall_mem_ofList (List.forall_mem_map.mpr fun entry hmem => ?_)
      exact Nat.le_trans (ih entry hmem) (nestingEntries_le_iff.mp (Nat.le_refl _) entry hmem)

end Nesting

mutual
/-- Decoding strings leaves the nesting of a value as it is. -/
theorem nesting_of_decode? {json : Json Spelling} {decoded : Json String}
    (h : json.decode? = some decoded) : decoded.nesting = json.nesting := by
  match json with
  | .null | .bool _ =>
      cases h
      rfl
  | .number literal =>
      rw [decode?] at h
      split at h <;> cases h
      rfl
  | .string text =>
      obtain ⟨_, _, rfl⟩ := Option.map_eq_some_iff.mp h
      rfl
  | .array items =>
      obtain ⟨_, hitems, rfl⟩ := Option.map_eq_some_iff.mp h
      exact congrArg (· + 1) (nestingItems_of_decodeItems? hitems)
  | .object entries =>
      obtain ⟨_, hentries, rfl⟩ := Option.map_eq_some_iff.mp h
      exact congrArg (· + 1) (nestingEntries_of_decodeEntries? hentries)

theorem nestingItems_of_decodeItems? {items : List (Json Spelling)} {decoded : List (Json String)}
    (h : decodeItems? items = some decoded) : nestingItems decoded = nestingItems items := by
  match items with
  | [] =>
      cases h
      rfl
  | item :: rest =>
      obtain ⟨_, hitem, h⟩ := Option.bind_eq_some_iff.mp h
      obtain ⟨_, hrest, h⟩ := Option.bind_eq_some_iff.mp h
      cases h
      rw [nestingItems, nestingItems, nesting_of_decode? hitem, nestingItems_of_decodeItems? hrest]

theorem nestingEntries_of_decodeEntries? {entries : List (Spelling × Json Spelling)}
    {decoded : List (String × Json String)} (h : decodeEntries? entries = some decoded) :
    nestingEntries decoded = nestingEntries entries := by
  match entries with
  | [] =>
      cases h
      rfl
  | (_, value) :: rest =>
      obtain ⟨_, _, h⟩ := Option.bind_eq_some_iff.mp h
      obtain ⟨_, hvalue, h⟩ := Option.bind_eq_some_iff.mp h
      obtain ⟨_, hrest, h⟩ := Option.bind_eq_some_iff.mp h
      cases h
      rw [nestingEntries, nestingEntries, nesting_of_decode? hvalue,
        nestingEntries_of_decodeEntries? hrest]
end

/-- What is read from a text nests no deeper than a text may. -/
theorem nesting_le_of_ofText? {text : String} {json : Json String} (h : ofText? text = some json) :
    json.nesting ≤ maxNesting := by
  obtain ⟨document, _, h⟩ := Option.bind_eq_some_iff.mp h
  split at h
  · next hle => exact nesting_of_decode? h ▸ hle
  · cases h

end Json

namespace Expr

mutual
/-- How many lists and selections enclose the innermost place of an expression. -/
def nesting : Expr → Nat
  | .empty => 0
  | .name _ => 0
  | .list items => nestingItems items + 1
  | .selection entries => nestingEntries entries + 1

/-- The deepest nesting among the items of a list. -/
def nestingItems : List Expr → Nat
  | [] => 0
  | item :: rest => max (nesting item) (nestingItems rest)

/-- The deepest nesting among the values of a selection. -/
def nestingEntries : List (Name × Expr) → Nat
  | [] => 0
  | (_, value) :: rest => max (nesting value) (nestingEntries rest)
end

theorem nestingItems_le_iff {items : List Expr} {bound : Nat} :
    nestingItems items ≤ bound ↔ ∀ item ∈ items, item.nesting ≤ bound := by
  induction items with
  | nil => simp [nestingItems]
  | cons item rest ih => rw [nestingItems, Nat.max_le, ih, List.forall_mem_cons]

mutual
/-- An expression nests as the value it stands for does. -/
theorem nesting_of_ofJson {json : Json String} {expr : Expr} (h : ofJson json = .ok expr) :
    expr.nesting = json.nesting := by
  match json with
  | .null | .string _ =>
      cases h
      rfl
  | .bool _ | .number _ => cases h
  | .array items =>
      obtain ⟨_, hitems, rfl⟩ := except_map_eq_ok.mp h
      exact congrArg (· + 1) (nestingItems_of_ofJsonItems hitems)
  | .object entries =>
      obtain ⟨_, hentries, rfl⟩ := except_map_eq_ok.mp h
      exact congrArg (· + 1) (nestingEntries_of_ofJsonEntries hentries)

theorem nestingItems_of_ofJsonItems {values : List (Json String)} {items : List Expr}
    (h : ofJsonItems values = .ok items) : nestingItems items = Json.nestingItems values := by
  match values with
  | [] =>
      cases h
      rfl
  | value :: rest =>
      obtain ⟨_, hitem, h⟩ := except_bind_eq_ok.mp h
      obtain ⟨_, hrest, h⟩ := except_bind_eq_ok.mp h
      cases h
      rw [nestingItems, Json.nestingItems, nesting_of_ofJson hitem,
        nestingItems_of_ofJsonItems hrest]

theorem nestingEntries_of_ofJsonEntries {values : List (String × Json String)}
    {entries : List (Name × Expr)} (h : ofJsonEntries values = .ok entries) :
    nestingEntries entries = Json.nestingEntries values := by
  match values with
  | [] =>
      cases h
      rfl
  | (_, value) :: rest =>
      obtain ⟨_, hvalue, h⟩ := except_bind_eq_ok.mp h
      obtain ⟨_, hrest, h⟩ := except_bind_eq_ok.mp h
      cases h
      rw [nestingEntries, Json.nestingEntries, nesting_of_ofJson hvalue,
        nestingEntries_of_ofJsonEntries hrest]
end

theorem nesting_toJson (expr : Expr) : expr.toJson.nesting = expr.nesting :=
  (nesting_of_ofJson (ofJson_toJson expr)).symm

theorem keys_entriesToJson (entries : List (Name × Expr)) :
    Entries.keys (entriesToJson entries) = (Entries.keys entries).map Name.text := by
  rw [entriesToJson_eq_map, Entries.keys, Entries.keys, List.map_map, List.map_map]
  rfl

/-- In the value of an expression whose selections repeat no key, no key is repeated. -/
theorem dedup_toJson {expr : Expr} (h : expr.Distinct) : expr.toJson.dedup = expr.toJson := by
  induction expr using induct with
  | empty | name => rfl
  | list items ih =>
      have hitems := distinctItems_iff.mp h
      rw [toJson, Json.dedup, Json.dedupItems_eq_map, itemsToJson_eq_map, List.map_map]
      exact congrArg _ (List.map_congr_left fun item hmem => ih item hmem (hitems item hmem))
  | selection entries ih =>
      obtain ⟨hnodup, hentries⟩ := h
      have hvalues := distinctEntries_iff.mp hentries
      have hdedup : Json.dedupEntries (entriesToJson entries) = entriesToJson entries := by
        rw [Json.dedupEntries_eq_map, entriesToJson_eq_map, List.map_map]
        refine List.map_congr_left fun entry hmem => ?_
        exact congrArg (Prod.mk entry.1.text) (ih entry hmem (hvalues entry hmem))
      have hkeys : (Entries.keys (entriesToJson entries)).Nodup := by
        rw [keys_entriesToJson]
        exact List.Pairwise.map _ (fun _ _ hne heq => hne (Name.text_injective heq)) hnodup
      rw [toJson, Json.dedup, hdedup, Entries.ofList_eq_self hkeys]

theorem ofText?_render (expr : Expr) :
    Json.ofText? expr.render =
      if expr.nesting ≤ Json.maxNesting then some expr.toJson else none := by
  rw [render, Json.ofText?_toText (noNumber_toJson expr), nesting_toJson]

/-- The text of an expression is read back as that expression, unless it nests too deep. -/
theorem parse_render_eq {expr : Expr} (h : expr.Distinct) :
    parse expr.render =
      if expr.nesting ≤ Json.maxNesting then .ok expr else .error .malformed := by
  rw [parse, ofText?_render]
  by_cases hle : expr.nesting ≤ Json.maxNesting
  · rw [if_pos hle, if_pos hle]
    exact (congrArg ofJson (dedup_toJson h)).trans (ofJson_toJson expr)
  · rw [if_neg hle, if_neg hle]

theorem ofJsonStrictItems?_itemsToJson {items : List Expr}
    (h : ∀ item ∈ items, ofJsonStrict? item.toJson = some item) :
    ofJsonStrictItems? (itemsToJson items) = some items := by
  induction items with
  | nil => rfl
  | cons item rest ih =>
      obtain ⟨hitem, hrest⟩ := List.forall_mem_cons.mp h
      rw [itemsToJson, ofJsonStrictItems?, hitem, ih hrest]
      rfl

theorem ofJsonStrictEntries?_entriesToJson {entries : List (Name × Expr)}
    (h : ∀ entry ∈ entries, ofJsonStrict? entry.2.toJson = some entry.2) :
    ofJsonStrictEntries? (entriesToJson entries) = some entries := by
  induction entries with
  | nil => rfl
  | cons entry rest ih =>
      obtain ⟨key, value⟩ := entry
      obtain ⟨hvalue, hrest⟩ := List.forall_mem_cons.mp h
      rw [entriesToJson, ofJsonStrictEntries?, hvalue, ih hrest]
      rfl

/-- The strict reading also takes the value of an expression for that expression, if its selections
repeat no key. -/
theorem ofJsonStrict?_toJson {expr : Expr} (h : expr.Distinct) :
    ofJsonStrict? expr.toJson = some expr := by
  induction expr using induct with
  | empty | name => rfl
  | list items ih =>
      have hitems := distinctItems_iff.mp h
      rw [toJson, ofJsonStrict?,
        ofJsonStrictItems?_itemsToJson fun item hmem => ih item hmem (hitems item hmem)]
      rfl
  | selection entries ih =>
      obtain ⟨hnodup, hentries⟩ := h
      have hvalues := distinctEntries_iff.mp hentries
      rw [toJson, ofJsonStrict?,
        ofJsonStrictEntries?_entriesToJson fun entry hmem => ih entry hmem (hvalues entry hmem)]
      exact congrArg (fun entries => some (selection entries)) (Entries.ofList_eq_self hnodup)

/-- The strict reading takes the text of an expression back to the expression under the same
condition. -/
theorem parseStrict?_render_eq {expr : Expr} (h : expr.Distinct) :
    parseStrict? expr.render = if expr.nesting ≤ Json.maxNesting then some expr else none := by
  rw [parseStrict?, ofText?_render]
  by_cases hle : expr.nesting ≤ Json.maxNesting
  · rw [if_pos hle, if_pos hle, Option.bind_some, ofJsonStrict?_toJson h]
  · rw [if_neg hle, if_neg hle, Option.bind_none]

/-- An expression read from a text nests no deeper than a text may. -/
theorem nesting_le_of_parse {text : String} {expr : Expr} (h : parse text = .ok expr) :
    expr.nesting ≤ Json.maxNesting := by
  unfold parse at h
  split at h
  · cases h
  · next json htext =>
      rw [nesting_of_ofJson h]
      exact Nat.le_trans (Json.nesting_dedup_le json) (Json.nesting_le_of_ofText? htext)

/-- Whatever its names, an expression in which lists and selections nest at most 127 deep is read
back from its text by both readers, and the text of one that nests deeper is refused as malformed.
An expression that has been read from some text is read back from its own. -/
theorem parse_render :
    (∀ expr : Expr, expr.Distinct →
      (expr.nesting ≤ 127 → parse expr.render = .ok expr ∧ parseStrict? expr.render = some expr) ∧
      (127 < expr.nesting →
        parse expr.render = .error .malformed ∧ parseStrict? expr.render = none)) ∧
    ∀ text expr, parse text = .ok expr →
      parse expr.render = .ok expr ∧ parseStrict? expr.render = some expr := by
  have hreads (expr : Expr) (hdistinct : expr.Distinct) (hle : expr.nesting ≤ Json.maxNesting) :
      parse expr.render = .ok expr ∧ parseStrict? expr.render = some expr := by
    rw [parse_render_eq hdistinct, parseStrict?_render_eq hdistinct, if_pos hle, if_pos hle]
    exact ⟨rfl, rfl⟩
  refine ⟨fun expr hdistinct => ⟨hreads expr hdistinct, fun hlt => ?_⟩, fun text expr h => ?_⟩
  · have hdeep : ¬ expr.nesting ≤ Json.maxNesting := Nat.not_le_of_lt hlt
    rw [parse_render_eq hdistinct, parseStrict?_render_eq hdistinct, if_neg hdeep, if_neg hdeep]
    exact ⟨rfl, rfl⟩
  · exact hreads expr (distinct_of_parse h) (nesting_le_of_parse h)

/-- A quotation mark, a backslash and a null character in names, and the three expressions that
select nothing side by side. -/
def quoted : Expr :=
  .selection [(⟨"\"\\"⟩, .list [.empty, .list [], .selection []]), (⟨"\x00"⟩, .name ⟨"é"⟩)]

/-- Nothing, inside so many lists. -/
def enclosed : Nat → Expr
  | 0 => .empty
  | levels + 1 => .list [enclosed levels]

theorem distinct_enclosed (levels : Nat) : (enclosed levels).Distinct := by
  induction levels with
  | zero => trivial
  | succ levels ih => exact ⟨ih, trivial⟩

theorem nesting_enclosed (levels : Nat) : (enclosed levels).nesting = levels := by
  induction levels with
  | zero => rfl
  | succ levels ih => rw [enclosed, nesting, nestingItems, nestingItems, ih, Nat.max_zero]

theorem parse_render_enclosed :
    quoted.Distinct ∧ quoted.nesting = 3 ∧ parse quoted.render = .ok quoted ∧
      parseStrict? quoted.render = some quoted ∧
      parse (enclosed 127).render = .ok (enclosed 127) ∧
      parse (enclosed 128).render = .error .malformed := by
  have hquoted : quoted.Distinct :=
    ⟨by decide, ⟨trivial, trivial, ⟨List.nodup_nil, trivial⟩, trivial⟩, trivial, trivial⟩
  obtain ⟨hparse, hstrict⟩ := (parse_render.1 quoted hquoted).1 (by decide)
  have hfits := (parse_render.1 _ (distinct_enclosed 127)).1 (Nat.le_of_eq (nesting_enclosed 127))
  have hdeep := (parse_render.1 _ (distinct_enclosed 128)).2
    (Nat.le_of_eq (nesting_enclosed 128).symm)
  exact ⟨hquoted, rfl, hparse, hstrict, hfits.1, hdeep.1⟩

end Expr

end FieldSelection
