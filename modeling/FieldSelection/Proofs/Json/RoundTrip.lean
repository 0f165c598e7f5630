import FieldSelection.Json.Text

/-!
# Reading back the text of a value

A value without numbers is read back from its own text if its arrays and objects do not nest too
deep, and otherwise its text is refused (`ofText?_toText`). Two such values with one text are the
same, however deep they nest (`toText_injective`). Reading goes through a copy of the value in which
strings are spelled, so that the steps are these: the tokens of the copy are those that the text is
scanned to (`tokens_map`), the copy nests as the value does (`nesting_map`), and the value is what
the copy decodes to (`decode?_map_spelling`).
-/

namespace FieldSelection.Json

variable {σ τ : Type}

@[elab_as_elim]
theorem induct {motive : Json τ → Prop} (null : motive .null) (bool : ∀ value, motive (.bool value))
    (number : ∀ literal, motive (.number literal)) (string : ∀ text, motive (.string text))
    (array : ∀ items, (∀ item ∈ items, motive item) → motive (.array items))
    (object : ∀ entries, (∀ entry ∈ entries, motive entry.2) → motive (.object entries))
    (json : Json τ) : motive json :=
  Json.rec (motive_1 := motive) (motive_2 := fun items => ∀ item ∈ items, motive item)
    (motive_3 := fun entries => ∀ entry ∈ entries, motive entry.2)
    (motive_4 := fun entry => motive entry.2)
    null bool number string (fun _ => array _) (fun _ => object _)
    (by simp) (fun _ _ h hs => by simpa using ⟨h, hs⟩)
    (by simp) (fun _ _ h hs => by simpa using ⟨h, fun a b hab => hs (a, b) hab⟩)
    (fun _ _ h => h) json

/-! ## Tokens -/

theorem itemTokens_eq_map (items : List (Json τ)) : itemTokens items = items.map tokens := by
  induction items with
  | nil => rfl
  | cons item rest ih => rw [itemTokens, ih, List.map_cons]

theorem entryTokens_eq_map (entries : List (τ × Json τ)) :
    entryTokens entries =
      entries.map fun entry => .string entry.1 :: .colon :: entry.2.tokens := by
  induction entries with
  | nil => rfl
  | cons entry rest ih => rw [entryTokens, ih, List.map_cons]

/-- What holds of a comma holds of all tokens of some parts with commas between them, if it does of
all tokens of the parts. -/
theorem forall_mem_intercalate_comma_iff {p : Token τ → Prop} {parts : List (List (Token τ))}
    (hcomma : p .comma) : (∀ token ∈ [Token.comma].intercalate parts, p token) ↔
      ∀ part ∈ parts, ∀ token ∈ part, p token := by
  induction parts with
  | nil => simp
  | cons part rest ih =>
      cases rest with
      | nil => simp
      | cons next more =>
          rw [List.intercalate_cons_cons, List.forall_mem_append, List.forall_mem_append, ih,
            List.forall_mem_singleton, List.forall_mem_cons (a := part)]
          simp [hcomma]

/-- The same with a token before and a token after the parts. -/
theorem forall_mem_enclosed_iff {p : Token τ → Prop} {opening closing : Token τ}
    {parts : List (List (Token τ))} (hopening : p opening) (hclosing : p closing)
    (hcomma : p .comma) :
    (∀ token ∈ opening :: ([Token.comma].intercalate parts ++ [closing]), p token) ↔
      ∀ part ∈ parts, ∀ token ∈ part, p token := by
  rw [List.forall_mem_cons, List.forall_mem_append, List.forall_mem_singleton,
    forall_mem_intercalate_comma_iff hcomma]
  simp [hopening, hclosing]

/-- Whether no number occurs in a value. -/
def NoNumber (json : Json τ) : Prop :=
  ∀ token ∈ json.tokens, ∀ literal, token ≠ .number literal

theorem noNumber_array_iff {items : List (Json τ)} :
    (Json.array items).NoNumber ↔ ∀ item ∈ items, item.NoNumber := by
  rw [NoNumber, tokens, itemTokens_eq_map, forall_mem_enclosed_iff nofun nofun nofun,
    List.forall_mem_map]
  rfl

theorem noNumber_object_iff {entries : List (τ × Json τ)} :
    (Json.object entries).NoNumber ↔ ∀ entry ∈ entries, NoNumber entry.2 := by
  rw [NoNumber, tokens, entryTokens_eq_map, forall_mem_enclosed_iff nofun nofun nofun,
    List.forall_mem_map]
  refine forall₂_congr fun entry _ => ?_
  rw [List.forall_mem_cons, List.forall_mem_cons, NoNumber]
  simp

/-! ## The copy with strings spelled -/

mutual
/-- The value with its strings turned into others, those under which entries stand included. -/
def map (f : σ → τ) : Json σ → Json τ
  | .null => .null
  | .bool value => .bool value
  | .number literal => .number literal
  | .string text => .string (f text)
  | .array items => .array (mapItems f items)
  | .object entries => .object (mapEntries f entries)

/-- The items with their strings turned into others. -/
def mapItems (f : σ → τ) : List (Json σ) → List (Json τ)
  | [] => []
  | item :: rest => map f item :: mapItems f rest

/-- The entries with their strings turned into others. -/
def mapEntries (f : σ → τ) : List (σ × Json σ) → List (τ × Json τ)
  | [] => []
  | (key, value) :: rest => (f key, map f value) :: mapEntries f rest
end

theorem mapItems_eq_map (f : σ → τ) (items : List (Json σ)) :
    mapItems f items = items.map (map f) := by
  induction items with
  | nil => rfl
  | cons item rest ih => rw [mapItems, ih, List.map_cons]

theorem mapEntries_eq_map (f : σ → τ) (entries : List (σ × Json σ)) :
    mapEntries f entries = entries.map fun entry => (f entry.1, entry.2.map f) := by
  induction entries with
  | nil => rfl
  | cons entry rest ih => rw [mapEntries, ih, List.map_cons]

theorem map_intercalate_comma (f : σ → τ) (parts : List (List (Token σ))) :
    ([Token.comma].intercalate parts).map (Token.map f) =
      [Token.comma].intercalate (parts.map (List.map (Token.map f))) := by
  induction parts with
  | nil => rfl
  | cons part rest ih =>
      cases rest with
      | nil => simp
      | cons next more =>
          rw [List.map_cons, List.map_cons, List.intercalate_cons_cons, List.intercalate_cons_cons,
            List.map_append, List.map_append, ih]
          rfl

/-- The tokens of the copy are those of the value, with their strings turned into others. -/
theorem tokens_map (f : σ → τ) (json : Json σ) :
    (json.map f).tokens = json.tokens.map (Token.map f) := by
  induction json using induct with
  | null | bool | number | string => rfl
  | array items ih =>
      have hitems : itemTokens (mapItems f items) =
          (itemTokens items).map (List.map (Token.map f)) := by
        rw [mapItems_eq_map, itemTokens_eq_map, itemTokens_eq_map, List.map_map, List.map_map]
        exact List.map_congr_left ih
      rw [map, tokens, tokens, hitems, ← map_intercalate_comma]
      simp [Token.map]
  | object entries ih =>
      have hentries : entryTokens (mapEntries f entries) =
          (entryTokens entries).map (List.map (Token.map f)) := by
        rw [mapEntries_eq_map, entryTokens_eq_map, entryTokens_eq_map, List.map_map, List.map_map]
        refine List.map_congr_left fun entry hmem => ?_
        exact congrArg (fun rest => .string (f entry.1) :: .colon :: rest) (ih entry hmem)
      rw [map, tokens, tokens, hentries, ← map_intercalate_comma]
      simp [Token.map]

mutual
theorem nesting_map (f : σ → τ) (json : Json σ) : (json.map f).nesting = json.nesting := by
  match json with
  | .null | .bool _ | .number _ | .string _ => rfl
  | .array items => exact congrArg (· + 1) (nestingItems_mapItems f items)
  | .object entries => exact congrArg (· + 1) (nestingEntries_mapEntries f entries)

theorem nestingItems_mapItems (f : σ → τ) (items : List (Json σ)) :
    nestingItems (mapItems f items) = nestingItems items := by
  match items with
  | [] => rfl
  | item :: rest =>
      rw [mapItems, nestingItems, nestingItems, nesting_map f item, nestingItems_mapItems f rest]

theorem nestingEntries_mapEntries (f : σ → τ) (entries : List (σ × Json σ)) :
    nestingEntries (mapEntries f entries) = nestingEntries entries := by
  match entries with
  | [] => rfl
  | (_, value) :: rest =>
      rw [mapEntries, nestingEntries, nestingEntries, nesting_map f value,
        nestingEntries_mapEntries f rest]
end

/-- How the text of a string is spelled. -/
def spelling (text : String) : Spelling :=
  text.toList.map spell

theorem decodeItems?_mapItems {items : List (Json String)}
    (h : ∀ item ∈ items, decode? (item.map spelling) = some item) :
    decodeItems? (mapItems spelling items) = some items := by
  induction items with
  | nil => rfl
  | cons item rest ih =>
      obtain ⟨hitem, hrest⟩ := List.forall_mem_cons.mp h
      rw [mapItems, decodeItems?, hitem, ih hrest]
      rfl

theorem decodeEntries?_mapEntries {entries : List (String × Json String)}
    (h : ∀ entry ∈ entries, decode? (entry.2.map spelling) = some entry.2) :
    decodeEntries? (mapEntries spelling entries) = some entries := by
  induction entries with
  | nil => rfl
  | cons entry rest ih =>
      obtain ⟨key, value⟩ := entry
      obtain ⟨hvalue, hrest⟩ := List.forall_mem_cons.mp h
      have hkey : (spelling key).decode? = some key := decode?_spell key
      rw [mapEntries, decodeEntries?, hkey, hvalue, ih hrest]
      rfl

/-- A value without numbers is what its copy decodes to. -/
theorem decode?_map_spelling {json : Json String} (h : json.NoNumber) :
    decode? (json.map spelling) = some json := by
  induction json using induct with
  | null | bool => rfl
  | number literal => exact absurd rfl (h _ List.mem_cons_self literal)
  | string text => exact congrArg (Option.map string) (decode?_spell text)
  | array items ih =>
      have hitems := noNumber_array_iff.mp h
      rw [map, decode?, decodeItems?_mapItems fun item hmem => ih item hmem (hitems item hmem)]
      rfl
  | object entries ih =>
      have hentries := noNumber_object_iff.mp h
      rw [map, decode?,
        decodeEntries?_mapEntries fun entry hmem => ih entry hmem (hentries entry hmem)]
      rfl

/-! ## Texts -/

/-- The text of a value without numbers is read as the copy of the value. -/
theorem Document.ofText?_toText {json : Json String} (h : json.NoNumber) :
    Document.ofText? json.toText = some (json.map spelling) := by
  rw [ofText?, toText, String.toList_ofList, write, Token.scan?_flatMap_write h, Option.bind_some]
  exact (congrArg ofTokens? (tokens_map spelling json).symm).trans (ofTokens?_tokens _)

/-- A value without numbers is read back from its text, unless it nests too deep. -/
theorem ofText?_toText {json : Json String} (h : json.NoNumber) :
    ofText? json.toText = if json.nesting ≤ maxNesting then some json else none := by
  rw [ofText?, Document.ofText?_toText h]
  show (if (json.map spelling).nesting ≤ maxNesting then (json.map spelling).decode?
    else none) = _
  rw [nesting_map, decode?_map_spelling h]

/-- Two values without numbers that have the same text are the same. -/
theorem toText_injective {a b : Json String} (ha : a.NoNumber) (hb : b.NoNumber)
    (h : a.toText = b.toText) : a = b := by
  have hcopy := Document.ofText?_toText ha
  rw [h, Document.ofText?_toText hb, Option.some.injEq] at hcopy
  have hdecoded := decode?_map_spelling ha
  rw [← hcopy, decode?_map_spelling hb, Option.some.injEq] at hdecoded
  exact hdecoded.symm

end FieldSelection.Json
