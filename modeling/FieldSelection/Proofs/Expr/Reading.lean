import FieldSelection.Proofs.Expr.CacheKey
import FieldSelection.Proofs.Json.Kinds

/-!
# Which texts are expressions

Booleans and numbers mean nothing as expressions. A value without repeated keys is read, or refused
for the first boolean or number in it (`judged_ofJson`). The strict reader wants no boolean and no
number anywhere in a document, replaced values included (`exists_ofJsonStrict?_iff`), and where it
finds none it returns what the other reader does (`ofJson_dedup_of_ofJsonStrict?`).
-/

namespace FieldSelection

/-- Whether the values of a kind mean nothing as expressions. -/
def Json.Kind.Meaningless (kind : Json.Kind) : Prop :=
  kind = .boolean ∨ kind = .number

instance : DecidablePred Json.Kind.Meaningless :=
  fun kind => inferInstanceAs (Decidable (kind = .boolean ∨ kind = .number))

namespace Expr

variable {α β : Type} {kinds more : List Json.Kind} {kind : Json.Kind}

/-! ## The first value without a meaning -/

/-- What becomes of values of some kinds: they are read if all of them have a meaning, and otherwise
refused for the first that has none. -/
def Judged (kinds : List Json.Kind) (outcome : Except ReadError α) : Prop :=
  match kinds.find? (·.Meaningless) with
  | none => ∃ a, outcome = .ok a
  | some kind => outcome = .error (.invalidShape kind)

theorem judged_nil (a : α) : Judged [] (.ok a) :=
  ⟨a, rfl⟩

theorem Judged.map {outcome : Except ReadError α} (h : Judged kinds outcome) (f : α → β) :
    Judged kinds (outcome.map f) := by
  unfold Judged at h ⊢
  split at h
  · obtain ⟨a, rfl⟩ := h
    exact ⟨f a, rfl⟩
  · rw [h]
    rfl

/-- Reading goes on only after what has a meaning. -/
theorem Judged.bind {outcome : Except ReadError α} {f : α → Except ReadError β}
    (h : Judged kinds outcome) (hf : ∀ a, Judged more (f a)) :
    Judged (kinds ++ more) (outcome >>= f) := by
  unfold Judged at h ⊢
  rw [List.find?_append]
  split at h
  · next hnone =>
      obtain ⟨a, rfl⟩ := h
      rw [hnone, Option.none_or]
      exact hf a
  · next hsome =>
      rw [hsome, h]
      rfl

theorem Judged.cons {outcome : Except ReadError α} (h : Judged kinds outcome)
    (hkind : ¬ kind.Meaningless) : Judged (kind :: kinds) outcome := by
  unfold Judged at h ⊢
  rwa [List.find?_cons_of_neg (by simpa using hkind)]

theorem Judged.exists_iff {outcome : Except ReadError α} (h : Judged kinds outcome) :
    (∃ a, outcome = .ok a) ↔ ∀ kind ∈ kinds, ¬ kind.Meaningless := by
  unfold Judged at h
  split at h
  · next hnone => exact iff_of_true h (by simpa using hnone)
  · next kind hsome =>
      have hmem := List.mem_of_find?_eq_some hsome
      have hkind : kind.Meaningless := by simpa using List.find?_some hsome
      exact iff_of_false (by simp [h]) fun hall => hall kind hmem hkind

theorem Judged.eq_invalidShape {error : ReadError} (h : Judged kinds (.error error : Except _ α)) :
    ∃ kind, kinds.find? (·.Meaningless) = some kind ∧ error = .invalidShape kind := by
  unfold Judged at h
  split at h
  · obtain ⟨a, h⟩ := h
    cases h
  · next kind hsome => exact ⟨kind, hsome, Except.error.inj h⟩

theorem judged_ofJsonItems {items : List (Json String)}
    (h : ∀ item ∈ items, Judged item.kinds (ofJson item)) :
    Judged (Json.itemKinds items) (ofJsonItems items) := by
  induction items with
  | nil => exact judged_nil []
  | cons item rest ih =>
      obtain ⟨hitem, hrest⟩ := List.forall_mem_cons.mp h
      rw [Json.itemKinds, ← List.append_nil (Json.itemKinds rest)]
      exact hitem.bind fun expr => (ih hrest).bind fun exprs => judged_nil (expr :: exprs)

theorem judged_ofJsonEntries {entries : List (String × Json String)}
    (h : ∀ entry ∈ entries, Judged entry.2.kinds (ofJson entry.2)) :
    Judged (Json.entryKinds entries) (ofJsonEntries entries) := by
  induction entries with
  | nil => exact judged_nil []
  | cons entry rest ih =>
      obtain ⟨key, value⟩ := entry
      obtain ⟨hvalue, hrest⟩ := List.forall_mem_cons.mp h
      rw [Json.entryKinds, ← List.append_nil (Json.entryKinds rest)]
      exact hvalue.bind fun expr =>
        (ih hrest).bind fun pairs => judged_nil ((Name.mk key, expr) :: pairs)

/-- A value without repeated keys is read, or refused for the first boolean or number within it. -/
theorem judged_ofJson (json : Json String) : Judged json.kinds (ofJson json) := by
  induction json using Json.induct with
  | null => exact (judged_nil _).cons (by decide)
  | string text => exact (judged_nil _).cons (by decide)
  | bool | number => rfl
  | array items ih => exact ((judged_ofJsonItems ih).map list).cons (by decide)
  | object entries ih => exact ((judged_ofJsonEntries ih).map selection).cons (by decide)

/-! ## The strict reader -/

theorem exists_bind_cons_iff {a? : Option α} {as? : Option (List β)} {f : α → β} :
    (∃ bs, (do return f (← a?) :: (← as?)) = some bs) ↔
      (∃ a, a? = some a) ∧ ∃ as, as? = some as := by
  cases a? <;> cases as? <;> simp

theorem exists_ofJsonStrictItems?_iff {items : List (Json String)}
    (h : ∀ item ∈ items, (∃ expr, ofJsonStrict? item = some expr) ↔
      ∀ kind ∈ item.kinds, ¬ kind.Meaningless) :
    (∃ exprs, ofJsonStrictItems? items = some exprs) ↔
      ∀ kind ∈ Json.itemKinds items, ¬ kind.Meaningless := by
  induction items with
  | nil => exact iff_of_true ⟨[], rfl⟩ (List.forall_mem_nil _)
  | cons item rest ih =>
      obtain ⟨hitem, hrest⟩ := List.forall_mem_cons.mp h
      rw [ofJsonStrictItems?, Json.itemKinds, List.forall_mem_append, ← hitem, ← ih hrest]
      exact exists_bind_cons_iff (f := id)

theorem exists_ofJsonStrictEntries?_iff {entries : List (String × Json String)}
    (h : ∀ entry ∈ entries, (∃ expr, ofJsonStrict? entry.2 = some expr) ↔
      ∀ kind ∈ entry.2.kinds, ¬ kind.Meaningless) :
    (∃ pairs, ofJsonStrictEntries? entries = some pairs) ↔
      ∀ kind ∈ Json.entryKinds entries, ¬ kind.Meaningless := by
  induction entries with
  | nil => exact iff_of_true ⟨[], rfl⟩ (List.forall_mem_nil _)
  | cons entry rest ih =>
      obtain ⟨key, value⟩ := entry
      obtain ⟨hvalue, hrest⟩ := List.forall_mem_cons.mp h
      rw [ofJsonStrictEntries?, Json.entryKinds, List.forall_mem_append, ← hvalue, ← ih hrest]
      exact exists_bind_cons_iff (f := Prod.mk (Name.mk key))

/-- The strict reader takes a value exactly when no boolean and no number occurs in it, not even
under a key that is repeated later. -/
theorem exists_ofJsonStrict?_iff (json : Json String) :
    (∃ expr, ofJsonStrict? json = some expr) ↔ ∀ kind ∈ json.kinds, ¬ kind.Meaningless := by
  induction json using Json.induct with
  | null | bool | number | string => simp [ofJsonStrict?, Json.kinds, Json.Kind.Meaningless]
  | array items ih =>
      have harray : ¬ Json.Kind.array.Meaningless := by decide
      rw [Json.kinds, List.forall_mem_cons, ← exists_ofJsonStrictItems?_iff ih, ofJsonStrict?]
      simp [harray]
  | object entries ih =>
      have hobject : ¬ Json.Kind.object.Meaningless := by decide
      rw [Json.kinds, List.forall_mem_cons, ← exists_ofJsonStrictEntries?_iff ih, ofJsonStrict?]
      simp [hobject]

theorem ofJsonItems_of_ofJsonStrictItems? {items : List (Json String)} {exprs : List Expr}
    (h : ∀ item ∈ items, ∀ expr, ofJsonStrict? item = some expr → ofJson item.dedup = .ok expr)
    (hstrict : ofJsonStrictItems? items = some exprs) :
    ofJsonItems (Json.dedupItems items) = .ok exprs := by
  induction items generalizing exprs with
  | nil =>
      cases hstrict
      rfl
  | cons item rest ih =>
      obtain ⟨hitem, hrest⟩ := List.forall_mem_cons.mp h
      obtain ⟨expr, hexpr, hstrict⟩ := Option.bind_eq_some_iff.mp hstrict
      obtain ⟨others, hothers, hstrict⟩ := Option.bind_eq_some_iff.mp hstrict
      cases hstrict
      rw [Json.dedupItems, ofJsonItems, hitem expr hexpr, ih hrest hothers]
      rfl

theorem forall₂_of_ofJsonStrictEntries? {entries : List (String × Json String)}
    {pairs : List (Name × Expr)}
    (h : ∀ entry ∈ entries, ∀ expr, ofJsonStrict? entry.2 = some expr →
      ofJson entry.2.dedup = .ok expr)
    (hstrict : ofJsonStrictEntries? entries = some pairs) :
    List.Forall₂ (fun value entry => ⟨value.1⟩ = entry.1 ∧ ofJson value.2 = .ok entry.2)
      (Json.dedupEntries entries) pairs := by
  induction entries generalizing pairs with
  | nil =>
      cases hstrict
      exact .nil
  | cons entry rest ih =>
      obtain ⟨key, value⟩ := entry
      obtain ⟨hvalue, hrest⟩ := List.forall_mem_cons.mp h
      obtain ⟨expr, hexpr, hstrict⟩ := Option.bind_eq_some_iff.mp hstrict
      obtain ⟨others, hothers, hstrict⟩ := Option.bind_eq_some_iff.mp hstrict
      cases hstrict
      exact .cons ⟨rfl, hvalue expr hexpr⟩ (ih hrest hothers)

theorem ofJsonEntries_of_forall₂ {values : List (String × Json String)}
    {entries : List (Name × Expr)}
    (h : List.Forall₂ (fun value entry => ⟨value.1⟩ = entry.1 ∧ ofJson value.2 = .ok entry.2)
      values entries) : ofJsonEntries values = .ok entries := by
  induction h with
  | nil => rfl
  | @cons value entry values entries hentry _ ih =>
      obtain ⟨hkey, hvalue⟩ := hentry
      rw [ofJsonEntries, hvalue, ih, hkey]
      rfl

/-- What the strict reader takes is read as the same expression once repeated keys are resolved. -/
theorem ofJson_dedup_of_ofJsonStrict? {json : Json String} {expr : Expr}
    (h : ofJsonStrict? json = some expr) : ofJson json.dedup = .ok expr := by
  induction json using Json.induct generalizing expr with
  | null | string =>
      cases h
      rfl
  | bool | number => cases h
  | array items ih =>
      obtain ⟨exprs, hexprs, rfl⟩ := Option.map_eq_some_iff.mp h
      have hitems := ofJsonItems_of_ofJsonStrictItems? (fun item hmem _ => ih item hmem) hexprs
      rw [Json.dedup, ofJson, hitems]
      rfl
  | object entries ih =>
      obtain ⟨pairs, hpairs, rfl⟩ := Option.map_eq_some_iff.mp h
      have hvalues := forall₂_of_ofJsonStrictEntries? (fun entry hmem _ => ih entry hmem) hpairs
      -- Keys are repeated among the names where they are among the texts.
      have hnames : Name.mk.Injective := fun _ _ => congrArg Name.text
      have hlast := Entries.forall₂_ofList
        (r := fun value expr => ofJson value = .ok expr) hnames hvalues
      rw [Json.dedup, ofJson, ofJsonEntries_of_forall₂ hlast]
      rfl

/-! ## Texts -/

theorem exists_parseStrict?_iff {text : String} :
    (∃ expr, parseStrict? text = some expr) ↔
      ∃ json, Json.ofText? text = some json ∧ ∀ kind ∈ json.kinds, ¬ kind.Meaningless := by
  rw [parseStrict?]
  cases Json.ofText? text with
  | none => simp
  | some json => simpa using exists_ofJsonStrict?_iff json

theorem parse_of_ofText?_eq_none {text : String} (h : Json.ofText? text = none) :
    parse text = .error .malformed := by
  rw [parse, h]

/-- What survives in a text is read, or the text is refused for the first boolean or number among
it. -/
theorem judged_parse {text : String} {json : Json String} (h : Json.ofText? text = some json) :
    Judged json.survivingKinds (parse text) := by
  rw [parse, h, ← Json.kinds_dedup]
  exact judged_ofJson json.dedup

theorem exists_parse_iff {text : String} :
    (∃ expr, parse text = .ok expr) ↔
      ∃ json, Json.ofText? text = some json ∧ ∀ kind ∈ json.survivingKinds, ¬ kind.Meaningless := by
  cases h : Json.ofText? text with
  | none => simp [parse_of_ofText?_eq_none h]
  | some json => simpa using (judged_parse h).exists_iff

theorem parse_of_parseStrict? {text : String} {expr : Expr} (h : parseStrict? text = some expr) :
    parse text = .ok expr := by
  obtain ⟨json, hjson, hexpr⟩ := Option.bind_eq_some_iff.mp h
  rw [parse, hjson]
  exact ofJson_dedup_of_ofJsonStrict? hexpr

/-- Both readers want a text that is JSON. The strict one takes it exactly when none of its values
is a boolean or a number, those that a later entry with the same key replaces included; the other
one when no boolean and no number survives in it. Whatever the strict reader takes, the other reads
as the same expression. What the other one refuses, although it is JSON, it refuses for the kind of
the first boolean or number that survives. -/
theorem readers_agree (text : String) :
    ((∃ expr, parseStrict? text = some expr) ↔
      ∃ json, Json.ofText? text = some json ∧ ∀ kind ∈ json.kinds, ¬ kind.Meaningless) ∧
    ((∃ expr, parse text = .ok expr) ↔
      ∃ json, Json.ofText? text = some json ∧
        ∀ kind ∈ json.survivingKinds, ¬ kind.Meaningless) ∧
    (∀ expr, parseStrict? text = some expr → parse text = .ok expr) ∧
    ∀ json error, Json.ofText? text = some json → parse text = .error error →
      ∃ kind, json.survivingKinds.find? (·.Meaningless) = some kind ∧
        error = .invalidShape kind := by
  refine ⟨exists_parseStrict?_iff, exists_parse_iff, fun expr => parse_of_parseStrict?, ?_⟩
  intro json error hjson herror
  have hjudged := judged_parse hjson
  rw [herror] at hjudged
  exact hjudged.eq_invalidShape

/-- A text in which values without a meaning are replaced, one of them by another such value. -/
def overwritten : String :=
  "\x7b\"a\":[true],\"b\":\x7b\"c\":false,\"c\":null,\"d\":false\x7d,\"a\":-2.5\x7d"

/-- A text that repeats a key under another spelling, with a meaning for every value. -/
def respelled : String :=
  "\x7b\"a\":\x7b\"b\":null\x7d,\"c\":\"d\",\"\\u0061\":[\"e\"]\x7d"

/-- What both readers take that text for. -/
def lastWritten : Expr :=
  .selection [(⟨"a"⟩, .list [.name ⟨"e"⟩]), (⟨"c"⟩, .name ⟨"d"⟩)]

theorem readers_agree_overwritten :
    (∃ json, Json.ofText? overwritten = some json ∧
      json.survivingKinds = [.object, .number, .object, .null, .boolean]) ∧
    parseStrict? overwritten = none ∧ parse overwritten = .error (.invalidShape .number) ∧
    parseStrict? respelled = some lastWritten ∧ parse respelled = .ok lastWritten := by
  have hread : (Json.ofText? overwritten).map (fun json => (json.kinds, json.survivingKinds)) =
      some ([.object, .array, .boolean, .object, .boolean, .null, .boolean, .number],
        [.object, .number, .object, .null, .boolean]) := by decide +kernel
  obtain ⟨json, hjson, hkinds⟩ := Option.map_eq_some_iff.mp hread
  obtain ⟨hall, hsurviving⟩ := Prod.mk.inj hkinds
  obtain ⟨hstrict, hparse, _, hfirst⟩ := readers_agree overwritten
  refine ⟨⟨json, hjson, hsurviving⟩, ?_, ?_, ?_⟩
  · cases h : parseStrict? overwritten with
    | none => rfl
    | some expr =>
        obtain ⟨_, hsame, hmeaning⟩ := hstrict.mp ⟨expr, h⟩
        obtain rfl := Option.some.inj (hjson.symm.trans hsame)
        exact absurd (hmeaning .boolean (by simp [hall])) (by decide)
  · cases h : parse overwritten with
    | ok expr =>
        obtain ⟨_, hsame, hmeaning⟩ := hparse.mp ⟨expr, h⟩
        obtain rfl := Option.some.inj (hjson.symm.trans hsame)
        exact absurd (hmeaning .number (by simp [hsurviving])) (by decide)
    | error error =>
        obtain ⟨kind, hkind, rfl⟩ := hfirst json error hjson h
        rw [hsurviving] at hkind
        cases hkind
        rfl
  · have hread : (parseStrict? respelled).map render = some lastWritten.render := by decide +kernel
    obtain ⟨expr, hexpr, hrender⟩ := Option.map_eq_some_iff.mp hread
    obtain rfl := render_injective hrender
    exact ⟨hexpr, (readers_agree respelled).2.2.1 _ hexpr⟩

end Expr

end FieldSelection
