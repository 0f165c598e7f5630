import FieldSelection.Json.Basic
import FieldSelection.Json.Token

/-!
# JSON documents

A document arranges tokens into a value. `Json.tokens` lists the tokens of a value, and
`Document.ofTokens?` reads them back with a stack of the arrays and objects that are still open, so
that nesting is bounded by nothing but the text. Strings of any type are carried along unread.
`Document.ofTokens?_tokens` says that reading the tokens of a value returns the value.
-/

namespace FieldSelection.Json

variable {τ : Type}

mutual
/-- The tokens of a value. -/
def tokens : Json τ → List (Token τ)
  | .null => [.null]
  | .bool value => [.bool value]
  | .number literal => [.number literal]
  | .string text => [.string text]
  | .array items => .openArray :: ([.comma].intercalate (itemTokens items) ++ [.closeArray])
  | .object entries => .openObject :: ([.comma].intercalate (entryTokens entries) ++ [.closeObject])

/-- The tokens of each item. -/
def itemTokens : List (Json τ) → List (List (Token τ))
  | [] => []
  | item :: rest => tokens item :: itemTokens rest

/-- The tokens of each entry. -/
def entryTokens : List (τ × Json τ) → List (List (Token τ))
  | [] => []
  | (key, value) :: rest => (.string key :: .colon :: tokens value) :: entryTokens rest
end

namespace Document

/-- An array or object that is still open, with what precedes the value being read, latest
first. -/
inductive Frame (τ : Type) where
  | array (before : List (Json τ))
  | object (before : List (τ × Json τ)) (key : τ)

/-- What a document allows next. Every state lists the open arrays and objects, innermost first. -/
inductive State (τ : Type) where
  /-- A value. -/
  | value (frames : List (Frame τ))
  /-- The first item of an array, or its end. -/
  | firstItem (frames : List (Frame τ))
  /-- The first key of an object, or its end. -/
  | firstKey (frames : List (Frame τ))
  /-- A further key of an object. -/
  | nextKey (before : List (τ × Json τ)) (frames : List (Frame τ))
  /-- The colon after a key. -/
  | colon (before : List (τ × Json τ)) (key : τ) (frames : List (Frame τ))
  /-- What may follow a value. -/
  | complete (value : Json τ) (frames : List (Frame τ))

namespace State

/-- Reads the first token of a value. -/
def begin? (frames : List (Frame τ)) : Token τ → Option (State τ)
  | .null => some (complete .null frames)
  | .bool b => some (complete (.bool b) frames)
  | .number literal => some (complete (.number literal) frames)
  | .string text => some (complete (.string text) frames)
  | .openArray => some (firstItem frames)
  | .openObject => some (firstKey frames)
  | _ => none

/-- Reads one token. -/
def next? : State τ → Token τ → Option (State τ)
  | value frames, token => begin? frames token
  | firstItem frames, .closeArray => some (complete (.array []) frames)
  | firstItem frames, token => begin? (.array [] :: frames) token
  | firstKey frames, .closeObject => some (complete (.object []) frames)
  | firstKey frames, .string key => some (colon [] key frames)
  | nextKey before frames, .string key => some (colon before key frames)
  | colon before key frames, .colon => some (value (.object before key :: frames))
  | complete v (.array before :: frames), .comma => some (value (.array (v :: before) :: frames))
  | complete v (.array before :: frames), .closeArray =>
      some (complete (.array (v :: before).reverse) frames)
  | complete v (.object before key :: frames), .comma =>
      some (nextKey ((key, v) :: before) frames)
  | complete v (.object before key :: frames), .closeObject =>
      some (complete (.object ((key, v) :: before).reverse) frames)
  | _, _ => none

/-- Reads several tokens. -/
def run? (state : State τ) (tokens : List (Token τ)) : Option (State τ) :=
  tokens.foldlM next? state

/-- The value of a document that ends here. -/
def result? : State τ → Option (Json τ)
  | complete v [] => some v
  | _ => none

end State

/-- The value that the tokens of a document make up. -/
def ofTokens? (tokens : List (Token τ)) : Option (Json τ) :=
  ((State.value []).run? tokens).bind State.result?

theorem State.run?_nil (state : State τ) : state.run? [] = some state := rfl

theorem State.run?_cons (state : State τ) (token : Token τ) (rest : List (Token τ)) :
    state.run? (token :: rest) = (state.next? token).bind (·.run? rest) := rfl

theorem exists_tokens_eq_cons (json : Json τ) :
    ∃ token rest, json.tokens = token :: rest ∧ token ≠ .closeArray := by
  cases json <;> exact ⟨_, _, rfl, by simp⟩

theorem State.next?_firstItem {frames : List (Frame τ)} {token : Token τ}
    (h : token ≠ .closeArray) :
    next? (.firstItem frames) token = next? (.value (.array [] :: frames)) token := by
  cases token <;> first | rfl | exact absurd rfl h

/-- The first item of an array is read as every other one. -/
theorem State.run?_firstItem (json : Json τ) (rest : List (Token τ)) (frames : List (Frame τ)) :
    (State.firstItem frames).run? (json.tokens ++ rest) =
      (State.value (.array [] :: frames)).run? (json.tokens ++ rest) := by
  obtain ⟨token, more, htokens, htoken⟩ := exists_tokens_eq_cons json
  simp only [htokens, List.cons_append, State.run?_cons, State.next?_firstItem htoken]

theorem intercalate_itemTokens (item : Json τ) (items : List (Json τ)) :
    [Token.comma].intercalate (itemTokens (item :: items)) =
      item.tokens ++ (match items with
        | [] => []
        | _ => .comma :: [Token.comma].intercalate (itemTokens items)) := by
  cases items <;> simp [itemTokens, List.intercalate_cons_cons]

theorem intercalate_entryTokens (key : τ) (value : Json τ) (entries : List (τ × Json τ)) :
    [Token.comma].intercalate (entryTokens ((key, value) :: entries)) =
      .string key :: .colon :: (value.tokens ++ (match entries with
        | [] => []
        | _ => .comma :: [Token.comma].intercalate (entryTokens entries))) := by
  match entries with
  | [] => simp [entryTokens]
  | (_, _) :: _ => simp [entryTokens, List.intercalate_cons_cons]

mutual
/-- Reading the tokens of a value completes the value. -/
theorem run?_tokens (json : Json τ) (rest : List (Token τ)) (frames : List (Frame τ)) :
    (State.value frames).run? (json.tokens ++ rest) = (State.complete json frames).run? rest := by
  match json with
  | .null | .bool _ | .number _ | .string _ => rfl
  | .array [] => rfl
  | .array (item :: items) =>
    have h := run?_itemTokens item items rest [] frames
    rw [tokens, List.cons_append, State.run?_cons, List.append_assoc]
    refine Eq.trans ?_ h
    rw [intercalate_itemTokens, List.append_assoc]
    exact State.run?_firstItem item _ frames
  | .object [] => rfl
  | .object ((key, value) :: entries) =>
    have h := run?_entryTokens key value entries rest [] frames
    rw [tokens, List.cons_append, State.run?_cons, List.append_assoc]
    refine Eq.trans ?_ h
    rw [intercalate_entryTokens]
    rfl
termination_by sizeOf json

/-- Reading the items of an array and its end completes the array. -/
theorem run?_itemTokens (item : Json τ) (items : List (Json τ)) (rest : List (Token τ))
    (before : List (Json τ)) (frames : List (Frame τ)) :
    (State.value (.array before :: frames)).run?
        ([.comma].intercalate (itemTokens (item :: items)) ++ ([.closeArray] ++ rest)) =
      (State.complete (.array (before.reverse ++ item :: items)) frames).run? rest := by
  rw [intercalate_itemTokens, List.append_assoc, run?_tokens item]
  match items with
  | [] => simp [State.run?_cons, State.next?]
  | next :: more =>
    have h := run?_itemTokens next more rest (item :: before) frames
    rw [List.reverse_cons, List.append_assoc] at h
    rw [List.cons_append, State.run?_cons]
    exact h
termination_by sizeOf item + sizeOf items + 1

/-- Reading the entries of an object and its end completes the object. -/
theorem run?_entryTokens (key : τ) (value : Json τ) (entries : List (τ × Json τ))
    (rest : List (Token τ)) (before : List (τ × Json τ)) (frames : List (Frame τ)) :
    (State.nextKey before frames).run?
        ([.comma].intercalate (entryTokens ((key, value) :: entries)) ++
          ([.closeObject] ++ rest)) =
      (State.complete (.object (before.reverse ++ (key, value) :: entries)) frames).run? rest := by
  rw [intercalate_entryTokens, List.cons_append, List.cons_append, State.run?_cons,
    List.append_assoc]
  refine (run?_tokens value _ (.object before key :: frames)).trans ?_
  match entries with
  | [] => simp [State.run?_cons, State.next?]
  | (nextKey, next) :: more =>
    have h := run?_entryTokens nextKey next more rest ((key, value) :: before) frames
    rw [List.reverse_cons, List.append_assoc] at h
    rw [List.cons_append, State.run?_cons]
    exact h
termination_by sizeOf value + sizeOf entries + 1
end

theorem ofTokens?_tokens (json : Json τ) : ofTokens? json.tokens = some json := by
  have h := run?_tokens json [] []
  rw [List.append_nil, State.run?_nil] at h
  rw [ofTokens?, h]
  rfl

/-- The value that a text spells, its strings undecoded. -/
def ofText? (text : String) : Option (Json Spelling) :=
  (Token.scan? text.toList).bind ofTokens?

end Document

end FieldSelection.Json
