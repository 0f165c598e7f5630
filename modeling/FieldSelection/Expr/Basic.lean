import FieldSelection.Entries
import FieldSelection.Name

/-!
# Selection expressions

An expression is what a caller writes to say which fields of a resource it wants: nothing, a name,
a list of expressions in which order does not matter, or a selection that gives names an expression
for the resource beneath them. Names stand for fields or for aliases; an expression by itself does
not tell which. `Expr.induct` is induction with a hypothesis for every item and every value.
`Expr.Distinct` says that no selection repeats a key, and `distinct_select` that `select` makes such
selections.
-/

namespace FieldSelection

/-- A request for fields. -/
inductive Expr where
  /-- Nothing, or as the value of a selection a field without further selection. -/
  | empty
  | name (name : Name)
  | list (items : List Expr)
  /-- Entries in the order they were given, each key once. -/
  | selection (entries : List (Name × Expr))
deriving Inhabited

namespace Expr

@[elab_as_elim]
theorem induct {motive : Expr → Prop} (empty : motive .empty) (name : ∀ n, motive (.name n))
    (list : ∀ items, (∀ item ∈ items, motive item) → motive (.list items))
    (selection : ∀ entries, (∀ entry ∈ entries, motive entry.2) → motive (.selection entries))
    (expr : Expr) : motive expr :=
  Expr.rec (motive_1 := motive) (motive_2 := fun items => ∀ item ∈ items, motive item)
    (motive_3 := fun entries => ∀ entry ∈ entries, motive entry.2)
    (motive_4 := fun entry => motive entry.2)
    empty name (fun _ => list _) (fun _ => selection _)
    (by simp) (fun _ _ h hs => by simpa using ⟨h, hs⟩)
    (by simp) (fun _ _ h hs => by simpa using ⟨h, fun a b hab => hs (a, b) hab⟩)
    (fun _ _ h => h) expr

/-- The selection with the given entries, in which a repeated key keeps its first position and its
last value. -/
def select (entries : List (Name × Expr)) : Expr :=
  .selection (Entries.ofList entries)

/-- Whether an expression is `empty`, or a list or selection without members. -/
def isEmpty : Expr → Bool
  | .empty => true
  | .name _ => false
  | .list items => items.isEmpty
  | .selection entries => entries.isEmpty

/-- The name that an expression consists of. -/
def asName? : Expr → Option Name
  | .name n => some n
  | _ => none

mutual
/-- Whether an expression asks for a name at top level: as itself, inside lists, or as a key of a
selection. The values of a selection concern other resources and are left aside. -/
def mentions (n : Name) : Expr → Bool
  | .empty => false
  | .name m => m == n
  | .list items => mentionsAny n items
  | .selection entries => Entries.contains n entries

/-- Whether one of the items asks for a name at top level. -/
def mentionsAny (n : Name) : List Expr → Bool
  | [] => false
  | item :: rest => mentions n item || mentionsAny n rest
end

mutual
/-- Equality up to the order of the entries in each selection. -/
def same : Expr → Expr → Bool
  | .empty, .empty => true
  | .name a, .name b => a == b
  | .list as, .list bs => sameItems as bs
  | .selection as, .selection bs => as.length == bs.length && sameEntries as bs
  | _, _ => false

/-- Whether two lists agree item by item. -/
def sameItems : List Expr → List Expr → Bool
  | [], [] => true
  | a :: as, b :: bs => same a b && sameItems as bs
  | _, _ => false

/-- Whether every entry of the first selection has its like in the second. -/
def sameEntries : List (Name × Expr) → List (Name × Expr) → Bool
  | [], _ => true
  | (key, a) :: rest, bs =>
      (match bs.lookup key with
        | some b => same a b
        | none => false) && sameEntries rest bs
end

mutual
/-- Whether no selection within an expression repeats a key. -/
def Distinct : Expr → Prop
  | .empty => True
  | .name _ => True
  | .list items => DistinctItems items
  | .selection entries => (Entries.keys entries).Nodup ∧ DistinctEntries entries

/-- Whether no selection within the items repeats a key. -/
def DistinctItems : List Expr → Prop
  | [] => True
  | item :: rest => Distinct item ∧ DistinctItems rest

/-- Whether no selection within the values repeats a key. -/
def DistinctEntries : List (Name × Expr) → Prop
  | [] => True
  | (_, value) :: rest => Distinct value ∧ DistinctEntries rest
end

theorem distinctItems_iff {items : List Expr} :
    DistinctItems items ↔ ∀ item ∈ items, item.Distinct := by
  induction items with
  | nil => simp [DistinctItems]
  | cons item rest ih => simp [DistinctItems, ih]

theorem distinctEntries_iff {entries : List (Name × Expr)} :
    DistinctEntries entries ↔ ∀ entry ∈ entries, entry.2.Distinct := by
  induction entries with
  | nil => simp [DistinctEntries]
  | cons entry rest ih => rw [DistinctEntries, ih, List.forall_mem_cons]

/-- A selection made by `select` repeats no key. -/
theorem distinct_select {entries : List (Name × Expr)}
    (h : ∀ entry ∈ entries, entry.2.Distinct) : (select entries).Distinct :=
  ⟨Entries.nodup_ofList entries, distinctEntries_iff.mpr (Entries.forall_mem_ofList h)⟩

end Expr

end FieldSelection
