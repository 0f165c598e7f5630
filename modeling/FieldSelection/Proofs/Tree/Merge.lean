import FieldSelection.Proofs.Tree.Paths

/-!
# The order of a union

What merging does to the fields of two trees and to their order. The fields of the first tree come
first, and those that only the second has follow in their order (`names_merge`). Beneath a field of
both trees, what they select there is merged in turn (`get?_merge`), and so it is at every node that
a path leads to in both (`node?_merge`). A tree that lists no field twice is known by the order of
its fields and by what lies beneath each of them (`ext_get?`). Hence merging is associative, has the
empty tree as its unit and changes nothing where there is nothing to add, the order of fields at
every depth included (`merge_order_stable`).
-/

namespace FieldSelection.Tree

variable {a b c tree nested : Tree} {name other : Name}

theorem get?_eq_none_iff : tree.get? name = none ↔ name ∉ tree.names := by
  induction tree with
  | empty => simp [get?, names, toList]
  | field n nested rest _ ih =>
      by_cases h : n = name
      · simp [get?, h]
      · simp [get?, h, Ne.symm h, ih]

theorem Distinct.of_get? (h : tree.Distinct) (hget : tree.get? name = some nested) :
    nested.Distinct :=
  h.of_mem (h.get?_eq_some_iff.mp hget)

/-- A tree that lists no field twice is known by the order of its fields and by what lies beneath
each of them. -/
theorem ext_get? (ha : a.Distinct) (hb : b.Distinct) (hnames : a.names = b.names)
    (hget : ∀ name, a.get? name = b.get? name) : a = b := by
  induction a generalizing b with
  | empty =>
      cases b with
      | empty => rfl
      | field => cases hnames
  | field name nested rest _ ih =>
      cases b with
      | empty => cases hnames
      | field n t r =>
          obtain ⟨rfl, hrest⟩ := List.cons.inj hnames
          obtain rfl : nested = t := by simpa [get?] using hget name
          obtain ⟨hname, _, ha⟩ := ha
          obtain ⟨hn, _, hb⟩ := hb
          rw [ih ha hb hrest]
          intro other
          by_cases h : name = other
          · subst h
            rw [get?_eq_none_iff.mpr hname, get?_eq_none_iff.mpr hn]
          · simpa [get?, h] using hget other

/-! ## Fields of a union -/

theorem names_insert (tree : Tree) (name : Name) (nested : Tree) :
    (tree.insert name nested).names =
      if name ∈ tree.names then tree.names else tree.names ++ [name] :=
  names_alter ..

/-- What lies beneath an inserted field is merged into what was there. -/
theorem get?_insert (tree : Tree) (name other : Name) (nested : Tree) :
    (tree.insert name nested).get? other =
      if other = name then Option.merge merge (tree.get? name) (some nested)
      else tree.get? other := by
  rw [insert, get?_alter]
  cases tree.get? name <;> rfl

/-- The fields of the first tree stay in their order, and the new ones of the second follow in
theirs. -/
theorem names_merge (a : Tree) (hb : b.Distinct) :
    (a.merge b).names = a.names ++ b.names.filter (· ∉ a.names) := by
  induction b generalizing a with
  | empty => simp [names, toList]
  | field name nested rest _ ih =>
      obtain ⟨hname, _, hrest⟩ := hb
      rw [merge_field, ih _ hrest, names_insert, names_field]
      by_cases h : name ∈ a.names
      · simp [h]
      · -- The field that was appended is not met again.
        have hfilter : rest.names.filter (· ∉ a.names ++ [name]) =
            rest.names.filter (· ∉ a.names) := by
          refine List.filter_congr fun n hn => ?_
          have hne : n ≠ name := fun heq => hname (heq ▸ hn)
          simp [hne]
        rw [if_neg h, hfilter, List.filter_cons_of_pos (by simpa using h), List.append_assoc,
          List.singleton_append]

/-- Beneath a field of both trees lies the union of what they select there, and beneath any other
field lies what the one tree selects that has it. -/
theorem get?_merge (a : Tree) (hb : b.Distinct) (name : Name) :
    (a.merge b).get? name = Option.merge merge (a.get? name) (b.get? name) := by
  induction b generalizing a with
  | empty => exact Option.merge_none_right.symm
  | field n nested rest _ ih =>
      obtain ⟨hn, _, hrest⟩ := hb
      rw [merge_field, ih _ hrest, get?_insert]
      by_cases h : name = n
      · subst h
        rw [if_pos rfl, get?_eq_none_iff.mpr hn, Option.merge_none_right, get?, if_pos rfl]
      · rw [if_neg h, get?, if_neg (Ne.symm h)]

/-! ## Nodes of a union -/

/-- The tree at the node that a path leads to. -/
def node? (tree : Tree) : List Name → Option Tree
  | [] => some tree
  | name :: path => (tree.get? name).bind (·.node? path)

theorem node?_cons (tree : Tree) (name : Name) (path : List Name) :
    tree.node? (name :: path) = (tree.get? name).bind (·.node? path) := rfl

theorem Distinct.of_node? {path : List Name} (h : tree.Distinct)
    (hnode : tree.node? path = some nested) : nested.Distinct := by
  induction path generalizing tree with
  | nil =>
      cases hnode
      exact h
  | cons name path ih =>
      obtain ⟨beneath, hget, hnode⟩ := Option.bind_eq_some_iff.mp hnode
      exact ih (h.of_get? hget) hnode

/-- At a node of both trees stands the union of what they have there, and at any other node stands
what the one tree has there. -/
theorem node?_merge (a : Tree) (hb : b.Distinct) (path : List Name) :
    (a.merge b).node? path = Option.merge merge (a.node? path) (b.node? path) := by
  induction path generalizing a b with
  | nil => rfl
  | cons name path ih =>
      rw [node?_cons, node?_cons, node?_cons, get?_merge a hb]
      cases ha : a.get? name with
      | none => simp
      | some x =>
          cases hget : b.get? name with
          | none => simp
          | some y => simpa using ih x (hb.of_get? hget)

/-! ## Laws -/

theorem merge_assoc (ha : a.Distinct) (hb : b.Distinct) (hc : c.Distinct) :
    (a.merge b).merge c = a.merge (b.merge c) := by
  induction a using nested_induct generalizing b c with
  | step a ih =>
      have hbc := distinct_merge hb hc
      refine ext_get? (distinct_merge (distinct_merge ha hb) hc) (distinct_merge ha hbc) ?_ ?_
      · have hfilter : c.names.filter (· ∉ a.names ++ b.names.filter (· ∉ a.names)) =
            (c.names.filter (· ∉ b.names)).filter (· ∉ a.names) := by
          rw [List.filter_filter]
          refine List.filter_congr fun name _ => ?_
          by_cases h : name ∈ a.names <;> simp [h]
        rw [names_merge _ hc, names_merge _ hb, names_merge _ hbc, names_merge _ hc, hfilter,
          List.filter_append, List.append_assoc]
      · intro name
        rw [get?_merge _ hc, get?_merge _ hb, get?_merge _ hbc, get?_merge _ hc]
        cases hx : a.get? name with
        | none => simp
        | some x =>
            cases hy : b.get? name with
            | none => simp
            | some y =>
                cases hz : c.get? name with
                | none => simp
                | some z =>
                    have hmem := ha.get?_eq_some_iff.mp hx
                    simpa using ih name x hmem (ha.of_get? hx) (hb.of_get? hy) (hc.of_get? hz)

/-- Merging changes nothing exactly when the second tree has no path that the first has not. -/
theorem merge_eq_left_iff (ha : a.Distinct) (hb : b.Distinct) :
    a.merge b = a ↔ ∀ path, b.Selects path → a.Selects path := by
  constructor
  · intro heq path hpath
    rw [← heq]
    exact selects_merge.mpr (Or.inr hpath)
  · intro hpaths
    induction a using nested_induct generalizing b with
    | step a ih =>
        refine ext_get? (distinct_merge ha hb) ha ?_ ?_
        · have hnone : b.names.filter (· ∉ a.names) = [] := by
            refine List.filter_eq_nil_iff.mpr fun name hname => ?_
            simpa using selects_singleton_iff.mp (hpaths _ (selects_singleton_iff.mpr hname))
          rw [names_merge _ hb, hnone, List.append_nil]
        · intro name
          rw [get?_merge _ hb]
          cases hy : b.get? name with
          | none => exact Option.merge_none_right
          | some y =>
              have hcons (path : List Name) (hpath : y.Selects path) : a.Selects (name :: path) :=
                hpaths _ (hb.selects_cons_iff.mpr ⟨y, hy, hpath⟩)
              obtain ⟨x, hx, -⟩ := ha.selects_cons_iff.mp (hcons [] y.selects_nil)
              have hbeneath (path : List Name) (hpath : y.Selects path) : x.Selects path := by
                obtain ⟨other, hother, hselects⟩ := ha.selects_cons_iff.mp (hcons path hpath)
                obtain rfl := Option.some.inj (hx.symm.trans hother)
                exact hselects
              have hmem := ha.get?_eq_some_iff.mp hx
              rw [hx, Option.merge_some_some,
                ih name x hmem (ha.of_get? hx) (hb.of_get? hy) hbeneath]

/-- Merging is associative and has the empty tree as its unit, and a tree merged into itself is left
as it is. A tree stays as it is exactly when all paths of the other are among its own. At every node
the fields that the first tree has there keep their order, and the new ones of the second follow in
theirs; a node that only the second tree has is taken over. All this holds with the order of fields
at every depth. -/
theorem merge_order_stable :
    (∀ a b c : Tree, a.Distinct → b.Distinct → c.Distinct →
      (a.merge b).merge c = a.merge (b.merge c)) ∧
    (∀ a : Tree, a.Distinct → a.merge .empty = a ∧ Tree.empty.merge a = a ∧ a.merge a = a) ∧
    ∀ a b : Tree, a.Distinct → b.Distinct →
      (a.merge b).Distinct ∧
      (a.merge b = a ↔ ∀ path, b.Selects path → a.Selects path) ∧
      (∀ path node, a.node? path = some node →
        ∃ united, (a.merge b).node? path = some united ∧
          united.names =
            node.names ++ ((b.node? path).elim [] names).filter (· ∉ node.names)) ∧
      ∀ path node, a.node? path = none → b.node? path = some node →
        (a.merge b).node? path = some node := by
  refine ⟨fun a b c => merge_assoc, fun a ha => ⟨merge_empty a, empty_merge ha, ?_⟩, ?_⟩
  · exact (merge_eq_left_iff ha ha).mpr fun _ => id
  · intro a b ha hb
    refine ⟨distinct_merge ha hb, merge_eq_left_iff ha hb, fun path node hnode => ?_, ?_⟩
    · cases hother : b.node? path with
      | none => exact ⟨node, by simp [node?_merge a hb, hnode, hother], by simp⟩
      | some other =>
          refine ⟨node.merge other, by simp [node?_merge a hb, hnode, hother], ?_⟩
          exact names_merge node (hb.of_node? hother)
    · intro path node hnone hnode
      rw [node?_merge a hb, hnone, hnode, Option.merge_none_left]

/-- The fields of a visitor, of a profile that tells more of its owner, and of a badge that tells
more still. -/
def visitor : Tree :=
  .field ⟨"owner"⟩ .empty (.leaf ⟨"email"⟩)

def profile : Tree :=
  .field ⟨"phone"⟩ .empty (.field ⟨"owner"⟩ (.leaf ⟨"name"⟩) (.leaf ⟨"email"⟩))

def badge : Tree :=
  .field ⟨"owner"⟩ (.field ⟨"team"⟩ .empty (.leaf ⟨"name"⟩)) .empty

theorem merge_order_stable_visitor :
    visitor.Distinct ∧ profile.Distinct ∧ badge.Distinct ∧
      (visitor.merge profile).merge badge = visitor.merge (profile.merge badge) ∧
      badge.merge badge = badge ∧
      (∀ path, (leaf ⟨"owner"⟩).Selects path → badge.Selects path) ∧
      (∃ united, (profile.merge badge).node? [⟨"owner"⟩] = some united ∧
        united.names = [⟨"name"⟩, ⟨"team"⟩]) ∧
      (visitor.merge badge).node? [⟨"owner"⟩, ⟨"team"⟩] = some .empty := by
  have hvisitor : visitor.Distinct := by decide
  have hprofile : profile.Distinct := by decide
  have hbadge : badge.Distinct := by decide
  have howner : (leaf ⟨"owner"⟩).Distinct := by decide
  obtain ⟨hassoc, hunit, hboth⟩ := merge_order_stable
  obtain ⟨-, hstays, -, -⟩ := hboth badge _ hbadge howner
  obtain ⟨-, -, hshared, -⟩ := hboth profile badge hprofile hbadge
  obtain ⟨-, -, -, hnew⟩ := hboth visitor badge hvisitor hbadge
  refine ⟨hvisitor, hprofile, hbadge, hassoc _ _ _ hvisitor hprofile hbadge, (hunit _ hbadge).2.2,
    hstays.mp (by decide), ?_, hnew _ _ (by decide) (by decide)⟩
  exact hshared [⟨"owner"⟩] (.leaf ⟨"name"⟩) (by decide)

end FieldSelection.Tree
