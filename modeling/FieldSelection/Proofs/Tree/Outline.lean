import FieldSelection.Proofs.Tree.Union
import FieldSelection.Tree.Outline
import Mathlib.Data.Set.Card

/-!
# What an outline tells

An outline shows each node of a tree on a line of its own, in the order in which `Tree.walk` visits
them (`lines_eq_map_walk`). Nothing but the indentation of a line says how deep its node lies. That
is enough if no name starts with a space: the lines beneath a field are those that follow it up to
the first one that is indented no further (`takeWhile_lines`). Hence a tree is known by its lines,
and by its outline if every name fits on one line (`outline_determines`).
-/

namespace FieldSelection

/-- Whether a name can be told from the line on which it stands. -/
structure Name.FitsLine (name : Name) : Prop where
  nonempty : name.text.toList ≠ []
  unbroken : '\n' ∉ name.text.toList
  unindented : name.text.toList.head? ≠ some ' '

instance (name : Name) : Decidable name.FitsLine :=
  decidable_of_iff
    (name.text.toList ≠ [] ∧ '\n' ∉ name.text.toList ∧ name.text.toList.head? ≠ some ' ')
    ⟨fun h => ⟨h.1, h.2.1, h.2.2⟩, fun h => ⟨h.nonempty, h.unbroken, h.unindented⟩⟩

namespace Tree

/-- Whether `p` holds of every name in a tree, at every depth. -/
def EveryName (p : Name → Prop) : Tree → Prop
  | .empty => True
  | .field name nested rest => p name ∧ nested.EveryName p ∧ rest.EveryName p

instance decidableEveryName (p : Name → Prop) [DecidablePred p] :
    (tree : Tree) → Decidable (tree.EveryName p)
  | .empty => inferInstanceAs (Decidable True)
  | .field name nested rest =>
      have := decidableEveryName p nested
      have := decidableEveryName p rest
      inferInstanceAs (Decidable (p name ∧ nested.EveryName p ∧ rest.EveryName p))

/-- The paths to the nodes of a tree: to a field, then to what lies beneath it, then to the fields
that follow. -/
def walk : Tree → List (List Name)
  | .empty => []
  | .field name nested rest => [name] :: (nested.walk.map (name :: ·) ++ rest.walk)

/-- The line for the node that a path leads to, in a tree that stands at the given depth. -/
def lineAt (depth : Nat) : List Name → List Char
  | [] => []
  | [name] => List.replicate (2 * depth) ' ' ++ name.text.toList
  | _ :: path => lineAt (depth + 1) path

variable {a b tree nested rest : Tree} {p : Name → Prop} {name : Name} {path : List Name}
  {depth : Nat} {line : List Char}

/-! ## Nodes -/

/-- A walk comes to every node. -/
theorem mem_walk : path ∈ tree.walk ↔ path ∈ tree.paths := by
  induction tree generalizing path with
  | empty => simp [walk, paths]
  | field name nested rest ihNested ihRest =>
      cases path with
      | nil => simp [walk, ihRest, nil_not_mem_paths]
      | cons first path =>
          rw [cons_mem_paths, selects_field, walk, List.mem_cons, List.mem_append, List.mem_map,
            ihRest, cons_mem_paths]
          cases path with
          | nil => simp [ihNested, nil_not_mem_paths, eq_comm]
          | cons second path => simp [ihNested, and_comm]

theorem nil_not_mem_walk : [] ∉ tree.walk := fun h => nil_not_mem_paths (mem_walk.mp h)

/-- A walk comes to no node twice. -/
theorem Distinct.nodup_walk (h : tree.Distinct) : tree.walk.Nodup := by
  induction tree with
  | empty => exact List.nodup_nil
  | field name nested rest ihNested ihRest =>
      obtain ⟨hname, hnested, hrest⟩ := h
      -- A path through the first field is not one through the fields that follow.
      have hnot (path : List Name) : name :: path ∉ rest.walk := by
        rw [mem_walk, cons_mem_paths, hrest.selects_cons_iff]
        intro hexists
        obtain ⟨_, hget, _⟩ := hexists
        rw [get?_eq_none_iff.mpr hname] at hget
        cases hget
      refine List.nodup_cons.mpr ⟨?_, List.nodup_append.mpr ⟨?_, ihRest hrest, ?_⟩⟩
      · simp [nil_not_mem_walk, hnot]
      · exact (ihNested hnested).map (List.cons_injective)
      · intro path hpath other hother heq
        obtain ⟨beneath, -, rfl⟩ := List.mem_map.mp hpath
        exact hnot beneath (heq ▸ hother)

/-- A tree has as many nodes as a walk through it comes to. -/
theorem Distinct.ncard_paths (h : tree.Distinct) : tree.paths.ncard = tree.walk.length := by
  have hpaths : tree.paths = tree.walk.toFinset := by
    ext path
    simp [mem_walk]
  rw [hpaths, Set.ncard_coe_finset, List.toFinset_card_of_nodup h.nodup_walk]

/-! ## Lines -/

/-- Each node has its line, in the order of the walk. -/
theorem lines_eq_map_walk (tree : Tree) (depth : Nat) :
    tree.lines depth = tree.walk.map (lineAt depth) := by
  induction tree generalizing depth with
  | empty => rfl
  | field name nested rest ihNested ihRest =>
      have hbeneath : ∀ path ∈ nested.walk,
          lineAt depth (name :: path) = lineAt (depth + 1) path := by
        intro path hmem
        cases path with
        | nil => exact absurd hmem nil_not_mem_walk
        | cons first path => rfl
      rw [lines, walk, List.map_cons, List.map_append, List.map_map, ihNested, ihRest]
      rw [← List.map_congr_left hbeneath]
      rfl

/-- Every line consists of a name and of the spaces before it. -/
theorem exists_of_mem_lines (h : tree.EveryName p) (hmem : line ∈ tree.lines depth) :
    ∃ spaces name, 2 * depth ≤ spaces ∧ p name ∧
      line = List.replicate spaces ' ' ++ name.text.toList := by
  induction tree generalizing depth with
  | empty => cases hmem
  | field name nested rest ihNested ihRest =>
      obtain ⟨hname, hnested, hrest⟩ := h
      rw [lines, List.mem_cons, List.mem_append] at hmem
      rcases hmem with rfl | hmem | hmem
      · exact ⟨2 * depth, name, Nat.le_refl _, hname, rfl⟩
      · obtain ⟨spaces, other, hspaces, hother⟩ := ihNested hnested hmem
        exact ⟨spaces, other, by omega, hother⟩
      · exact ihRest hrest hmem

/-- How many spaces a line starts with. -/
def indentation (line : List Char) : Nat :=
  (line.takeWhile (· == ' ')).length

/-- The spaces before a name that does not start with a space itself. -/
theorem indentation_eq (h : name.FitsLine) (spaces : Nat) :
    indentation (List.replicate spaces ' ' ++ name.text.toList) = spaces := by
  have hname : name.text.toList.takeWhile (· == ' ') = [] := by
    rw [← List.head?_eq_none_iff, List.head?_takeWhile, Option.filter_eq_none_iff]
    intro c hc hspace
    exact h.unindented (hc.trans (congrArg some (beq_iff_eq.mp hspace)))
  rw [indentation, List.takeWhile_append_of_pos (by simp), hname, List.append_nil,
    List.length_replicate]

/-- The lines beneath a field are those that are indented further than the field itself. -/
theorem takeWhile_lines (hnested : nested.EveryName Name.FitsLine)
    (hrest : rest.EveryName Name.FitsLine) (depth : Nat) :
    (nested.lines (depth + 1) ++ rest.lines depth).takeWhile (2 * depth < indentation ·) =
      nested.lines (depth + 1) := by
  have hbeneath : ∀ line ∈ nested.lines (depth + 1), decide (2 * depth < indentation line) := by
    intro line hmem
    obtain ⟨spaces, name, hspaces, hname, rfl⟩ := exists_of_mem_lines hnested hmem
    rw [indentation_eq hname]
    exact decide_eq_true (by omega)
  have hafter : (rest.lines depth).takeWhile (2 * depth < indentation ·) = [] := by
    cases rest with
    | empty => rfl
    | field name nested rest =>
        rw [lines, List.takeWhile_cons_of_neg]
        simp [indentation_eq hrest.1]
  rw [List.takeWhile_append_of_pos hbeneath, hafter, List.append_nil]

/-- A tree is known by its lines. -/
theorem lines_injective (ha : a.EveryName Name.FitsLine) (hb : b.EveryName Name.FitsLine)
    (h : a.lines depth = b.lines depth) : a = b := by
  induction a generalizing b depth with
  | empty =>
      cases b with
      | empty => rfl
      | field => cases h
  | field name nested rest ihNested ihRest =>
      cases b with
      | empty => cases h
      | field other beneath after =>
          obtain ⟨_, hnested, hrest⟩ := ha
          obtain ⟨_, hbeneath, hafter⟩ := hb
          obtain ⟨hline, hlines⟩ := List.cons.inj h
          have hname : name = other :=
            Name.text_injective (String.toList_inj.mp (List.append_cancel_left hline))
          have hinner : nested.lines (depth + 1) = beneath.lines (depth + 1) := by
            rw [← takeWhile_lines hnested hrest, hlines, takeWhile_lines hbeneath hafter]
          have houter : rest.lines depth = after.lines depth := by
            rw [hinner] at hlines
            exact List.append_cancel_left hlines
          rw [hname, ihNested hnested hbeneath hinner, ihRest hrest hafter houter]

/-! ## Outlines -/

/-- The outline of a tree with fields is split into its lines at the line breaks. -/
theorem splitOn_outline (h : tree.EveryName Name.FitsLine) (hfields : tree ≠ .empty) :
    tree.outline.toList.splitOn '\n' = tree.lines 0 := by
  rw [outline, String.toList_ofList, List.splitOn_intercalate]
  · intro line hmem
    obtain ⟨spaces, name, -, hname, rfl⟩ := exists_of_mem_lines h hmem
    simp [hname.unbroken]
  · cases tree with
    | empty => exact absurd rfl hfields
    | field => exact List.cons_ne_nil _ _

/-- Only a tree without fields has an outline without characters. -/
theorem outline_eq_empty_iff (h : tree.EveryName Name.FitsLine) :
    tree.outline = "" ↔ tree = .empty := by
  constructor
  · intro heq
    by_contra hfields
    have hlines := splitOn_outline h hfields
    rw [heq, String.toList_empty, List.splitOn_nil] at hlines
    have hmem : [] ∈ tree.lines 0 := hlines ▸ List.mem_cons_self
    obtain ⟨spaces, name, -, hname, hline⟩ := exists_of_mem_lines h hmem
    exact hname.nonempty (List.append_eq_nil_iff.mp hline.symm).2
  · rintro rfl
    rfl

/-- Trees whose names fit on a line are equal if their outlines are, with the order of fields at
every depth. The outline of such a tree, unless it has no fields, has as many lines as the tree has
nodes, and each line belongs to one of them. -/
theorem outline_determines :
    (∀ a b : Tree, a.EveryName Name.FitsLine → b.EveryName Name.FitsLine →
      a.outline = b.outline → a = b) ∧
    ∀ tree : Tree, tree.Distinct → tree.EveryName Name.FitsLine → tree ≠ .empty →
      (tree.outline.toList.splitOn '\n').length = tree.paths.ncard ∧
      tree.outline.toList.splitOn '\n' = tree.walk.map (lineAt 0) ∧
      tree.walk.Nodup ∧ ∀ path, path ∈ tree.walk ↔ path ∈ tree.paths := by
  constructor
  · intro a b ha hb heq
    by_cases hempty : a = .empty
    · have hother : b = .empty := by
        rw [← outline_eq_empty_iff hb, ← heq]
        exact (outline_eq_empty_iff ha).mpr hempty
      rw [hempty, hother]
    · have hother : b ≠ .empty := by
        rw [ne_eq, ← outline_eq_empty_iff hb, ← heq, outline_eq_empty_iff ha]
        exact hempty
      have hlines : a.lines 0 = b.lines 0 := by
        rw [← splitOn_outline ha hempty, heq, splitOn_outline hb hother]
      exact lines_injective ha hb hlines
  · intro tree hdistinct h hfields
    rw [splitOn_outline h hfields, lines_eq_map_walk, List.length_map, hdistinct.ncard_paths]
    exact ⟨rfl, rfl, hdistinct.nodup_walk, fun _ => mem_walk⟩

/-- The fields of a profile, none of them beneath another. -/
def flatProfile : Tree :=
  .field ⟨"phone"⟩ .empty (.field ⟨"owner"⟩ .empty (.field ⟨"name"⟩ .empty (.leaf ⟨"email"⟩)))

theorem outline_determines_profile :
    profile.Distinct ∧ profile.EveryName Name.FitsLine ∧ flatProfile.EveryName Name.FitsLine ∧
      profile.outline ≠ flatProfile.outline ∧
      profile.outline.toList.splitOn '\n' =
        ["phone", "owner", "  name", "email"].map String.toList ∧
      profile.paths.ncard = 4 := by
  have hdistinct : profile.Distinct := by decide
  have hfits : profile.EveryName Name.FitsLine := by decide +kernel
  have hflat : flatProfile.EveryName Name.FitsLine := by decide +kernel
  obtain ⟨hinjective, hnodes⟩ := outline_determines
  obtain ⟨hlength, hlines, -, -⟩ := hnodes profile hdistinct hfits (by decide)
  refine ⟨hdistinct, hfits, hflat, fun heq => ?_, hlines.trans (by decide +kernel), ?_⟩
  · exact absurd (hinjective _ _ hfits hflat heq) (by decide)
  · rw [← hlength, hlines]
    rfl

end Tree

end FieldSelection
