import FieldSelection.Config.Basic
import FieldSelection.Proofs.AliasTable
import FieldSelection.Proofs.Entries.Extension

/-!
# Inheritance

A table extended by another has the definitions of both, the later ones before the earlier, and
keeps every name in the place where it came first (`AliasTable.get?_extend`,
`AliasTable.names_extend`). A table is known by its names in order and by its definitions
(`AliasTable.ext_get?`), so that extending is associative and idempotent.

`Lineage` records how configurations inherit from each other, each parent with a lineage of its own.
However they are arranged, the configuration they lead to is the one that inherits from each
ancestor directly, one after the other, and its aliases are the first table extended by those of the
ancestors in turn (`inherit_composes`).
-/

namespace FieldSelection

namespace AliasTable

variable {a b c : AliasTable}

theorem ext_get? (hnames : a.names = b.names) (h : ∀ name, a.get? name = b.get? name) : a = b :=
  entries_injective (Entries.ext_lookup a.distinct hnames h)

/-- The definition of a name is that of the second table, or that of the first if the second has
none. -/
theorem get?_extend (a b : AliasTable) (name : Name) :
    (a.extend b).get? name = (b.get? name).or (a.get? name) := by
  have hlookup := Entries.lookup_extend a.entries b.entries name
  rwa [Entries.lookup_reverse b.distinct] at hlookup

/-- The names of the first table stay in their places, and the new ones of the second follow in
theirs. -/
theorem names_extend (a b : AliasTable) :
    (a.extend b).names = a.names ++ b.names.filter (· ∉ a.names) :=
  Entries.keys_extend_of_nodup a.entries b.distinct

theorem extend_assoc (a b c : AliasTable) : (a.extend b).extend c = a.extend (b.extend c) := by
  refine ext_get? ?_ fun name => ?_
  · have hfilter : c.names.filter (· ∉ a.names ++ b.names.filter (· ∉ a.names)) =
        (c.names.filter (· ∉ b.names)).filter (· ∉ a.names) := by
      rw [List.filter_filter]
      refine List.filter_congr fun name _ => ?_
      by_cases h : name ∈ a.names <;> simp [h]
    rw [names_extend, names_extend, names_extend, names_extend, hfilter, List.filter_append,
      List.append_assoc]
  · rw [get?_extend, get?_extend, get?_extend, get?_extend, Option.or_assoc]

theorem extend_self (a : AliasTable) : a.extend a = a := by
  refine ext_get? ?_ fun name => ?_
  · rw [names_extend, List.filter_eq_nil_iff.mpr (by simp), List.append_nil]
  · rw [get?_extend, Option.or_self]

/-- Extending by a table once more changes nothing. -/
theorem extend_extend_self (a b : AliasTable) : (a.extend b).extend b = a.extend b := by
  rw [extend_assoc, extend_self]

end AliasTable

namespace Config

theorem inherit_assoc (child parent ancestor : Config) :
    (child.inherit parent).inherit ancestor = child.inherit (parent.inherit ancestor) := by
  simp only [inherit, AliasTable.extend_assoc]

instance : Std.Associative inherit :=
  ⟨inherit_assoc⟩

/-- To inherit from several configurations is to extend the aliases by theirs in turn. -/
theorem aliases_foldl_inherit (config : Config) (parents : List Config) :
    (parents.foldl inherit config).aliases =
      (parents.map aliases).foldl AliasTable.extend config.aliases := by
  rw [List.foldl_map]
  exact (List.foldl_hom aliases fun _ _ => rfl).symm

end Config

/-- How a configuration comes about by inheriting from others. -/
inductive Lineage where
  | root (config : Config)
  | inherit (child parent : Lineage)

namespace Lineage

/-- The configuration that a lineage leads to. -/
def config : Lineage → Config
  | root config => config
  | inherit child parent => child.config.inherit parent.config

/-- The configuration from which a lineage starts. -/
def self : Lineage → Config
  | root config => config
  | inherit child _ => child.self

/-- The configurations from which it inherits, directly or by way of others, in the order in which
their aliases arrive. -/
def ancestors : Lineage → List Config
  | root _ => []
  | inherit child parent => child.ancestors ++ parent.self :: parent.ancestors

/-- It does not matter whether an ancestor is inherited from directly or by way of others. -/
theorem config_eq_foldl (lineage : Lineage) :
    lineage.config = lineage.ancestors.foldl Config.inherit lineage.self := by
  induction lineage with
  | root config => rfl
  | inherit child parent ihChild ihParent =>
      calc child.config.inherit parent.config
          = child.config.inherit (parent.ancestors.foldl Config.inherit parent.self) := by
            rw [ihParent]
        _ = parent.ancestors.foldl Config.inherit (child.config.inherit parent.self) :=
            List.foldl_assoc.symm
        _ = (child.ancestors ++ parent.self :: parent.ancestors).foldl Config.inherit
              child.self := by
            rw [List.foldl_append, ← ihChild, List.foldl_cons]

/-- A table extended by another has, under every name, the definition of the other if there is one,
and it keeps its names in their places before the new ones of the other, each once. Extending is
associative and idempotent, the order of the names included. Hence a configuration that inherits
from others comes out the same whether the aliases of an ancestor arrive directly, level by level,
or by way of a parent that has inherited them before. In either case its aliases are those that it
starts with, extended by those of one ancestor after the other. -/
theorem inherit_composes :
    (∀ a b : AliasTable,
      (∀ name, (a.extend b).get? name = (b.get? name).or (a.get? name)) ∧
      (a.extend b).names = a.names ++ b.names.filter (· ∉ a.names) ∧ (a.extend b).names.Nodup) ∧
    (∀ a b c : AliasTable, (a.extend b).extend c = a.extend (b.extend c)) ∧
    (∀ a b : AliasTable, (a.extend b).extend b = a.extend b ∧ a.extend a = a) ∧
    ∀ lineage : Lineage,
      lineage.config = lineage.ancestors.foldl Config.inherit lineage.self ∧
      lineage.config.aliases =
        (lineage.ancestors.map Config.aliases).foldl AliasTable.extend lineage.self.aliases := by
  refine ⟨fun a b => ?_, AliasTable.extend_assoc, fun a b => ?_, fun lineage => ?_⟩
  · exact ⟨a.get?_extend b, a.names_extend b, (a.extend b).distinct⟩
  · exact ⟨a.extend_extend_self b, a.extend_self⟩
  · have hconfig := lineage.config_eq_foldl
    refine ⟨hconfig, ?_⟩
    rw [hconfig, Config.aliases_foldl_inherit]

/-- A configuration with two aliases. -/
def page : Config where
  aliases := .ofList [(⟨"summary"⟩, .name ⟨"title"⟩), (⟨"owner"⟩, .name ⟨"author"⟩)]

/-- A configuration that shares an alias with `page`. -/
def article : Config where
  aliases := .ofList [(⟨"owner"⟩, .name ⟨"editor"⟩), (⟨"tags"⟩, .name ⟨"labels"⟩)]

/-- A configuration that shares an alias with each of `page` and `article`. -/
def post : Config where
  aliases := .ofList [(⟨"tags"⟩, .name ⟨"topics"⟩), (⟨"footer"⟩, .name ⟨"notes"⟩),
    (⟨"summary"⟩, .name ⟨"lead"⟩)]

/-- The definition that arrives last counts, in the place of the first one, whether `page` inherits
from `article` and then from `post`, or from an `article` that has inherited from `post`. -/
theorem inherit_composes_page :
    (page.aliases.extend article.aliases).get? ⟨"owner"⟩ = some (.name ⟨"editor"⟩) ∧
      (page.aliases.extend article.aliases).names = [⟨"summary"⟩, ⟨"owner"⟩, ⟨"tags"⟩] ∧
      (page.aliases.extend article.aliases).extend article.aliases =
        page.aliases.extend article.aliases ∧
      (inherit (inherit (root page) (root article)) (root post)).config.aliases.entries =
        [(⟨"summary"⟩, .name ⟨"lead"⟩), (⟨"owner"⟩, .name ⟨"editor"⟩),
          (⟨"tags"⟩, .name ⟨"topics"⟩), (⟨"footer"⟩, .name ⟨"notes"⟩)] ∧
      (inherit (root page) (inherit (root article) (root post))).config.aliases.entries =
        [(⟨"summary"⟩, .name ⟨"lead"⟩), (⟨"owner"⟩, .name ⟨"editor"⟩),
          (⟨"tags"⟩, .name ⟨"topics"⟩), (⟨"footer"⟩, .name ⟨"notes"⟩)] := by
  obtain ⟨hextend, -, hagain, hlineage⟩ := inherit_composes
  obtain ⟨hget, hnames, -⟩ := hextend page.aliases article.aliases
  have hextended : ([article.aliases, post.aliases].foldl AliasTable.extend page.aliases).entries =
      [(⟨"summary"⟩, .name ⟨"lead"⟩), (⟨"owner"⟩, .name ⟨"editor"⟩),
        (⟨"tags"⟩, .name ⟨"topics"⟩), (⟨"footer"⟩, .name ⟨"notes"⟩)] := rfl
  refine ⟨hget _, hnames, (hagain _ _).1, ?_, ?_⟩
  · rw [(hlineage _).2]
    exact hextended
  · rw [(hlineage _).2]
    exact hextended

end Lineage

end FieldSelection
