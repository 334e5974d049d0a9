import PlanSearch.Value

/-!
# Traits

What a plan delivers besides its rows, and what a reader may require of it: the calling convention,
the order of the rows, how they are spread over workers, and traits of the host's own. A trait set
holds one trait per registered kind. Traits agree up to the canonical form of the values in them, and
are ordered by their texts, which is enough for a stable sort.

    TraitSet.Same a b ↔ a.canon = b.canon        (by definition; decidable)
-/

namespace PlanSearch

/-- The calling convention of a plan, such as a row engine or a columnar engine. -/
inductive Convention where
  /-- No requirement. -/
  | any
  /-- Delivered by logical nodes. -/
  | logical
  | named (name : String)
deriving DecidableEq

/-- The convention after its label. -/
def Convention.text : Convention → String
  | any => "conv:any"
  | logical => "conv:logical"
  | named name => "conv:" ++ name

/-- Whether values rise or fall. -/
inductive SortDirection where
  | asc
  | desc
deriving DecidableEq

/-- One column that rows are ordered by. -/
structure SortKey where
  column : UInt64
  direction : SortDirection
  nullsFirst : Bool
deriving DecidableEq

/-- The column and how it is ordered. -/
def SortKey.text (k : SortKey) : String :=
  "#" ++ toString k.column ++ (match k.direction with | .asc => " asc" | .desc => " desc")
    ++ (if k.nullsFirst then " nulls first" else "")

/-- An order of the rows. No keys place no requirement. -/
structure Collation where
  keys : List SortKey
deriving DecidableEq

namespace Collation

/-- The keys in brackets after the label. -/
def text (c : Collation) : String :=
  if c.keys.isEmpty then "coll:any"
  else "coll:[" ++ ", ".intercalate (c.keys.map SortKey.text) ++ "]"

/-- Ascending with nulls last on each of the columns. -/
def asc (columns : List UInt64) : Collation := ⟨columns.map fun c => ⟨c, .asc, false⟩⟩

end Collation

/-- How the rows of a plan are spread over workers. -/
inductive Distribution where
  | any
  | singleton
  | broadcast
  | roundRobin
  | hash (columns : List UInt64)
deriving DecidableEq

/-- The distribution after its label. -/
def Distribution.text : Distribution → String
  | any => "dist:any"
  | singleton => "dist:singleton"
  | broadcast => "dist:broadcast"
  | roundRobin => "dist:round_robin"
  | hash columns => "dist:hash(" ++ ", ".intercalate (columns.map toString) ++ ")"

/-- A trait of one of the kinds. -/
inductive Trait where
  | convention (c : Convention)
  | collation (c : Collation)
  | distribution (d : Distribution)
  | custom (v : Value)
deriving DecidableEq

namespace Trait

/-- A trait after the label of its kind. -/
def text : Trait → String
  | convention c => c.text
  | collation c => c.text
  | distribution d => d.text
  | custom v => "custom(" ++ v.text ++ ")"

/-- The trait with the value in it in canonical form. -/
def canon : Trait → Trait
  | custom v => custom v.canon
  | t => t

/-- Agreement up to the canonical form of the values. -/
def Same (a b : Trait) : Prop := a.canon = b.canon

instance (a b : Trait) : Decidable (Same a b) := inferInstanceAs (Decidable (a.canon = b.canon))

/-- Traits are ordered by their texts. -/
def order (a b : Trait) : Ordering := compare a.text b.text

theorem canon_canon (t : Trait) : t.canon.canon = t.canon := by
  cases t <;> simp [canon, Value.canon_canon]

end Trait

/-- One trait per registered kind, in the order of the registry. -/
structure TraitSet where
  traits : List Trait
deriving DecidableEq

namespace TraitSet

/-- The traits in brackets. -/
def text (s : TraitSet) : String := "[" ++ ", ".intercalate (s.traits.map Trait.text) ++ "]"

/-- The number of traits. -/
def size (s : TraitSet) : Nat := s.traits.length

/-- The trait at a position. -/
def get? (s : TraitSet) (i : Nat) : Option Trait := s.traits[i]?

/-- The set with the trait at position `i` replaced; a position outside changes nothing. -/
def replace (s : TraitSet) (i : Nat) (t : Trait) : TraitSet := ⟨s.traits.set i t⟩

/-- The set with every trait in canonical form. -/
def canon (s : TraitSet) : TraitSet := ⟨s.traits.map Trait.canon⟩

/-- Agreement position by position. -/
def Same (a b : TraitSet) : Prop := a.canon = b.canon

instance (a b : TraitSet) : Decidable (Same a b) := inferInstanceAs (Decidable (a.canon = b.canon))

/-- Sets are ordered like words: by the first position where their texts differ, then by size. -/
def order (a b : TraitSet) : Ordering := compare (a.traits.map Trait.text) (b.traits.map Trait.text)

theorem canon_canon (s : TraitSet) : s.canon.canon = s.canon := by
  simp [canon, Trait.canon_canon]

theorem size_replace (s : TraitSet) (i : Nat) (t : Trait) : (s.replace i t).size = s.size := by
  simp [replace, size]

theorem get?_replace_self (s : TraitSet) (i : Nat) (t : Trait) (h : i < s.size) :
    (s.replace i t).get? i = some t := by
  simp only [size] at h
  simp [replace, get?, h]

theorem get?_replace_ne (s : TraitSet) (i j : Nat) (t : Trait) (h : i ≠ j) :
    (s.replace i t).get? j = s.get? j := by
  simp [replace, get?, List.getElem?_set_ne h]

theorem same_refl (s : TraitSet) : Same s s := rfl

theorem Same.symm {a b : TraitSet} (h : Same a b) : Same b a := Eq.symm h

theorem Same.trans {a b c : TraitSet} (h : Same a b) (k : Same b c) : Same a c := Eq.trans h k

end TraitSet

end PlanSearch
