import PlanSearch.Optimizer.State

/-!
# Relational operators

The operators of a small relational algebra: logical ones, their physical counterparts, enforcers,
and numbered extensions, of which the negative ones are logical. Joins carry a text of their own. A
kind is written as the name of its variant, with what it carries after a colon; the colon is left out
where a join carries nothing.
-/

namespace PlanSearch.Relational

/-- The kinds of operators. -/
inductive Kind where
  | scan
  | filter
  | project
  | join (how : String)
  | union
  | physicalScan
  | indexScan
  | physicalFilter
  | physicalProject
  | hashJoin (how : String)
  | mergeJoin (how : String)
  | physicalUnion
  | sort
  | exchange
  | converter
  | ext (n : Int64)
deriving DecidableEq

namespace Kind

/-- The variants by number, with their names. -/
def variantNames : List String :=
  ["Scan", "Filter", "Project", "Join", "Union", "PhysicalScan", "IndexScan", "PhysicalFilter",
   "PhysicalProject", "HashJoin", "MergeJoin", "PhysicalUnion", "Sort", "Exchange", "Converter", "Ext"]

/-- The number of the variant. -/
def variant : Kind → Nat
  | scan => 0
  | filter => 1
  | project => 2
  | join _ => 3
  | union => 4
  | physicalScan => 5
  | indexScan => 6
  | physicalFilter => 7
  | physicalProject => 8
  | hashJoin _ => 9
  | mergeJoin _ => 10
  | physicalUnion => 11
  | sort => 12
  | exchange => 13
  | converter => 14
  | ext _ => 15

/-- The name of the variant. -/
def variantName (k : Kind) : String := (variantNames[k.variant]?).getD ""

/-- Whether operators of the kind are only explored. -/
def isLogical : Kind → Bool
  | scan | filter | project | join _ | union => true
  | ext n => n < 0
  | _ => false

/-- The name of the variant, with what it carries after a colon. -/
def text (k : Kind) : String :=
  match k with
  | join how | hashJoin how | mergeJoin how =>
    if how.isEmpty then k.variantName else k.variantName ++ ":" ++ how
  | ext n => k.variantName ++ ":" ++ toString n
  | _ => k.variantName

/-- The kind with the given variant name, carrying the given text. -/
def ofParts? (name carried : String) : Option Kind :=
  match variantNames.idxOf name with
  | 0 => some scan
  | 1 => some filter
  | 2 => some project
  | 3 => some (join carried)
  | 4 => some union
  | 5 => some physicalScan
  | 6 => some indexScan
  | 7 => some physicalFilter
  | 8 => some physicalProject
  | 9 => some (hashJoin carried)
  | 10 => some (mergeJoin carried)
  | 11 => some physicalUnion
  | 12 => some sort
  | 13 => some exchange
  | 14 => some converter
  | 15 => carried.toInt?.map fun n => ext (Int64.ofInt n)
  | _ => none

/-- Reads a kind; the first colon ends the name of the variant. -/
def ofText? (s : String) : Option Kind :=
  let cs := s.toList
  ofParts? (String.ofList (cs.takeWhile (· ≠ ':'))) (String.ofList ((cs.dropWhile (· ≠ ':')).drop 1))

instance : Operator Kind where
  decEq := inferInstance
  isLogical := isLogical
  variant := variant
  text := text

/-- The conditions that a pattern can put on a kind, by name. -/
def condition? : String → Option (Kind → Bool)
  | "logical" => some isLogical
  | "physical" => some fun k => !k.isLogical
  | "scan" => some fun k => k = scan || k = physicalScan || k = indexScan
  | "never" => some fun _ => false
  | _ => none

end Kind

/-! ## Traits -/

/-- A convention without an order or a distribution. -/
def plainTraits (c : Convention) : TraitSet :=
  ⟨[.convention c, .collation ⟨[]⟩, .distribution .any]⟩

/-- What operators deliver unless something else is said. -/
def Kind.plainTraits (k : Kind) : TraitSet :=
  Relational.plainTraits (if k.isLogical then .logical else .named "physical")

/-- Conventions with a converter from rows to vectors, orders by sorting, distributions by exchange. -/
def plainRegistry : Registry Kind :=
  ⟨[.convention [⟨"physical", "vectorized", .converter⟩], .collation (some .sort),
    .distribution (some .exchange)]⟩

end PlanSearch.Relational
