import PlanSearch.Operator

/-!
# Patterns

A rule says by a pattern which expressions it applies to. An operand of the pattern either tests the
kind of an operator and has operands for its inputs, or is a wildcard: one input as it is, or all
remaining inputs as they are.
-/

namespace PlanSearch

/-- A condition on the kind of an operator. -/
inductive KindTest (Op : Type) where
  | exactly (op : Op)
  | variant (v : Nat)
  /-- A condition of the host's, under a name. -/
  | holding (name : String) (condition : Op → Bool)

namespace KindTest

variable {Op : Type} [Operator Op]

/-- Whether an operator passes the test. -/
def accepts : KindTest Op → Op → Bool
  | exactly op, o => op = o
  | variant v, o => v = Operator.variant o
  | holding _ condition, o => condition o

/-- The test as it is shown in a pattern. -/
def text : KindTest Op → String
  | exactly op => Operator.text op
  | variant v => "Discriminant(" ++ toString v ++ ")"
  | holding name _ => "<" ++ name ++ ">"

end KindTest

/-- A tree of operands. -/
inductive Pattern (Op : Type) where
  | node (test : KindTest Op) (inputs : List (Pattern Op))
  /-- Binds one input without opening its group. -/
  | any
  /-- Binds all remaining inputs without opening their groups; stands last. -/
  | anyMany

namespace Pattern

variable {Op : Type}

/-- Whether the operand tests no kind. -/
def isWildcard : Pattern Op → Bool
  | node _ _ => false
  | _ => true

/-- The operands for the inputs. -/
def inputs : Pattern Op → List (Pattern Op)
  | node _ ps => ps
  | _ => []

/-- Whether the operand takes an operator of this kind; a wildcard takes every one. -/
def accepts [Operator Op] : Pattern Op → Op → Bool
  | node test _, op => test.accepts op
  | _, _ => true

/-- Whether an operator with `arity` inputs fits the operands below. -/
def fitsArity (p : Pattern Op) (arity : Nat) : Bool :=
  match p.inputs.getLast? with
  | some anyMany => p.inputs.length ≤ arity + 1
  | _ => arity = p.inputs.length

mutual

/-- An operand with its operands in brackets. -/
def text [Operator Op] : Pattern Op → String
  | node test ps => "(" ++ test.text ++ " [" ++ ", ".intercalate (textAll ps) ++ "])"
  | any => "_"
  | anyMany => ".."

/-- The texts of several operands. -/
def textAll [Operator Op] : List (Pattern Op) → List String
  | [] => []
  | p :: ps => p.text :: textAll ps

end

mutual

/-- The operands that test a kind, from the root on, with their depths; the root is at `depth`. -/
def operandsFrom (depth : Nat) : Pattern Op → List (Nat × KindTest Op × Pattern Op)
  | node test ps => (depth, test, node test ps) :: operandsFromAll (depth + 1) ps
  | _ => []

/-- The same for several operands at one depth. -/
def operandsFromAll (depth : Nat) : List (Pattern Op) → List (Nat × KindTest Op × Pattern Op)
  | [] => []
  | p :: ps => p.operandsFrom depth ++ operandsFromAll depth ps

end

/-- The operands that test a kind, each with its depth below the root, its test and itself. -/
def operands (p : Pattern Op) : List (Nat × KindTest Op × Pattern Op) := p.operandsFrom 0

end Pattern

end PlanSearch
