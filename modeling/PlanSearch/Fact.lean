import PlanSearch.Failure
import PlanSearch.Operator
import PlanSearch.Quoted

/-!
# Facts about groups

A fact rule derives something that all expressions of a group agree on, such as the tables below it.
Facts are derived when a group is created, from the operator that creates it and from the same facts
of its input groups. Rules of different types stand side by side, so a fact carries its type, and a
rule refuses inputs that are not of its own.

    t.read (t.write x) = some x        (FactType.read_write)
-/

namespace PlanSearch

/-- The types that facts can have. -/
inductive FactType where
  | count
  | text
deriving DecidableEq

/-- A fact about a group, with its type. -/
inductive Fact where
  | count (n : Nat)
  | text (s : String)
deriving DecidableEq

namespace FactType

/-- The values of a type of facts. -/
def Carrier : FactType → Type
  | count => Nat
  | text => String

/-- What a type is called in errors. -/
def name : FactType → String
  | count => "usize"
  | text => "alloc::string::String"

/-- The value of a fact, if it is of the type. -/
def read : (t : FactType) → Fact → Option t.Carrier
  | count, .count n => some n
  | text, .text s => some s
  | _, _ => none

/-- The fact with a value of the type. -/
def write : (t : FactType) → t.Carrier → Fact
  | count, n => .count n
  | text, s => .text s

theorem read_write (t : FactType) (x : t.Carrier) : t.read (t.write x) = some x := by
  cases t <;> rfl

end FactType

/-- The type of a fact. -/
def Fact.type : Fact → FactType
  | count _ => .count
  | text _ => .text

/-- A fact as it is shown; text is quoted. -/
def Fact.display : Fact → String
  | count n => toString n
  | text s => Quoted.text s

/-- A rule that derives facts of one type. -/
structure FactRule (Op : Type) where
  name : String
  type : FactType
  derive : Op → Option Value → List type.Carrier → Except Fault type.Carrier

namespace FactRule

variable {Op : Type}

/-- The inputs as values of the rule's type. -/
def readInputs (r : FactRule Op) : List Fact → Except Failure (List r.type.Carrier)
  | [] => .ok []
  | f :: fs =>
    match r.type.read f with
    | none => .error (.error (.internal (.factMistyped r.name r.type.name)))
    | some x => do return x :: (← readInputs r fs)

/-- The fact of an expression, from the facts of its inputs. -/
def apply (r : FactRule Op) (op : Op) (data : Option Value) (inputs : List Fact) :
    Except Failure Fact := do
  let xs ← r.readInputs inputs
  match r.derive op data xs with
  | .ok x => return r.type.write x
  | .error f => .error (.fault f)

/-- A fact as this rule shows it. -/
def display (r : FactRule Op) (f : Fact) : String :=
  if f.type = r.type then f.display else "<mistyped>"

end FactRule

end PlanSearch
