import PlanSearch.Decimal

/-!
# Quantities and costs

Costs are vectors of quantities whose meaning is the cost model's. The search compares costs by one
quantity only, their weight. Quantities are floating point numbers when the search runs; it asks of
them no more than this: which of two is less, whether two are equal, and which are no number at all.
-/

namespace PlanSearch

/-- What the search asks of the amounts of a cost. -/
class Quantity (Q : Type) where
  less : Q → Q → Bool
  same : Q → Q → Bool
  /-- Whether a quantity is unknown and compares with nothing. -/
  isUnknown : Q → Bool
  /-- What an unknown weight counts as. -/
  unbounded : Q
  text : Q → String

instance : Quantity Float where
  less a b := a < b
  same a b := a == b
  isUnknown a := a.isNaN
  unbounded := 1.0 / 0.0
  text a := (Binary64.ofFloat a).text

/-- One amount for each dimension. -/
structure Cost (Q : Type) where
  amounts : List Q
deriving DecidableEq

namespace Cost

variable {Q : Type} [Quantity Q]

/-- The cost above all finite ones of one dimension. -/
def infinite : Cost Q := ⟨[Quantity.unbounded]⟩

/-- The first amounts that differ decide; a proper initial part comes first. -/
def compareAmounts : List Q → List Q → Option Ordering
  | [], [] => some .eq
  | [], _ :: _ => some .lt
  | _ :: _, [] => some .gt
  | a :: as, b :: bs =>
    if Quantity.less a b then some .lt
    else if Quantity.less b a then some .gt
    else if Quantity.same a b then compareAmounts as bs
    else none

/-- Costs compare like words, unless an unknown amount decides. -/
def compare? (a b : Cost Q) : Option Ordering := compareAmounts a.amounts b.amounts

/-- Whether two costs have equal amounts in every dimension. -/
def same (a b : Cost Q) : Bool := compare? a b == some .eq

end Cost

/-- A total cost with its weight. -/
structure Price (Q : Type) where
  cost : Cost Q
  weight : Q
deriving DecidableEq

end PlanSearch
