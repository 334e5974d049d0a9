import Std.Data.TreeMap
import Std.Data.TreeSet

/-!
# Identifiers

Groups, sub groups and expressions are named by numbers drawn from one counter. What an identifier
names is part of its type, so the three cannot be confused. Identifiers are ordered by number, and
the order agrees with equality, which is what the tables keyed by them need.

    compare a b = compare a.val b.val        (Ident.compare_def)
-/

namespace PlanSearch

/-- What an identifier names. -/
inductive Named where
  | group
  | subGroup
  | expr
deriving DecidableEq

/-- A number that names a thing of kind `k`. -/
structure Ident (k : Named) where
  val : Nat
deriving DecidableEq

/-- Names a set of equivalent expressions. -/
abbrev GroupId := Ident .group

/-- Names a group narrowed to one required trait set. -/
abbrev SubGroupId := Ident .subGroup

/-- Names one expression of the memo. -/
abbrev ExprId := Ident .expr

namespace Ident

variable {k : Named}

instance : Ord (Ident k) := ⟨fun a b => compare a.val b.val⟩

instance : LT (Ident k) := ⟨fun a b => a.val < b.val⟩

-- Under a name of its own, so that all tests for membership in a list of identifiers share it.
instance : LawfulBEq (Ident k) := inferInstance

instance (a b : Ident k) : Decidable (a < b) := inferInstanceAs (Decidable (a.val < b.val))

/-- The text of an identifier: groups are marked `!`, sub groups `S`, expressions are bare. -/
def text : {k : Named} → Ident k → String
  | .group, i => "!" ++ toString i.val
  | .subGroup, i => "S" ++ toString i.val
  | .expr, i => toString i.val

/-! ## Lemmas -/

theorem compare_def (a b : Ident k) : compare a b = compare a.val b.val := rfl

theorem lt_def (a b : Ident k) : a < b ↔ a.val < b.val := Iff.rfl

instance : Std.TransOrd (Ident k) where
  eq_swap {a b} := @Std.OrientedCmp.eq_swap Nat compare _ a.val b.val
  isLE_trans {a b c} := @Std.TransCmp.isLE_trans Nat compare _ a.val b.val c.val

instance : Std.LawfulEqOrd (Ident k) where
  compare_self {a} := @Std.ReflCmp.compare_self Nat compare _ a.val
  eq_of_compare {a b} h := by
    have hv : a.val = b.val := @Std.LawfulEqCmp.eq_of_compare Nat compare _ a.val b.val h
    cases a; cases b; exact congrArg Ident.mk hv

end Ident

end PlanSearch
