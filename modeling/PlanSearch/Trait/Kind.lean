import PlanSearch.Plan
import PlanSearch.Trait.Encoding

/-!
# Kinds of traits

A registered kind of trait knows its weakest requirement, which traits are of its kind, when a
delivered trait meets a required one, and how to build an operation that turns the one into the
other. Conventions are converted by registered converters only, orders by sorting, distributions by
exchanging rows, and a host's own kind by an operator of the host.
-/

namespace PlanSearch

/-- An operator that turns plans of one named convention into plans of another. -/
structure Converter (Op : Type) where
  source : String
  target : String
  op : Op

/-- A kind of trait with what it needs to build enforcers. -/
inductive TraitKind (Op : Type) where
  /-- The first converter between two conventions is the one that is used. -/
  | convention (converters : List (Converter Op))
  | collation (sort : Option Op)
  | distribution (exchange : Option Op)
  /-- The host's kind, with the value that requires nothing. -/
  | custom (any : Value) (op : Option Op)

/-- What is known when an enforcer is built: the sub group it reads, the row type of the group, and
the full trait set that it will deliver. -/
structure Enforcement where
  input : SubGroupRef
  rowType : RowType
  output : TraitSet
  actual : Trait
  required : Trait

/-- An operation over the input of an enforcement. -/
def Enforcement.node {Op : Type} (e : Enforcement) (op : Op) (data : Option Value) : PlanNode Op :=
  ⟨⟨op, data, e.rowType, e.output⟩, [.group e.input]⟩

namespace TraitKind

variable {Op : Type}

/-- The name of the kind. -/
def name : TraitKind Op → String
  | convention _ => "convention"
  | collation _ => "collation"
  | distribution _ => "distribution"
  | custom _ _ => "custom"

/-- The trait that places no requirement. -/
def any : TraitKind Op → Trait
  | convention _ => .convention .any
  | collation _ => .collation ⟨[]⟩
  | distribution _ => .distribution .any
  | custom v _ => .custom v

/-- Whether a trait is of this kind. -/
def accepts : TraitKind Op → Trait → Bool
  | convention _, .convention _ => true
  | collation _, .collation _ => true
  | distribution _, .distribution _ => true
  | custom _ _, .custom _ => true
  | _, _ => false

/-- Whether the delivered trait meets the required one. Rows in some order are also in the order of
every initial part of its keys, and a single stream is spread by any columns. -/
def satisfies : TraitKind Op → Trait → Trait → Bool
  | convention _, actual, required =>
    match actual, required with
    | _, .convention .any => true
    | .convention a, .convention r => a = r
    | _, _ => false
  | collation _, actual, required =>
    match actual, required with
    | .collation a, .collation r => r.keys.isPrefixOf a.keys
    | _, _ => false
  | distribution _, actual, required =>
    match actual, required with
    | .distribution _, .distribution .any => true
    | .distribution .singleton, .distribution (.hash _) => true
    | .distribution a, .distribution r => a = r
    | _, _ => false
  | custom v _, actual, required =>
    decide (required.Same (.custom v)) || decide (actual.Same required)

/-- An operation that delivers the required trait from the actual one, if there is one. -/
def enforce : TraitKind Op → Enforcement → Option (PlanNode Op)
  | convention converters, e =>
    match e.actual, e.required with
    | .convention (.named source), .convention (.named target) =>
      (converters.find? fun c => c.source = source && c.target = target).map fun c =>
        e.node c.op none
    | _, _ => none
  | collation sort, e =>
    match e.required with
    | .collation c => sort.map fun op => e.node op (some c.toValue)
    | _ => none
  | distribution exchange, e =>
    match e.required with
    | .distribution d => exchange.map fun op => e.node op (some d.toValue)
    | _ => none
  | custom _ op, e =>
    match e.required with
    | .custom v => op.map fun op => e.node op (some v)
    | _ => none

/-! ## Lemmas -/

theorem accepts_any (k : TraitKind Op) : k.accepts k.any = true := by
  cases k <;> rfl

/-- Every enforcer reads the input of its enforcement alone, keeps the row type and delivers the
traits asked for. -/
theorem enforce_shape {k : TraitKind Op} {e : Enforcement} {n : PlanNode Op}
    (h : k.enforce e = some n) :
    n.inputs = [.group e.input] ∧ n.head.rowType = e.rowType ∧ n.head.traits = e.output := by
  have key : ∀ (o : Option Op) (data : Option Value),
      o.map (fun op => e.node op data) = some n →
      n.inputs = [.group e.input] ∧ n.head.rowType = e.rowType ∧ n.head.traits = e.output := by
    intro o data ho
    obtain ⟨op, -, rfl⟩ := Option.map_eq_some_iff.1 ho
    exact ⟨rfl, rfl, rfl⟩
  cases k with
  | convention converters =>
    simp only [enforce] at h
    split at h
    · obtain ⟨c, -, rfl⟩ := Option.map_eq_some_iff.1 h
      exact ⟨rfl, rfl, rfl⟩
    · cases h
  | collation sort =>
    simp only [enforce] at h
    split at h
    · exact key _ _ h
    · cases h
  | distribution exchange =>
    simp only [enforce] at h
    split at h
    · exact key _ _ h
    · cases h
  | custom v op =>
    simp only [enforce] at h
    split at h
    · exact key _ _ h
    · cases h

end TraitKind

end PlanSearch
