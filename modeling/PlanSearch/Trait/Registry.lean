import PlanSearch.Failure
import PlanSearch.Trait.Kind

/-!
# The registry of trait kinds

The registry lists the kinds of traits in play. A trait set fits when it has one trait per kind, each
of its kind. One set satisfies another when it does so kind by kind. A conversion is a chain of
enforcers, one per kind that is not satisfied, in registry order, each reading the group under the
traits that the one before delivers.

    r.check s = .ok () → s.size = r.size       (Registry.size_of_check)
-/

namespace PlanSearch

/-- The kinds of traits in play. -/
structure Registry (Op : Type) where
  kinds : List (TraitKind Op)

namespace Registry

variable {Op : Type}

/-- The number of kinds. -/
def size (r : Registry Op) : Nat := r.kinds.length

/-- The names of the kinds in order. -/
def names (r : Registry Op) : List String := r.kinds.map TraitKind.name

/-- The trait set without requirements. -/
def any (r : Registry Op) : TraitSet := ⟨r.kinds.map TraitKind.any⟩

/-- The first position, counted from `i`, whose trait is not of its kind. -/
def misfit? (i : Nat) : List (TraitKind Op) → List Trait → Option (Nat × TraitKind Op)
  | k :: ks, t :: ts => if k.accepts t then misfit? (i + 1) ks ts else some (i, k)
  | _, _ => none

/-- Whether a trait set has one trait per kind, each in its place. -/
def check (r : Registry Op) (s : TraitSet) : Except Error Unit :=
  if s.size ≠ r.size then .error (.traitCount s r.size)
  else
    match misfit? 0 r.kinds s.traits with
    | some (i, k) => .error (.traitKind s i k.name)
    | none => .ok ()

/-- Whether the delivered traits meet the required ones, kind by kind. -/
def satisfiesAll : List (TraitKind Op) → List Trait → List Trait → Bool
  | k :: ks, a :: as, t :: ts => k.satisfies a t && satisfiesAll ks as ts
  | _, _, _ => true

/-- Whether one fitting trait set meets another, kind by kind. -/
def satisfies (r : Registry Op) (actual required : TraitSet) : Bool :=
  actual.size = required.size && actual.size = r.size
    && satisfiesAll r.kinds actual.traits required.traits

/-- The enforcers for the kinds from position `i` on, where `current` is what the input delivers. -/
def chain (rowType : RowType) (required : TraitSet) :
    List (TraitKind Op) → Nat → SubGroupRef → TraitSet → Except Fault (Option (List (PlanNode Op)))
  | [], _, _, _ => .ok (some [])
  | k :: ks, i, input, current =>
    match current.get? i, required.get? i with
    | some a, some t =>
      if k.satisfies a t then chain rowType required ks (i + 1) input current
      else
        let output := current.replace i t
        match k.enforce ⟨input, rowType, output, a, t⟩ with
        | none => .ok none
        | some n => do
          let rest ← chain rowType required ks (i + 1) ⟨input.group, output⟩ output
          return rest.map (n :: ·)
    | _, _ => .error (.noSuchPosition i)

/-- A chain of enforcers that turns what `input` delivers into what is required. There is none when
a kind refuses, and none when nothing needs converting. -/
def convert (r : Registry Op) (input : SubGroupRef) (rowType : RowType) (actual required : TraitSet) :
    Except Fault (Option (List (PlanNode Op))) := do
  let nodes ← chain rowType required r.kinds 0 input actual
  return nodes.filter fun ns => !ns.isEmpty

/-! ## Lemmas -/

theorem size_any (r : Registry Op) : r.any.size = r.size := by
  simp [any, TraitSet.size, size]

theorem size_of_check {r : Registry Op} {s : TraitSet} (h : r.check s = .ok ()) :
    s.size = r.size := by
  unfold check at h
  split at h
  · cases h
  · next hs => exact Classical.byContradiction fun hc => hs hc

theorem misfit?_any (ks : List (TraitKind Op)) (i : Nat) :
    misfit? i ks (ks.map TraitKind.any) = none := by
  induction ks generalizing i with
  | nil => rfl
  | cons k ks ih => simp [misfit?, TraitKind.accepts_any, ih]

theorem check_any (r : Registry Op) : r.check r.any = .ok () := by
  unfold check
  rw [if_neg (by simp [size_any])]
  simp [any, misfit?_any]

end Registry

end PlanSearch
