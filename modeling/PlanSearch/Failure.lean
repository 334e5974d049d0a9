import PlanSearch.Ident
import PlanSearch.RowType
import PlanSearch.Trait.Basic

/-!
# Failures

Three things can stand in the way of an answer. An *error* is a fact about the plans, the rules or the
memo, and the session goes on after it; only a missing plan is an ordinary outcome of a search, the
others point to a mistake in a rule or in the memo. A *refusal* is a call that does not fit the phase
that the search is in, or that names a rule which does not exist. A *fault* is a misuse after which
nothing more can be asked.
-/

namespace PlanSearch

/-- The limits that a search can be given. -/
inductive Budget where
  | iterations
  | time
  | planSpace
deriving DecidableEq

/-- The name of a budget. -/
def Budget.text : Budget → String
  | iterations => "iteration budget"
  | time => "time budget"
  | planSpace => "plan space budget"

/-- A misuse that ends the session. -/
inductive Fault where
  /-- A value was read as a kind that it is not. -/
  | wrongKind (kind : Value.Kind)
  /-- A reference stood where an operation was expected. -/
  | notNode
  /-- An operation stood where a reference was expected. -/
  | notGroup
  | noSuchPosition (position : Nat)
  | unknownGroup (group : GroupId)
  | unknownSubGroup (sub : SubGroupId)
  | unknownExpr (expr : ExprId)
  | unknownRule (rule : Nat)
  /-- A count does not fit into 64 bits. -/
  | overflow
  /-- A budget ran out where that was not allowed. -/
  | exhausted (budget : Budget)
deriving DecidableEq

/-- The words of a fault, for those that have any. -/
def Fault.message? : Fault → Option String
  | wrongKind kind => some kind.complaint
  | notNode => some "Expected PlanNode, found Group"
  | notGroup => some "Expected Group, found PlanNode"
  | exhausted budget => some (budget.text ++ " exhausted")
  | _ => none

/-- Where a reference that leads nowhere was met. -/
inductive ReferenceSite where
  | lookup
  | inputOf (reader : String)
deriving DecidableEq

/-- How a place is described in errors. -/
def ReferenceSite.text : ReferenceSite → String
  | lookup => "get_group"
  | inputOf reader => "child of " ++ reader

/-- Ways in which the memo or a caller's data can disagree with itself. -/
inductive Inconsistency where
  | bindingTooLong (exprs : List ExprId) (pattern : String)
  | bindingTooShort (exprs : List ExprId) (pattern : String)
  | winnerCycle (sub : SubGroupId) (group : GroupId)
  | factMistyped (rule : String) (typeName : String)
  | noFact (group : GroupId) (position : Nat) (typeName : String)
  | congruentTwins (expr : ExprId)
  | missingSubGroup (expr : ExprId) (ref : String)
  | missingParent (group : GroupId) (expr : ExprId)
  | redirectedGroup (group : GroupId)
  | emptyGroup (group : GroupId)
  | misplacedMember (expr : ExprId) (group : GroupId)
  | deadParent (group : GroupId) (expr : ExprId)
  | strangeParent (group : GroupId) (expr : ExprId)
  | unindexedSubGroup (sub : SubGroupId) (group : GroupId)
  | foreignWinner (expr : ExprId) (sub : SubGroupId) (group : GroupId)
  | groupCount (live representatives : Nat)
  | exprCount (grouped known : Nat)
deriving DecidableEq

/-- Expression ids separated by `separator`. -/
def exprsText (separator : String) (exprs : List ExprId) : String :=
  separator.intercalate (exprs.map Ident.text)

/-- The words for an inconsistency. -/
def Inconsistency.text : Inconsistency → String
  | bindingTooLong exprs pattern =>
    "binding [" ++ exprsText ", " exprs ++ "] is longer than its matcher " ++ pattern
  | bindingTooShort exprs pattern =>
    "binding [" ++ exprsText ", " exprs ++ "] is shorter than its matcher " ++ pattern
  | winnerCycle sub group =>
    "winners of sub group " ++ sub.text ++ " in " ++ group.text ++ " form a cycle"
  | factMistyped rule typeName => "logical property " ++ rule ++ " is not a " ++ typeName
  | noFact group position typeName =>
    "group " ++ group.text ++ " has no logical property " ++ toString position ++ " of type "
      ++ typeName
  | congruentTwins expr => "expression " ++ expr.text ++ " missing from congruence index"
  | missingSubGroup expr ref =>
    "expression " ++ expr.text ++ " references missing sub group " ++ ref
  | missingParent group expr => "parent index of " ++ group.text ++ " lacks " ++ expr.text
  | redirectedGroup group => "live group " ++ group.text ++ " is redirected"
  | emptyGroup group => "group " ++ group.text ++ " is empty"
  | misplacedMember expr group =>
    "expression " ++ expr.text ++ " listed in wrong group " ++ group.text
  | deadParent group expr => "group " ++ group.text ++ " lists dead parent " ++ expr.text
  | strangeParent group expr => "group " ++ group.text ++ " lists non-parent " ++ expr.text
  | unindexedSubGroup sub group =>
    "sub group " ++ sub.text ++ " is not indexed in " ++ group.text
  | foreignWinner expr sub group =>
    "winner " ++ expr.text ++ " of sub group " ++ sub.text ++ " is not a member of " ++ group.text
  | groupCount live representatives =>
    toString live ++ " live groups, " ++ toString representatives ++ " group representatives"
  | exprCount grouped known =>
    toString grouped ++ " grouped expressions, " ++ toString known ++ " known"

/-- What can be wrong with plans, rules, trait sets or the memo. -/
inductive Error where
  | rowTypeMismatch (group : GroupId) (expected actual : RowType)
  | invalidRuleOutput (rule binding : String) (produced : RowType) (group : GroupId)
      (expected : RowType)
  | danglingReference (group : GroupId) (site : ReferenceSite)
  | planNotFound (group : GroupId) (traits : TraitSet)
  | traitCount (traits : TraitSet) (expected : Nat)
  | traitKind (traits : TraitSet) (position : Nat) (expected : String)
  | internal (cause : Inconsistency)
deriving DecidableEq

namespace Error

/-- The words for an error. -/
def message : Error → String
  | rowTypeMismatch group expected actual =>
    "row type mismatch in group " ++ group.text ++ ": expected " ++ expected.text ++ ", got "
      ++ actual.text
  | invalidRuleOutput rule binding produced group expected =>
    "rule " ++ rule ++ " produced an invalid expression for binding " ++ binding
      ++ ": produced row type " ++ produced.text ++ " for group " ++ group.text ++ " of row type "
      ++ expected.text
  | danglingReference group site =>
    "reference to group " ++ group.text ++ " does not resolve to a live group (" ++ site.text ++ ")"
  | planNotFound group traits =>
    "no plan found for group " ++ group.text ++ " with required properties " ++ traits.text
  | traitCount traits expected =>
    "physical property set " ++ traits.text ++ " has " ++ toString traits.size ++ " entries, but "
      ++ toString expected ++ " property kinds are registered"
  | traitKind traits position expected =>
    "physical property set " ++ traits.text ++ " has a value of the wrong kind at position "
      ++ toString position ++ ": expected " ++ expected
  | internal cause => "internal optimizer error: " ++ cause.text

/-- Whether the error is an ordinary outcome of a search. -/
def isRecoverable : Error → Bool
  | planNotFound _ _ => true
  | _ => false

end Error

/-- What an operation on the memo can end with in place of an answer. -/
inductive Failure where
  | error (e : Error)
  | fault (f : Fault)
deriving DecidableEq

/-- The phases of an optimization call, in their order. -/
inductive Phase where
  | idle
  | seeding
  | searching
  | extracting
  | done
deriving DecidableEq

/-- The name of a phase. -/
def Phase.text : Phase → String
  | idle => "Idle"
  | seeding => "Seeding"
  | searching => "Searching"
  | extracting => "Extracting"
  | done => "Done"

/-- A call that does not fit the state of the search. -/
inductive Refusal where
  | cannotSeed (phase : Phase)
  | cannotSearch (phase : Phase)
  | notSeeded
  | ruleNotFound (rule : String)
deriving DecidableEq

/-- The words for a refusal. -/
def Refusal.message : Refusal → String
  | cannotSeed phase => "cannot seed an optimizer in phase " ++ phase.text ++ ", clear it first"
  | cannotSearch phase => "cannot search in phase " ++ phase.text
  | notSeeded => "optimizer has not been seeded"
  | ruleNotFound rule => "rule " ++ rule ++ " not found"

/-! ## Sequences of steps that can fail -/

theorem bind_eq_ok {ε α β : Type} {x : Except ε α} {f : α → Except ε β} {b : β}
    (h : (x >>= f) = .ok b) : ∃ a, x = .ok a ∧ f a = .ok b := by
  cases x with
  | error e => cases h
  | ok a => exact ⟨a, rfl, h⟩

/-- What every step keeps, a sequence of steps keeps. -/
theorem foldlM_keeps {ε σ β γ : Type} {f : σ → β → Except ε σ} (view : σ → γ)
    (hf : ∀ s b s', f s b = .ok s' → view s' = view s) :
    ∀ (bs : List β) (s s' : σ), bs.foldlM f s = .ok s' → view s' = view s
  | [], s, s', h => by cases h; rfl
  | b :: bs, s, s', h => by
    rw [List.foldlM_cons] at h
    obtain ⟨s₁, h₁, h₂⟩ := bind_eq_ok h
    rw [foldlM_keeps view hf bs s₁ s' h₂, hf s b s₁ h₁]

end PlanSearch
