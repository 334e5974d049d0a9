import PlanSearch.Relational.Kind

/-!
# Rules by template

A rule whose outputs are templates: trees that are filled in from the binding. Places in the binding
are named by paths of positions from its root. An output that looks for a group which is not there is
left out.
-/

namespace PlanSearch.Relational

/-- Positions of inputs, from the root of a binding down. -/
abbrev Path := List Nat

/-- Which physical join a join is turned into. -/
inductive JoinAs where
  | hash
  | merge

/-- A join as a physical one; every other kind stays as it is. -/
def Kind.joinedAs (k : Kind) : Option JoinAs → Kind
  | none => k
  | some how =>
    match how, k with
    | .hash, .join s => .hashJoin s
    | .merge, .join s => .mergeJoin s
    | _, k => k

/-- Where the operator of a new node comes from. -/
inductive OpSource where
  | given (k : Kind)
  | copied (path : Path) (how : Option JoinAs)

/-- Where the parameter of a new node comes from. -/
inductive DataSource where
  | absent
  | given (v : Value)
  | copied (path : Path)
  /-- One more than the number at the path; other data is copied. -/
  | successor (path : Path)

/-- Where the row type of a new node comes from. -/
inductive RowSource where
  /-- The row type of the binding's root. -/
  | root
  | given (r : RowType)
  | copied (path : Path)
  /-- As many plain columns as the inputs have together. -/
  | concatenated

/-- A tree with places to be filled in. -/
inductive Template where
  /-- A part of the binding; with traits, these are required of a group or delivered by a node. -/
  | part (path : Path) (traits : Option TraitSet)
  | group (g : GroupId) (traits : TraitSet)
  /-- The first group that holds an operator of the variant. -/
  | find (variant : String) (traits : TraitSet)
  | node (op : OpSource) (inputs : List Template) (data : DataSource) (rowType : RowSource)
      (traits : Option TraitSet)

/-! ## Places in a binding -/

/-- The part of a plan at a path. Every step but the last must lead to an operation. -/
def follow (n : PlanNode Kind) : Path → Except Fault (Plan Kind)
  | [] => .ok n.toPlan
  | i :: path =>
    match n.inputs[i]? with
    | none => .error (.noSuchPosition i)
    | some p =>
      match path, p with
      | [], p => .ok p
      | _ :: _, .node head inputs => follow ⟨head, inputs⟩ path
      | _ :: _, .group _ => .error .notNode

/-- The operation at a path. -/
def nodeAt (n : PlanNode Kind) (path : Path) : Except Fault (PlanNode Kind) := do
  match ← follow n path with
  | .node head inputs => return ⟨head, inputs⟩
  | .group _ => throw .notNode

/-- The row type of a plan; that of a group which is not there has no columns. -/
def rowTypeOf (m : Memo Kind Float) : Plan Kind → RowType
  | .node head _ => head.rowType
  | .group ref => ((m.group? ref.group).map Group.rowType).getD ⟨[]⟩

/-- The first live group that holds an operator of the variant. -/
def groupWith? (m : Memo Kind Float) (variant : String) : Option GroupId :=
  m.groupIds.find? fun g => (m.members g).any fun e =>
    match m.exprs[e]? with
    | some entry => entry.expr.op.variantName = variant
    | none => false

/-! ## Filling in -/

/-- The operator of a new node. -/
def OpSource.fill (root : PlanNode Kind) : OpSource → Except Fault Kind
  | given k => .ok k
  | copied path how => return (← nodeAt root path).head.op.joinedAs how

/-- One more, within 64 bits, for a signed number. -/
def successorOf : Value → Value
  | .i64 n => .i64 (n + 1)
  | v => v

/-- The parameter of a new node. -/
def DataSource.fill (root : PlanNode Kind) : DataSource → Except Fault (Option Value)
  | absent => .ok none
  | given v => .ok (some v)
  | copied path => return (← nodeAt root path).head.data
  | successor path => return (← nodeAt root path).head.data.map successorOf

/-- The row type of a new node over some inputs. -/
def RowSource.fill (m : Memo Kind Float) (root : PlanNode Kind) (inputs : List (Plan Kind)) :
    RowSource → Except Fault RowType
  | .root => .ok root.head.rowType
  | given r => .ok r
  | copied path => return rowTypeOf m (← follow root path)
  | concatenated => .ok (.plain (inputs.foldl (fun n p => n + (rowTypeOf m p).width) 0))

/-- A part of a binding under other traits. -/
def withTraits (p : Plan Kind) : Option TraitSet → Plan Kind
  | none => p
  | some traits =>
    match p with
    | .node head inputs => .node { head with traits := traits } inputs
    | .group ref => .group ⟨ref.group, traits⟩

namespace Template

mutual

/-- The plan of a template, unless it looks for a group that is not there. -/
def fill (m : Memo Kind Float) (root : PlanNode Kind) : Template → Except Fault (Option (Plan Kind))
  | part path traits => return some (withTraits (← follow root path) traits)
  | group g traits => return some (.group ⟨g, traits⟩)
  | find variant traits => return (groupWith? m variant).map fun g => .group ⟨g, traits⟩
  | node op inputs data rowType traits => do
    let k ← op.fill root
    match ← fillAll m root inputs with
    | none => return none
    | some ps =>
      let data ← data.fill root
      let rowType ← rowType.fill m root ps
      return some (.node ⟨k, data, rowType, traits.getD k.plainTraits⟩ ps)

/-- The plans of all templates, unless one of them looks for a group that is not there. -/
def fillAll (m : Memo Kind Float) (root : PlanNode Kind) :
    List Template → Except Fault (Option (List (Plan Kind)))
  | [] => return some []
  | t :: ts => do
    match ← fill m root t with
    | none => return none
    | some p => return (← fillAll m root ts).map (p :: ·)

end

end Template

/-- A rule given by templates; it may be confined to bindings whose root carries some value, or does
not carry some value. -/
structure TemplateRule where
  name : String
  pattern : Pattern Kind
  outputs : List Template
  isImplementation : Bool
  priority : Int
  onlyFor : Option Value
  exceptFor : Option Value

namespace TemplateRule

/-- Whether a node carries a value. -/
def carries (n : PlanNode Kind) (v : Value) : Bool := n.head.data.any fun d => decide (d.Same v)

/-- Whether the rule is meant for a binding. -/
def concerns (r : TemplateRule) (root : PlanNode Kind) : Bool :=
  r.onlyFor.all (carries root) && !r.exceptFor.any (carries root)

/-- The outputs for a binding, those left out that look for a group in vain. -/
def apply (r : TemplateRule) (m : Memo Kind Float) (root : PlanNode Kind) :
    Except Fault (List (Plan Kind)) := do
  if r.concerns root then
    let plans ← r.outputs.mapM fun t => t.fill m root
    return plans.filterMap id
  else return []

/-- The templates as a rule. -/
def toRule (r : TemplateRule) : Rule Kind Float :=
  ⟨r.name, r.pattern, r.isImplementation, r.priority, r.apply⟩

end TemplateRule

end PlanSearch.Relational
