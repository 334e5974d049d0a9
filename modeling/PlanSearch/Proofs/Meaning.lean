import PlanSearch.Proofs.Outline.Labelling

/-!
# What plans mean

An interpretation gives every operator a function from the values of its inputs to its own value. An
assignment of values to groups is consistent with an outline if every live expression has the value of
its group. What was consistent stays so: merging two groups of one value takes nothing away, and a new
group gets the value of the expression that founds it.

    o.Evolves [] o' [] → o'.Consistent I v → o.Consistent I v                    (Consistent.earlier)
    o.Consistent I v → (p has the value of g) → o.Joins g p o' →
      ∃ w, o'.Consistent I w ∧ v and w agree on the names of o                   (Joins.consistent)
-/

namespace PlanSearch

universe u

/-- What operators mean, the same for parameters that are the same. -/
structure Interpretation (Op : Type) (V : Type u) where
  apply : Op → Option Value → List V → V
  same : ∀ op d d' vs, Value.SameOption d d' → apply op d vs = apply op d' vs

namespace Interpretation

variable {Op : Type} {V : Type u}

mutual

/-- The value of a plan, where `v` has the values of groups. -/
def valueOf (I : Interpretation Op V) (v : GroupId → V) : Plan Op → V
  | .node head inputs => I.apply head.op head.data (I.valuesOf v inputs)
  | .group ref => v ref.group

/-- The values of several plans. -/
def valuesOf (I : Interpretation Op V) (v : GroupId → V) : List (Plan Op) → List V
  | [] => []
  | p :: ps => I.valueOf v p :: I.valuesOf v ps

end

/-- The value of an expression, from those of the groups that it reads. -/
def ofExpr (I : Interpretation Op V) (v : GroupId → V) (x : Expr Op) : V :=
  I.apply x.op x.data (x.inputs.map fun r => v r.group)

theorem valuesOf_eq_map (I : Interpretation Op V) (v : GroupId → V) (ps : List (Plan Op)) :
    I.valuesOf v ps = ps.map (I.valueOf v) := by
  induction ps with
  | nil => rfl
  | cons p ps ih => rw [valuesOf, ih, List.map_cons]

/-- Congruent expressions have one value. -/
theorem ofExpr_congruent (I : Interpretation Op V) (v : GroupId → V) {x y : Expr Op}
    (h : x.Congruent y) : I.ofExpr v x = I.ofExpr v y := by
  have hc : x.canon = y.canon := h
  have hop : x.op = y.op := (congrArg Expr.op hc :)
  have hdata : Value.SameOption x.data y.data := (congrArg Expr.data hc :)
  have hin : x.inputs.map SubGroupRef.canon = y.inputs.map SubGroupRef.canon :=
    (congrArg Expr.inputs hc :)
  have hv : ∀ z : Expr Op, z.inputs.map (fun r => v r.group)
      = (z.inputs.map SubGroupRef.canon).map fun r => v r.group := fun z => by
    rw [List.map_map]; rfl
  unfold ofExpr
  rw [hop, I.same _ _ _ _ hdata, hv x, hv y, hin]

/-- Values are labels. -/
def labelling (I : Interpretation Op V) : Labelling Op V where
  label := I.ofExpr
  congruent v _ _ h := I.ofExpr_congruent v h
  reads v w f x h := by
    unfold ofExpr
    rw [List.map_map]
    exact congrArg (I.apply x.op x.data) (List.map_congr_left h)

end Interpretation

namespace Outline

variable {Op : Type} {V : Type u}

/-- Every live expression has the value of its group, and every name of a group the same value. -/
structure Consistent (o : Outline Op) (I : Interpretation Op V) (v : GroupId → V) : Prop where
  names : ∀ g, v (o.reduce g) = v g
  exprs : ∀ e x g, o.entry e = some (x, g) → I.ofExpr v x = v g

section Consistent

variable {o o' : Outline Op} {I : Interpretation Op V} {v w : GroupId → V}

/-- The value of an expression depends on the values of the groups that it reads. -/
theorem discreet_ofExpr (I : Interpretation Op V) (v : GroupId → V) : Discreet (I.ofExpr v) v :=
  I.labelling.discreet v

/-- Consistent values are an appraisal. -/
theorem consistent_iff_appraised : o.Consistent I v ↔ o.Appraised (I.ofExpr v) v :=
  ⟨fun h => ⟨h.names, h.exprs⟩, fun h => ⟨h.names, h.exprs⟩⟩

/-- Values that are consistent later were so before. -/
theorem Consistent.earlier (h : o'.Consistent I v) (he : o.Evolves [] o' []) (hn : o'.Names) :
    o.Consistent I v :=
  consistent_iff_appraised.2 ((consistent_iff_appraised.1 h).earlier (discreet_ofExpr I v) he hn)

/-! ## Plans that the outline stands for -/

mutual

theorem Stands.valueOf_eq (h : o.Consistent I v) {p : Plan Op} {r : SubGroupRef} :
    o.Stands p r → I.valueOf v p = v r.group
  | .ref r => (h.names r.group).symm
  | .node below known congruent => by
    rw [← h.exprs _ _ _ known, I.ofExpr_congruent v congruent, Interpretation.valueOf,
      below.valuesOf_eq h]
    rfl

theorem StandAll.valuesOf_eq (h : o.Consistent I v) {ps : List (Plan Op)} {rs : List SubGroupRef} :
    o.StandAll ps rs → I.valuesOf v ps = rs.map fun r => v r.group
  | .nil => rfl
  | .cons first rest => by
    rw [Interpretation.valuesOf, first.valueOf_eq h, rest.valuesOf_eq h, List.map_cons]

end

/-! ## Growth -/

/-- Consistent values can be carried over from one outline to another. -/
def Carries (I : Interpretation Op V) (o o' : Outline Op) : Prop :=
  ∀ v, o.Consistent I v → ∃ w, o'.Consistent I w ∧ o.Agree v w

theorem Carries.trans {o'' : Outline Op} (h₁ : Carries I o o') (h₂ : Carries I o' o'')
    (hr : o.Registers o') : Carries I o o'' := by
  intro v hv
  obtain ⟨w, hw, hag⟩ := h₁ v hv
  obtain ⟨u, hu, hag'⟩ := h₂ w hw
  exact ⟨u, hu, fun g hg => (hag' g (hr g hg)).trans (hag g hg)⟩

theorem Carries.of_same (h : ∀ v, o.Consistent I v → o'.Consistent I v) : Carries I o o' :=
  fun v hv => ⟨v, h v hv, fun _ _ => rfl⟩

theorem Grown.carries (h : o.Grown o') (ho : o.Tidy) : Carries I o o' := fun _ hv =>
  (h.labelled (L := I.labelling) ho (consistent_iff_appraised.1 hv)).imp fun _ hw =>
    hw.imp_left consistent_iff_appraised.2

/-! ## Merging -/

/-- The values are consistent, and both groups of every pending merge have one value. -/
def Fair (I : Interpretation Op V) (v : GroupId → V)
    (st : Outline Op × List (GroupId × GroupId)) : Prop :=
  st.1.Consistent I v ∧ ∀ p ∈ st.2, v p.1 = v p.2

/-- Merging groups of one value keeps the values consistent. -/
theorem Merges.consistent {ps : List (GroupId × GroupId)} (h : o.Merges ps o')
    (hv : Fair I v (o, ps)) : o'.Consistent I v :=
  consistent_iff_appraised.2
    (h.appraised (discreet_ofExpr I v) (consistent_iff_appraised.1 hv.1) hv.2)

/-! ## Joining -/

/-- A plan that has the value of a group under all consistent assignments may join the group. -/
theorem Joins.carries {g : GroupId} {p : Plan Op} (h : o.Joins g p o') (ho : o.Tidy)
    (hp : ∀ w, o.Consistent I w → I.valueOf w p = w g) : Carries I o o' := by
  have hgrown : ∀ {o₁ : Outline Op} {head : Operation Op} {inputs : List (Plan Op)}
      {refs : List SubGroupRef} {w : GroupId → V}, o.Grown o₁ → o₁.StandAll inputs refs →
      p = .node head inputs → o₁.Consistent I w →
      I.ofExpr w ⟨head.op, refs, head.data, head.traits⟩ = w (o₁.reduce g) := by
    intro o₁ head inputs refs w hg hs he hw
    have hv := hp w (hw.earlier (hg.evolves ho) (hg.tidy ho).sound.names)
    rw [he, Interpretation.valueOf, hs.valuesOf_eq hw] at hv
    rw [hw.names]
    exact hv
  cases h with
  | merge grown below known congruent merges =>
    refine (grown.carries ho).trans (.of_same fun w hw => ?_) grown.registers
    refine merges.consistent ⟨hw, fun q hq => ?_⟩
    rw [List.mem_singleton.1 hq]
    dsimp only
    rw [← hgrown grown below rfl hw, ← I.ofExpr_congruent w congruent, hw.exprs _ _ _ known]
  | attach grown below live ready apart =>
    refine (grown.carries ho).trans (.of_same fun w hw => ?_) grown.registers
    refine ⟨hw.names, fun e x k hx => ?_⟩
    simp only [Outline.attach, enter] at hx
    split at hx
    · cases hx
      exact hgrown grown below rfl hw
    · exact hw.exprs e x k hx
  | identify merges =>
    refine .of_same fun w hw => merges.consistent ⟨hw, fun q hq => ?_⟩
    rw [List.mem_singleton.1 hq]
    dsimp only
    rw [hw.names, hw.names, ← hp w hw]
    rfl

end Consistent

end Outline

/-! ## Memos -/

/-- Every live expression has the value of its group, and every name of a group the same value. -/
structure Memo.Consistent {Op Q : Type} {V : Type u} (m : Memo Op Q) (I : Interpretation Op V)
    (v : GroupId → V) : Prop where
  names : ∀ g, v (m.reduceGroup g) = v g
  exprs : ∀ (e : ExprId) (entry : Entry Op Q), m.exprs[e]? = some entry → I.ofExpr v entry.expr = v entry.group

theorem Memo.consistent_iff {Op Q : Type} {V : Type u} {m : Memo Op Q} {I : Interpretation Op V}
    {v : GroupId → V} : m.Consistent I v ↔ m.outline.Consistent I v := by
  constructor
  · refine fun h => ⟨h.names, fun e x g hx => ?_⟩
    obtain ⟨entry, he, hp⟩ := Option.map_eq_some_iff.1 (m.outline_entry e ▸ hx)
    cases hp
    exact h.exprs e entry he
  · refine fun h => ⟨h.names, fun e entry he => h.exprs e entry.expr entry.group ?_⟩
    rw [m.outline_entry, he]; rfl

end PlanSearch
