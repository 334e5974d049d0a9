import PlanSearch.Proofs.Outline.Merges

/-!
# Growth

A plan is added to a memo by opening sub groups and founding groups, from its leaves upwards. In the
end the memo stands for the plan: every operation of the plan is congruent to a live expression, over
the groups that stand for its inputs.

    o.Grown o' → o.Stands p r → o'.Stands p r        (Stands.later)
-/

namespace PlanSearch

namespace Outline

variable {Op : Type}

/-! ## Growing -/

/-- One step of growth. -/
inductive Growth (o : Outline Op) : Outline Op → Prop
  | openSub {g : GroupId} {traits : TraitSet} {c : Cell} (live : o.group g = some c)
      (new : ∀ p ∈ c.subs, ¬ p.1.Same traits) : Growth o (o.openSub g traits)
  | found {x : Expr Op} {rowType : RowType} {facts : List Fact} (ready : o.Ready x)
      (apart : o.Apart x) : Growth o (o.found x rowType facts)

/-- Any number of steps of growth. -/
abbrev Grown : Outline Op → Outline Op → Prop := Relation.ReflTransGen Growth

section Growth

variable {o o' : Outline Op} {ps : List (GroupId × GroupId)}

theorem Growth.tidy (h : o.Growth o') (ho : o.Tidy) : o'.Tidy := by
  cases h with
  | openSub live new => exact ho.openSub live new
  | found ready apart => exact ho.found _ _ ready apart

theorem Grown.tidy (h : o.Grown o') (ho : o.Tidy) : o'.Tidy := by
  induction h with
  | refl => exact ho
  | tail _ hs ih => exact hs.tidy ih

theorem Grown.evolves (h : o.Grown o') (ho : o.Tidy) : o.Evolves ps o' ps := by
  induction h with
  | refl => exact .refl ho.sound.names
  | tail hg hs ih =>
    refine ih.trans ?_
    have hm := Grown.tidy hg ho
    cases hs with
    | openSub => exact hm.sound.evolves_openSub _ _
    | found ready apart => exact hm.sound.evolves_found _ _ ready.reading apart

/-- What growth leaves as it is: the names of groups, expressions in their places, and the sub groups
that a group has. -/
structure Keeps (o o' : Outline Op) : Prop where
  reduce : ∀ g, o'.reduce g = o.reduce g
  entry : ∀ e p, o.entry e = some p → o'.entry e = some p
  group : ∀ g c, o.group g = some c → ∃ c', o'.group g = some c' ∧ ∀ p ∈ c.subs, p ∈ c'.subs
  next : o.next ≤ o'.next
  merged : o'.merged = o.merged

theorem Keeps.trans {o'' : Outline Op} (h₁ : o.Keeps o') (h₂ : o'.Keeps o'') : o.Keeps o'' where
  reduce g := (h₂.reduce g).trans (h₁.reduce g)
  entry e p he := h₂.entry e p (h₁.entry e p he)
  group g c hc := by
    obtain ⟨c', hc', hs'⟩ := h₁.group g c hc
    obtain ⟨c'', hc'', hs''⟩ := h₂.group g c' hc'
    exact ⟨c'', hc'', fun p hp => hs'' p (hs' p hp)⟩
  next := Nat.le_trans h₁.next h₂.next
  merged := h₂.merged.trans h₁.merged

theorem Keeps.refl (o : Outline Op) : o.Keeps o :=
  ⟨fun _ => rfl, fun _ _ => id, fun _ c hc => ⟨c, hc, fun _ => id⟩, Nat.le_refl _, rfl⟩

theorem keeps_openSub (o : Outline Op) (g : GroupId) (traits : TraitSet) :
    o.Keeps (o.openSub g traits) where
  reduce _ := rfl
  entry _ _ := id
  group k c hc := by
    obtain ⟨c', hc', hs⟩ := subs_openSub g traits hc
    refine ⟨c', hc', fun p hp => ?_⟩
    rw [hs]
    split
    · exact List.mem_append_left _ hp
    · exact hp
  next := Nat.le_succ _
  merged := rfl

theorem Names.keeps_found (h : o.Names) (x : Expr Op) (rowType : RowType) (facts : List Fact) :
    o.Keeps (o.found x rowType facts) where
  reduce g := by rw [h.reduce_found]
  entry := h.entry_enter rfl
  group k c hc := by
    obtain ⟨c', hc'⟩ := Option.isSome_iff_exists.1
      (show ((o.found x rowType facts).group k).isSome by rw [isSome_group_found, hc]; simp)
    exact ⟨c', hc', fun p hp => (grows_found h hc').subs_eq hc ▸ hp⟩
  next := Nat.le_add_right _ 2
  merged := rfl

theorem Grown.keeps (h : o.Grown o') (ho : o.Tidy) : o.Keeps o' := by
  induction h with
  | refl => exact .refl o
  | tail hg hs ih =>
    refine ih.trans ?_
    cases hs with
    | openSub => exact keeps_openSub _ _ _
    | found => exact (Grown.tidy hg ho).sound.names.keeps_found _ _ _

theorem Keeps.served (h : o.Keeps o') {r : SubGroupRef} (hr : o.Served r) : o'.Served r :=
  hr.later h.group

theorem Keeps.reduceRef (h : o.Keeps o') (r : SubGroupRef) : o'.reduceRef r = o.reduceRef r := by
  rw [Outline.reduceRef, Outline.reduceRef, h.reduce]

/-- A new group has a member. -/
theorem Filled.openSub (h : o.Filled) (g : GroupId) (traits : TraitSet) :
    (o.openSub g traits).Filled := by
  intro k c hc
  obtain ⟨c₀, hc₀, hm, -⟩ := group_openSub hc
  rw [hm]
  exact h k c₀ hc₀

theorem Filled.enter (h : o.Filled) {e : ExprId} {x : Expr Op} {g : GroupId}
    (hc : ∀ k c, o'.group k = some c → o.Grows e x g k c) : o'.Filled := by
  intro k c hk
  cases hc k c hk with
  | old c₀ known members _ _ =>
    rw [members]
    split
    · simp
    · exact h k c₀ known
  | new _ _ members _ _ => rw [members]; simp

theorem Grown.filled (h : o.Grown o') (ho : o.Tidy) (hf : o.Filled) : o'.Filled := by
  induction h with
  | refl => exact hf
  | tail hg hs ih =>
    cases hs with
    | openSub => exact ih.openSub _ _
    | found => exact ih.enter fun k c => grows_found (Grown.tidy hg ho).sound.names

end Growth

/-! ## Standing for a plan -/

mutual

/-- The reference stands for the plan: it is the plan, or the group of an expression congruent to the
root of the plan over references that stand for the inputs. -/
inductive Stands (o : Outline Op) : Plan Op → SubGroupRef → Prop
  | ref (r : SubGroupRef) : Stands o (.group r) (o.reduceRef r)
  | node {head : Operation Op} {inputs : List (Plan Op)} {refs : List SubGroupRef} {e : ExprId}
      {y : Expr Op} {g : GroupId} (below : StandAll o inputs refs) (known : o.entry e = some (y, g))
      (congruent : y.Congruent ⟨head.op, refs, head.data, head.traits⟩) :
      Stands o (.node head inputs) ⟨g, head.traits⟩

/-- The references stand for the plans, one for each. -/
inductive StandAll (o : Outline Op) : List (Plan Op) → List SubGroupRef → Prop
  | nil : StandAll o [] []
  | cons {p : Plan Op} {r : SubGroupRef} {ps : List (Plan Op)} {rs : List SubGroupRef}
      (first : Stands o p r) (rest : StandAll o ps rs) : StandAll o (p :: ps) (r :: rs)

end

mutual

theorem Stands.later {o o' : Outline Op} (hk : o.Keeps o') {p : Plan Op} {r : SubGroupRef} :
    o.Stands p r → o'.Stands p r
  | .ref r => by
    rw [← hk.reduceRef]
    exact .ref r
  | .node below known congruent => .node (below.later hk) (hk.entry _ _ known) congruent

theorem StandAll.later {o o' : Outline Op} (hk : o.Keeps o') {ps : List (Plan Op)}
    {rs : List SubGroupRef} : o.StandAll ps rs → o'.StandAll ps rs
  | .nil => .nil
  | .cons first rest => .cons (first.later hk) (rest.later hk)

end

/-! ## Joining a group -/

/-- A plan becomes a member of the group `g`. Where it is known in another group, or is a reference
to one, the two groups are merged. -/
inductive Joins (o : Outline Op) (g : GroupId) : Plan Op → Outline Op → Prop
  | merge {head : Operation Op} {inputs : List (Plan Op)} {refs : List SubGroupRef}
      {o₁ o' : Outline Op} {e : ExprId} {y : Expr Op} {k : GroupId} (grown : o.Grown o₁)
      (below : o₁.StandAll inputs refs) (known : o₁.entry e = some (y, k))
      (congruent : y.Congruent ⟨head.op, refs, head.data, head.traits⟩)
      (merges : o₁.Merges [(o₁.reduce g, k)] o') : Joins o g (.node head inputs) o'
  | attach {head : Operation Op} {inputs : List (Plan Op)} {refs : List SubGroupRef}
      {o₁ : Outline Op} (grown : o.Grown o₁) (below : o₁.StandAll inputs refs)
      (live : (o₁.group (o₁.reduce g)).isSome)
      (ready : o₁.Ready ⟨head.op, refs, head.data, head.traits⟩)
      (apart : o₁.Apart ⟨head.op, refs, head.data, head.traits⟩) :
      Joins o g (.node head inputs) (o₁.attach ⟨head.op, refs, head.data, head.traits⟩ (o₁.reduce g))
  | identify {r : SubGroupRef} {o' : Outline Op}
      (merges : o.Merges [(o.reduce g, o.reduce r.group)] o') : Joins o g (.group r) o'

section Joins

variable {o o' : Outline Op} {g : GroupId} {p : Plan Op}

theorem Joins.evolves (h : o.Joins g p o') (ho : o.Tidy) : o.Evolves [] o' [] := by
  have hdrop : ∀ {o o' : Outline Op} {p : GroupId × GroupId}, o.Evolves [p] o' [] →
      o.Evolves [] o' [] := fun h => ⟨h.group, h.expr, h.entry, fun _ hq => by cases hq⟩
  cases h with
  | merge grown _ _ _ merges =>
    exact (grown.evolves ho).trans (hdrop (merges.evolves (grown.tidy ho)))
  | attach grown _ live ready apart =>
    exact (grown.evolves ho).trans
      ((grown.tidy ho).sound.evolves_attach live ready.reading apart)
  | identify merges => exact hdrop (merges.evolves ho)

theorem Joins.filled (h : o.Joins g p o') (ho : o.Tidy) (hf : o.Filled) : o'.Filled := by
  cases h with
  | merge grown _ _ _ merges => exact merges.filled (grown.tidy ho) (grown.filled ho hf)
  | attach grown _ live ready apart => exact (grown.filled ho hf).enter fun _ _ => grows_attach
  | identify merges => exact merges.filled ho hf

end Joins

end Outline

end PlanSearch
