import PlanSearch.Proofs.Memo.Stepwise

/-!
# The facts of groups

A group gets its facts when it is founded, one by each fact rule and of the type of that rule, and they stay with it
while it is live. So whatever is attempted on a memo, the facts of every group are those that the rules ask for when an
expression over it is entered.

    Attempted m → m.Informed                                                            (Attempted.informed)
    m.Informed → m.deriveFacts x fails only where a rule does, or x reads no group      (Informed.deriveFacts_error)
-/

namespace PlanSearch

namespace Memo

variable {Op Q : Type} {m m' m'' : Memo Op Q}

/-- Every group has one fact per fact rule, each of the type of its rule. -/
def Informed (m : Memo Op Q) : Prop :=
  ∀ (g : GroupId) (group : Group), m.groups[g]? = some group → group.facts.map Fact.type = m.factRules.map FactRule.type

/-- The registry and the rules stay, and all groups were there before, with the facts that they have. -/
structure Sheds (m m' : Memo Op Q) : Prop where
  registry : m'.registry = m.registry
  factRules : m'.factRules = m.factRules
  facts : ∀ (g : GroupId) (group' : Group), m'.groups[g]? = some group' →
    ∃ group, m.groups[g]? = some group ∧ group.facts = group'.facts

section Sheds

theorem Sheds.of_groups (hr : m'.registry = m.registry) (hf : m'.factRules = m.factRules) (hg : m'.groups = m.groups) :
    m.Sheds m' := ⟨hr, hf, fun _ group' h => ⟨group', hg ▸ h, rfl⟩⟩

theorem Sheds.refl (m : Memo Op Q) : m.Sheds m := .of_groups rfl rfl rfl

theorem Sheds.trans (h₁ : m.Sheds m') (h₂ : m'.Sheds m'') : m.Sheds m'' where
  registry := h₂.registry.trans h₁.registry
  factRules := h₂.factRules.trans h₁.factRules
  facts g group'' hg := by
    obtain ⟨group', hg', hfacts'⟩ := h₂.facts g group'' hg
    obtain ⟨group, hg, hfacts⟩ := h₁.facts g group' hg'
    exact ⟨group, hg, hfacts.trans hfacts'⟩

theorem Sheds.informed (h : m.Sheds m') (hm : m.Informed) : m'.Informed := by
  intro g group' hg'
  obtain ⟨group, hg, hfacts⟩ := h.facts g group' hg'
  rw [← hfacts, h.factRules]
  exact hm g group hg

/-- A change of the records of groups at some keys that does not touch facts. -/
theorem facts_foldl_modify {ι : Type} (key : ι → GroupId) {f : Group → Group}
    (hf : ∀ group, (f group).facts = group.facts) (is : List ι) (t : Std.TreeMap GroupId Group) (g : GroupId) :
    ((is.foldl (fun t i => t.modify (key i) f) t)[g]?).map Group.facts = (t[g]?).map Group.facts := by
  rw [Tables.map_getElem?_foldl_modify Group.facts f id hf (fun _ => rfl) key, Option.map_id_fun, id_eq, ite_self]

theorem facts_modify {f : Group → Group} (hf : ∀ group, (f group).facts = group.facts) (t : Std.TreeMap GroupId Group)
    (k g : GroupId) : ((t.modify k f)[g]?).map Group.facts = (t[g]?).map Group.facts :=
  facts_foldl_modify id hf [k] t g

/-- Where no group has other facts than before. -/
theorem Sheds.of_facts (hr : m'.registry = m.registry) (hf : m'.factRules = m.factRules)
    (hg : ∀ (g : GroupId) facts, (m'.groups[g]?).map Group.facts = some facts →
      (m.groups[g]?).map Group.facts = some facts) : m.Sheds m' :=
  ⟨hr, hf, fun g group' h => Option.map_eq_some_iff.1 (hg g group'.facts (by rw [h]; rfl))⟩

end Sheds

/-! ## Sub groups and merges -/

section Merging

theorem sheds_markIf {require : Bool} {s : SubGroupId} (h : markIf require s m = .ok m') : m.Sheds m' := by
  obtain ⟨rfl, -⟩ | ⟨-, sub, -, -, rfl⟩ := markIf_eq_ok h
  · exact .refl _
  · exact .of_groups rfl rfl rfl

theorem sheds_openSubGroup (m : Memo Op Q) (g : GroupId) (traits : TraitSet) : m.Sheds (m.openSubGroup g traits).1 :=
  .of_facts rfl rfl fun _ _ h => (facts_modify (by intro _; rfl) _ _ _).symm.trans h

theorem sheds_takeIn (keep absorbed : GroupId) (gone : Group) (m : Memo Op Q) :
    m.Sheds (takeIn keep absorbed gone m) := by
  refine .of_facts rfl rfl fun g facts h => ?_
  have h : ((m.groups.erase absorbed)[g]?).map Group.facts = some facts :=
    (facts_modify (by intro _; rfl) _ _ _).symm.trans h
  rw [Tables.getElem?_erase_eq] at h
  split at h
  · cases h
  · exact h

theorem sheds_strike (m : Memo Op Q) (e twin : ExprId) (entry : Entry Op Q) (x : Expr Op) :
    m.Sheds (m.strike e twin entry x) :=
  .of_facts rfl rfl fun _ _ h => (facts_foldl_modify (fun r : SubGroupRef => r.group) (by intro _; rfl) _ _ _).symm.trans
    ((facts_modify (by intro _; rfl) _ _ _).symm.trans h)

theorem piecewise_sheds : Piecewise (Sheds : Memo Op Q → Memo Op Q → Prop) where
  refl := .refl
  trans := .trans
  noted _ := .of_groups rfl rfl rfl
  crowned _ := .of_groups rfl rfl rfl
  priced _ := .of_groups rfl rfl rfl
  folded {m _ kept s _ _} _ hmark _ :=
    have hretired : m.Sheds (m.retire kept s) := .of_groups rfl rfl rfl
    hretired.trans (sheds_markIf hmark)
  handed _ := .of_facts rfl rfl fun _ _ h => (facts_modify (by intro _; rfl) _ _ _).symm.trans h
  rewritten _ := .of_groups rfl rfl rfl
  struck := sheds_strike

end Merging

/-! ## New expressions -/

section Entering

theorem sheds_enterExpr (e : ExprId) (x : Expr Op) (g : GroupId) (m : Memo Op Q) : m.Sheds (m.enterExpr e x g) :=
  .of_facts rfl rfl fun _ _ h =>
    (facts_foldl_modify (fun r : SubGroupRef => r.group) (by intro _; rfl) _ _ _).symm.trans h

theorem type_write (t : FactType) (x : t.Carrier) : (t.write x).type = t := by
  cases t <;> rfl

/-- What a rule derives is of its type. -/
theorem type_of_apply {r : FactRule Op} {op : Op} {data : Option Value} {inputs : List Fact} {fact : Fact}
    (h : r.apply op data inputs = .ok fact) : fact.type = r.type := by
  obtain ⟨xs, -, h⟩ := bind_eq_ok h
  split at h
  · cases h
    exact type_write r.type _
  · cases h

variable [Operator Op]

theorem sheds_extend {x : Expr Op} {rowType : RowType} {t g : GroupId} {e : ExprId}
    (h : extend x rowType t m = .ok (g, e) m') : m.Sheds m' := by
  obtain ⟨-, -, -, rfl⟩ := extend_eq_ok h
  have hskip : m.Sheds m.skip := .of_groups rfl rfl rfl
  have hentered := hskip.trans (sheds_enterExpr ⟨m.next⟩ x t m.skip)
  exact hentered.trans (.of_facts rfl rfl fun _ _ hg => (facts_modify (by intro _; rfl) _ _ _).symm.trans hg)

/-- Whatever is derived is one fact per rule, each of the type of its rule. -/
theorem types_of_deriveFacts {x : Expr Op} {facts : List Fact} (h : m.deriveFacts x = .ok facts) :
    facts.map Fact.type = m.factRules.map FactRule.type := by
  obtain ⟨inputs, -, h⟩ := bind_eq_ok h
  have hall := map_of_mapM_eq_ok (p := Fact.type) (q := fun r : FactRule Op × Nat => r.1.type) h
    fun r _ fact hfact => by
      obtain ⟨known, -, hfact⟩ := bind_eq_ok hfact
      exact type_of_apply hfact
  rw [hall]
  calc m.factRules.zipIdx.map (fun r => r.1.type) = (m.factRules.zipIdx.map Prod.fst).map FactRule.type := by
        rw [List.map_map]; rfl
    _ = m.factRules.map FactRule.type := by rw [List.zipIdx_map_fst]

theorem informed_create {x : Expr Op} {rowType : RowType} {g : GroupId} {e : ExprId}
    (h : create x rowType m = .ok (g, e) m') :
    m'.registry = m.registry ∧ m'.factRules = m.factRules ∧ (m.Informed → m'.Informed) := by
  obtain ⟨-, -, facts, hfacts, rfl⟩ := create_eq_ok h
  refine ⟨rfl, rfl, fun hm g group hg => ?_⟩
  dsimp only [openGroup] at hg
  rw [Tables.getElem?_insert_eq] at hg
  split at hg
  · cases hg
    have hall := types_of_deriveFacts hfacts
    exact hall
  · exact (sheds_enterExpr _ x _ m.skip.skip).informed hm g group hg

variable [Quantity Q]

/-- Facts go on being those that the rules ask for, whatever is attempted. -/
theorem stepwise_informed : Stepwise fun m m' : Memo Op Q =>
    m'.registry = m.registry ∧ m'.factRules = m.factRules ∧ (m.Informed → m'.Informed) := by
  have hsheds : ∀ {m m' : Memo Op Q}, m.Sheds m' →
      m'.registry = m.registry ∧ m'.factRules = m.factRules ∧ (m.Informed → m'.Informed) :=
    fun h => ⟨h.registry, h.factRules, h.informed⟩
  exact {
    refl := fun m => hsheds (.refl m)
    trans := fun h₁ h₂ => ⟨h₂.1.trans h₁.1, h₂.2.1.trans h₁.2.1, fun hm => h₂.2.2 (h₁.2.2 hm)⟩
    registry := fun h => h.1
    skip := fun m => hsheds (.of_groups rfl rfl rfl)
    opened := fun _ => hsheds (sheds_openSubGroup _ _ _)
    marked := fun h => hsheds (sheds_markIf h)
    offered := fun h => hsheds (piecewise_sheds.offerAll h)
    extended := fun _ h => hsheds (sheds_extend h)
    created := fun _ h => informed_create h
    merged := fun h => hsheds (piecewise_sheds.mergePair sheds_takeIn h)
    priced := fun h => hsheds (piecewise_sheds.recordPrice h)
    forgot := fun m => hsheds (.of_groups rfl rfl rfl) }

theorem Attempted.informed (h : Attempted m) : m.Informed := by
  induction h with
  | empty registry factRules tieBreak =>
    intro g group hg
    cases hg
  | attempt _ attempt ih => exact (stepwise_informed.attempt attempt).2.2 ih

end Entering

end Memo

end PlanSearch
