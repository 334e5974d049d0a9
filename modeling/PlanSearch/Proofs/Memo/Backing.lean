import Mathlib.Algebra.Order.BigOperators.Group.List
import PlanSearch.Proofs.Memo.Lowering
import PlanSearch.Proofs.Memo.Quotes

/-!
# What backs a quote

Where a total weighs no less than each of the costs that are summed up, a quote for an expression is backed:
whatever the expression reads has a winner that weighs no more. That is so when the quote is recorded, since
it was computed from the winners of then, and it stays so, since winners only get cheaper. So along winners,
from a sub group to those that its winner reads, weights never go up.

    model.Raises rel → Sure model.terms (Backed model rel)                               (backed_sure)
    m.work.Quoted (Backed model rel) → the winner of s reads t → t has a winner below it
                                                                               (WinnerReads.below)
-/

namespace PlanSearch

open Outline

/-! ## References that ask for the same -/

namespace Outline

variable {Op : Type} {o o' : Outline Op}

/-- The sub group `s` is what the reference asks for. -/
def Serves (o : Outline Op) (s : SubGroupId) (r : SubGroupRef) : Prop :=
  ∃ r', o.sub s = some r' ∧ r'.traits.Same r.traits ∧ o.reduce r'.group = o.reduce r.group

/-- References that ask for the same. -/
def Akin (o : Outline Op) (r r' : SubGroupRef) : Prop :=
  r.traits.Same r'.traits ∧ o.reduce r.group = o.reduce r'.group

theorem Serves.akin {s : SubGroupId} {r r' : SubGroupRef} (h : o.Serves s r) (hr : o.Akin r r') :
    o.Serves s r' := by
  obtain ⟨ref, href, ht, hg⟩ := h
  exact ⟨ref, href, ht.trans hr.1, hg.trans hr.2⟩

/-- What a sub group's name stands for later serves the same references. -/
theorem Lineage.serves {s : SubGroupId} {r : SubGroupRef} (h : o.Lineage o') (hs : o.Serves s r) :
    o'.Serves (o'.reduceSub s) r := by
  obtain ⟨ref, href, ht, hg⟩ := hs
  obtain ⟨ref', href', ht', hg'⟩ := h.sub s ref href
  refine ⟨ref', href', ht'.trans ht, ?_⟩
  rw [hg', ← h.group ref.group, hg, h.group]

/-- Alike expressions have akin inputs, one by one. -/
theorem Alike.akin {x y : Expr Op} (h : o.Alike x y) : List.Forall₂ o.Akin x.inputs y.inputs := by
  have hc : (o.settled x).inputs.map SubGroupRef.canon = (o.settled y).inputs.map SubGroupRef.canon :=
    congrArg Expr.inputs h
  have hmap : x.inputs.map (fun r => (o.reduceRef r).canon) = y.inputs.map fun r => (o.reduceRef r).canon := by
    simpa [settled, Function.comp_def] using hc
  rw [← List.forall₂_eq_eq_eq, List.forall₂_map_left_iff, List.forall₂_map_right_iff] at hmap
  refine hmap.imp fun r r' hr => ⟨?_, ?_⟩
  · exact congrArg SubGroupRef.traits hr
  · exact congrArg SubGroupRef.group hr

/-- Between merges, the sub group that a reference leads to is the only one that serves it. -/
theorem Tidy.subOf_iff (h : o.Tidy) {s : SubGroupId} {r : SubGroupRef} :
    o.subOf r = some s ↔ o.Serves s r := by
  have hnames := h.sound.names
  constructor
  · intro hs
    obtain ⟨c, hc, hs⟩ := Option.bind_eq_some_iff.1 hs
    obtain ⟨p, hp, rfl⟩ := Option.map_eq_some_iff.1 hs
    have hsame : p.1.Same r.traits := by simpa using List.find?_some hp
    refine ⟨_, h.indexed.listed _ c hc p (List.mem_of_find?_eq_some hp), hsame, ?_⟩
    exact hnames.reduce_reduce r.group
  · rintro ⟨r', hr', ht, hg⟩
    obtain ⟨c, hc, hmem⟩ := (h.indexed.filed s r' hr').resolve_left id
    rw [hnames.reduce_of_live (by rw [hc]; rfl)] at hg
    have hfind : c.subs.find? (fun p => p.1.Same r.traits) = some (r'.traits, s) := by
      refine find?_eq_some_of_unique hmem (decide_eq_true ht) fun q hq hsame => ?_
      have hq' : q.1.Same r'.traits := (of_decide_eq_true hsame).trans ht.symm
      exact eq_of_pairwise_not (h.indexed.apart _ c hc) hq hmem hq' hq'.symm
    unfold subOf
    rw [← hg, hc, Option.bind_some, hfind]
    rfl

/-- Every input of a live expression leads to a sub group. -/
theorem Tidy.exists_subOf (h : o.Tidy) {e : ExprId} {x : Expr Op} {g : GroupId}
    (hx : o.entry e = some (x, g)) {r : SubGroupRef} (hr : r ∈ x.inputs) : ∃ s, o.subOf r = some s := by
  obtain ⟨c, hc, p, hp, ht⟩ := h.ready e x g hx r hr
  refine ⟨p.2, h.subOf_iff.2 ⟨⟨r.group, p.1⟩, h.indexed.listed _ c hc p hp, ht, rfl⟩⟩

end Outline

/-! ## Backed quotes -/

section Backed

variable {Op Q : Type} [Quantity Q]

/-- A sum, with the cost of an operation that the model may charge, has a weight above those of its inputs,
in the sense of a relation. -/
def CostModel.Raises (model : CostModel Op Q) (rel : Q → Q → Prop) : Prop :=
  ∀ x inputs operation, model.Charges x inputs operation → ∀ c ∈ inputs,
    rel (model.weight c) (model.weight (model.sum operation inputs))

/-- Where costs are added, so are weights. -/
structure CostModel.Additive [Add Q] (model : CostModel Op Q) : Prop where
  weight_accumulate : ∀ a b, model.weight (model.accumulate a b) = model.weight a + model.weight b

/-- The weight of a sum is the sum of the weights. -/
theorem CostModel.Additive.weight_sum [AddMonoid Q] {model : CostModel Op Q} (h : model.Additive)
    (operation : Cost Q) (inputs : List (Cost Q)) :
    model.weight (model.sum operation inputs) = model.weight operation + (inputs.map model.weight).sum := by
  unfold CostModel.sum
  induction inputs generalizing operation with
  | nil => simp
  | cons c cs ih => rw [List.foldl_cons, ih, h.weight_accumulate, List.map_cons, List.sum_cons, add_assoc]

/-- Where no weight is negative, a sum weighs no less than what is summed up. -/
theorem CostModel.Additive.raises [AddCommMonoid Q] [PartialOrder Q] [CanonicallyOrderedAdd Q]
    {model : CostModel Op Q} (h : model.Additive) : model.Raises (· ≤ ·) := by
  intro x inputs operation _ c hc
  rw [h.weight_sum]
  calc model.weight c ≤ (inputs.map model.weight).sum := List.le_sum_of_mem (List.mem_map_of_mem hc)
    _ ≤ model.weight operation + (inputs.map model.weight).sum := le_add_self

/-- The quote has the weight of its cost, and whatever the expression reads has a winner below it. -/
def Backed (model : CostModel Op Q) (rel : Q → Q → Prop) : Knowledge Op Q := fun w e p =>
  p.weight = model.weight p.cost ∧ ∃ x g, w.outline.entry (w.outline.reduceExpr e) = some (x, g) ∧
    ∀ r ∈ x.inputs, ∃ s v, w.outline.Serves s r ∧ w.standings.wins s = some v ∧ rel v.price.weight p.weight

variable {model : CostModel Op Q} {rel : Q → Q → Prop}

/-- Members of one list have counterparts in the other. -/
theorem exists_of_forall₂ {α β : Type} {R : α → β → Prop} {as : List α} {bs : List β}
    (h : List.Forall₂ R as bs) : (∀ a ∈ as, ∃ b ∈ bs, R a b) ∧ ∀ b ∈ bs, ∃ a ∈ as, R a b := by
  induction h with
  | nil => exact ⟨fun _ ha => (by cases ha), fun _ hb => (by cases hb)⟩
  | @cons a b as bs hab _ ih =>
    obtain ⟨hleft, hright⟩ := ih
    constructor
    · intro a' ha'
      rcases List.mem_cons.1 ha' with rfl | ha'
      · exact ⟨b, List.mem_cons_self, hab⟩
      · obtain ⟨b', hb', hr⟩ := hleft a' ha'
        exact ⟨b', List.mem_cons_of_mem _ hb', hr⟩
    · intro b' hb'
      rcases List.mem_cons.1 hb' with rfl | hb'
      · exact ⟨a, List.mem_cons_self, hab⟩
      · obtain ⟨a', ha', hr⟩ := hright b' hb'
        exact ⟨a', List.mem_cons_of_mem _ ha', hr⟩

/-- Lists that are related through a third one. -/
theorem forall₂_comp {α β γ : Type} {R : α → β → Prop} {S : β → γ → Prop} {as : List α} {cs : List γ} :
    (∃ bs, List.Forall₂ R as bs ∧ List.Forall₂ S bs cs) ↔
      List.Forall₂ (fun a c => ∃ b, R a b ∧ S b c) as cs := by
  constructor
  · rintro ⟨bs, hr, hs⟩
    induction hr generalizing cs with
    | nil =>
      cases hs
      exact .nil
    | cons hab _ ih =>
      cases hs with
      | cons hbc hs => exact .cons ⟨_, hab, hbc⟩ (ih hs)
  · intro h
    induction h with
    | nil => exact ⟨[], .nil, .nil⟩
    | cons hac _ ih =>
      obtain ⟨b, hab, hbc⟩ := hac
      obtain ⟨bs, hr, hs⟩ := ih
      exact ⟨b :: bs, .cons hab hr, .cons hbc hs⟩

/-- A quote stays backed, since what the expression reads keeps its winner or gets a cheaper one. -/
theorem Edit.backed {W : Type} [Preorder W] {worth : Price Q → W} {P : Terms Op Q} {w w' : Work Op Q}
    (hedit : Edit P w w') (hw : w.Sound) (hlow : w.Lowers worth w')
    (hrel : ∀ (p q : Price Q) (c : Q), worth p ≤ worth q → rel q.weight c → rel p.weight c)
    {e e' : ExprId} {p : Price Q} (h : Backed model rel w e p)
    (he : w'.outline.reduceExpr e = w'.outline.reduceExpr e') : Backed model rel w' e' p := by
  obtain ⟨hweight, x, g, hx, hinputs⟩ := h
  have hlineage := hedit.lineage hw
  obtain ⟨x', g', hx', halike, -⟩ := (hedit.evolves hw).entry _ x g hx
  rw [(hedit.evolves hw).expr, he] at hx'
  refine ⟨hweight, x', g', hx', fun r' hr' => ?_⟩
  obtain ⟨r, hr, hakin⟩ := (exists_of_forall₂ halike.akin).2 r' hr'
  obtain ⟨s, v, hserves, hv, hle⟩ := hinputs r hr
  obtain ⟨v', hv', hle'⟩ := hlow s v hv
  exact ⟨_, v', (hlineage.serves hserves).akin hakin, hv', hrel _ _ _ hle' hle⟩

theorem backed_lasting [LinearOrder Q] [Quantity.Exact Q] {P : Terms Op Q}
    (hrel : ∀ a b c : Q, a ≤ b → rel b c → rel a c) : Lasting P (Backed model rel) := by
  intro w w' e e' p hedit hw hknown he
  exact hedit.backed hw (hedit.lowers Memo.ranks_weight hw w.quoted_true)
    (fun _ _ _ => hrel _ _ _) hknown he

/-- A price is computed from winners that weigh less than it. -/
theorem backed_sure [Operator Op] (hM : model.Raises rel) : Sure model.terms (Backed model rel) := by
  intro w e p hw idle hquoted hfair
  obtain ⟨x, g, winners, operation, hx, -, hwinners, hcharges, hcost, hp⟩ := hfair
  have htidy := hw.tidy idle.stage
  refine ⟨hp, x, g, ?_, fun r hr => ?_⟩
  · rw [htidy.sound.names.reduceExpr_of_live (by rw [hx]; rfl)]
    exact hx
  · obtain ⟨v, hv, s, hs, hwins⟩ := (exists_of_forall₂ hwinners).1 r hr
    refine ⟨s, v, htidy.subOf_iff.1 hs, hwins, ?_⟩
    rw [(hquoted.wins s v hwins).1, hp, hcost]
    exact hM x _ operation hcharges _ (List.mem_map_of_mem hv)

end Backed

/-! ## Along winners -/

namespace Memo

variable {Op Q : Type} [Quantity Q] {m : Memo Op Q} {s t : SubGroupId}

/-- The winner of a sub group reads the other one. -/
def WinnerReads (m : Memo Op Q) (s t : SubGroupId) : Prop :=
  ∃ v x g r, m.winnerOf s = some v ∧ m.outline.entry (m.outline.reduceExpr v.expr) = some (x, g) ∧
    r ∈ x.inputs ∧ m.outline.subOf r = some t

variable {model : CostModel Op Q} {rel : Q → Q → Prop}

/-- What a winner reads has a winner below it. -/
theorem WinnerReads.below (ht : m.outline.Tidy) (hq : m.work.Quoted (Backed model rel))
    (h : m.WinnerReads s t) : ∃ v v', m.winnerOf s = some v ∧ m.winnerOf t = some v' ∧
      rel v'.price.weight v.price.weight := by
  obtain ⟨v, x, g, r, hv, hx, hr, hs⟩ := h
  obtain ⟨-, x', g', hx', hinputs⟩ := hq.wins _ v hv
  change m.outline.entry (m.outline.reduceExpr v.expr) = some (x', g') at hx'
  rw [hx] at hx'
  cases hx'
  obtain ⟨t', v', hserves, hwins, hle⟩ := hinputs r hr
  have ht' : m.outline.subOf r = some t' := ht.subOf_iff.2 hserves
  rw [hs] at ht'
  cases ht'
  have hlive : (m.outline.sub t).isSome := by
    obtain ⟨ref, href, -⟩ := hserves
    exact Option.isSome_iff_exists.2 ⟨ref, href⟩
  refine ⟨v, v', hv, ?_, hle⟩
  rw [winnerOf_eq, ht.sound.names.reduceSub_of_live hlive]
  exact hwins

/-- So has, by transitivity, what one gets to along winners. -/
theorem below_of_transGen (ht : m.outline.Tidy) (hq : m.work.Quoted (Backed model rel))
    (hrel : ∀ a b c : Q, rel a b → rel b c → rel a c) (h : Relation.TransGen m.WinnerReads s t) :
    ∃ v v', m.winnerOf s = some v ∧ m.winnerOf t = some v' ∧ rel v'.price.weight v.price.weight := by
  induction h with
  | single h => exact h.below ht hq
  | tail _ h ih =>
    obtain ⟨v, v', hv, hv', hle⟩ := ih
    obtain ⟨u, u', hu, hu', hle'⟩ := h.below ht hq
    rw [hv'] at hu
    cases hu
    exact ⟨v, u', hv, hu', hrel _ _ _ hle' hle⟩

end Memo

end PlanSearch
