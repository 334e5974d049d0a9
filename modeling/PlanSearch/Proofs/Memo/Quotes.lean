import Mathlib.Data.List.Forall2
import PlanSearch.Proofs.Memo.CallEdits

/-!
# Quotes

A price that an expression has, and a price that it won a sub group at, are quotes for the expression. Each
was recorded at some time, when the cost model named it, and has since come down to whatever the expression
is called now: winners change hands, expressions are dropped for their twins. So what was known of a quote
when it was recorded is known of it for good, if edits carry it along.

    Edits P w w' → w.Sound → w.Quoted known → w'.Quoted known                             (Edits.quoted)
-/

namespace PlanSearch

open Outline

/-- The sub group that a reference leads to. -/
def Outline.subOf {Op : Type} (o : Outline Op) (r : SubGroupRef) : Option SubGroupId :=
  (o.group (o.reduce r.group)).bind fun c => (c.subs.find? fun p => p.1.Same r.traits).map Prod.snd

theorem Memo.subOf_eq {Op Q : Type} (m : Memo Op Q) (r : SubGroupRef) : m.outline.subOf r = m.findSubGroup? r := by
  unfold Outline.subOf Memo.findSubGroup?
  show ((m.groups[m.reduceGroup r.group]?).map Group.cell).bind _ = (m.groups[m.reduceGroup r.group]?).bind _
  cases m.groups[m.reduceGroup r.group]? <;> rfl

namespace CostModel

variable {Op Q : Type} (model : CostModel Op Q)

/-- The model may charge this for an operation over inputs at these costs, for some row counts. -/
def Charges (x : Expr Op) (inputs : List (Cost Q)) (cost : Cost Q) : Prop :=
  ∃ (σ : Type) (answer : GroupId → σ → Option Q × σ) (start : σ) (site : ExprSite),
    ((model.operationCost x inputs site).run answer start).1 = .ok cost

/-- A physical expression whose inputs have winners costs what the model charges for it over them. -/
def Fair [Operator Op] [Quantity Q] (o : Outline Op) (st : Standings Q) (e : ExprId) (p : Price Q) : Prop :=
  ∃ (x : Expr Op) (k : GroupId) (winners : List (Winner Q)) (operation : Cost Q),
    o.entry e = some (x, k) ∧ Operator.isLogical x.op = false ∧
    List.Forall₂ (fun r v => ∃ s, o.subOf r = some s ∧ st.wins s = some v) x.inputs winners ∧
    model.Charges x (winners.map fun v => v.price.cost) operation ∧
    p.cost = model.sum operation (winners.map fun v => v.price.cost) ∧ p.weight = model.weight p.cost

/-- The prices recorded are fair. -/
def terms [Operator Op] [Quantity Q] : Terms Op Q := ⟨model.Fair, True⟩

end CostModel

/-- A dropped expression and its twin are one by name. -/
theorem Outline.Names.reduceExpr_twin {Op : Type} {o : Outline Op} (h : o.Names) {e twin : ExprId}
    (hne : twin ≠ e) (he : (o.entry e).isSome) (ht : (o.entry twin).isSome) (x : Expr Op) (k : GroupId) :
    (o.drop e twin x k).reduceExpr e = (o.drop e twin x k).reduceExpr twin := by
  rw [h.reduceExpr_drop x k he, h.reduceExpr_drop x k he, h.reduceExpr_of_live he,
    h.reduceExpr_of_live ht, if_pos rfl, if_neg hne]

namespace Standings

variable {Q : Type}

theorem retitle_price (e twin : ExprId) (v : Winner Q) : (retitle e twin v).price = v.price := by
  unfold retitle
  split <;> rfl

theorem retitle_expr (e twin : ExprId) (v : Winner Q) :
    v.expr = e ∧ (retitle e twin v).expr = twin ∨ (retitle e twin v).expr = v.expr := by
  unfold retitle
  split
  · next he => exact .inl ⟨he, rfl⟩
  · exact .inr rfl

end Standings

section Quotes

variable {Op Q : Type} [Quantity Q] {P : Terms Op Q} {w w' : Work Op Q}

/-! ## Where quotes come from -/

/-- A winner won before, by whatever name, or is a member of the group that was just offered. -/
theorem Edit.wins_descend (h : Edit P w w') (hw : w.Sound) {s' : SubGroupId} {v' : Winner Q}
    (hv : w'.standings.wins s' = some v') :
    (∃ s v, w.standings.wins s = some v ∧ w'.outline.reduceSub s = s' ∧
      w'.outline.reduceExpr v.expr = w'.outline.reduceExpr v'.expr ∧ v.price = v'.price) ∨
    (w'.outline = w.outline ∧ ∃ x r, w.outline.entry v'.expr = some (x, r.group) ∧
      w.outline.sub s' = some r ∧ w.outline.eligible w.registry x r = true ∧
      w.standings.price v'.expr = some v'.price) := by
  have hw' := h.sound hw
  have hself : w'.outline.reduceSub s' = s' :=
    hw'.outline.names.reduceSub_of_live (hw'.wins s' (by rw [hv]; rfl))
  cases h with
  | skip | forget | openSub | price | attach | found | propose | same | takeIn | hand | convene | pass
  | rewrite | finish => exact .inl ⟨s', v', hv, hself, rfl, rfl⟩
  | @fold keep absorbed hadReaders s strays t c q calm stage stray live listed same =>
    obtain ⟨hne, hkept⟩ := (hw.gathering stage).listed live listed
    have hstray : w.outline.reduceSub s = s :=
      hw.outline.names.reduceSub_of_live (by rw [stray]; rfl)
    have hred : (w.outline.foldSub q.2 s).reduceSub s = q.2 := by
      rw [hw.outline.names.reduceSub_foldSub (by rw [stray]; rfl), if_pos hstray]
    simp only [Standings.wins_fold _ _ hne] at hv
    by_cases hs : s' = s
    · rw [if_pos hs] at hv
      cases hv
    · rw [if_neg hs] at hv
      by_cases hk : s' = q.2
      · rw [if_pos hk] at hv
        cases hbetter : (w.standings.wins s).filter fun v => Memo.beats w.tie v (w.standings.wins q.2) with
        | some v =>
          rw [hbetter] at hv
          cases hv
          exact .inl ⟨s, _, (Option.filter_eq_some_iff.1 hbetter).1, hk ▸ hred, rfl, rfl⟩
        | none =>
          rw [hbetter] at hv
          exact .inl ⟨s', v', hk ▸ hv, hself, rfl, rfl⟩
      · rw [if_neg hk] at hv
        exact .inl ⟨s', v', hv, hself, rfl, rfl⟩
  | @offer s e owed next =>
    rcases w.standings.offer_cases w.registry w.tie w.outline s e with
      hst | ⟨x, k, r, p, hx, hr, hp, heligible, -, hst⟩
    · simp only [hst] at hv
      exact .inl ⟨s', v', hv, hself, rfl, rfl⟩
    · simp only [hst, Standings.crown] at hv
      by_cases hs : s' = s
      · rw [if_pos hs] at hv
        cases hv
        obtain ⟨r', x', hr', hx'⟩ := hw.owed (s, e) (by rw [next]; exact List.mem_cons_self)
        rw [hr] at hr'
        cases hr'
        rw [hx] at hx'
        cases hx'
        exact .inr ⟨rfl, x, r, hx, hs ▸ hr, heligible, hp⟩
      · rw [if_neg hs] at hv
        exact .inl ⟨s', v', hv, hself, rfl, rfl⟩
  | @drop keep absorbed e twin todo x y k k' c calm stage known ne other congruent home =>
    simp only [Standings.drop, Standings.rename] at hv
    by_cases hs : s' ∈ c.subs.map Prod.snd
    · rw [if_pos hs] at hv
      obtain ⟨v, hv₀, rfl⟩ := Option.map_eq_some_iff.1 hv
      refine .inl ⟨s', v, hv₀, hself, ?_, (Standings.retitle_price e twin v).symm⟩
      rcases Standings.retitle_expr e twin v with ⟨he, htwin⟩ | htwin
      · rw [he, htwin]
        exact hw.outline.names.reduceExpr_twin ne (by rw [known]; rfl) (by rw [other]; rfl) _ k
      · rw [htwin]
    · rw [if_neg hs] at hv
      exact .inl ⟨s', v', hv, hself, rfl, rfl⟩

/-- The price of an expression was one before, by whatever name, or was just recorded. -/
theorem Edit.price_descend (h : Edit P w w') (hw : w.Sound) {e' : ExprId} {p : Price Q}
    (hp : w'.standings.price e' = some p) :
    (∃ e, w.standings.price e = some p ∧ w'.outline.reduceExpr e = w'.outline.reduceExpr e') ∨
    (w.Idle ∧ w'.outline = w.outline ∧ w'.standings.wins = w.standings.wins ∧
      P.price w.outline w.standings e' p) := by
  cases h with
  | skip | forget | openSub | attach | found | propose | same | takeIn | hand | convene | pass
  | rewrite | finish => exact .inl ⟨e', hp, rfl⟩
  | fold | offer =>
    first
    | rw [Standings.price_fold] at hp
    | rw [Standings.price_offer] at hp
    exact .inl ⟨e', hp, rfl⟩
  | @price e x k c p' idle known home fair =>
    simp only [Standings.setPrice] at hp
    split at hp
    · next he =>
      cases hp
      rw [he]
      exact .inr ⟨idle, rfl, rfl, fair⟩
    · exact .inl ⟨e', hp, rfl⟩
  | @drop keep absorbed e twin todo x y k k' c calm stage known ne other congruent home =>
    simp only [Standings.drop] at hp
    by_cases htwin : e' = twin
    · rw [if_pos htwin] at hp
      cases ht : w.standings.price twin with
      | some p' =>
        rw [ht] at hp
        cases hp
        exact .inl ⟨twin, ht, by rw [htwin]⟩
      | none =>
        rw [ht] at hp
        refine .inl ⟨e, hp, ?_⟩
        rw [htwin]
        exact hw.outline.names.reduceExpr_twin ne (by rw [known]; rfl) (by rw [other]; rfl) _ k
    · rw [if_neg htwin] at hp
      split at hp
      · cases hp
      · exact .inl ⟨e', hp, rfl⟩

/-! ## What is known of quotes -/

/-- What may be known of a quote for an expression. -/
abbrev Knowledge (Op Q : Type) := Work Op Q → ExprId → Price Q → Prop

/-- So much is known of every quote. -/
structure Work.Quoted (known : Knowledge Op Q) (w : Work Op Q) : Prop where
  wins : ∀ s v, w.standings.wins s = some v → known w v.expr v.price
  price : ∀ e p, w.standings.price e = some p → known w e p

/-- Knowledge that edits carry along, by whatever name the expression goes. -/
def Lasting (P : Terms Op Q) (known : Knowledge Op Q) : Prop :=
  ∀ ⦃w w' : Work Op Q⦄ ⦃e e' : ExprId⦄ ⦃p : Price Q⦄, Edit P w w' → w.Sound → known w e p →
    w'.outline.reduceExpr e = w'.outline.reduceExpr e' → known w' e' p

/-- Knowledge that one has of a fair price, if one has it of all quotes before. -/
def Sure (P : Terms Op Q) (known : Knowledge Op Q) : Prop :=
  ∀ ⦃w : Work Op Q⦄ ⦃e : ExprId⦄ ⦃p : Price Q⦄, w.Sound → w.Idle → w.Quoted known →
    P.price w.outline w.standings e p → known w e p

variable {known : Knowledge Op Q}

/-- So much is known of every quote after an edit if the edit carries it along. -/
theorem Edit.quoted_of (h : Edit P w w') (hw : w.Sound)
    (hl : ∀ e e' p, known w e p → w'.outline.reduceExpr e = w'.outline.reduceExpr e' → known w' e' p)
    (hs : w.Idle → ∀ e p, P.price w.outline w.standings e p → known w e p) (hq : w.Quoted known) :
    w'.Quoted known where
  wins s' v' hv := by
    rcases h.wins_descend hw hv with ⟨s, v, hv₀, -, he, hp⟩ | ⟨ho, x, r, -, -, -, hp⟩
    · exact hp ▸ hl _ _ _ (hq.wins s v hv₀) he
    · exact hl _ _ _ (hq.price _ _ hp) rfl
  price e' p hp := by
    rcases h.price_descend hw hp with ⟨e, hp₀, he⟩ | ⟨idle, -, -, hfair⟩
    · exact hl _ _ _ (hq.price e p hp₀) he
    · exact hl _ _ _ (hs idle _ _ hfair) rfl

theorem Edit.quoted (h : Edit P w w') (hw : w.Sound) (hl : Lasting P known)
    (hs : w.Idle → ∀ e p, P.price w.outline w.standings e p → known w e p) (hq : w.Quoted known) :
    w'.Quoted known :=
  h.quoted_of hw (fun _ _ _ => hl h hw) hs hq

theorem Edits.quoted (h : Edits P w w') (hw : w.Sound) (hl : Lasting P known) (hs : Sure P known)
    (hq : w.Quoted known) : w'.Quoted known := by
  induction h with
  | refl => exact hq
  | tail hr he ih =>
    have hw₁ := Edits.sound hr hw
    exact he.quoted hw₁ hl (fun idle _ _ hp => hs hw₁ idle ih hp) ih

omit [Quantity Q] in
/-- A memo without expressions has no quotes. -/
theorem Memo.quoted_empty (registry : Registry Op) (factRules : List (FactRule Op)) (tieBreak : TieBreak)
    (known : Knowledge Op Q) : (empty registry factRules tieBreak : Memo Op Q).work.Quoted known where
  wins s v hv := by simp [work, workAt, standings, empty] at hv
  price e p hp := by simp [work, workAt, standings, empty] at hp

end Quotes

end PlanSearch
