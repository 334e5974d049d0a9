import PlanSearch.Proofs.Memo.Current
import PlanSearch.Proofs.Optimizer.Course
import PlanSearch.Proofs.Optimizer.Rounds

/-!
# Keeping prices current

Settling keeps the prices of a memo current. What was noted since the last round is taken as what is to be
seen to in this one: new expressions are priced, and so are all readers of what was improved. Enforcers come
last, and what they put out of date is noted for the next round. When a round finds no notes, nothing is left
to be done.

    o.Tended M right (· ∈ c.newExprs) (· ∈ c.improved) → settleRound c o = .ok () o' →
      o'.Tended M right (fun _ => False) fun _ => False                            (Tended.settleRound)
    o.Tended M right (fun _ => False) (fun _ => False) → settle fuel o = .ok () o' →
      o'.Rested M right                                                                (Tended.settle)
-/

namespace PlanSearch

open Outline

namespace Optimizer

variable {Op Q : Type} [Operator Op] [Quantity Q] {o o' o₀ : Optimizer Op Q}

/-! ## Pricing -/

omit [Operator Op] [Quantity Q] in
/-- The winner of what a reference leads to is found. -/
theorem winner_of_wins {m : Memo Op Q} {r : SubGroupRef} {s : SubGroupId} {v : Winner Q}
    (hs : m.outline.subOf r = some s) (hv : m.standings.wins s = some v) : m.winner r = .ok (some v) := by
  rw [Memo.subOf_eq] at hs
  obtain ⟨sub, hsub, hwinner⟩ := Option.bind_eq_some_iff.1 hv
  unfold Memo.winner
  rw [hs]
  dsimp only
  unfold Memo.liveSubGroup
  rw [hsub, ← hwinner]
  rfl

omit [Operator Op] [Quantity Q] in
/-- The winners that an expression is fed by are found. -/
theorem mapM_winner_of_feeds {m : Memo Op Q} {x : Expr Op} {vs : List (Winner Q)} (h : m.work.Feeds x vs) :
    x.inputs.mapM m.winner = .ok (vs.map some) := by
  unfold Work.Feeds at h
  generalize x.inputs = inputs at h
  induction h with
  | nil => rfl
  | cons hv _ ih =>
    obtain ⟨s, hs, hwins⟩ := hv
    rw [List.mapM_cons, winner_of_wins hs hwins, ih]
    rfl

omit [Operator Op] [Quantity Q] in
/-- An expression that is fed has input costs. -/
theorem inputCosts_of_feeds {m : Memo Op Q} {x : Expr Op} {vs : List (Winner Q)} (h : m.work.Feeds x vs) :
    inputCosts m x = .ok (some (vs.map fun v => v.price.cost)) := by
  have hall : ∀ vs : List (Winner Q), (vs.map some).mapM id = some vs := by
    intro vs
    induction vs with
    | nil => rfl
    | cons v vs ih =>
      rw [List.map_cons, List.mapM_cons, ih]
      rfl
  unfold inputCosts
  rw [mapM_winner_of_feeds h]
  show Except.ok (((vs.map some).mapM id).map _) = _
  rw [hall]
  rfl

/-- An expression gets a fair price, or it is not physical or not fed. -/
theorem priceExpr_spec {e : ExprId} (ok : priceExpr e o = .ok () o') :
    (o'.memo = o.memo ∧ ∀ x g vs, o.memo.outline.entry (o.memo.reduceExpr e) = some (x, g) →
      Operator.isLogical x.op = false → ¬ o.memo.work.Feeds x vs) ∨
    ∃ p, o.model.Fair o.memo.outline o.memo.standings (o.memo.reduceExpr e) p ∧
      Memo.recordPrice e p o.memo = .ok o'.memo := by
  have hentry : ∀ x y g, o.memo.getExpr e = .ok x → o.memo.outline.entry (o.memo.reduceExpr e) = some (y, g) →
      y = x := by
    intro x y g hx hy
    obtain ⟨entry, hget, hex⟩ := bind_eq_ok hx
    cases hex
    rw [Memo.outline_entry_of (Memo.getEntry_eq_ok hget)] at hy
    cases hy
    rfl
  cases priceExpr_eq_ok ok with
  | @skipped x known reason =>
    refine .inl ⟨rfl, fun y g vs hy hphysical hfeeds => ?_⟩
    cases hentry x y g known hy
    rcases reason with hlogical | hnone
    · rw [hphysical] at hlogical
      cases hlogical
    · rw [inputCosts_of_feeds hfeeds] at hnone
      cases hnone
  | recorded known physical fed charged price => exact .inr ⟨_, fair_of_eval known physical fed charged, price⟩

/-- The optimizer goes by the cost model, quotes have the weights of their costs, and prices are current but for
what is still to be seen to. -/
structure Tended (M : CostModel Op Q) (right : Gauge Op Q) (todo : ExprId → Prop) (due : SubGroupId → Prop)
    (o : Optimizer Op Q) : Prop where
  model : o.model = M
  tidy : o.memo.outline.Tidy
  weighed : o.memo.work.Quoted (Weighed M)
  current : o.memo.work.Current right todo due

/-- All prices are current, and the memo has no notes. -/
structure Rested (M : CostModel Op Q) (right : Gauge Op Q) (o : Optimizer Op Q) : Prop where
  model : o.model = M
  tidy : o.memo.outline.Tidy
  weighed : o.memo.work.Quoted (Weighed M)
  quiet : o.memo.Quiet right

section Tended

variable {M : CostModel Op Q} {right : Gauge Op Q} {todo todo' : ExprId → Prop} {due due' : SubGroupId → Prop}

theorem Tended.fit (h : o.Tended M right todo due) : o.Fit M := ⟨h.tidy, h.model⟩

theorem Tended.imp (h : o.Tended M right todo due)
    (ht : ∀ e x g vs, o.memo.outline.entry e = some (x, g) → Operator.isLogical x.op = false →
      o.memo.work.Feeds x vs → todo e → todo' e)
    (hd : ∀ s, due s → ∃ s', o.memo.outline.reduceSub s' = o.memo.outline.reduceSub s ∧ due' s') :
    o.Tended M right todo' due' :=
  ⟨h.model, h.tidy, h.weighed, h.current.imp ht hd⟩

/-- What moves nothing leaves nothing unseen. -/
theorem Tended.unmoved (h : o.Tended M right todo due) (hu : o.Unmoved o') : o'.Tended M right todo due :=
  ⟨hu.model.trans h.model, hu.memo ▸ h.tidy, hu.memo ▸ h.weighed, hu.memo ▸ h.current⟩

omit [Operator Op] [Quantity Q] in
/-- A reader of a sub group is listed with its group, and has an input that leads to the sub group. -/
theorem reader_spec {m : Memo Op Q} (ht : m.outline.Tidy) {e : ExprId} {s : SubGroupId} {r : SubGroupRef}
    {group : Group} (hr : m.outline.sub s = some r) (hgroup : m.getGroup r.group = .ok group)
    (hc : m.outline.Consults e s) : e ∈ group.parents.toList ∧ ∃ x g, m.outline.entry e = some (x, g) ∧
      (x.inputs.any fun i => decide ((m.outline.reduceRef i).Same r)) = true := by
  obtain ⟨x, g, hx, i, hi, hs⟩ := ht.consults_iff.1 hc
  obtain ⟨r', hr', htraits, hg⟩ := ht.subOf_iff.1 hs
  rw [hr] at hr'
  cases hr'
  obtain ⟨cell, hcell, -⟩ := (ht.indexed.filed s r hr).resolve_left id
  have hlive : m.outline.reduce r.group = r.group := ht.sound.names.reduce_of_live (by rw [hcell]; rfl)
  have hparents := Memo.outline_group_of (Memo.getGroup_eq_ok hgroup)
  refine ⟨Std.TreeSet.mem_toList.2 ?_, x, g, hx, List.any_eq_true.2 ⟨i, hi, decide_eq_true ?_⟩⟩
  · exact (ht.sound.places.parents _ _ hparents e).2 ⟨x, g, hx, i, hi, hg.symm⟩
  · show SubGroupRef.mk (m.outline.reduce i.group) i.traits.canon = ⟨r.group, r.traits.canon⟩
    rw [← hg, hlive, htraits]

variable (hg : M.Gauges right) (hb : right.Blind)

include hg hb

omit hg in
/-- Moves without prices, and without a change of notes, leave nothing unseen. -/
theorem Tended.strict (h : o.Tended M right todo due) (hm : o.Moves Terms.strict o') :
    o'.Tended M right todo due := by
  have hw := Memo.sound_of_tidy h.tidy []
  have hfit := hm.fit h.fit
  exact ⟨hfit.model, hfit.tidy, Edits.quoted hm.edits hw weighed_lasting (sure_strict _) h.weighed,
    h.current.edits hb hw rfl hm.edits rfl⟩

/-- An expression that was priced, or cannot be, has been seen to. -/
theorem Tended.priceExpr {e : ExprId} (ok : priceExpr e o = .ok () o')
    (h : o.Tended M right (fun e' => todo e' ∨ e' = o.memo.reduceExpr e) due) :
    o'.Tended M right todo due ∧ o'.memo.outline = o.memo.outline := by
  have hmoves := (runs_priceExpr h.fit .refl e).of_ok ok
  have hfit := hmoves.fit h.fit
  have hweighed := Edits.quoted hmoves.edits (Memo.sound_of_tidy h.tidy []) weighed_lasting weighed_sure h.weighed
  rcases priceExpr_spec ok with ⟨hmemo, hno⟩ | ⟨p, hfair, hrecord⟩
  · refine ⟨⟨hfit.model, hfit.tidy, hweighed, ?_⟩, by rw [hmemo]⟩
    rw [hmemo]
    refine h.current.imp (fun e' x g vs hx hphysical hfeeds htodo => ?_) fun s hs => ⟨s, rfl, hs⟩
    rcases htodo with htodo | rfl
    · exact htodo
    · exact absurd hfeeds (hno x g vs hx hphysical)
  · refine ⟨⟨hfit.model, hfit.tidy, hweighed, ?_⟩, Memo.outline_recordPrice hrecord⟩
    rw [h.model] at hfair
    obtain ⟨x, k, c, hx, hc, hoffers⟩ := Memo.recordPrice_offers (P := Terms.strict) h.tidy hrecord
    have hedit : Edit Terms.free o.memo.work { o.memo.work with
        standings := o.memo.standings.setPrice (o.memo.reduceExpr e) p
        owed := c.subs.map fun q => (q.2, o.memo.reduceExpr e) } := .price ⟨rfl, rfl⟩ hx hc trivial
    have hsound := hedit.sound (Memo.sound_of_tidy h.tidy [])
    exact (h.current.price hg (fun s v hv => h.weighed.wins s v hv) hfair).edits hb hsound rfl hoffers rfl

/-- All readers of a sub group are seen to. -/
theorem Tended.winnerImproved {s : SubGroupId} (ok : winnerImproved s o = .ok () o')
    (h : o.Tended M right todo fun s' => due s' ∨ s' = s) :
    o'.Tended M right todo due ∧ o'.memo.outline = o.memo.outline := by
  have ht := h.tidy
  have hreaders : o.Tended M right
      (fun e => todo e ∨ o.memo.outline.Consults e (o.memo.outline.reduceSub s)) due :=
    ⟨h.model, h.tidy, h.weighed, h.current.readers ht⟩
  obtain ⟨sub, hsub, ok⟩ := Action.read_bind_eq_ok ok
  have hsub : o.memo.subGroups[o.memo.outline.reduceSub s]? = some sub := Memo.liveSubGroup_eq_ok hsub
  have href : o.memo.outline.sub (o.memo.outline.reduceSub s) = some sub.ref := by
    rw [Memo.outline_sub, hsub]
    rfl
  cases hwinner : sub.winner with
  | none =>
    -- without a winner, the sub group feeds no reader
    simp only [hwinner] at ok
    obtain ⟨-, rfl⟩ := run_pure_eq_ok ok
    refine ⟨hreaders.imp (fun e x g vs hx _ hfeeds htodo => ?_) fun s hs => ⟨s, rfl, hs⟩, rfl⟩
    refine htodo.resolve_right fun hc => ?_
    obtain ⟨y, k, hy, i, hi, hs⟩ := ht.consults_iff.1 hc
    rw [hx] at hy
    cases hy
    obtain ⟨v, -, t, ht, hv⟩ := (exists_of_forall₂ hfeeds).1 i hi
    have heq : some t = some (o.memo.outline.reduceSub s) := ht.symm.trans hs
    cases heq
    obtain ⟨sub', hsub', hv⟩ := Option.bind_eq_some_iff.1 hv
    rw [hsub] at hsub'
    cases hsub'
    rw [hwinner] at hv
    cases hv
  | some v =>
    simp only [hwinner] at ok
    have ok := run_modify_bind_eq_ok ok
    obtain ⟨group, hgroup, ok⟩ := Action.read_bind_eq_ok ok
    rw [memo_withEvent] at hgroup
    have hreads := fun {e} => reader_spec (e := e) ht href hgroup
    -- the readers among the parents still to come are to be priced
    have hloop := run_forM_invariant (fun parents o₂ => o₂.Tended M right
      (fun e => todo e ∨ e ∈ parents ∧ o.memo.outline.Consults e (o.memo.outline.reduceSub s)) due ∧
      o₂.memo.outline = o.memo.outline) (fun parent parents o₂ o₃ hinv ok₂ => ?_) ok ?_
    · exact ⟨hloop.1.imp (fun e x g vs _ _ _ htodo => htodo.resolve_right fun hno => by cases hno.1)
        fun s hs => ⟨s, rfl, hs⟩, hloop.2⟩
    · obtain ⟨hinv, hsame⟩ := hinv
      obtain ⟨x, hx, ok₂⟩ := Action.read_bind_eq_ok ok₂
      have ok₂ := run_get_bind_eq_ok ok₂
      split at ok₂
      · have htodo : o₂.Tended M right (fun e => (todo e ∨ e ∈ parents ∧
            o.memo.outline.Consults e (o.memo.outline.reduceSub s)) ∨ e = o₂.memo.reduceExpr parent) due := by
          refine hinv.imp (fun e y g vs hy _ _ htodo => ?_) fun s hs => ⟨s, rfl, hs⟩
          rcases htodo with htodo | ⟨hmem, hc⟩
          · exact .inl (.inl htodo)
          · rcases List.mem_cons.1 hmem with rfl | hmem
            · refine .inr ?_
              show e = o₂.memo.outline.reduceExpr e
              rw [hsame, ht.sound.names.reduceExpr_of_live hc.isSome]
            · exact .inl (.inr ⟨hmem, hc⟩)
        obtain ⟨hinv', hsame'⟩ := htodo.priceExpr hg hb ok₂
        exact ⟨hinv', hsame'.trans hsame⟩
      · next hno =>
        obtain ⟨-, rfl⟩ := run_pure_eq_ok ok₂
        refine ⟨hinv.imp (fun e y g vs hy _ _ htodo => ?_) fun s hs => ⟨s, rfl, hs⟩, hsame⟩
        rcases htodo with htodo | ⟨hmem, hc⟩
        · exact .inl htodo
        · rcases List.mem_cons.1 hmem with rfl | hmem
          · -- an expression that reads the sub group has an input that says so
            obtain ⟨-, x', g', hx', hany⟩ := hreads hc
            rw [← hsame] at hx' hany
            rw [Memo.getExpr_of_entry hinv.tidy.sound.names hx'] at hx
            cases hx
            exact absurd hany hno
          · exact .inr ⟨hmem, hc⟩
    · refine ⟨(hreaders.unmoved (untouched_withEvent _ _).toUnmoved).imp
        (fun e x g vs _ _ _ htodo => ?_) fun s hs => ⟨s, rfl, hs⟩, by rw [memo_withEvent]⟩
      exact htodo.imp id fun hc => ⟨(hreads hc).1, hc⟩

/-- A round leaves to the next one what it noted itself. -/
theorem Tended.settleRound {c : Changes} (ok : settleRound c o = .ok () o')
    (h : o.Tended M right (· ∈ c.newExprs) (· ∈ c.improved)) :
    o'.Tended M right (fun _ => False) fun _ => False := by
  obtain ⟨o₁, o₂, o₃, o₄, affected, hstart, hnew, himproved, -, henforce, hfind⟩ := settleRound_spec ok
  -- what is new is priced
  have hpriced := run_forM_invariant (fun es o => o.Tended M right (· ∈ es) (· ∈ c.improved))
    (fun e es o o' hinv ok => by
      refine (Tended.priceExpr hg hb ok (hinv.imp (fun e' x g vs hx _ _ hmem => ?_) fun s hs => ⟨s, rfl, hs⟩)).1
      rcases List.mem_cons.1 hmem with rfl | hmem
      · right
        show e' = o.memo.outline.reduceExpr e'
        rw [hinv.tidy.sound.names.reduceExpr_of_live (by rw [hx]; rfl)]
      · exact .inl hmem) hnew (h.unmoved hstart.1)
  -- what reads the improved is priced
  have hdue : o₂.Tended M right (fun _ => False)
      (· ∈ (c.improved.map o₂.memo.reduceSubGroup).eraseDups) := by
    refine hpriced.imp (fun _ _ _ _ _ _ _ hmem => by cases hmem) fun s hs => ?_
    refine ⟨o₂.memo.reduceSubGroup s, hpriced.tidy.sound.names.reduceSub_reduceSub s, ?_⟩
    exact List.mem_eraseDups.2 (List.mem_map_of_mem hs)
  have hread := run_forM_invariant (fun ss o => o.Tended M right (fun _ => False) (· ∈ ss))
    (fun s ss o o' hinv ok => by
      refine (Tended.winnerImproved hg hb ok (hinv.imp (fun _ _ _ _ _ _ _ => id) fun t ht => ?_)).1
      exact ⟨t, rfl, (List.mem_cons.1 ht).symm⟩) himproved hdue
  have henforced : o₃.Moves Terms.strict o₄ :=
    (runs_forM (fun g o₁ h₁ => runs_addEnforcers hread.fit h₁ g) .refl).of_ok henforce
  refine Tended.unmoved (Tended.strict hb (hread.imp (fun _ _ _ _ _ _ _ => id) fun s hs => ?_) henforced) hfind.toUnmoved
  cases hs

/-- In the end, nothing is left to be seen to. -/
theorem Tended.settle {fuel : Nat} (ok : settle fuel o = .ok () o')
    (h : o.Tended M right (fun _ => False) fun _ => False) : o'.Rested M right := by
  have hforget : ∀ o : Optimizer Op Q, o.Tended M right (fun _ => False) (fun _ => False) →
      ({ o with memo := o.memo.forgetChanges } : Optimizer Op Q).Tended M right
        (· ∈ o.memo.changes.newExprs) (· ∈ o.memo.changes.improved) := by
    intro o h
    have hedit : Edits M.terms o.memo.work o.memo.forgetChanges.work :=
      .single (.forget (w := o.memo.work) ⟨rfl, rfl⟩ trivial)
    refine ⟨h.model, Memo.tidy_of_edits h.tidy hedit,
      Edits.quoted hedit (Memo.sound_of_tidy h.tidy []) weighed_lasting weighed_sure h.weighed, ?_⟩
    exact h.current.forget.imp (fun _ _ _ _ _ _ _ htodo => htodo.resolve_left id)
      fun s hs => ⟨s, rfl, hs.resolve_left id⟩
  obtain ⟨o₁, h₁, hempty, rfl⟩ := settle_induct (fun o o' h ok => Tended.settleRound hg hb ok (hforget o h)) h ok
  have hend := hforget o₁ h₁
  simp only [Changes.isEmpty, Bool.and_eq_true, List.isEmpty_iff] at hempty
  refine ⟨hend.model, hend.tidy, hend.weighed, hend.current.imp (fun _ _ _ _ _ _ _ hmem => ?_) fun s hs => ?_,
    rfl, rfl⟩
  · rw [hempty.1.1.1] at hmem
    cases hmem
  · rw [hempty.1.1.2] at hs
    cases hs

end Tended

/-! ## Strides -/

theorem Entering.edits {m m' : Memo Op Q} (h : Entering m m') (ht : m.outline.Tidy) :
    Edits Terms.strict m.work m'.work := by
  cases h with
  | add ok => exact ((Memo.add_edited ht _).of_ok ok).1
  | request ok => exact ((Memo.ensureSubGroup_edited ht _ _).of_ok ok).1
  | join ok => exact ((Memo.addTo_edited ht _ _).of_ok ok).1
  | enforce ok => exact ((Memo.addNodeTo_edited ht _ _ _).of_ok ok).1

/-- A stride is a move without prices. -/
theorem Stride.moves {M : CostModel Op Q} (h : o.Stride o') (hf : o.Fit M) :
    ∃ o₁, o.Moves Terms.strict o₁ ∧ o₁.Unmoved o' := by
  cases h with
  | rest untouched => exact ⟨o, .refl, untouched.toUnmoved⟩
  | enter entering => exact ⟨_, .single (.edit (entering.edits hf.tidy)), .refl _⟩

section Rested

variable {M : CostModel Op Q} {right : Gauge Op Q}

theorem Rested.tended (h : o.Rested M right) : o.Tended M right (fun _ => False) fun _ => False :=
  ⟨h.model, h.tidy, h.weighed, h.quiet.current⟩

theorem Rested.unmoved (h : o.Rested M right) (hu : o.Unmoved o') : o'.Rested M right :=
  ⟨hu.model.trans h.model, hu.memo ▸ h.tidy, hu.memo ▸ h.weighed, hu.memo ▸ h.quiet⟩

theorem Tended.strides (hb : right.Blind) (h : o.Tended M right (fun _ => False) fun _ => False)
    (hs : o.Strides o') :
    o'.Tended M right (fun _ => False) fun _ => False := by
  induction hs with
  | refl => exact h
  | tail _ hstride ih =>
    obtain ⟨o₁, hmoves, hunmoved⟩ := hstride.moves ih.fit
    exact (Tended.strict hb ih hmoves).unmoved hunmoved

end Rested

end Optimizer

end PlanSearch
