import PlanSearch.Proofs.Optimizer.Cycles
import PlanSearch.Proofs.Optimizer.Tending

/-!
# Runs

A run of an optimizer is any series of calls that all succeed, from when it was built or cleared, and a search is
seen after each of its turns. Between strides that are settled nothing moves. So what holds of a memo without
expressions, and is kept by what moves nothing and by strides that are settled, holds in every state of a run.

    o.Run → o.memo.outline.Tidy                                                                   (Run.tidy)
    o.Run → Lasting o.model.terms known → Sure o.model.terms known → o.memo.work.Quoted known   (Run.quoted)
    o.Run → o.model.Gauges right → right.Blind → o.Rested o.model right                         (Run.rested)
    o.Run → … → o.memo.Settled o.model tariff worth                                            (Run.settled)
-/

namespace PlanSearch

open Outline

namespace Optimizer

variable {Op Q : Type} [Operator Op] [Quantity Q] {o o' : Optimizer Op Q}

/-- The optimizer was built or cleared, and all calls since succeeded. A search under way may have had any number
of turns. The host may change the options and the statistics. -/
inductive Run : Optimizer Op Q → Prop
  | start {o : Optimizer Op Q} (blank : o.Blank) (untried : o.attempted = []) : Run o
  | call {o o' : Optimizer Op Q} {α : Type} {x : Action Op Q α} {a : α} (call : Call x) (before : Run o)
      (ok : x o = .ok a o') : Run o'
  | turn {o o' : Optimizer Op Q} (before : Run o) (advance : o.Advance o') : Run o'
  | addRule {o o' : Optimizer Op Q} {rule : Rule Op Q} {n : Nat} (before : Run o)
      (ok : addRule rule o = .ok n o') : Run o'
  | removeRule {o o' : Optimizer Op Q} {n : Nat} (before : Run o) (ok : removeRule n o = .ok () o') : Run o'
  | host {o : Optimizer Op Q} (options : Options) (stats : Stats) (before : Run o) :
      Run { o with options := options, stats := stats }

/-! ## Calls that move nothing -/

omit [Quantity Q] in
theorem still_enqueueAt (id : Nat) (rule : Rule Op Q) (roots : List ExprId) : Still (enqueueAt id rule roots) :=
  .forM fun _ => (still_read _).bind fun _ => .forM fun es => still_enqueue id rule es

omit [Quantity Q] in
theorem still_matchEverywhere (id : Nat) : Still (matchEverywhere id : Action Op Q Unit) := by
  refine .get_bind fun o => ?_
  split
  · refine (still_read _).bind fun rule => .get_bind fun o => ?_
    exact Still.forM fun g => still_enqueueAt id rule _
  · exact still_pure _

omit [Operator Op] [Quantity Q] in
theorem still_disableRule (id : Nat) : Still (disableRule id : Action Op Q Unit) :=
  still_modify fun _ => ⟨⟨rfl, rfl, rfl⟩, rfl⟩

omit [Quantity Q] in
theorem still_enableRule (id : Nat) : Still (enableRule id : Action Op Q Unit) := by
  refine .get_bind fun o => ?_
  split
  · exact Still.bind (still_modify fun _ => ⟨⟨rfl, rfl, rfl⟩, rfl⟩) fun _ => still_matchEverywhere id
  · exact still_pure _

omit [Operator Op] [Quantity Q] in
theorem still_forRulesNamed {f : Nat → Action Op Q Unit} (hf : ∀ id, Still (f id)) (name : String) :
    Still (forRulesNamed name f) := by
  refine .get_bind fun o => ?_
  dsimp only
  split
  · intro _ _ _ h
    cases h
  · exact .forM hf

omit [Quantity Q] in
theorem still_addRule (rule : Rule Op Q) : Still (addRule rule : Action Op Q Nat) :=
  .get_bind fun _ => Still.bind (still_modify fun _ => ⟨⟨rfl, rfl, rfl⟩, rfl⟩) fun _ =>
    (still_matchEverywhere _).bind fun _ => still_pure _

omit [Operator Op] [Quantity Q] in
theorem still_removeRule (id : Nat) : Still (removeRule id : Action Op Q Unit) := by
  refine .get_bind fun o => ?_
  split
  · exact still_modify fun _ => ⟨⟨rfl, rfl, rfl⟩, rfl⟩
  · intro _ _ _ h
    cases h

omit [Operator Op] [Quantity Q] in
theorem still_extract : Still (extract : Action Op Q (Outcome Op Q)) := by
  have finish : Still (modify fun o => { o with phase := .done } : Action Op Q PUnit) :=
    still_modify fun _ => ⟨⟨rfl, rfl, rfl⟩, rfl⟩
  refine .get_bind fun o => ?_
  split
  · intro _ _ _ h
    cases h
  · refine Still.bind (still_modify fun _ => ⟨⟨rfl, rfl, rfl⟩, rfl⟩) fun _ => .get_bind fun o => ?_
    dsimp only
    split
    · exact (still_read _).bind fun _ => finish.bind fun _ => still_pure _
    · intro _ _ _ h
      cases h
    · split
      · exact finish.bind fun _ => still_pure _
      · refine finish.bind fun _ => ?_
        intro _ _ _ h
        cases h

/-! ## What runs keep -/

omit [Operator Op] [Quantity Q] in
theorem Blank.tidy (h : o.Blank) : o.memo.outline.Tidy := by
  obtain ⟨registry, factRules, tieBreak, hm⟩ := h.memo
  rw [hm]
  exact (Memo.orderly_empty _ _ _).ordered.tidy

theorem Strides.moves (h : o.Strides o') (ht : o.memo.outline.Tidy) :
    Edits Terms.strict o.memo.work o'.memo.work ∧ o'.model = o.model := by
  induction h with
  | refl => exact ⟨.refl, rfl⟩
  | tail _ hstride ih =>
    obtain ⟨hedits, hmodel⟩ := ih
    have hfit := (⟨Memo.tidy_of_edits ht hedits, rfl⟩ : Fit _ _)
    obtain ⟨o₁, hmoves, hunmoved⟩ := hstride.moves hfit
    refine ⟨hedits.trans (hunmoved.memo ▸ hmoves.edits), ?_⟩
    exact hunmoved.model.trans ((hmoves.fit hfit).model.trans hmodel)

/-- Strides that are settled come to edits with fair prices. -/
theorem Strides.settled (h : o.Strides o') (ht : o.memo.outline.Tidy) {fuel : Nat} {o'' : Optimizer Op Q}
    (ok : settle fuel o' = .ok () o'') :
    Edits o.model.terms o.memo.work o''.memo.work ∧ o''.model = o.model := by
  obtain ⟨hedits, hmodel⟩ := h.moves ht
  have hfit : o'.Fit o.model := ⟨Memo.tidy_of_edits ht hedits, hmodel⟩
  have hmoves := (runs_settle hfit .refl fuel).of_ok ok
  exact ⟨hedits.of_strict.trans hmoves.edits, (hmoves.fit hfit).model⟩

/-- What a call keeps that succeeds: it holds of what is cleared, and is kept by what touches nothing, by questions for row
counts, and by strides that are settled. -/
structure Lasts (I : Optimizer Op Q → Prop) : Prop where
  cleared : ∀ o : Optimizer Op Q, I o.clear
  untouched : ∀ o o' : Optimizer Op Q, I o → o.Untouched o' → I o'
  asked : ∀ (o : Optimizer Op Q) (g : GroupId), I o →
    I { o with rowCache := (o.memo.rowCount o.model g o.rowCache).2 }
  settled : ∀ (o o₁ o₂ : Optimizer Op Q) (fuel : Nat), o.memo.outline.Tidy → I o → o.Strides o₁ →
    settle fuel o₁ = .ok () o₂ → o₂.model = o.model → I o₂

section Lasts

variable {I : Optimizer Op Q → Prop} (hI : Lasts I)

include hI

theorem Lasts.still {α : Type} {x : Action Op Q α} {a : α} (hx : Still x) (ok : x o = .ok a o')
    (h : o.memo.outline.Tidy ∧ I o) : o'.memo.outline.Tidy ∧ I o' := by
  have hu := hx _ _ _ ok
  exact ⟨hu.memo ▸ h.1, hI.untouched o o' h.2 hu⟩

theorem Lasts.strides {o₁ o₂ : Optimizer Op Q} {fuel : Nat} (hstrides : o.Strides o₁) (ok : settle fuel o₁ = .ok () o₂)
    (hu : o₂.Untouched o') (h : o.memo.outline.Tidy ∧ I o) : o'.memo.outline.Tidy ∧ I o' := by
  obtain ⟨hedits, hmodel⟩ := hstrides.settled h.1 ok
  exact ⟨hu.memo ▸ Memo.tidy_of_edits h.1 hedits,
    hI.untouched o₂ o' (hI.settled o o₁ o₂ fuel h.1 h.2 hstrides ok hmodel) hu⟩

theorem Lasts.seed {fuel : Nat} {plan : PlanNode Op} {required : TraitSet} {g : GroupId}
    (ok : seed fuel plan required o = .ok g o') (h : o.memo.outline.Tidy ∧ I o) : o'.memo.outline.Tidy ∧ I o' := by
  obtain ⟨o₁, o₂, hstrides, hsettle, hu⟩ := seed_strides ok
  exact hI.strides hstrides hsettle hu h

theorem Lasts.turn (hadvance : o.Advance o') (h : o.memo.outline.Tidy ∧ I o) : o'.memo.outline.Tidy ∧ I o' := by
  rcases hadvance.strides with hu | ⟨fuel, o₁, o₂, hstrides, hsettle, hu⟩
  · exact ⟨hu.memo ▸ h.1, hI.untouched o o' h.2 hu⟩
  · exact hI.strides hstrides hsettle hu h

theorem Lasts.search {fuel : Nat} (ok : search fuel o = .ok () o') (h : o.memo.outline.Tidy ∧ I o) :
    o'.memo.outline.Tidy ∧ I o' := by
  have hadvances := search_advances ok
  clear ok
  induction hadvances with
  | refl => exact h
  | tail _ hadvance ih => exact hI.turn hadvance ih

theorem Lasts.call {α : Type} {x : Action Op Q α} {a : α} (call : Call x) (ok : x o = .ok a o')
    (h : o.memo.outline.Tidy ∧ I o) : o'.memo.outline.Tidy ∧ I o' := by
  cases call with
  | seed fuel plan required => exact hI.seed ok h
  | search fuel => exact hI.search ok h
  | extract => exact hI.still still_extract ok h
  | disableRule id => exact hI.still (still_disableRule id) ok h
  | enableRule id => exact hI.still (still_enableRule id) ok h
  | disableRulesNamed name => exact hI.still (still_forRulesNamed still_disableRule name) ok h
  | enableRulesNamed name => exact hI.still (still_forRulesNamed still_enableRule name) ok h
  | rowCount g =>
    cases ok
    exact ⟨h.1, hI.asked o g h.2⟩
  | optimize fuel plan required =>
    -- a whole call starts from the cleared optimizer
    have ok := run_modify_bind_eq_ok ok
    obtain ⟨_, o₁, hseed, ok⟩ := run_bind_eq_ok ok
    obtain ⟨_, o₂, hsearch, hextract⟩ := run_bind_eq_ok ok
    exact hI.still still_extract hextract (hI.search hsearch (hI.seed hseed ⟨(blank_clear o).tidy, hI.cleared o⟩))

end Lasts

/-- What holds in the beginning, and is kept by what moves nothing and by strides that are settled, holds in every
state of a run. -/
theorem Run.induct {I : Optimizer Op Q → Prop} (start : ∀ o : Optimizer Op Q, o.Blank → o.attempted = [] → I o)
    (unmoved : ∀ o o' : Optimizer Op Q, I o → o.Unmoved o' → I o')
    (settled : ∀ (o o₁ o₂ : Optimizer Op Q) (fuel : Nat), o.memo.outline.Tidy → I o → o.Strides o₁ →
      settle fuel o₁ = .ok () o₂ → o₂.model = o.model → I o₂)
    (h : o.Run) : o.memo.outline.Tidy ∧ I o := by
  have hI : Lasts I := ⟨fun o => start _ (blank_clear o) rfl, fun o o' h hu => unmoved o o' h hu.toUnmoved,
    fun o _ h => unmoved o _ h ⟨rfl, rfl, rfl⟩, settled⟩
  induction h with
  | start blank untried => exact ⟨blank.tidy, start _ blank untried⟩
  | call call _ ok ih => exact hI.call call ok ih
  | turn _ advance ih => exact hI.turn advance ih
  | addRule _ ok ih => exact hI.still (still_addRule _) ok ih
  | removeRule _ ok ih => exact hI.still (still_removeRule _) ok ih
  | host options stats _ ih => exact ⟨ih.1, unmoved _ _ ih.2 ⟨rfl, rfl, rfl⟩⟩

theorem Run.tidy (h : o.Run) : o.memo.outline.Tidy :=
  (h.induct (I := fun _ => True) (fun _ _ _ => trivial) (fun _ _ _ _ => trivial)
    fun _ _ _ _ _ _ _ _ _ => trivial).1

/-- A run comes to edits with fair prices, from a memo without expressions. -/
theorem Run.edits (h : o.Run) : ∃ registry factRules tieBreak,
    Edits o.model.terms (Memo.empty registry factRules tieBreak : Memo Op Q).work o.memo.work := by
  refine (h.induct (I := fun o => ∃ registry factRules tieBreak,
    Edits o.model.terms (Memo.empty registry factRules tieBreak : Memo Op Q).work o.memo.work)
    (fun o blank _ => ?_) (fun o o' hI hu => ?_) fun o o₁ o₂ fuel ht hI hstrides ok hmodel => ?_).2
  · obtain ⟨registry, factRules, tieBreak, hm⟩ := blank.memo
    exact ⟨registry, factRules, tieBreak, hm ▸ .refl⟩
  · rw [hu.memo, hu.model]
    exact hI
  · obtain ⟨registry, factRules, tieBreak, hedits⟩ := hI
    rw [hmodel]
    exact ⟨registry, factRules, tieBreak, hedits.trans (hstrides.settled ht ok).1⟩

/-- What is known of quotes in every state of a run. -/
theorem Run.quoted (h : o.Run) {known : Knowledge Op Q} (hl : Lasting o.model.terms known)
    (hs : Sure o.model.terms known) : o.memo.work.Quoted known := by
  obtain ⟨registry, factRules, tieBreak, hedits⟩ := h.edits
  exact Edits.quoted hedits (Memo.sound_of_tidy (Memo.orderly_empty _ _ _).ordered.tidy []) hl hs
    (Memo.quoted_empty _ _ _ _)

/-- All quotes are achieved, and all members are offered, in every state of a run. -/
theorem Run.vouched {W : Type} [AddCommMonoid W] [PartialOrder W] [IsOrderedAddMonoid W]
    {tariff : Tariff Op W} {worth : Price Q → W} (h : o.Run) (hr : Memo.Ranks (fun _ => True) worth)
    (hg : o.model.Gauges (tariff.gauge worth)) : o.memo.Vouched o.model tariff worth := by
  obtain ⟨registry, factRules, tieBreak, hedits⟩ := h.edits
  exact (Memo.vouched_empty registry factRules tieBreak).edits hr hg hedits

/-- In every state of a run, all prices are current. -/
theorem Run.rested (h : o.Run) {right : Gauge Op Q} (hg : o.model.Gauges right) (hb : right.Blind) :
    o.Rested o.model right := by
  refine (h.induct (I := fun o => o.model.Gauges right → o.Rested o.model right) (fun o blank _ _ => ?_)
    (fun o o' hI hu hg => ?_) fun o o₁ o₂ fuel ht hI hstrides ok hmodel hg => ?_).2 hg
  · obtain ⟨registry, factRules, tieBreak, hm⟩ := blank.memo
    refine ⟨rfl, blank.tidy, ?_, fun e x g vs hx => ?_, ?_, ?_⟩
    · exact blank.quoted _
    · rw [show o.memo.work.outline.entry e = none from blank.entry_eq_none e] at hx
      cases hx
    · rw [hm]
      rfl
    · rw [hm]
      rfl
  · rw [hu.model] at hg ⊢
    exact (hI hg).unmoved hu
  · rw [hmodel] at hg ⊢
    exact Tended.settle hg hb ok (Tended.strides hb (hI hg).tended hstrides)

/-- In every state of a run, all quotes are achieved, all members are offered, and all prices are current. -/
theorem Run.settled {W : Type} [AddCommMonoid W] [PartialOrder W] [IsOrderedAddMonoid W]
    {tariff : Tariff Op W} {worth : Price Q → W} (h : o.Run) (hr : Memo.Ranks (fun _ => True) worth)
    (hg : o.model.Gauges (tariff.gauge worth)) : o.memo.Settled o.model tariff worth where
  toVouched := h.vouched hr hg
  quiet := (h.rested hg (tariff.blind_gauge worth)).quiet

/-- Where it is all one what things cost, a sub group has a winner in every state of a run if what it asks for has
any derivation. -/
theorem Run.feasible (h : o.Run) :
    o.memo.Settled o.model (fun _ _ _ _ => PUnit.unit) fun _ => PUnit.unit :=
  h.settled ⟨fun _ _ _ => le_rfl, fun _ _ _ => le_rfl⟩ fun _ _ _ _ _ _ _ _ => rfl

/-- The state that a search ends with is that of a run. -/
theorem run_of_optimizeLogged (hb : o.Blank) (hu : o.attempted = []) {fuel : Nat} {plan : PlanNode Op}
    {required : TraitSet} {fired : List Match} {outcome : Outcome Op Q}
    (h : answer? (optimizeLogged fuel plan required) o = some (fired, o', outcome)) :
    o'.Run ∧ o'.model = o.model := by
  obtain ⟨g, seeded, final, hseed, hsearch, -⟩ := optimizeLogged_spec h
  have ok := search_of_searchLogged hsearch
  obtain ⟨hfit, hmoves⟩ := hb.moves hseed (search_advances ok)
  exact ⟨.call (.search fuel) (.call (.seed fuel plan required) (.start hb hu) hseed) ok, (hmoves.fit hfit).model⟩

end Optimizer

end PlanSearch
