import PlanSearch.Proofs.Optimizer.Settling
import PlanSearch.Proofs.Optimizer.Advance

/-!
# Rounds, taken apart

A round of settling prices what is new and what reads the improved, adds enforcers, and discovers matches, which
moves neither the memo nor the attempts at conversion. Before the memo is settled, seeding and firing only enter plans
and ask for sub groups.

    settleRound c o = .ok () o' → pricing, reading and enforcing lead from o to o', and the rest moves nothing
                                                                                            (settleRound_spec)
    o.Advance o' → o.Untouched o', or o.Strides o₁ and settle fuel o₁ leads to o'           (Advance.strides)
-/

namespace PlanSearch

namespace Optimizer

variable {Op Q : Type} {o o' o'' : Optimizer Op Q}

/-! ## Actions that move nothing -/

/-- The memo, the cost model and the attempts at conversion are as they were. -/
structure Unmoved (o o' : Optimizer Op Q) : Prop where
  memo : o'.memo = o.memo
  model : o'.model = o.model
  attempted : o'.attempted = o.attempted

theorem Unmoved.refl (o : Optimizer Op Q) : o.Unmoved o := ⟨rfl, rfl, rfl⟩

theorem Unmoved.trans (h₁ : o.Unmoved o') (h₂ : o'.Unmoved o'') : o.Unmoved o'' :=
  ⟨h₂.memo.trans h₁.memo, h₂.model.trans h₁.model, h₂.attempted.trans h₁.attempted⟩

/-- The known row counts are as they were, too. -/
structure Untouched (o o' : Optimizer Op Q) : Prop extends Unmoved o o' where
  rowCache : o'.rowCache = o.rowCache

theorem Untouched.refl (o : Optimizer Op Q) : o.Untouched o := ⟨.refl o, rfl⟩

theorem Untouched.trans (h₁ : o.Untouched o') (h₂ : o'.Untouched o'') : o.Untouched o'' :=
  ⟨h₁.toUnmoved.trans h₂.toUnmoved, h₂.rowCache.trans h₁.rowCache⟩

theorem untouched_withEvent (o : Optimizer Op Q) (e : Event Q) : o.Untouched (o.withEvent e) := by
  unfold withEvent
  split
  · exact ⟨⟨rfl, rfl, rfl⟩, rfl⟩
  · exact .refl o

theorem untouched_enforced (o : Optimizer Op Q) (g : GroupId) (actual required : TraitSet) (es : List ExprId) :
    o.Untouched (o.enforced g actual required es) := by
  have hcounted : o.Untouched { o with stats := { o.stats with enforcers := o.stats.enforcers + 1 } } :=
    ⟨⟨rfl, rfl, rfl⟩, rfl⟩
  exact hcounted.trans (untouched_withEvent _ _)

/-- Where the action succeeds, it moves nothing. -/
def Still {α : Type} (x : Action Op Q α) : Prop := ∀ o a o', x o = .ok a o' → o.Untouched o'

section Still

open PlanSearch.Action

variable {α β : Type} {x : Action Op Q α}

theorem composes_untouched : Composes (fun _ : Optimizer Op Q => True) Untouched where
  refl _ := .refl _
  keeps _ _ := trivial
  trans := .trans

theorem still_of_ensures (h : Ensures (fun _ => True) Untouched x) : Still x := fun o a o' => h o a o' trivial

theorem Still.ensures (h : Still x) : Ensures (fun _ => True) Untouched x := fun o a o' _ => h o a o'

theorem still_pure (a : α) : Still (pure a : Action Op Q α) := still_of_ensures (composes_untouched.pure a)

theorem Still.bind {f : α → Action Op Q β} (hx : Still x) (hf : ∀ a, Still (f a)) : Still (x >>= f) :=
  still_of_ensures (composes_untouched.bind hx.ensures fun a => (hf a).ensures)

theorem still_read (f : Optimizer Op Q → Except Failure α) : Still (Action.read f) :=
  still_of_ensures (composes_untouched.read f)

theorem Still.get_bind {f : Optimizer Op Q → Action Op Q β} (hf : ∀ o, Still (f o)) :
    Still ((get : Action Op Q (Optimizer Op Q)) >>= f) :=
  still_of_ensures (.get_bind fun o => (hf o).ensures)

theorem still_modify {f : Optimizer Op Q → Optimizer Op Q} (hf : ∀ o : Optimizer Op Q, o.Untouched (f o)) :
    Still (modify f : Action Op Q PUnit) := by
  intro o a o' h
  cases h
  exact hf o

theorem Still.forM {f : β → Action Op Q PUnit} {bs : List β} (hf : ∀ b, Still (f b)) : Still (bs.forM f) :=
  still_of_ensures (composes_untouched.forM fun b => (hf b).ensures)

end Still

theorem still_count (f : Stats → Stats) : Still (count f : Action Op Q Unit) :=
  still_modify fun _ => ⟨⟨rfl, rfl, rfl⟩, rfl⟩

theorem still_record (e : Event Q) : Still (record e : Action Op Q Unit) :=
  still_modify fun o => untouched_withEvent o e

theorem still_noteMerge (kept absorbed : GroupId) : Still (noteMerge kept absorbed : Action Op Q Unit) :=
  (still_count _).bind fun _ => still_record _

theorem still_enqueue (id : Nat) (rule : Rule Op Q) (es : List ExprId) : Still (enqueue id rule es) := by
  refine .get_bind fun o => ?_
  dsimp only
  split
  · exact .bind (still_modify fun _ => ⟨⟨rfl, rfl, rfl⟩, rfl⟩) fun _ => (still_count _).bind fun _ => still_record _
  · exact still_pure _

variable [Operator Op]

theorem still_indexExpr (e : ExprId) : Still (indexExpr e : Action Op Q Unit) := by
  refine (still_read _).bind fun x => .get_bind fun o => .forM fun c => .get_bind fun o₁ => ?_
  split
  · refine (still_read _).bind fun rule => (still_read _).bind fun roots => ?_
    exact .forM fun root => (still_read _).bind fun found => .forM fun es => still_enqueue _ rule es
  · exact still_pure _

theorem still_rediscover (c : Changes) : Still (rediscover c : Action Op Q Unit) := by
  refine Still.bind (.forM still_indexExpr) fun _ => .forM fun p => .get_bind fun o => ?_
  exact .forM still_indexExpr

variable [Quantity Q]

/-! ## Rounds -/

/-- A round prices what is new, then what reads the improved, then adds enforcers. Where groups have merged, no row counts
are known before. -/
theorem settleRound_spec {c : Changes} (h : settleRound c o = .ok () o') : ∃ o₁ o₂ o₃ o₄ affected,
    (o.Unmoved o₁ ∧ o₁.rowCache = if c.merged.isEmpty then o.rowCache else ∅) ∧
    c.newExprs.forM priceExpr o₁ = .ok () o₂ ∧
    ((c.improved.map o₂.memo.reduceSubGroup).eraseDups).forM winnerImproved o₂ = .ok () o₃ ∧
    affectedGroups o₃.memo c = .ok affected ∧ affected.forM addEnforcers o₃ = .ok () o₄ ∧ o₄.Untouched o' := by
  obtain ⟨o₁, o₂, o₃, o₄, affected, h₁, h₂, h₃, haffected, h₄, hend⟩ := settleRound_eq_ok h
  have hnotes := Still.forM (fun p : GroupId × GroupId => still_noteMerge p.1 p.2) _ _ o₁ h₁
  have hstart : o.Unmoved (o.renewed c) ∧ (o.renewed c).rowCache = if c.merged.isEmpty then o.rowCache else ∅ := by
    unfold renewed
    split
    · exact ⟨.refl o, rfl⟩
    · exact ⟨⟨rfl, rfl, rfl⟩, rfl⟩
  exact ⟨o₁, o₂, o₃, o₄, affected, ⟨hstart.1.trans hnotes.toUnmoved, hnotes.rowCache.trans hstart.2⟩, h₂, h₃, haffected,
    h₄, still_rediscover c o₄ _ o' hend⟩

/-! ## Strides -/

/-- A call that enters plans or asks for sub groups, and succeeds. -/
inductive Entering (m : Memo Op Q) : Memo Op Q → Prop
  | add {n : PlanNode Op} {answer : GroupId × ExprId} {m' : Memo Op Q}
      (ok : Memo.add n m = .ok answer m') : Entering m m'
  | request {r : SubGroupRef} {require : Bool} {answer : SubGroupId} {m' : Memo Op Q}
      (ok : Memo.ensureSubGroup r require m = .ok answer m') : Entering m m'
  | join {p : Plan Op} {g : GroupId} {answer : Option ExprId} {m' : Memo Op Q}
      (ok : Memo.addTo p g m = .ok answer m') : Entering m m'
  | enforce {n : PlanNode Op} {g : GroupId} {answer : Option ExprId} {m' : Memo Op Q}
      (ok : Memo.addEnforcer n g m = .ok answer m') : Entering m m'

/-- Nothing is moved, or something is entered. -/
inductive Stride (o : Optimizer Op Q) : Optimizer Op Q → Prop
  | rest {o' : Optimizer Op Q} (untouched : o.Untouched o') : Stride o o'
  | enter {m : Memo Op Q} (entering : Entering o.memo m) : Stride o { o with memo := m }

/-- Any number of strides. -/
abbrev Strides : Optimizer Op Q → Optimizer Op Q → Prop := Relation.ReflTransGen Stride

theorem produce_strides {rule : Rule Op Q} {binding : PlanNode Op} {g : GroupId} {p : Plan Op}
    {product : Product} (h : produce rule binding g p o = .ok product o') : o.Strides o' := by
  obtain ⟨e, m, hm, rfl⟩ := produce_eq_ok h
  exact .single (.enter (.join hm))

theorem produceAll_strides {rule : Rule Op Q} {binding : PlanNode Op} {g : GroupId} :
    ∀ {outs : List (Plan Op)} {o o' : Optimizer Op Q} {products : List Product},
    outs.mapM (produce rule binding g) o = .ok products o' → o.Strides o'
  | [], o, o', products, h => by
    obtain ⟨-, rfl⟩ := run_pure_eq_ok h
    exact .refl
  | p :: outs, o, o', products, h => by
    obtain ⟨product, o₁, products', h₁, h₂, -⟩ := run_mapM_cons_eq_ok h
    exact (produce_strides h₁).trans (produceAll_strides h₂)

/-- A match fires in strides, and then what it leaves is settled. -/
theorem fire_strides {fuel : Nat} {x : Match} (h : fire fuel x o = .ok () o') :
    ∃ o₁, o.Strides o₁ ∧ settle fuel o₁ = .ok () o' := by
  obtain ⟨rule, root, more, g, n, outs, products, o₁, -, -, -, -, -, hjoined, hsettle⟩ := fire_eq_ok h
  have hcounted : o.Strides (o.firing x.rule) := .single (.rest ⟨⟨rfl, rfl, rfl⟩, rfl⟩)
  exact ⟨_, (hcounted.trans (produceAll_strides hjoined)).tail (.rest (untouched_withEvent _ _)), hsettle⟩

/-- Seeding enters the plan and asks for its sub group, and then what that leaves is settled. -/
theorem seed_strides {fuel : Nat} {plan : PlanNode Op} {required : TraitSet} {g : GroupId}
    (h : seed fuel plan required o = .ok g o') :
    ∃ o₁ o₂, o.Strides o₁ ∧ settle fuel o₁ = .ok () o₂ ∧ o₂.Untouched o' := by
  obtain ⟨g₀, e, s, m₁, m₂, o₂, hadd, hask, hsettle, rfl, -⟩ := seed_spec h
  refine ⟨_, o₂, ?_, hsettle, ⟨⟨rfl, rfl, rfl⟩, rfl⟩⟩
  have hadded : o.Strides { o with memo := m₁ } := .single (.enter (.add hadd))
  have hasked : o.Strides { o with memo := m₂ } :=
    hadded.tail (.enter (o := { o with memo := m₁ }) (.request hask))
  exact hasked.tail (.rest ⟨⟨rfl, rfl, rfl⟩, rfl⟩)

/-- A turn of a search moves nothing, or strides are made and settled. -/
theorem Advance.strides (h : o.Advance o') : o.Untouched o' ∨
    ∃ fuel o₁ o₂, o.Strides o₁ ∧ settle fuel o₁ = .ok () o₂ ∧ o₂.Untouched o' := by
  have exhausted : ∀ {b : Budget}, Still (exhaust b : Action Op Q Unit) := by
    refine Still.bind (still_modify fun _ => ⟨⟨rfl, rfl, rfl⟩, rfl⟩) fun _ => (still_record _).bind fun _ => .get_bind ?_
    intro o
    split
    · intro _ _ _ h
      cases h
    · exact still_pure _
  cases h with
  | stop ok => exact .inl (exhausted _ _ _ ok)
  | @turn fuel x agenda o' next ok =>
    have htaken : o.Untouched { o with agenda := agenda } := ⟨⟨rfl, rfl, rfl⟩, rfl⟩
    have h := run_get_bind_eq_ok ok
    split at h
    · obtain ⟨-, rfl⟩ := run_pure_eq_ok h
      exact .inl htaken
    · split at h
      · cases h
        exact .inl (htaken.trans ⟨⟨rfl, rfl, rfl⟩, rfl⟩)
      · obtain ⟨rule, -, h⟩ := Action.read_bind_eq_ok h
        split at h
        · split at h
          · exact .inl (htaken.trans (exhausted _ _ _ h))
          · obtain ⟨-, rfl⟩ := run_pure_eq_ok h
            exact .inl htaken
        · obtain ⟨o₁, hstrides, hsettle⟩ := fire_strides h
          exact .inr ⟨fuel, o₁, o', .head (.rest htaken) hstrides, hsettle, .refl o'⟩

end Optimizer

end PlanSearch
