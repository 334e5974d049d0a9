import PlanSearch.Proofs.Memo.Quotes
import PlanSearch.Proofs.Optimizer.Rulebook

/-!
# The course of an optimizer

As far as its memo goes, everything that an optimizer does is edits, with prices that its cost model names,
and the recording of winners. An action that fails may leave a chain of merges half done, and that is all
the difference. What holds of the moves of an optimizer holds of whole calls, whether they succeed or fail.

    o.Fit M → (settle fuel : Action Op Q Unit) runs in moves from o                   (runs_settle)
-/

namespace PlanSearch

open Outline

/-- The sub group and the weight that a decision on a winner is about. -/
def Event.decision? {Q : Type} : Event Q → Option (SubGroupId × Q)
  | decideWinner s _ _ _ weight => some (s, weight)
  | _ => none

namespace Optimizer

variable {Op Q : Type}

/-- The decisions on winners that were recorded, in order. -/
def decisions (o : Optimizer Op Q) : List (SubGroupId × Q) :=
  o.records.filterMap fun r => r.event.decision?

theorem decisions_withEvent (o : Optimizer Op Q) (e : Event Q) :
    (o.withEvent e).decisions = o.decisions ∨
      ∃ d, e.decision? = some d ∧ (o.withEvent e).decisions = o.decisions ++ [d] := by
  unfold withEvent
  split
  · simp only [decisions, List.filterMap_append, List.filterMap_cons, List.filterMap_nil]
    cases hd : e.decision? with
    | none => exact .inl (by simp)
    | some d => exact .inr ⟨d, rfl, rfl⟩
  · exact .inl rfl

theorem model_withEvent (o : Optimizer Op Q) (e : Event Q) : (o.withEvent e).model = o.model := by
  unfold withEvent
  split <;> rfl

theorem memo_withEvent (o : Optimizer Op Q) (e : Event Q) : (o.withEvent e).memo = o.memo := by
  unfold withEvent
  split <;> rfl

variable [Quantity Q]

/-! ## Moves -/

/-- One thing that an optimizer does, as far as its memo and the decisions on winners go. -/
inductive Move (P : Terms Op Q) (o : Optimizer Op Q) : Optimizer Op Q → Prop
  | note {o' : Optimizer Op Q} (memo : o'.memo = o.memo) (decisions : o'.decisions = o.decisions)
      (same : o'.model = o.model) : Move P o o'
  | decide {s : SubGroupId} {v : Winner Q} {e : Event Q} (wins : o.memo.winnerOf s = some v)
      (event : e.decision? = some (s, v.price.weight)) : Move P o (o.withEvent e)
  | edit {m : Memo Op Q} (edits : Edits P o.memo.work m.work) : Move P o { o with memo := m }

/-- Any number of moves. -/
abbrev Moves (P : Terms Op Q) : Optimizer Op Q → Optimizer Op Q → Prop :=
  Relation.ReflTransGen (Move P)

/-- The memo is tidy, and the optimizer goes by the cost model. -/
structure Fit (M : CostModel Op Q) (o : Optimizer Op Q) : Prop where
  tidy : o.memo.outline.Tidy
  model : o.model = M

variable {M : CostModel Op Q} {P : Terms Op Q} {o o' o₀ o₁ : Optimizer Op Q}

theorem Move.fit (h : o.Move P o') (ho : o.Fit M) : o'.Fit M := by
  cases h with
  | note memo _ same => exact ⟨memo ▸ ho.tidy, same.trans ho.model⟩
  | @decide s v e _ _ => exact ⟨(memo_withEvent o e).symm ▸ ho.tidy, (model_withEvent o e).trans ho.model⟩
  | edit edits => exact ⟨Memo.tidy_of_edits ho.tidy edits, ho.model⟩

theorem Moves.fit (h : o.Moves P o') (ho : o.Fit M) : o'.Fit M := by
  induction h with
  | refl => exact ho
  | tail _ hm ih => exact hm.fit ih

/-- Moves come to edits of the memo. -/
theorem Moves.edits (h : o.Moves P o') : Edits P o.memo.work o'.memo.work := by
  induction h with
  | refl => exact .refl
  | tail _ hm ih =>
    cases hm with
    | note memo _ _ => rw [memo]; exact ih
    | decide _ _ => rw [memo_withEvent]; exact ih
    | edit edits => exact ih.trans edits

theorem Moves.note (h : o₀.Moves P o) (memo : o'.memo = o.memo)
    (decisions : o'.decisions = o.decisions) (same : o'.model = o.model) : o₀.Moves P o' :=
  h.tail (.note memo decisions same)

/-! ## Actions that run in moves -/

/-- Moves lead from `o₀` to where an action ends that starts from `o`. Where it fails, it may have begun on
edits that leave merges pending. -/
def Runs {α : Type} (P : Terms Op Q) (o₀ o : Optimizer Op Q) (x : Action Op Q α) : Prop :=
  match x o with
  | .ok _ o' => o₀.Moves P o'
  | .error _ o' => ∃ o₁ m ps, o₀.Moves P o₁ ∧ Edits P o₁.memo.work (m.workAt .rest [] ps) ∧
      o' = { o₁ with memo := m }

section Runs

variable {α β : Type}

theorem Runs.of_ok {x : Action Op Q α} {a : α} (h : Runs P o₀ o x) (ok : x o = .ok a o') :
    o₀.Moves P o' := by
  unfold Runs at h
  rw [ok] at h
  exact h

/-- Whatever comes of an action, moves lead there, and then edits that may leave merges pending. -/
theorem Runs.leave {x : Action Op Q α} (h : Runs P o₀ o x) :
    ∃ o₁ m ps, o₀.Moves P o₁ ∧ Edits P o₁.memo.work (m.workAt .rest [] ps) ∧
      x.leave o = { o₁ with memo := m } := by
  unfold Runs at h
  unfold Action.leave
  cases hx : x o with
  | ok a o' =>
    rw [hx] at h
    exact ⟨o', o'.memo, [], h, .refl, rfl⟩
  | error e o' =>
    rw [hx] at h
    exact h

theorem runs_of_error {x : Action Op Q α} {e : Stop} (h : o₀.Moves P o) (hx : x o = .error e o) :
    Runs P o₀ o x := by
  unfold Runs
  rw [hx]
  exact ⟨o, o.memo, [], h, .refl, rfl⟩

theorem Runs.bind {x : Action Op Q α} {f : α → Action Op Q β} (hx : Runs P o₀ o x)
    (hf : ∀ a o₁, x o = .ok a o₁ → o₀.Moves P o₁ → Runs P o₀ o₁ (f a)) :
    Runs P o₀ o (x >>= f) := by
  unfold Runs at hx
  have hrun : (x >>= f) o = EStateM.bind x f o := rfl
  unfold Runs
  rw [hrun]
  unfold EStateM.bind
  cases h₁ : x o with
  | error e o₁ =>
    rw [h₁] at hx
    exact hx
  | ok a o₁ =>
    rw [h₁] at hx
    exact hf a o₁ h₁ hx

theorem runs_pure (h : o₀.Moves P o) (a : α) : Runs P o₀ o (pure a) := h

theorem runs_throw (h : o₀.Moves P o) (e : Stop) :
    Runs P o₀ o (throw e : Action Op Q α) := runs_of_error h rfl

theorem runs_fault (h : o₀.Moves P o) (f : Fault) :
    Runs P o₀ o (Action.fault f : Action Op Q α) := runs_of_error h rfl

theorem runs_read (h : o₀.Moves P o) (f : Optimizer Op Q → Except Failure α) :
    Runs P o₀ o (Action.read f) := by
  cases hf : f o with
  | error e =>
    refine runs_of_error (e := .ofFailure none e) h ?_
    unfold Action.read
    rw [hf]
  | ok a =>
    unfold Runs Action.read
    rw [hf]
    exact h

theorem Runs.read_bind {f : Optimizer Op Q → Except Failure α} {k : α → Action Op Q β}
    (h : o₀.Moves P o) (hk : ∀ a, f o = .ok a → Runs P o₀ o (k a)) :
    Runs P o₀ o (Action.read f >>= k) := by
  have hrun : (Action.read f >>= k) o = EStateM.bind (Action.read f) k o := rfl
  cases hf : f o with
  | error e =>
    refine runs_of_error (e := .ofFailure none e) h ?_
    rw [hrun]
    unfold EStateM.bind Action.read
    rw [hf]
  | ok a =>
    unfold Runs
    rw [hrun]
    unfold EStateM.bind Action.read
    rw [hf]
    exact hk a hf

theorem Runs.get_bind {k : Optimizer Op Q → Action Op Q β} (hk : Runs P o₀ o (k o)) :
    Runs P o₀ o ((get : Action Op Q (Optimizer Op Q)) >>= k) := hk

theorem Runs.set_bind {k : PUnit → Action Op Q β} (hk : Runs P o₀ o₁ (k ⟨⟩)) :
    Runs P o₀ o ((set o₁ : Action Op Q PUnit) >>= k) := hk

theorem Runs.modify_bind {f : Optimizer Op Q → Optimizer Op Q} {k : PUnit → Action Op Q β}
    (hk : Runs P o₀ (f o) (k ⟨⟩)) : Runs P o₀ o ((modify f : Action Op Q PUnit) >>= k) := hk

/-- What is done for every element of a list. -/
theorem runs_forM {f : β → Action Op Q PUnit} {bs : List β}
    (hf : ∀ b o₁, o₀.Moves P o₁ → Runs P o₀ o₁ (f b)) (h : o₀.Moves P o) :
    Runs P o₀ o (bs.forM f : Action Op Q PUnit) := by
  induction bs generalizing o with
  | nil => exact runs_pure h _
  | cons b bs ih => exact (hf b o h).bind fun _ o₁ _ h₁ => ih h₁

theorem runs_mapM {f : β → Action Op Q α} {bs : List β}
    (hf : ∀ b o₁, o₀.Moves P o₁ → Runs P o₀ o₁ (f b)) (h : o₀.Moves P o) :
    Runs P o₀ o (bs.mapM f : Action Op Q (List α)) := by
  induction bs generalizing o with
  | nil => exact runs_pure h _
  | cons b bs ih =>
    rw [List.mapM_cons]
    exact (hf b o h).bind fun _ o₁ _ h₁ => (ih h₁).bind fun _ o₂ _ h₂ => runs_pure h₂ _

theorem runs_onMemoAt {site : Option RuleSite} {u : Update Op Q α} {post : α → Memo Op Q → Prop}
    (h : o₀.Moves P o) (hu : Memo.Edited P o.memo.work o.memo post u) :
    Runs P o₀ o (Action.onMemoAt site u) := by
  unfold Memo.Edited at hu
  unfold Runs Action.onMemoAt
  cases hm : u o.memo with
  | ok a m =>
    rw [hm] at hu
    exact h.tail (.edit hu.1)
  | error f m =>
    rw [hm] at hu
    obtain ⟨ps, hu⟩ := hu
    exact ⟨o, m, ps, h, hu, rfl⟩

theorem runs_count (h : o₀.Moves P o) (f : Stats → Stats) :
    Runs P o₀ o (count f : Action Op Q Unit) := h.note rfl rfl rfl

/-- An event that is not about a winner. -/
theorem runs_record (h : o₀.Moves P o) {e : Event Q} (he : e.decision? = none) :
    Runs P o₀ o (record e : Action Op Q Unit) := by
  refine h.note (memo_withEvent o e) ?_ (model_withEvent o e)
  rcases decisions_withEvent o e with hd | ⟨d, hd, -⟩
  · exact hd
  · rw [he] at hd
    cases hd

end Runs

/-! ## Prices and winners -/

variable [Operator Op]

omit [Operator Op] [Quantity Q] in
theorem winner_eq_ok {m : Memo Op Q} {r : SubGroupRef} {winner : Option (Winner Q)}
    (h : m.winner r = .ok winner) : winner = (m.outline.subOf r).bind m.standings.wins := by
  rw [Memo.subOf_eq]
  unfold Memo.winner at h
  cases hs : m.findSubGroup? r with
  | none =>
    rw [hs] at h
    cases h
    rfl
  | some s =>
    rw [hs] at h
    obtain ⟨sub, hsub, h⟩ := bind_eq_ok h
    cases h
    exact (Memo.standings_wins_of (Memo.liveSubGroup_eq_ok hsub)).symm

omit [Operator Op] [Quantity Q] in
/-- Where all references lead to winners, those are the answers. -/
theorem winners_of_mapM {m : Memo Op Q} : ∀ {rs : List SubGroupRef} {found : List (Option (Winner Q))}
    {winners : List (Winner Q)}, rs.mapM m.winner = .ok found → found.mapM id = some winners →
    List.Forall₂ (fun r v => ∃ s, m.outline.subOf r = some s ∧ m.standings.wins s = some v) rs winners
  | [], found, winners, hfound, hwinners => by
    cases hfound
    cases hwinners
    exact .nil
  | r :: rs, found, winners, hfound, hwinners => by
    rw [List.mapM_cons] at hfound
    obtain ⟨winner, hr, hfound⟩ := bind_eq_ok hfound
    obtain ⟨found', hrs, hfound⟩ := bind_eq_ok hfound
    cases hfound
    simp only [List.mapM_cons, Option.bind_eq_bind, Option.bind_eq_some_iff, id, Option.pure_def,
      Option.some.injEq] at hwinners
    obtain ⟨v, rfl, winners', hwinners', rfl⟩ := hwinners
    obtain ⟨s, hs, hv⟩ := Option.bind_eq_some_iff.1 (winner_eq_ok hr).symm
    exact .cons ⟨s, hs, hv⟩ (winners_of_mapM hrs hwinners')

omit [Operator Op] [Quantity Q] in
/-- The costs of the inputs of an expression are those of the winners that it reads. -/
theorem inputCosts_eq_some {m : Memo Op Q} {x : Expr Op} {costs : List (Cost Q)}
    (h : inputCosts m x = .ok (some costs)) : ∃ winners : List (Winner Q),
      List.Forall₂ (fun r v => ∃ s, m.outline.subOf r = some s ∧ m.standings.wins s = some v) x.inputs
        winners ∧ costs = winners.map fun v => v.price.cost := by
  unfold inputCosts at h
  obtain ⟨found, hfound, h⟩ := bind_eq_ok h
  injection h with h
  obtain ⟨winners, hwinners, rfl⟩ := Option.map_eq_some_iff.1 h
  exact ⟨winners, winners_of_mapM hfound hwinners, rfl⟩

/-- What the model charges for an expression makes a fair price. -/
theorem fair_of_eval {o : Optimizer Op Q} {e : ExprId} {x : Expr Op} {costs : List (Cost Q)} {site : ExprSite}
    {operation : Cost Q} {cache : RowCache Q} (hx : o.memo.getExpr e = .ok x)
    (hphysical : Operator.isLogical x.op = false) (hcosts : inputCosts o.memo x = .ok (some costs))
    (hev : (o.model.operationCost x costs site).eval o.memo o.model o.rowCache = (.ok operation, cache)) :
    o.model.Fair o.memo.outline o.memo.standings (o.memo.reduceExpr e)
      ⟨o.model.sum operation costs, o.model.weight (o.model.sum operation costs)⟩ := by
  obtain ⟨entry, hentry, hx⟩ := bind_eq_ok hx
  cases hx
  obtain ⟨winners, hwinners, rfl⟩ := inputCosts_eq_some hcosts
  refine ⟨entry.expr, entry.group, winners, operation, Memo.outline_entry_of (Memo.getEntry_eq_ok hentry),
    hphysical, hwinners, ?_, rfl, rfl⟩
  exact ⟨_, RowCount.answer o.memo o.model o.memo.groupIds, ⟨o.rowCache, false⟩, site, congrArg Prod.fst hev⟩

section Settling

variable (hf : o₀.Fit M)

include hf

/-- What an expression is charged for is fair. -/
theorem runs_priceExpr (h : o₀.Moves M.terms o) (e : ExprId) :
    Runs M.terms o₀ o (priceExpr e : Action Op Q Unit) := by
  have ho := h.fit hf
  refine .read_bind h fun x hx => ?_
  split
  · next hphysical =>
    refine .read_bind h fun costs hcosts => ?_
    cases costs with
    | none => exact runs_pure h _
    | some costs =>
      refine .read_bind h fun g hg => .get_bind ?_
      dsimp only
      cases hev : (o.model.operationCost x costs ⟨g, e⟩).eval o.memo o.model o.rowCache with
      | mk answer cache =>
      dsimp only
      cases answer with
      | error f => exact runs_fault h f
      | ok operation =>
        have hfair := fair_of_eval hx (by simpa using hphysical) hcosts hev
        rw [ho.model] at hfair
        have hrecord : Memo.Edited M.terms o.memo.work o.memo (fun _ _ => True)
            (Update.step (Memo.recordPrice e ⟨o.model.sum operation costs,
              o.model.weight (o.model.sum operation costs)⟩)) := by
          rw [ho.model]
          unfold Memo.Edited Update.step
          cases hr : Memo.recordPrice e _ o.memo with
          | error f => exact ⟨[], .refl⟩
          | ok m => exact ⟨Memo.recordPrice_edits ho.tidy hfair hr, trivial⟩
        exact .set_bind (runs_onMemoAt (h.note rfl rfl rfl) hrecord)
  · exact runs_pure h _

theorem runs_winnerImproved (h : o₀.Moves M.terms o) (s : SubGroupId) :
    Runs M.terms o₀ o (winnerImproved s : Action Op Q Unit) := by
  refine .read_bind h fun sub hsub => ?_
  cases hw : sub.winner with
  | none => exact runs_pure h _
  | some v =>
    have hwins : o.memo.winnerOf s = some v := by
      unfold Memo.winnerOf
      rw [show o.memo.subGroups[o.memo.reduceSubGroup s]? = some sub from Memo.liveSubGroup_eq_ok hsub]
      exact hw
    have h₁ : o₀.Moves M.terms (o.withEvent (.decideWinner s sub.group sub.traits v.expr v.price.weight)) :=
      h.tail (.decide hwins rfl)
    refine .modify_bind (.read_bind h₁ fun group _ => runs_forM (fun parent o₂ h₂ => ?_) h₁)
    refine .read_bind h₂ fun x _ => .get_bind ?_
    dsimp only
    split
    · exact runs_priceExpr hf h₂ parent
    · exact runs_pure h₂ _

/-! ## Enforcers -/

theorem runs_addChain (g : GroupId) : ∀ {o : Optimizer Op Q} (ns : List (PlanNode Op)), o₀.Moves P o →
    Runs P o₀ o (addChain g ns : Action Op Q (List ExprId))
  | _, [], h => runs_pure h _
  | _, n :: ns, h => .get_bind ((runs_onMemoAt h (Memo.addNodeTo_edited (h.fit hf).tidy n _ false)).bind
      fun _ _ _ h₁ => (runs_addChain g ns h₁).bind fun _ _ _ h₂ => runs_pure h₂ _)

theorem runs_convertWithin (h : o₀.Moves P o) (g : GroupId) (actual required : TraitSet) :
    Runs P o₀ o (convertWithin g actual required : Action Op Q Unit) := by
  refine .get_bind ?_
  dsimp only
  split
  · have h₁ : o₀.Moves P { o with attempted :=
        o.attempted ++ [(o.memo.reduceGroup g, actual, required)] } := h.note rfl rfl rfl
    refine .set_bind (.read_bind h₁ fun group _ => ?_)
    split
    · exact runs_fault h₁ _
    · exact runs_pure h₁ _
    · refine (runs_onMemoAt h₁ (Memo.ensureSubGroup_edited (h₁.fit hf).tidy _ false)).bind
        fun s o₂ _ h₂ => ?_
      refine (runs_addChain hf _ _ h₂).bind fun es o₃ _ h₃ => ?_
      exact (runs_count h₃ _).bind fun _ o₄ _ h₄ => runs_record h₄ rfl
  · exact runs_pure h _

theorem runs_addEnforcers (h : o₀.Moves P o) (g : GroupId) :
    Runs P o₀ o (addEnforcers g : Action Op Q Unit) := by
  refine .get_bind (.read_bind h fun _ _ => .read_bind h fun _ _ => ?_)
  exact runs_forM (fun actual o₁ h₁ => runs_forM (fun r o₂ h₂ =>
    runs_convertWithin hf h₂ _ actual r) h₁) h

end Settling

/-! ## Discovery -/

section Discovery

omit [Operator Op] in
theorem runs_enqueue (h : o₀.Moves P o) (id : Nat) (rule : Rule Op Q) (es : List ExprId) :
    Runs P o₀ o (enqueue id rule es) := by
  refine .get_bind ?_
  dsimp only
  split
  · refine .modify_bind ?_
    have h₁ : o₀.Moves P { o with agenda := (o.agenda.push ⟨id, es⟩ rule.priority).1 } :=
      h.note rfl rfl rfl
    exact (runs_count h₁ _).bind fun _ _ _ h₂ => runs_record h₂ rfl
  · exact runs_pure h _

theorem runs_enqueueAt (h : o₀.Moves P o) (id : Nat) (rule : Rule Op Q) (roots : List ExprId) :
    Runs P o₀ o (enqueueAt id rule roots) :=
  runs_forM (fun _ _ h₁ => .read_bind h₁ fun _ _ =>
    runs_forM (fun es _ h₂ => runs_enqueue h₂ id rule es) h₁) h

theorem runs_indexExpr (h : o₀.Moves P o) (e : ExprId) :
    Runs P o₀ o (indexExpr e : Action Op Q Unit) := by
  refine .read_bind h fun x _ => .get_bind (runs_forM (fun c o₁ h₁ => .get_bind ?_) h)
  split
  · exact .read_bind h₁ fun rule _ => .read_bind h₁ fun roots _ => runs_enqueueAt h₁ _ rule roots
  · exact runs_pure h₁ _

theorem runs_matchEverywhere (h : o₀.Moves P o) (id : Nat) :
    Runs P o₀ o (matchEverywhere id : Action Op Q Unit) := by
  refine .get_bind ?_
  split
  · exact .read_bind h fun rule _ => .get_bind (runs_forM (fun _ _ h₁ => runs_enqueueAt h₁ id rule _) h)
  · exact runs_pure h _

end Discovery

/-! ## Rounds -/

section Settling

variable (hf : o₀.Fit M)

include hf

theorem runs_settleRound (h : o₀.Moves M.terms o) (c : Changes) :
    Runs M.terms o₀ o (settleRound c : Action Op Q Unit) := by
  have hrest : ∀ o, o₀.Moves M.terms o → Runs M.terms o₀ o (followUp c : Action Op Q Unit) := by
    intro o h
    refine (runs_forM (fun p _ h₁ => (runs_count h₁ _).bind fun _ _ _ h₂ => runs_record h₂ rfl) h).bind
      fun _ _ _ h₁ => ?_
    refine (runs_forM (fun e _ h₂ => runs_priceExpr hf h₂ e) h₁).bind fun _ _ _ h₂ => .get_bind ?_
    refine (runs_forM (fun s _ h₃ => runs_winnerImproved hf h₃ s) h₂).bind fun _ _ _ h₃ => ?_
    refine .read_bind h₃ fun affected _ => ?_
    refine (runs_forM (fun g _ h₄ => runs_addEnforcers hf h₄ g) h₃).bind fun _ _ _ h₄ => ?_
    refine (runs_forM (fun e _ h₅ => runs_indexExpr h₅ e) h₄).bind fun _ _ _ h₅ => ?_
    exact runs_forM (fun p _ h₆ => .get_bind (runs_forM (fun e _ h₇ => runs_indexExpr h₇ e) h₆)) h₅
  unfold settleRound
  dsimp only
  split
  · exact .modify_bind (hrest _ (h.note rfl rfl rfl))
  · exact hrest o h

omit [Operator Op] hf in
/-- Taking the changes is an edit too. -/
theorem Moves.taken (h : o₀.Moves P o) (hp : P.taken) :
    o₀.Moves P { o with memo := o.memo.forgetChanges } :=
  h.tail (.edit (.single (.forget (w := o.memo.work) ⟨rfl, rfl⟩ hp)))

theorem runs_settle (h : o₀.Moves M.terms o) (fuel : Nat) :
    Runs M.terms o₀ o (settle fuel : Action Op Q Unit) := by
  induction fuel generalizing o with
  | zero => exact runs_throw h _
  | succ fuel ih =>
    rw [settle]
    have htake : Runs M.terms o₀ o (takeChanges : Action Op Q Changes) := h.taken trivial
    refine htake.bind fun c o₁ _ h₁ => ?_
    split
    · exact runs_read h₁ _
    · exact (runs_settleRound hf h₁ c).bind fun _ _ _ h₂ => ih h₂

/-! ## Calls -/

theorem runs_produce (h : o₀.Moves P o) (rule : Rule Op Q) (binding : PlanNode Op) (g : GroupId)
    (p : Plan Op) : Runs P o₀ o (produce rule binding g p) := by
  refine .get_bind (.read_bind h fun group _ => .read_bind h fun row _ => ?_)
  split
  · exact runs_throw h _
  · refine .get_bind ((runs_onMemoAt h (Memo.addTo_edited (h.fit hf).tidy p _)).bind fun e o₁ _ h₁ => ?_)
    split <;> exact runs_pure h₁ _

theorem runs_fire (h : o₀.Moves M.terms o) (fuel : Nat) (x : Match) :
    Runs M.terms o₀ o (fire fuel x : Action Op Q Unit) := by
  refine .read_bind h fun rule _ => ?_
  split
  · exact runs_fault h _
  · refine .read_bind h fun g _ => .read_bind h fun n _ => .modify_bind ?_
    have h₁ : o₀.Moves M.terms { o with steps := o.steps + 1 } := h.note rfl rfl rfl
    refine (runs_count h₁ _).bind fun _ o₂ _ h₂ => .get_bind ?_
    split
    · exact runs_fault h₂ _
    · refine (runs_mapM (fun p _ h₃ => runs_produce hf h₃ rule n g p) h₂).bind fun _ _ _ h₃ => ?_
      exact (runs_record h₃ rfl).bind fun _ _ _ h₄ => runs_settle hf h₄ fuel

omit [Operator Op] hf in
theorem runs_exhaust (h : o₀.Moves P o) (b : Budget) :
    Runs P o₀ o (exhaust b : Action Op Q Unit) := by
  unfold exhaust
  refine .modify_bind ?_
  have h₁ : o₀.Moves P { o with budgetExhausted := true } := h.note rfl rfl rfl
  refine (runs_record h₁ rfl).bind fun _ o₂ _ h₂ => .get_bind ?_
  split
  · exact runs_fault h₂ _
  · exact runs_pure h₂ _

theorem runs_dispatch (h : o₀.Moves M.terms o) (fuel : Nat) (x : Match) :
    Runs M.terms o₀ o (dispatch fuel x : Action Op Q Unit) := by
  refine .get_bind ?_
  split
  · exact runs_pure h _
  · split
    · exact h.note rfl rfl rfl
    · refine .read_bind h fun rule _ => ?_
      split
      · split
        · exact runs_exhaust h _
        · exact runs_pure h _
      · exact runs_fire hf h fuel x

theorem runs_searchLoop (fuel : Nat) : ∀ (turns : Nat) {o : Optimizer Op Q}, o₀.Moves M.terms o →
    Runs M.terms o₀ o (searchLoop fuel turns : Action Op Q Unit)
  | 0, _, h => runs_throw h _
  | turns + 1, o, h => by
    refine .get_bind ?_
    split
    · exact runs_pure h _
    · split
      · exact runs_exhaust h _
      · next x agenda _ _ _ =>
        have h₁ : o₀.Moves M.terms { o with agenda := agenda } := h.note rfl rfl rfl
        exact .set_bind ((runs_dispatch hf h₁ fuel x).bind fun _ _ _ h₂ => runs_searchLoop fuel turns h₂)

theorem runs_search (h : o₀.Moves M.terms o) (fuel : Nat) :
    Runs M.terms o₀ o (search fuel : Action Op Q Unit) := by
  refine .get_bind ?_
  split
  · exact runs_throw h _
  · exact runs_searchLoop hf fuel fuel h

theorem runs_seed (h : o₀.Moves M.terms o) (fuel : Nat) (plan : PlanNode Op) (required : TraitSet) :
    Runs M.terms o₀ o (seed fuel plan required : Action Op Q GroupId) := by
  refine .get_bind ?_
  split
  · exact runs_throw h _
  · refine .read_bind h fun _ _ => .modify_bind ?_
    have h₁ : o₀.Moves M.terms { o with phase := .seeding } := h.note rfl rfl rfl
    refine (runs_onMemoAt h₁ (Memo.add_edited (h₁.fit hf).tidy plan)).bind fun ge o₂ _ h₂ => ?_
    refine (runs_onMemoAt h₂ (Memo.ensureSubGroup_edited (h₂.fit hf).tidy _ true)).bind
      fun _ o₃ _ h₃ => .modify_bind ?_
    have h₄ : o₀.Moves M.terms { o₃ with root := some ⟨ge.1, required⟩, seedPlan := some plan } :=
      h₃.note rfl rfl rfl
    refine (runs_settle hf h₄ fuel).bind fun _ o₅ _ h₅ => .modify_bind (.get_bind (runs_pure ?_ _))
    exact h₅.note rfl rfl rfl

omit [Operator Op] hf in
theorem runs_extract (h : o₀.Moves P o) :
    Runs P o₀ o (extract : Action Op Q (Outcome Op Q)) := by
  refine .get_bind ?_
  split
  · exact runs_throw h _
  · refine .modify_bind (.get_bind ?_)
    have h₁ : o₀.Moves P { o with phase := .extracting } := h.note rfl rfl rfl
    dsimp only
    split
    · refine .read_bind h₁ fun _ _ => .modify_bind (runs_pure ?_ _)
      exact h₁.note rfl rfl rfl
    · exact runs_fault h₁ _
    · split
      · refine .modify_bind (runs_pure ?_ _)
        exact h₁.note rfl rfl rfl
      · refine .modify_bind (runs_throw ?_ _)
        exact h₁.note rfl rfl rfl

end Settling

/-! ## Rules that come and go -/

theorem runs_enableRule (h : o₀.Moves P o) (id : Nat) :
    Runs P o₀ o (enableRule id : Action Op Q Unit) := by
  refine .get_bind ?_
  split
  · refine .modify_bind (runs_matchEverywhere ?_ id)
    exact h.note rfl rfl rfl
  · exact runs_pure h _

omit [Operator Op] in
theorem runs_forRulesNamed {f : Nat → Action Op Q Unit}
    (hf : ∀ id o₁, o₀.Moves P o₁ → Runs P o₀ o₁ (f id)) (h : o₀.Moves P o) (name : String) :
    Runs P o₀ o (forRulesNamed name f) := by
  refine .get_bind ?_
  dsimp only
  split
  · exact runs_throw h _
  · exact runs_forM hf h

theorem runs_addRule (h : o₀.Moves P o) (rule : Rule Op Q) :
    Runs P o₀ o (addRule rule : Action Op Q Nat) := by
  refine .get_bind (.modify_bind ((runs_matchEverywhere ?_ _).bind fun _ _ _ h₁ => runs_pure h₁ _))
  exact h.note rfl rfl rfl

omit [Operator Op] in
theorem runs_removeRule (h : o₀.Moves P o) (id : Nat) :
    Runs P o₀ o (removeRule id : Action Op Q Unit) := by
  refine .get_bind ?_
  split
  · exact h.note rfl rfl rfl
  · exact runs_throw h _

end Optimizer

end PlanSearch
