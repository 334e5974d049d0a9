import PlanSearch.Proofs.Memo.CallEdits
import PlanSearch.Proofs.Optimizer.Success

/-!
# What rounds are made of

Whatever is done in a round of settling, and when an output of a rule joins a group, is put together from a few things.
It looks at the state, but not at how many matches may fire or have fired, nor at the root, and of the sets of rules it
sees only what is in them. It notes counts, events, matches, row counts and attempts at conversion. It calls the memo.
And it stops, but not for want of fuel. Each function is taken apart here once, and what holds of these few things and
goes on from one to the next holds of all functions.

    x.Routine                                        for indexExpr, priceExpr, winnerImproved, addEnforcers and the like
    (settleRound c).Routine                                                                    (routine_settleRound)
    (produce rule binding g p).Routine                                                             (routine_produce)
-/

namespace PlanSearch

variable {Op Q α β : Type}

namespace Optimizer

/-- The same optimizer, but for how many matches may fire and have fired, for the root, and for the way in which its
sets of removed and of disabled rules came about. -/
inductive Alike (o : Optimizer Op Q) : Optimizer Op Q → Prop
  | intro (removed disabled : Std.TreeSet Nat) (limit : Option Nat) (steps : Nat) (root : Option SubGroupRef)
      (sameRemoved : ∀ id, removed.contains id = o.removed.contains id)
      (sameDisabled : ∀ id, disabled.contains id = o.disabled.contains id) :
      Alike o { o with
        removed := removed, disabled := disabled, steps := steps, root := root
        options := { o.options with iterationBudget := limit } }

theorem Alike.isActive {o o' : Optimizer Op Q} (h : o.Alike o') (id : Nat) : o'.isActive id = o.isActive id := by
  obtain ⟨removed, disabled, -, -, -, hr, hd⟩ := h
  simp only [Optimizer.isActive, hr, hd]

end Optimizer

namespace Action

open Optimizer

/-- What is noted in a round. -/
inductive Noting : (Optimizer Op Q → Optimizer Op Q) → Prop
  | count (f : Stats → Stats) : Noting fun o => { o with stats := f o.stats }
  | record (e : Event Q) : Noting fun o => o.withEvent e
  | agenda (agenda : Agenda) : Noting fun o => { o with agenda := agenda }
  | priced (cache : RowCache Q) :
      Noting fun o => { o with rowCache := cache, stats := { o.stats with costed := o.stats.costed + 1 } }
  | attempt (t : GroupId × TraitSet × TraitSet) : Noting fun o => { o with attempted := o.attempted ++ [t] }
  | forget : Noting fun o => { o with rowCache := ∅ }

variable [Operator Op] [Quantity Q]

/-- Actions that look, note, call the memo and stop as rounds do. -/
inductive Routine : {α : Type} → Action Op Q α → Prop
  | pure {α : Type} (a : α) : Routine (pure a)
  | throw {α : Type} {e : Stop} (fuel : e ≠ .outOfFuel) : Routine (throw e : Action Op Q α)
  | bind {α β : Type} {x : Action Op Q α} {f : α → Action Op Q β} (first : Routine x) (rest : ∀ a, Routine (f a)) :
      Routine (x >>= f)
  | look {β : Type} {f : Optimizer Op Q → Action Op Q β} (blind : ∀ o o' : Optimizer Op Q, o.Alike o' → f o' = f o)
      (rest : ∀ o, Routine (f o)) : Routine (get >>= f)
  | note {f : Optimizer Op Q → Optimizer Op Q} (noting : Noting f) : Routine (modify f : Action Op Q PUnit)
  | call {α : Type} (site : Option RuleSite) {u : Update Op Q α} (attempt : ∀ m : Memo Op Q, m.Attempt (u.leave m)) :
      Routine (onMemoAt site u)

/-! ## Small actions -/

theorem routine_fault (f : Fault) : Routine (fault f : Action Op Q α) := .throw fun h => by cases h

omit [Operator Op] [Quantity Q] in
/-- To read is to look and then to answer or to stop. -/
theorem read_eq_get_bind (f : Optimizer Op Q → Except Failure α) : read f = (get >>= fun o => match f o with
    | .ok a => pure a
    | .error e => throw (.ofFailure none e) : Action Op Q α) := by
  funext o
  rw [run_get_bind]
  unfold read
  cases f o <;> rfl

omit [Operator Op] [Quantity Q] in
/-- What is done where an action has looked may be said in any way. -/
theorem get_bind_congr {f g : Optimizer Op Q → Action Op Q β} (same : ∀ o, f o o = g o o) :
    (get >>= f : Action Op Q β) = get >>= g := funext same

omit [Operator Op] [Quantity Q] in
theorem ofFailure_ne_outOfFuel (site : Option RuleSite) (f : Failure) : Stop.ofFailure site f ≠ .outOfFuel := by
  cases f <;> exact fun h => by cases h

theorem routine_read {f : Optimizer Op Q → Except Failure α}
    (blind : ∀ o o' : Optimizer Op Q, o.Alike o' → f o' = f o) : Routine (read f) := by
  rw [read_eq_get_bind]
  refine .look (fun o o' h => by rw [blind o o' h]) fun o => ?_
  split
  · exact .pure _
  · exact .throw (ofFailure_ne_outOfFuel none _)

theorem routine_forM {f : β → Action Op Q PUnit} {bs : List β} (hf : ∀ b, (f b).Routine) :
    (bs.forM f : Action Op Q PUnit).Routine := by
  induction bs with
  | nil => exact .pure _
  | cons b bs ih => exact .bind (hf b) fun _ => ih

theorem routine_mapM {f : β → Action Op Q α} {bs : List β} (hf : ∀ b, (f b).Routine) :
    (bs.mapM f : Action Op Q (List α)).Routine := by
  induction bs with
  | nil => exact .pure _
  | cons b bs ih =>
    rw [List.mapM_cons]
    exact .bind (hf b) fun _ => .bind ih fun _ => .pure _

end Action

namespace Optimizer

open PlanSearch.Action

variable [Operator Op] [Quantity Q]

/-! ## Discovery -/

theorem routine_count (f : Stats → Stats) : (count f : Action Op Q Unit).Routine := .note (.count f)

theorem routine_record (e : Event Q) : (record e : Action Op Q Unit).Routine := .note (.record e)

theorem routine_enqueue (id : Nat) (rule : Rule Op Q) (es : List ExprId) : (enqueue id rule es).Routine := by
  refine .look (fun _ _ h => by cases h; rfl) fun o => ?_
  dsimp only
  split
  · exact .bind (.note (.agenda _)) fun _ => .bind (routine_count _) fun _ => routine_record _
  · exact .pure _

theorem routine_enqueueAt (id : Nat) (rule : Rule Op Q) (roots : List ExprId) : (enqueueAt id rule roots).Routine :=
  routine_forM fun _ => .bind (routine_read fun _ _ h => by cases h; rfl) fun _ => routine_forM fun es =>
    routine_enqueue id rule es

theorem routine_indexExpr (e : ExprId) : (indexExpr e : Action Op Q Unit).Routine := by
  refine .bind (routine_read fun _ _ h => by cases h; rfl) fun x => .look (fun _ _ h => by cases h; rfl) fun o => ?_
  refine routine_forM fun c => .look (fun o o' h => by simp only [h.isActive]) fun o => ?_
  split
  · exact .bind (routine_read fun _ _ h => by cases h; rfl) fun rule =>
      .bind (routine_read fun _ _ h => by cases h; rfl) fun roots => routine_enqueueAt _ rule roots
  · exact .pure _

/-! ## Settling -/

/-- Pricing notes what it was told and how often it asked, and leaves the rest of the state as it was. -/
theorem priceExpr_eq_modify (e : ExprId) : (priceExpr e : Action Op Q Unit) = (do
    let x ← Action.read fun o => o.memo.getExpr e
    if !Operator.isLogical x.op then
      match ← Action.read fun o => inputCosts o.memo x with
      | none => return ()
      | some costs =>
        let site : ExprSite := ⟨← Action.read fun o => o.memo.groupOf e, e⟩
        let o ← get
        let asked := (o.model.operationCost x costs site).eval o.memo o.model o.rowCache
        match asked.1 with
        | .error f => fault f
        | .ok operation =>
          modify fun o => { o with rowCache := asked.2, stats := { o.stats with costed := o.stats.costed + 1 } }
          let cost := o.model.sum operation costs
          onMemo (.step (Memo.recordPrice e ⟨cost, o.model.weight cost⟩))) := by
  unfold priceExpr
  refine bind_congr fun x => ?_
  split
  · refine bind_congr fun costs => ?_
    cases costs with
    | none => rfl
    | some costs =>
      refine bind_congr fun g => get_bind_congr fun o => ?_
      dsimp only
      cases ((o.model.operationCost x costs ⟨g, e⟩).eval o.memo o.model o.rowCache).1 <;> rfl
  · rfl

theorem routine_priceExpr (e : ExprId) : (priceExpr e : Action Op Q Unit).Routine := by
  rw [priceExpr_eq_modify]
  refine .bind (routine_read fun _ _ h => by cases h; rfl) fun x => ?_
  split
  · refine .bind (routine_read fun _ _ h => by cases h; rfl) fun costs => ?_
    split
    · exact .pure _
    · refine .bind (routine_read fun _ _ h => by cases h; rfl) fun g => .look (fun _ _ h => by cases h; rfl) fun o => ?_
      dsimp only
      split
      · exact routine_fault _
      · exact .bind (.note (.priced _)) fun _ => .call none fun m => .recordPrice e _
  · exact .pure _

theorem routine_winnerImproved (s : SubGroupId) : (winnerImproved s : Action Op Q Unit).Routine := by
  refine .bind (routine_read fun _ _ h => by cases h; rfl) fun sub => ?_
  split
  · exact .pure _
  · refine .bind (routine_record _) fun _ => .bind (routine_read fun _ _ h => by cases h; rfl) fun group => ?_
    refine routine_forM fun parent => .bind (routine_read fun _ _ h => by cases h; rfl) fun x => ?_
    refine .look (fun _ _ h => by cases h; rfl) fun o => ?_
    dsimp only
    split
    · exact routine_priceExpr parent
    · exact .pure _

theorem routine_addChain (g : GroupId) : ∀ ns : List (PlanNode Op), (addChain g ns : Action Op Q (List ExprId)).Routine
  | [] => .pure _
  | n :: ns => .look (fun _ _ h => by cases h; rfl) fun _ => .bind (.call none fun _ => .addEnforcer n _) fun _ =>
      .bind (routine_addChain g ns) fun _ => .pure _

/-- Converting notes the attempt and leaves the rest of the state as it was. -/
theorem convertWithin_eq_modify (g : GroupId) (actual required : TraitSet) :
    (convertWithin g actual required : Action Op Q Unit) = (do
      let o ← get
      let g := o.memo.reduceGroup g
      let tried := o.attempted.any fun (h, a, r) => h = g && decide (a.Same actual) && decide (r.Same required)
      if !o.memo.registry.satisfies actual required && !tried then
        modify fun o => { o with attempted := o.attempted ++ [(g, actual, required)] }
        let input : SubGroupRef := ⟨g, actual⟩
        let group ← Action.read fun o => o.memo.getGroup g
        match o.memo.registry.convert input group.rowType actual required with
        | .error f => fault f
        | .ok none => return ()
        | .ok (some nodes) =>
          let _ ← onMemo (Memo.ensureSubGroup input false)
          let exprs ← addChain g nodes
          count fun s => { s with enforcers := s.enforcers + 1 }
          record (.addEnforcer g actual required exprs)) := by
  refine get_bind_congr fun o => ?_
  dsimp only
  split <;> rfl

theorem routine_convertWithin (g : GroupId) (actual required : TraitSet) :
    (convertWithin g actual required : Action Op Q Unit).Routine := by
  rw [convertWithin_eq_modify]
  refine .look (fun _ _ h => by cases h; rfl) fun o => ?_
  dsimp only
  split
  · refine .bind (.note (.attempt _)) fun _ => .bind (routine_read fun _ _ h => by cases h; rfl) fun group => ?_
    split
    · exact routine_fault _
    · exact .pure _
    · exact .bind (.call none fun m => .ensureSubGroup _ false) fun _ => .bind (routine_addChain _ _) fun _ =>
        .bind (routine_count _) fun _ => routine_record _
  · exact .pure _

theorem routine_addEnforcers (g : GroupId) : (addEnforcers g : Action Op Q Unit).Routine :=
  .look (fun _ _ h => by cases h; rfl) fun _ => .bind (routine_read fun _ _ h => by cases h; rfl) fun _ =>
    .bind (routine_read fun _ _ h => by cases h; rfl) fun _ => routine_forM fun actual => routine_forM fun r =>
      routine_convertWithin _ actual r

/-- A round is routine. -/
theorem routine_settleRound (c : Changes) : (settleRound c : Action Op Q Unit).Routine := by
  have hrest : (followUp c : Action Op Q Unit).Routine := by
    refine .bind (routine_forM fun p => .bind (routine_count _) fun _ => routine_record _) fun _ => ?_
    refine .bind (routine_forM routine_priceExpr) fun _ => .look (fun _ _ h => by cases h; rfl) fun o => ?_
    refine .bind (routine_forM routine_winnerImproved) fun _ => ?_
    refine .bind (routine_read fun _ _ h => by cases h; rfl) fun affected => ?_
    refine .bind (routine_forM routine_addEnforcers) fun _ => .bind (routine_forM routine_indexExpr) fun _ => ?_
    exact routine_forM fun p => .look (fun _ _ h => by cases h; rfl) fun o => routine_forM routine_indexExpr
  unfold settleRound
  dsimp only
  split
  · exact .bind (.note .forget) fun _ => hrest
  · exact hrest

/-- Taking the changes is a call that answers them. -/
theorem routine_takeChanges : (takeChanges : Action Op Q Changes).Routine := by
  have htake : (takeChanges : Action Op Q Changes) = onMemoAt none fun m => .ok m.changes m.forgetChanges := rfl
  rw [htake]
  exact .call none fun _ => .forgetChanges

/-! ## Firing -/

/-- Adding an output of a rule is routine. -/
theorem routine_produce (rule : Rule Op Q) (binding : PlanNode Op) (g : GroupId) (p : Plan Op) :
    (produce rule binding g p).Routine := by
  refine .look (fun _ _ h => by cases h; rfl) fun o => .bind (routine_read fun _ _ h => by cases h; rfl) fun group => ?_
  refine .bind (routine_read fun _ _ h => by cases h; rfl) fun row => ?_
  split
  · exact .throw fun h => by cases h
  · refine .look (fun _ _ h => by cases h; rfl) fun o => .bind (.call _ fun m => .addTo p _) fun e => ?_
    split <;> exact .pure _

end Optimizer

end PlanSearch
