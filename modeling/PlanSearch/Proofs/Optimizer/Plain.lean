import PlanSearch.Proofs.Optimizer.Routine

/-!
# What actions are made of

Whatever an optimizer does, it is put together from three things: it looks at its state, it notes something besides the
memo and the rulebook, or it calls the memo. Of the sets of rules that are removed and disabled it sees only what is in
them. So the rulebook stays, the memo is changed by calls alone, and two optimizers whose sets have the same elements do
the same, all that also where an action fails.

    x.Plain → (x.leave o).rulebook = o.rulebook                                        (Action.Plain.steady)
    x.Plain → attempts of calls lead from o.memo to (x.leave o).memo                   (Action.Plain.attempts)
    x.Plain → o.Twins o' → (x o).Matches (x o')                                        (Action.Plain.twins)
-/

namespace PlanSearch

variable {Op Q α β : Type}

/-- The state that an action ends in, whether it succeeds or fails. -/
def Action.leave (x : Action Op Q α) (o : Optimizer Op Q) : Optimizer Op Q :=
  match x o with
  | .ok _ o' => o'
  | .error _ o' => o'

namespace Optimizer

/-- The rules, the numbers of those removed, and the triggers. -/
def rulebook (o : Optimizer Op Q) : List (Rule Op Q) × Std.TreeSet Nat × TriggerIndex Op :=
  (o.rules, o.removed, o.triggers)

/-- The same optimizer, but for the way in which its sets of removed and of disabled rules came about. -/
inductive Twins (o : Optimizer Op Q) : Optimizer Op Q → Prop
  | intro (removed disabled : Std.TreeSet Nat) (sameRemoved : ∀ id, removed.contains id = o.removed.contains id)
      (sameDisabled : ∀ id, disabled.contains id = o.disabled.contains id) :
      Twins o { o with removed := removed, disabled := disabled }

theorem Twins.alike {o o' : Optimizer Op Q} (h : o.Twins o') : o.Alike o' := by
  obtain ⟨removed, disabled, hr, hd⟩ := h
  exact .intro removed disabled o.options.iterationBudget o.steps o.root hr hd

theorem Twins.isActive {o o' : Optimizer Op Q} (h : o.Twins o') (id : Nat) : o'.isActive id = o.isActive id :=
  h.alike.isActive id

theorem Twins.rulesNamed {o o' : Optimizer Op Q} (h : o.Twins o') (name : String) :
    o'.rulesNamed name = o.rulesNamed name := by
  obtain ⟨removed, disabled, hr, -⟩ := h
  simp only [Optimizer.rulesNamed, hr]

end Optimizer

namespace Action

/-- The action leaves the rulebook as it is. -/
def Steady (x : Action Op Q α) : Prop := ∀ o, (x.leave o).rulebook = o.rulebook

theorem leave_bind (x : Action Op Q α) (f : α → Action Op Q β) (o : Optimizer Op Q) :
    (x >>= f : Action Op Q β).leave o
      = match x o with
        | .ok a o' => (f a).leave o'
        | .error _ o' => o' := by
  show (match EStateM.bind x f o with | .ok _ o' => o' | .error _ o' => o') = _
  unfold EStateM.bind leave
  cases x o with
  | ok a o' => rfl
  | error e o' => rfl

theorem leave_get_bind (f : Optimizer Op Q → Action Op Q β) (o : Optimizer Op Q) :
    (get >>= f : Action Op Q β).leave o = (f o).leave o := rfl

theorem leave_read_bind {f : Optimizer Op Q → Except Failure α} {k : α → Action Op Q β} {o : Optimizer Op Q} {a : α}
    (h : f o = .ok a) : (read f >>= k : Action Op Q β).leave o = (k a).leave o := by
  rw [leave_bind, read, h]

theorem Steady.bind {x : Action Op Q α} {f : α → Action Op Q β} (hx : x.Steady)
    (hf : ∀ a, (f a).Steady) : (x >>= f : Action Op Q β).Steady := by
  intro o
  have ho := hx o
  rw [leave_bind]
  unfold leave at ho
  cases hr : x o with
  | ok a o' =>
    rw [hr] at ho
    exact (hf a o').trans ho
  | error e o' =>
    rw [hr] at ho
    exact ho

theorem steady_pure (a : α) : (pure a : Action Op Q α).Steady := fun _ => rfl

/-- Both end with the same answer, or both with the same error, and in optimizers that are twins. -/
inductive Matches : EStateM.Result Stop (Optimizer Op Q) α → EStateM.Result Stop (Optimizer Op Q) α → Prop
  | ok {a : α} {o o' : Optimizer Op Q} (twins : o.Twins o') : Matches (.ok a o) (.ok a o')
  | error {e : Stop} {o o' : Optimizer Op Q} (twins : o.Twins o') : Matches (.error e o) (.error e o')

variable [Operator Op] [Quantity Q]

/-- Actions that look, note and call the memo, one after the other. -/
inductive Plain : {α : Type} → Action Op Q α → Prop
  | pure {α : Type} (a : α) : Plain (pure a)
  | throw {α : Type} (e : Stop) : Plain (throw e : Action Op Q α)
  | bind {α β : Type} {x : Action Op Q α} {f : α → Action Op Q β} (first : Plain x) (rest : ∀ a, Plain (f a)) :
      Plain (x >>= f)
  /-- What is done may depend on the state, but not on the way in which a set came about. -/
  | look {β : Type} {f : Optimizer Op Q → Action Op Q β} (blind : ∀ o o' : Optimizer Op Q, o.Twins o' → f o' = f o)
      (rest : ∀ o, Plain (f o)) : Plain (get >>= f)
  | note {f : Optimizer Op Q → Optimizer Op Q} (memo : ∀ o, (f o).memo = o.memo)
      (rulebook : ∀ o, (f o).rulebook = o.rulebook) (twins : ∀ o o', o.Twins o' → (f o).Twins (f o')) :
      Plain (modify f : Action Op Q PUnit)
  | call {α : Type} (site : Option RuleSite) {u : Update Op Q α} (attempt : ∀ m : Memo Op Q, m.Attempt (u.leave m)) :
      Plain (onMemoAt site u)

/-! ## What holds of all of them -/

/-- No plain action changes the rulebook. -/
theorem Plain.steady {x : Action Op Q α} (h : x.Plain) : x.Steady := by
  induction h with
  | pure a => exact steady_pure a
  | throw e => exact fun _ => rfl
  | bind _ _ first rest => exact first.bind rest
  | look _ _ rest => exact fun o => rest o o
  | note _ rulebook _ => exact rulebook
  | @call _ site u _ =>
    intro o
    unfold leave onMemoAt
    cases u o.memo <;> rfl

/-- Where the memo is that an action leaves, calls lead to it, each of which may have failed. -/
theorem Plain.attempts {x : Action Op Q α} (h : x.Plain) (o : Optimizer Op Q) :
    Relation.ReflTransGen Memo.Attempt o.memo (x.leave o).memo := by
  induction h generalizing o with
  | pure a => exact .refl
  | throw e => exact .refl
  | @bind _ _ x f _ _ first rest =>
    have hfirst := first o
    rw [leave_bind]
    unfold leave at hfirst
    cases hx : x o with
    | ok a o₁ =>
      rw [hx] at hfirst
      exact hfirst.trans (rest a o₁)
    | error e o₁ =>
      rw [hx] at hfirst
      exact hfirst
  | look _ _ rest => exact rest o o
  | @note f memo _ _ =>
    have hf : (modify f : Action Op Q PUnit).leave o = f o := rfl
    rw [hf, memo]
  | @call _ site u attempt =>
    have hu : ((onMemoAt site u).leave o).memo = u.leave o.memo := by
      unfold leave onMemoAt Update.leave
      cases u o.memo <;> rfl
    exact hu ▸ .single (attempt o.memo)

/-- Twins do the same. -/
theorem Plain.twins {x : Action Op Q α} (h : x.Plain) {o o' : Optimizer Op Q} (ho : o.Twins o') :
    Matches (x o) (x o') := by
  induction h generalizing o o' with
  | pure a => exact .ok ho
  | throw e => exact .error ho
  | @bind _ _ x f _ _ first rest =>
    have hfirst := first ho
    cases hx : x o with
    | ok a o₁ =>
      rw [hx] at hfirst
      cases hx' : x o' with
      | ok a' o₁' =>
        rw [hx'] at hfirst
        cases hfirst with
        | ok twins =>
          rw [run_bind_of_ok hx, run_bind_of_ok hx']
          exact rest a twins
      | error e o₁' =>
        rw [hx'] at hfirst
        cases hfirst
    | error e o₁ =>
      rw [hx] at hfirst
      cases hx' : x o' with
      | ok a' o₁' =>
        rw [hx'] at hfirst
        cases hfirst
      | error e' o₁' =>
        rw [hx'] at hfirst
        cases hfirst with
        | error twins =>
          rw [run_bind_of_error hx, run_bind_of_error hx']
          exact .error twins
  | @look _ f blind _ rest =>
    rw [run_get_bind, run_get_bind, blind o o' ho]
    exact rest o ho
  | note _ _ twins => exact .ok (twins _ _ ho)
  | @call _ site u _ =>
    obtain ⟨removed, disabled, hr, hd⟩ := ho
    unfold onMemoAt
    dsimp only
    split
    · exact .ok (.intro removed disabled hr hd)
    · exact .error (.intro removed disabled hr hd)

/-! ## Small actions -/

theorem plain_fault (f : Fault) : Plain (fault f : Action Op Q α) := .throw _

theorem plain_read {f : Optimizer Op Q → Except Failure α} (blind : ∀ o o' : Optimizer Op Q, o.Twins o' → f o' = f o) :
    Plain (read f) := by
  rw [read_eq_get_bind]
  refine .look (fun o o' h => by rw [blind o o' h]) fun o => ?_
  split
  · exact .pure _
  · exact .throw _

/-- What is noted may leave the sets of rules alone. -/
theorem plain_modify {f : Optimizer Op Q → Optimizer Op Q} (memo : ∀ o, (f o).memo = o.memo)
    (rules : ∀ o, (f o).rulebook = o.rulebook ∧ (f o).disabled = o.disabled)
    (same : ∀ o removed disabled, f { o with removed := removed, disabled := disabled } =
      { f o with removed := removed, disabled := disabled }) : Plain (modify f : Action Op Q PUnit) := by
  refine .note memo (fun o => (rules o).1) fun o o' ho => ?_
  obtain ⟨removed, disabled, hr, hd⟩ := ho
  rw [same o removed disabled]
  have hremoved : (f o).removed = o.removed := congrArg (fun r => r.2.1) (rules o).1
  exact .intro removed disabled (hremoved ▸ hr) ((rules o).2 ▸ hd)

theorem plain_forM {f : β → Action Op Q PUnit} {bs : List β} (hf : ∀ b, (f b).Plain) :
    (bs.forM f : Action Op Q PUnit).Plain := by
  induction bs with
  | nil => exact .pure _
  | cons b bs ih => exact .bind (hf b) fun _ => ih

/-! ## Rounds -/

theorem Noting.plain {f : Optimizer Op Q → Optimizer Op Q} (h : Noting f) : Plain (modify f : Action Op Q PUnit) := by
  cases h with
  | record e =>
    refine plain_modify (fun o => ?_) (fun o => ?_) fun o removed disabled => ?_
    all_goals unfold Optimizer.withEvent
    · split <;> rfl
    · split <;> exact ⟨rfl, rfl⟩
    · cases o.options.tracing <;> rfl
  | _ => exact plain_modify (fun _ => rfl) (fun _ => ⟨rfl, rfl⟩) fun _ _ _ => rfl

/-- What is routine is plain. -/
theorem Routine.plain {x : Action Op Q α} (h : x.Routine) : x.Plain := by
  induction h with
  | pure a => exact .pure a
  | @throw _ e _ => exact .throw e
  | bind _ _ first rest => exact .bind first rest
  | look blind _ rest => exact .look (fun o o' ho => blind o o' ho.alike) rest
  | note noting => exact noting.plain
  | call site attempt => exact .call site attempt

end Action

namespace Optimizer

open PlanSearch.Action

variable [Operator Op] [Quantity Q]

/-! ## Discovery -/

theorem plain_matchEverywhere (id : Nat) : (matchEverywhere id : Action Op Q Unit).Plain := by
  refine .look (fun o o' h => by simp only [h.isActive]) fun o => ?_
  split
  · refine .bind (plain_read fun _ _ ⟨_, _, _, _⟩ => rfl) fun rule => .look (fun _ _ ⟨_, _, _, _⟩ => rfl) fun o => ?_
    exact plain_forM fun g => (routine_enqueueAt id rule _).plain
  · exact .pure _

theorem plain_disableRule (id : Nat) : (disableRule id : Action Op Q Unit).Plain := by
  refine .note (fun _ => rfl) (fun _ => rfl) fun o o' ho => ?_
  obtain ⟨removed, disabled, hr, hd⟩ := ho
  refine .intro removed (disabled.insert id) hr fun id' => ?_
  rw [Std.TreeSet.contains_insert, Std.TreeSet.contains_insert, hd]

theorem plain_enableRule (id : Nat) : (enableRule id : Action Op Q Unit).Plain := by
  refine .look (fun o o' ⟨_, _, _, hd⟩ => by simp only [hd]) fun o => ?_
  split
  · refine .bind (.note (fun _ => rfl) (fun _ => rfl) fun o o' ho => ?_) fun _ => plain_matchEverywhere id
    obtain ⟨removed, disabled, hr, hd⟩ := ho
    refine .intro removed (disabled.erase id) hr fun id' => ?_
    rw [Std.TreeSet.contains_erase, Std.TreeSet.contains_erase, hd]
  · exact .pure _

theorem plain_forRulesNamed {f : Nat → Action Op Q Unit} (hf : ∀ id, (f id).Plain) (name : String) :
    (forRulesNamed name f).Plain := by
  refine .look (fun o o' h => by simp only [h.rulesNamed]) fun o => ?_
  dsimp only
  split
  · exact .throw _
  · exact plain_forM hf

/-! ## Settling -/

theorem plain_settle : ∀ fuel, (settle fuel : Action Op Q Unit).Plain
  | 0 => .throw _
  | fuel + 1 => by
    refine .bind routine_takeChanges.plain fun c => ?_
    split
    · exact plain_read fun _ _ ⟨_, _, _, _⟩ => rfl
    · exact .bind (routine_settleRound c).plain fun _ => plain_settle fuel

/-! ## Firing -/

theorem plain_fire (fuel : Nat) (x : Match) : (fire fuel x : Action Op Q Unit).Plain := by
  refine .bind (plain_read fun _ _ ⟨_, _, _, _⟩ => rfl) fun rule => ?_
  split
  · exact plain_fault _
  · refine .bind (plain_read fun _ _ ⟨_, _, _, _⟩ => rfl) fun g => ?_
    refine .bind (plain_read fun _ _ ⟨_, _, _, _⟩ => rfl) fun n => ?_
    refine .bind (plain_modify (fun _ => rfl) (fun _ => ⟨rfl, rfl⟩) fun _ _ _ => rfl) fun _ => ?_
    refine .bind (routine_count _).plain fun _ => .look (fun _ _ ⟨_, _, _, _⟩ => rfl) fun o => ?_
    split
    · exact plain_fault _
    · exact .bind (routine_mapM fun p => routine_produce rule n g p).plain fun _ =>
        .bind (routine_record _).plain fun _ => plain_settle fuel

/-! ## Searching -/

theorem plain_exhaust (b : Budget) : (exhaust b : Action Op Q Unit).Plain := by
  unfold exhaust
  refine .bind (plain_modify (fun _ => rfl) (fun _ => ⟨rfl, rfl⟩) fun _ _ _ => rfl) fun _ => ?_
  refine .bind (routine_record _).plain fun _ => .look (fun _ _ ⟨_, _, _, _⟩ => rfl) fun o => ?_
  split
  · exact plain_fault _
  · exact .pure _

/-- What is put back on the agenda is noted there, and nowhere else. -/
theorem dispatch_eq_modify (fuel : Nat) (x : Match) : (dispatch fuel x : Action Op Q Unit) = (do
    let o ← get
    if o.removed.contains x.rule then return ()
    else if o.disabled.contains x.rule then modify fun o => { o with agenda := o.agenda.forget x }
    else
      let rule ← Action.read fun o => o.getRule x.rule
      if !rule.isImplementation && o.isPlanSpaceSpent then
        if !o.budgetExhausted then exhaust .planSpace
      else fire fuel x) := by
  refine get_bind_congr fun o => ?_
  split
  · rfl
  · split <;> rfl

theorem plain_dispatch (fuel : Nat) (x : Match) : (dispatch fuel x : Action Op Q Unit).Plain := by
  rw [dispatch_eq_modify]
  refine .look (fun o o' h => ?_) fun o => ?_
  · obtain ⟨removed, disabled, hr, hd⟩ := h
    simp only [hr, hd]
    rfl
  split
  · exact .pure _
  · split
    · exact plain_modify (fun _ => rfl) (fun _ => ⟨rfl, rfl⟩) fun _ _ _ => rfl
    · refine .bind (plain_read fun _ _ ⟨_, _, _, _⟩ => rfl) fun rule => ?_
      split
      · split
        · exact plain_exhaust _
        · exact .pure _
      · exact plain_fire fuel x

/-- A turn of the loop takes the next match off the agenda and leaves the rest of the state as it was. -/
theorem searchLoop_eq_modify (fuel turns : Nat) : (searchLoop fuel (turns + 1) : Action Op Q Unit) = (do
    let o ← get
    match o.agenda.pop? with
    | none => return ()
    | some (x, agenda) =>
      match o.spentBudget? with
      | some b => exhaust b
      | none =>
        modify fun o => { o with agenda := agenda }
        dispatch fuel x
        searchLoop fuel turns) := by
  refine get_bind_congr fun o => ?_
  cases o.agenda.pop? with
  | none => rfl
  | some next => cases o.spentBudget? <;> rfl

theorem plain_searchLoop (fuel : Nat) : ∀ turns, (searchLoop fuel turns : Action Op Q Unit).Plain
  | 0 => .throw _
  | turns + 1 => by
    rw [searchLoop_eq_modify]
    refine .look (fun _ _ ⟨_, _, _, _⟩ => rfl) fun o => ?_
    split
    · exact .pure _
    · split
      · exact plain_exhaust _
      · refine .bind (plain_modify (fun _ => rfl) (fun _ => ⟨rfl, rfl⟩) fun _ _ _ => rfl) fun _ => ?_
        exact .bind (plain_dispatch fuel _) fun _ => plain_searchLoop fuel turns

theorem plain_search (fuel : Nat) : (search fuel : Action Op Q Unit).Plain := by
  refine .look (fun _ _ ⟨_, _, _, _⟩ => rfl) fun o => ?_
  split
  · exact .throw _
  · exact plain_searchLoop fuel fuel

/-! ## Seeding and extraction -/

theorem plain_seed (fuel : Nat) (plan : PlanNode Op) (required : TraitSet) :
    (seed fuel plan required : Action Op Q GroupId).Plain := by
  have hnote : ∀ phase : Phase,
      (modify fun o : Optimizer Op Q => { o with phase := phase } : Action Op Q PUnit).Plain := fun phase =>
    plain_modify (fun _ => rfl) (fun _ => ⟨rfl, rfl⟩) fun _ _ _ => rfl
  refine .look (fun _ _ ⟨_, _, _, _⟩ => rfl) fun o => ?_
  split
  · exact .throw _
  · refine .bind (plain_read fun _ _ ⟨_, _, _, _⟩ => rfl) fun _ => .bind (hnote .seeding) fun _ => ?_
    refine .bind (.call none fun m => .add plan) fun _ => .bind (.call none fun m => .ensureSubGroup _ true) fun _ => ?_
    refine .bind (plain_modify (fun _ => rfl) (fun _ => ⟨rfl, rfl⟩) fun _ _ _ => rfl) fun _ => ?_
    refine .bind (plain_settle fuel) fun _ => .bind (hnote .searching) fun _ => ?_
    exact .look (fun _ _ ⟨_, _, _, _⟩ => rfl) fun _ => .pure _

theorem plain_extract : (extract : Action Op Q (Outcome Op Q)).Plain := by
  have hnote : ∀ phase : Phase,
      (modify fun o : Optimizer Op Q => { o with phase := phase } : Action Op Q PUnit).Plain := fun phase =>
    plain_modify (fun _ => rfl) (fun _ => ⟨rfl, rfl⟩) fun _ _ _ => rfl
  refine .look (fun _ _ ⟨_, _, _, _⟩ => rfl) fun o => ?_
  split
  · exact .throw _
  · refine .bind (hnote .extracting) fun _ => .look (fun _ _ ⟨_, _, _, _⟩ => rfl) fun o => ?_
    dsimp only
    split
    · exact .bind (plain_read fun _ _ ⟨_, _, _, _⟩ => rfl) fun _ => .bind (hnote .done) fun _ => .pure _
    · exact plain_fault _
    · split
      · exact .bind (hnote .done) fun _ => .pure _
      · exact .bind (hnote .done) fun _ => .throw _

theorem plain_rowCount (g : GroupId) : (rowCount g : Action Op Q (Option Q)).Plain := by
  have hrows : (rowCount g : Action Op Q (Option Q)) = (do
      let o ← get
      modify fun o' => { o' with rowCache := (o.memo.rowCount o.model g o.rowCache).2 }
      return (o.memo.rowCount o.model g o.rowCache).1) := rfl
  rw [hrows]
  refine .look (fun _ _ ⟨_, _, _, _⟩ => rfl) fun o => ?_
  exact .bind (plain_modify (fun _ => rfl) (fun _ => ⟨rfl, rfl⟩) fun _ _ _ => rfl) fun _ => .pure _

end Optimizer

end PlanSearch
