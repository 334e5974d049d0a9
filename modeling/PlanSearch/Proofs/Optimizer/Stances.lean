import PlanSearch.Proofs.Optimizer.Advance
import PlanSearch.Proofs.Optimizer.Plain

/-!
# What only the host and the search decide

The options are set by the host, the phase is that of the call under way, and that a budget has run out is noted by the
search. Settling and firing change none of the three, also where they fail. So a search goes by the options that it
began with, and a match notes that a budget has run out only where the memo is full.

    x.Calm → (x.leave o).stance = o.stance
    o.Advances o' → o'.options = o.options ∧ o'.phase = o.phase                       (Advances.options_phase)
-/

namespace PlanSearch

variable {Op Q α β : Type}

namespace Optimizer

/-- The options, the phase, and whether a budget has run out. -/
def stance (o : Optimizer Op Q) : Options × Phase × Bool := (o.options, o.phase, o.budgetExhausted)

theorem stance_withEvent (o : Optimizer Op Q) (e : Event Q) : (o.withEvent e).stance = o.stance := by
  unfold withEvent
  split <;> rfl

end Optimizer

namespace Action

/-- The action leaves the options, the phase and the note of a budget as they are. -/
def Calm (x : Action Op Q α) : Prop := ∀ o, (x.leave o).stance = o.stance

theorem Calm.bind {x : Action Op Q α} {f : α → Action Op Q β} (hx : x.Calm) (hf : ∀ a, (f a).Calm) :
    (x >>= f : Action Op Q β).Calm := by
  intro o
  have ho := hx o
  rw [leave_bind]
  unfold leave at ho
  split at ho
  · exact (hf _ _).trans ho
  · exact ho

theorem Calm.get_bind {f : Optimizer Op Q → Action Op Q β} (hf : ∀ o, (f o).Calm) :
    (get >>= f : Action Op Q β).Calm := fun o => hf o o

theorem calm_pure (a : α) : (pure a : Action Op Q α).Calm := fun _ => rfl

theorem calm_throw (e : Stop) : (throw e : Action Op Q α).Calm := fun _ => rfl

theorem calm_modify {f : Optimizer Op Q → Optimizer Op Q} (same : ∀ o, (f o).stance = o.stance) :
    (modify f : Action Op Q PUnit).Calm := same

theorem calm_read (f : Optimizer Op Q → Except Failure α) : (Action.read f).Calm := by
  intro o
  unfold Action.leave Action.read
  cases f o <;> rfl

theorem calm_onMemoAt (site : Option RuleSite) (u : Update Op Q α) : (Action.onMemoAt site u).Calm := by
  intro o
  unfold Action.leave Action.onMemoAt
  cases u o.memo <;> rfl

theorem Noting.stance {f : Optimizer Op Q → Optimizer Op Q} (h : Noting f) (o : Optimizer Op Q) :
    (f o).stance = o.stance := by
  cases h with
  | record e => exact o.stance_withEvent e
  | _ => rfl

variable [Operator Op] [Quantity Q]

/-- What is routine is calm. -/
theorem Routine.calm {x : Action Op Q α} (h : x.Routine) : x.Calm := by
  induction h with
  | pure a => exact calm_pure a
  | @throw _ e _ => exact calm_throw e
  | bind _ _ first rest => exact first.bind rest
  | look _ _ rest => exact .get_bind rest
  | note noting => exact calm_modify noting.stance
  | call site _ => exact calm_onMemoAt site _

end Action

namespace Optimizer

open PlanSearch.Action

variable [Operator Op] [Quantity Q]

/-! ## Settling and firing -/

theorem calm_settle : ∀ fuel, (settle fuel : Action Op Q Unit).Calm
  | 0 => calm_throw _
  | fuel + 1 => by
    refine routine_takeChanges.calm.bind fun c => ?_
    split
    · exact calm_read _
    · exact (routine_settleRound c).calm.bind fun _ => calm_settle fuel

theorem calm_fire (fuel : Nat) (x : Match) : (fire fuel x : Action Op Q Unit).Calm := by
  refine (calm_read _).bind fun rule => ?_
  split
  · exact calm_throw _
  · refine (calm_read _).bind fun g => (calm_read _).bind fun n => .bind (calm_modify fun _ => rfl) fun _ => ?_
    refine (routine_count _).calm.bind fun _ => .get_bind fun o => ?_
    split
    · exact calm_throw _
    · exact (routine_mapM fun p => routine_produce rule n g p).calm.bind fun _ =>
        (routine_record _).calm.bind fun _ => calm_settle fuel

/-! ## Searching -/

variable {o o' : Optimizer Op Q} {fuel : Nat} {x : Match}

omit [Operator Op] [Quantity Q] in
/-- Running out of a budget is noted, and events aside nothing else is. -/
theorem exhaust_stance {b : Budget} (ok : exhaust b o = .ok () o') : o'.stance = (o.options, o.phase, true) := by
  have ok := run_modify_bind_eq_ok ok
  have ok := run_modify_bind_eq_ok ok
  have ok := run_get_bind_eq_ok ok
  split at ok
  · cases ok
  · obtain ⟨-, rfl⟩ := run_pure_eq_ok ok
    exact stance_withEvent _ _

/-- Dealing with a match changes neither options nor phase, and notes that a budget has run out only in a full memo. -/
theorem dispatchLogged_stance {fires : Bool} (ok : dispatchLogged fuel x o = .ok fires o') :
    o'.options = o.options ∧ o'.phase = o.phase ∧
      (o.isPlanSpaceSpent = false → o'.budgetExhausted = o.budgetExhausted) := by
  have ok := run_get_bind_eq_ok ok
  split at ok
  · obtain ⟨-, rfl⟩ := run_pure_eq_ok ok
    exact ⟨rfl, rfl, fun _ => rfl⟩
  · split at ok
    · have ok := Action.set_bind_eq_ok ok
      obtain ⟨-, rfl⟩ := run_pure_eq_ok ok
      exact ⟨rfl, rfl, fun _ => rfl⟩
    · obtain ⟨rule, -, ok⟩ := Action.read_bind_eq_ok ok
      split at ok
      · next hfull =>
        have hspent : o.isPlanSpaceSpent = true := (Bool.and_eq_true_iff.1 hfull).2
        split at ok
        · obtain ⟨_, o₁, hstop, ok⟩ := run_bind_eq_ok ok
          obtain ⟨-, rfl⟩ := run_pure_eq_ok ok
          have hstance := exhaust_stance hstop
          exact ⟨congrArg Prod.fst hstance, congrArg (fun s => s.2.1) hstance,
            fun h => absurd (hspent.symm.trans h) Bool.noConfusion⟩
        · obtain ⟨-, rfl⟩ := run_pure_eq_ok ok
          exact ⟨rfl, rfl, fun _ => rfl⟩
      · obtain ⟨_, o₁, hfire, ok⟩ := run_bind_eq_ok ok
        obtain ⟨-, rfl⟩ := run_pure_eq_ok ok
        have hcalm := calm_fire fuel x o
        unfold Action.leave at hcalm
        rw [hfire] at hcalm
        exact ⟨congrArg Prod.fst hcalm, congrArg (fun s => s.2.1) hcalm, fun _ => congrArg (fun s => s.2.2) hcalm⟩

theorem Advance.options_phase (h : o.Advance o') : o'.options = o.options ∧ o'.phase = o.phase := by
  cases h with
  | @turn fuel x agenda _ next ok =>
    rw [← dispatchLogged_eq] at ok
    obtain ⟨fires, o₁, hlogged, ok⟩ := run_bind_eq_ok ok
    obtain ⟨-, rfl⟩ := run_pure_eq_ok ok
    obtain ⟨hoptions, hphase, -⟩ := dispatchLogged_stance hlogged
    exact ⟨hoptions, hphase⟩
  | stop ok =>
    have hstance := exhaust_stance ok
    exact ⟨congrArg Prod.fst hstance, congrArg (fun s => s.2.1) hstance⟩

/-- A search goes by the options that it began with, and stays in its phase. -/
theorem Advances.options_phase (h : o.Advances o') : o'.options = o.options ∧ o'.phase = o.phase := by
  induction h with
  | refl => exact ⟨rfl, rfl⟩
  | tail _ hadvance ih => exact ⟨hadvance.options_phase.1.trans ih.1, hadvance.options_phase.2.trans ih.2⟩

end Optimizer

end PlanSearch
