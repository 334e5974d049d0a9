import PlanSearch.Proofs.Optimizer.Routine

/-!
# Where fuel is needed

Fuel bounds the number of rounds of settling. Whatever a round does, it does without: it may fail, but never because it
ran out of fuel. So settling comes to an end if it does so after some number of rounds, and after a round it does so if
it does so from there.

    Fuelless (settleRound c : Action Op Q Unit)                                          (fuelless_settleRound)
    settleRound o.memo.changes … = .ok () o' → o'.Settles → o.Settles                          (settles_of_round)
-/

namespace PlanSearch

namespace Optimizer

variable {Op Q : Type}

/-- Where the action fails, it is not for want of fuel. -/
def Fuelless {α : Type} (x : Action Op Q α) : Prop := ∀ o e o', x o = .error e o' → e ≠ .outOfFuel

variable {α β : Type}

theorem fuelless_throw {e : Stop} (h : e ≠ .outOfFuel) : Fuelless (throw e : Action Op Q α) := by
  intro o e' o' failed
  cases failed
  exact h

theorem fuelless_onMemoAt (site : Option RuleSite) (u : Update Op Q α) : Fuelless (Action.onMemoAt site u) := by
  intro o e o' h
  unfold Action.onMemoAt at h
  split at h
  · cases h
  · cases h
    exact Action.ofFailure_ne_outOfFuel site _

theorem Fuelless.bind {x : Action Op Q α} {f : α → Action Op Q β} (hx : Fuelless x) (hf : ∀ a, Fuelless (f a)) :
    Fuelless (x >>= f) := by
  intro o e o' h
  rcases run_bind_eq_error h with h | ⟨a, o₁, -, h⟩
  · exact hx o e o' h
  · exact hf a o₁ e o' h

variable [Operator Op] [Quantity Q]

theorem fuelless_of_routine {x : Action Op Q α} (h : x.Routine) : Fuelless x := by
  induction h with
  | pure a => exact fun _ _ _ h => by cases h
  | throw fuel => exact fuelless_throw fuel
  | bind _ _ first rest => exact first.bind rest
  | look _ _ rest => exact fun o e o' h => rest o o e o' (run_get_bind_eq_error h)
  | note _ => exact fun _ _ _ h => by cases h
  | call site _ => exact fuelless_onMemoAt site _

/-- A round needs no fuel. -/
theorem fuelless_settleRound (c : Changes) : Fuelless (settleRound c : Action Op Q Unit) :=
  fuelless_of_routine (routine_settleRound c)

/-! ## Settling that comes to an end -/

/-- After some number of rounds, settling ends without changes or fails, and more fuel makes no difference. -/
def Settles (o : Optimizer Op Q) : Prop :=
  ∃ n, ∀ fuel, n ≤ fuel → (∃ o', settle fuel o = .ok () o' ∧ o'.memo.changes.isEmpty = true) ∨
    ∃ e o', settle fuel o = .error e o' ∧ e ≠ .outOfFuel

theorem settle_succ_of_isEmpty (fuel : Nat) {o : Optimizer Op Q} (h : o.memo.changes.isEmpty = true) :
    settle (fuel + 1) o = Action.read (fun o => o.memo.verify) { o with memo := o.memo.forgetChanges } := by
  rw [settle]
  refine (run_bind_of_ok (rfl : takeChanges o = .ok o.memo.changes _)).trans ?_
  rw [if_pos h]

theorem settle_succ_of_changes (fuel : Nat) {o : Optimizer Op Q} (h : o.memo.changes.isEmpty = false) :
    settle (fuel + 1) o =
      (settleRound o.memo.changes >>= fun _ => settle fuel) { o with memo := o.memo.forgetChanges } := by
  rw [settle]
  refine (run_bind_of_ok (rfl : takeChanges o = .ok o.memo.changes _)).trans ?_
  rw [if_neg (by rw [h]; exact Bool.false_ne_true)]

/-- Without changes, settling is done. -/
theorem settles_of_isEmpty {o : Optimizer Op Q} (h : o.memo.changes.isEmpty = true) : o.Settles := by
  refine ⟨1, fun fuel hfuel => ?_⟩
  obtain ⟨fuel, rfl⟩ := Nat.exists_eq_add_of_le' hfuel
  rw [settle_succ_of_isEmpty fuel h]
  unfold Action.read
  split
  · exact .inl ⟨_, rfl, rfl⟩
  · exact .inr ⟨_, _, rfl, Action.ofFailure_ne_outOfFuel none _⟩

/-- Settling comes to an end if it does so from where its first round ends. -/
theorem settles_of_round {o : Optimizer Op Q} (h : ∀ o',
      settleRound o.memo.changes { o with memo := o.memo.forgetChanges } = .ok () o' → o'.Settles) : o.Settles := by
  cases hempty : o.memo.changes.isEmpty with
  | true => exact settles_of_isEmpty hempty
  | false =>
    cases hround : settleRound o.memo.changes { o with memo := o.memo.forgetChanges } with
    | error e o' =>
      refine ⟨1, fun fuel hfuel => .inr ⟨e, o', ?_, fuelless_settleRound _ _ e o' hround⟩⟩
      obtain ⟨fuel, rfl⟩ := Nat.exists_eq_add_of_le' hfuel
      rw [settle_succ_of_changes fuel hempty, run_bind_of_error hround]
    | ok u o' =>
      obtain ⟨n, hn⟩ := h o' hround
      refine ⟨n + 1, fun fuel hfuel => ?_⟩
      obtain ⟨fuel, rfl⟩ := Nat.exists_eq_add_of_le' (Nat.le_of_add_left_le hfuel)
      rw [settle_succ_of_changes fuel hempty, run_bind_of_ok hround]
      exact hn fuel (Nat.le_of_add_le_add_right hfuel)

end Optimizer

end PlanSearch
