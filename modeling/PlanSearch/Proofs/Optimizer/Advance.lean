import PlanSearch.Proofs.Optimizer.Settling
import PlanSearch.Proofs.SmallHost

/-!
# How a search advances

A search takes matches from the agenda one at a time and deals with each, until the agenda is empty or a
budget is spent. So where a search succeeds, it is a series of turns, and what every turn keeps, a search
keeps.

    searchLogged fuel o = .ok log o' → Goes fuel [] o log o'            (goes_of_searchLogged)
    search fuel o = .ok () o' → o.Advances o'                          (search_advances)
-/

namespace PlanSearch

open Outline

namespace Agenda

/-- The match taken is a pending one, and the others stay. -/
theorem pop?_eq_some {a a' : Agenda} {x : Match} (h : a.pop? = some (x, a')) :
    ∃ priority, a.pending.Perm ((priority, x) :: a'.pending) ∧ a'.seen = a.seen := by
  unfold pop? at h
  split at h
  · cases h
  · next p ps hp =>
    split at h
    · cases h
      exact ⟨p.1, by rw [hp], rfl⟩
    · cases h
      exact ⟨(takeHighest p ps).1.1, by rw [hp]; exact (takeHighest_perm p ps).symm, rfl⟩

theorem pop?_eq_none {a : Agenda} (h : a.pop? = none) : a.pending = [] := by
  unfold pop? at h
  split at h
  · next hp => exact hp
  · split at h <;> cases h

end Agenda

namespace Optimizer

variable {Op Q : Type} [Operator Op] [Quantity Q] {o o' : Optimizer Op Q}

/-! ## Beginnings -/

omit [Operator Op] [Quantity Q] in
/-- Nothing has been entered or found since the optimizer was built or cleared. -/
structure Blank (o : Optimizer Op Q) : Prop where
  memo : ∃ registry factRules tieBreak, o.memo = .empty registry factRules tieBreak
  agenda : ∃ order, o.agenda = .empty order

omit [Operator Op] [Quantity Q] in
theorem blank_new (rules : List (Rule Op Q)) (model : CostModel Op Q) (registry : Registry Op)
    (factRules : List (FactRule Op)) (options : Options) :
    (new rules model registry factRules options).Blank :=
  ⟨⟨registry, factRules, options.tieBreak, rfl⟩, ⟨options.order, rfl⟩⟩

omit [Operator Op] [Quantity Q] in
theorem blank_clear (o : Optimizer Op Q) : o.clear.Blank :=
  ⟨⟨o.memo.registry, o.memo.factRules, o.options.tieBreak, rfl⟩, ⟨o.options.order, rfl⟩⟩

theorem Blank.reached (h : o.Blank) : o.memo.Reached := by
  obtain ⟨registry, factRules, tieBreak, hm⟩ := h.memo
  rw [hm]
  exact .empty registry factRules tieBreak

omit [Operator Op] [Quantity Q] in
theorem Blank.entry_eq_none (h : o.Blank) (e : ExprId) : o.memo.outline.entry e = none := by
  obtain ⟨registry, factRules, tieBreak, hm⟩ := h.memo
  rw [hm]
  simp [Memo.outline, Memo.empty]

/-- A plan is seeded by adding it and asking for its sub group; then the memo is settled. -/
theorem seed_spec {fuel : Nat} {plan : PlanNode Op} {required : TraitSet} {g : GroupId}
    (h : seed fuel plan required o = .ok g o') :
    ∃ g₀ e s m₁ m₂ o₂, Memo.add plan o.memo = .ok (g₀, e) m₁ ∧
      Memo.ensureSubGroup ⟨g₀, required⟩ true m₁ = .ok s m₂ ∧
      settle fuel { o with phase := .seeding, memo := m₂, root := some ⟨g₀, required⟩,
                           seedPlan := some plan } = .ok () o₂ ∧
      o' = { o₂ with phase := .searching } ∧ g = o₂.memo.reduceGroup g₀ := by
  simp only [seed] at h
  have h := run_get_bind_eq_ok h
  split at h
  · cases h
  · obtain ⟨_, -, h⟩ := Action.read_bind_eq_ok h
    have h := run_modify_bind_eq_ok h
    obtain ⟨⟨g₀, e⟩, o₁, h₁, h₂⟩ := run_bind_eq_ok h
    obtain ⟨s, o₂, h₃, h₄⟩ := run_bind_eq_ok h₂
    have h₅ := run_modify_bind_eq_ok h₄
    obtain ⟨_, o₃, h₆, h₇⟩ := run_bind_eq_ok h₅
    have h₈ := run_modify_bind_eq_ok h₇
    have h₉ := run_get_bind_eq_ok h₈
    obtain ⟨hg, ho⟩ := run_pure_eq_ok h₉
    obtain ⟨m₁, hm₁, rfl⟩ := Action.onMemoAt_eq_ok h₁
    obtain ⟨m₂, hm₂, rfl⟩ := Action.onMemoAt_eq_ok h₃
    exact ⟨g₀, e, s, m₁, m₂, o₃, hm₁, hm₂, h₆, ho.symm, hg.symm⟩

/-! ## Turns -/

/-- A match has its turn, or the search is stopped. -/
inductive Advance (o : Optimizer Op Q) : Optimizer Op Q → Prop
  | turn {fuel : Nat} {x : Match} {agenda : Agenda} {o' : Optimizer Op Q}
      (next : o.agenda.pop? = some (x, agenda))
      (ok : dispatch fuel x { o with agenda := agenda } = .ok () o') : Advance o o'
  | stop {budget : Budget} {o' : Optimizer Op Q} (ok : exhaust budget o = .ok () o') : Advance o o'

/-- Any number of turns. -/
abbrev Advances : Optimizer Op Q → Optimizer Op Q → Prop := Relation.ReflTransGen Advance

omit [Operator Op] [Quantity Q] in
/-- Running out of a budget leaves everything alone but the note of it. -/
theorem exhaust_spec {budget : Budget} (h : exhaust budget o = .ok () o') :
    o'.memo = o.memo ∧ o'.agenda = o.agenda ∧ o'.budgetExhausted = true ∧
      ({ o with budgetExhausted := true } : Optimizer Op Q).Frame o' := by
  simp only [exhaust] at h
  have h := run_modify_bind_eq_ok h
  obtain ⟨_, o₁, h₁, h₂⟩ := run_bind_eq_ok h
  cases h₁
  have h₃ := run_get_bind_eq_ok h₂
  obtain ⟨hm, ha, hf⟩ := idle_withEvent ({ o with budgetExhausted := true })
    (.budgetExhausted budget)
  split at h₃
  · cases h₃
  · obtain ⟨-, rfl⟩ := run_pure_eq_ok h₃
    exact ⟨hm, ha, hf.budgetExhausted, hf⟩

/-! ## Searches with a log -/

/-- Deals with a match as `dispatch` does, and tells whether the match fires. -/
def dispatchLogged (fuel : Nat) (x : Match) : Action Op Q Bool := do
  let o ← get
  if o.removed.contains x.rule then return false
  else if o.disabled.contains x.rule then
    set { o with agenda := o.agenda.forget x }
    return false
  else
    let rule ← Action.read fun o => o.getRule x.rule
    if !rule.isImplementation && o.isPlanSpaceSpent then
      if !o.budgetExhausted then exhaust .planSpace
      return false
    else
      fire fuel x
      return true

/-- Takes matches from the agenda as `searchLoop` does, and adds those that fire to a log. -/
def searchLoopLogged (fuel : Nat) : Nat → List Match → Action Op Q (List Match)
  | 0, _ => throw .outOfFuel
  | turns + 1, log => do
    let o ← get
    match o.agenda.pop? with
    | none => return log
    | some (x, agenda) =>
      match o.spentBudget? with
      | some b =>
        exhaust b
        return log
      | none =>
        set { o with agenda := agenda }
        let fires ← dispatchLogged fuel x
        searchLoopLogged fuel turns (if fires then log ++ [x] else log)

/-- Searches as `search` does, and answers the matches that fire, in order. -/
def searchLogged (fuel : Nat) : Action Op Q (List Match) := do
  let o ← get
  if o.phase ≠ .searching then throw (.refused (.cannotSearch o.phase))
  else searchLoopLogged fuel fuel []

/-- The log changes nothing about what is done with a match. -/
theorem dispatchLogged_eq (fuel : Nat) (x : Match) :
    (dispatchLogged fuel x >>= fun _ => pure ⟨⟩ : Action Op Q Unit) = dispatch fuel x := by
  unfold dispatchLogged dispatch
  rw [bind_assoc]
  refine bind_congr fun o => ?_
  split
  · rfl
  · split
    · rfl
    · rw [bind_assoc]
      refine bind_congr fun rule => ?_
      split
      · split <;> simp
      · simp

theorem searchLoopLogged_eq (fuel : Nat) : ∀ (turns : Nat) (log : List Match),
    (searchLoopLogged fuel turns log >>= fun _ => pure ⟨⟩ : Action Op Q Unit) = searchLoop fuel turns
  | 0, _ => rfl
  | turns + 1, log => by
    rw [searchLoopLogged, searchLoop, bind_assoc]
    refine bind_congr fun o => ?_
    cases o.agenda.pop? with
    | none => rfl
    | some next =>
      cases o.spentBudget? with
      | some b => simp
      | none =>
        rw [bind_assoc]
        refine bind_congr fun _ => ?_
        rw [bind_assoc, ← dispatchLogged_eq, bind_assoc]
        refine bind_congr fun fires => ?_
        rw [pure_bind, searchLoopLogged_eq fuel turns]

/-- The log changes nothing about a search. -/
theorem searchLogged_eq (fuel : Nat) :
    (searchLogged fuel >>= fun _ => pure ⟨⟩ : Action Op Q Unit) = search fuel := by
  unfold searchLogged search
  rw [bind_assoc]
  refine bind_congr fun o => ?_
  split
  · rfl
  · exact searchLoopLogged_eq fuel fuel []

theorem search_of_searchLogged {fuel : Nat} {fired : List Match}
    (h : searchLogged fuel o = .ok fired o') : search fuel o = .ok () o' := by
  rw [← searchLogged_eq]
  change EStateM.bind _ _ o = _
  unfold EStateM.bind
  rw [h]
  rfl

/-! ## What comes of a match -/

/-- What can come of a match whose turn it is, with whether it fires. -/
inductive Dispatched (fuel : Nat) (x : Match) (o : Optimizer Op Q) : Bool → Optimizer Op Q → Prop
  | dropped (removed : o.removed.contains x.rule = true) : Dispatched fuel x o false o
  | forgotten (removed : o.removed.contains x.rule = false)
      (disabled : o.disabled.contains x.rule = true) :
      Dispatched fuel x o false { o with agenda := o.agenda.forget x }
  | full {o' : Optimizer Op Q} (memo : o'.memo = o.memo) (agenda : o'.agenda = o.agenda)
      (frame : ({ o with budgetExhausted := true } : Optimizer Op Q).Frame o') :
      Dispatched fuel x o false o'
  | fired {o' : Optimizer Op Q} (active : o.isActive x.rule = true)
      (ok : fire fuel x o = .ok () o') : Dispatched fuel x o true o'

theorem dispatchLogged_spec {fuel : Nat} {x : Match} {fires : Bool}
    (h : dispatchLogged fuel x o = .ok fires o') : Dispatched fuel x o fires o' := by
  simp only [dispatchLogged] at h
  have h := run_get_bind_eq_ok h
  split at h
  · next hr =>
    obtain ⟨rfl, rfl⟩ := run_pure_eq_ok h
    exact .dropped hr
  · next hr =>
    have hr := Bool.not_eq_true _ ▸ hr
    split at h
    · next hd =>
      have h := Action.set_bind_eq_ok h
      obtain ⟨rfl, rfl⟩ := run_pure_eq_ok h
      exact .forgotten hr hd
    · next hd =>
      have hd := Bool.not_eq_true _ ▸ hd
      obtain ⟨rule, -, h⟩ := Action.read_bind_eq_ok h
      split at h
      · split at h
        · obtain ⟨_, o₁, h₁, h₂⟩ := run_bind_eq_ok h
          obtain ⟨rfl, rfl⟩ := run_pure_eq_ok h₂
          obtain ⟨hm, ha, -, hf⟩ := exhaust_spec h₁
          exact .full hm ha hf
        · next hb =>
          obtain ⟨rfl, rfl⟩ := run_pure_eq_ok h
          refine .full rfl rfl ⟨rfl, rfl, rfl, rfl, rfl, rfl, ?_⟩
          simpa using hb
      · obtain ⟨_, o₁, h₁, h₂⟩ := run_bind_eq_ok h
        obtain ⟨rfl, rfl⟩ := run_pure_eq_ok h₂
        exact .fired (by rw [isActive, hr, hd]; rfl) h₁

theorem dispatch_spec {fuel : Nat} {x : Match} (h : dispatch fuel x o = .ok () o') :
    ∃ fires, Dispatched fuel x o fires o' := by
  rw [← dispatchLogged_eq] at h
  obtain ⟨fires, o₁, h₁, h₂⟩ := run_bind_eq_ok h
  obtain ⟨-, rfl⟩ := run_pure_eq_ok h₂
  exact ⟨fires, dispatchLogged_spec h₁⟩

/-! ## The turns of a search -/

section Goes

variable {log log' : List Match} {fuel : Nat}

/-- The search goes on, turn by turn, to its end, and what fires is added to the log. -/
inductive Goes (fuel : Nat) : List Match → Optimizer Op Q → List Match → Optimizer Op Q → Prop
  | done {log : List Match} {o : Optimizer Op Q} (empty : o.agenda.pop? = none) : Goes fuel log o log o
  | stop {log : List Match} {o o' : Optimizer Op Q} {next : Match × Agenda} {b : Budget}
      (pending : o.agenda.pop? = some next) (spent : o.spentBudget? = some b) (ok : exhaust b o = .ok () o') :
      Goes fuel log o log o'
  | turn {log log' : List Match} {o o₁ o' : Optimizer Op Q} {x : Match} {agenda : Agenda} {fires : Bool}
      (next : o.agenda.pop? = some (x, agenda)) (unspent : o.spentBudget? = none)
      (ok : dispatchLogged fuel x { o with agenda := agenda } = .ok fires o₁)
      (rest : Goes fuel (if fires then log ++ [x] else log) o₁ log' o') : Goes fuel log o log' o'

theorem goes_of_searchLoopLogged : ∀ {turns : Nat} {log : List Match} {o : Optimizer Op Q},
    searchLoopLogged fuel turns log o = .ok log' o' → Goes fuel log o log' o'
  | 0, _, _, ok => by cases ok
  | turns + 1, log, o, ok => by
    rw [searchLoopLogged] at ok
    have ok := run_get_bind_eq_ok ok
    cases hp : o.agenda.pop? with
    | none =>
      simp only [hp] at ok
      obtain ⟨rfl, rfl⟩ := run_pure_eq_ok ok
      exact .done hp
    | some next =>
      obtain ⟨x, agenda⟩ := next
      simp only [hp] at ok
      cases hb : o.spentBudget? with
      | some b =>
        simp only [hb] at ok
        obtain ⟨_, o₁, h₁, ok⟩ := run_bind_eq_ok ok
        obtain ⟨rfl, rfl⟩ := run_pure_eq_ok ok
        exact .stop hp hb h₁
      | none =>
        simp only [hb] at ok
        obtain ⟨fires, o₁, h₁, ok⟩ := run_bind_eq_ok (Action.set_bind_eq_ok ok)
        exact .turn hp hb h₁ (goes_of_searchLoopLogged ok)

theorem goes_of_searchLogged (ok : searchLogged fuel o = .ok log o') : Goes fuel [] o log o' := by
  have ok := run_get_bind_eq_ok ok
  split at ok
  · cases ok
  · exact goes_of_searchLoopLogged ok

theorem advance_of_dispatchLogged {x : Match} {agenda : Agenda} {fires : Bool}
    (next : o.agenda.pop? = some (x, agenda)) (ok : dispatchLogged fuel x { o with agenda := agenda } = .ok fires o') :
    o.Advance o' := by
  have hdispatch : dispatch fuel x { o with agenda := agenda } = .ok () o' := by
    rw [← dispatchLogged_eq, run_bind_of_ok ok]
    rfl
  exact .turn next hdispatch

theorem Goes.advances (h : Goes fuel log o log' o') : o.Advances o' := by
  induction h with
  | done => exact .refl
  | stop _ _ ok => exact .single (.stop ok)
  | turn next _ ok _ ih => exact .head (advance_of_dispatchLogged next ok) ih

theorem search_advances (h : search fuel o = .ok () o') : o.Advances o' := by
  rw [← searchLogged_eq] at h
  obtain ⟨log, o₁, hlogged, h⟩ := run_bind_eq_ok h
  obtain ⟨-, rfl⟩ := run_pure_eq_ok h
  exact (goes_of_searchLogged hlogged).advances

end Goes

/-! ## Runs from the seed to the plan -/

/-- What an action answers, if it succeeds. -/
def answer? {α : Type} (x : Action Op Q α) (o : Optimizer Op Q) : Option α :=
  match x o with
  | .ok a _ => some a
  | .error _ _ => none

omit [Operator Op] [Quantity Q] in
theorem answer?_eq_some {α : Type} {x : Action Op Q α} {a : α} (h : answer? x o = some a) :
    ∃ o', x o = .ok a o' := by
  unfold answer? at h
  split at h
  · next ok => cases h; exact ⟨_, ok⟩
  · cases h

/-- Seeds, searches and takes out a plan. Answers the matches that fire, the optimizer that the search ends
with, and what is taken out. -/
def optimizeLogged (fuel : Nat) (plan : PlanNode Op) (required : TraitSet) :
    Action Op Q (List Match × Optimizer Op Q × Outcome Op Q) := do
  let _ ← seed fuel plan required
  let fired ← searchLogged fuel
  let o ← get
  let outcome ← extract
  return (fired, o, outcome)

theorem optimizeLogged_spec {fuel : Nat} {plan : PlanNode Op} {required : TraitSet}
    {fired : List Match} {outcome : Outcome Op Q}
    (h : answer? (optimizeLogged fuel plan required) o = some (fired, o', outcome)) :
    ∃ g seeded final, seed fuel plan required o = .ok g seeded ∧
      searchLogged fuel seeded = .ok fired o' ∧ extract o' = .ok outcome final := by
  obtain ⟨o₁, h⟩ := answer?_eq_some h
  unfold optimizeLogged at h
  obtain ⟨g, seeded, hseed, h⟩ := run_bind_eq_ok h
  obtain ⟨fired, o', hsearch, h⟩ := run_bind_eq_ok h
  have h := run_get_bind_eq_ok h
  obtain ⟨outcome, final, hextract, h⟩ := run_bind_eq_ok h
  obtain ⟨heq, rfl⟩ := run_pure_eq_ok h
  cases heq
  exact ⟨g, seeded, _, hseed, hsearch, hextract⟩

omit [Operator Op] [Quantity Q] in
/-- What is taken out is the best plan for the root with what its winner costs, or the seed without a cost. -/
theorem extract_eq_ok {outcome : Outcome Op Q} (h : extract o = .ok outcome o') :
    ∃ root, o.root = some root ∧
      ((∃ w, o.memo.bestPlan (o.memo.reduceRef root) = .ok outcome.plan ∧
        o.memo.winner (o.memo.reduceRef root) = .ok w ∧ outcome.cost = w.map fun w => w.price.cost) ∨
      o.seedPlan = some outcome.plan ∧ outcome.cost = none) := by
  simp only [extract] at h
  have h₁ := run_get_bind_eq_ok h
  cases hroot : o.root with
  | none =>
    simp only [hroot] at h₁
    cases h₁
  | some root =>
    simp only [hroot] at h₁
    have h₂ := run_get_bind_eq_ok (run_modify_bind_eq_ok h₁)
    dsimp only at h₂
    refine ⟨root, rfl, ?_⟩
    cases hbest : o.memo.bestPlan (o.memo.reduceRef root) with
    | ok best =>
      simp only [hbest] at h₂
      obtain ⟨w, hw, h₃⟩ := Action.read_bind_eq_ok h₂
      obtain ⟨_, _, -, h₄⟩ := run_bind_eq_ok h₃
      obtain ⟨rfl, -⟩ := run_pure_eq_ok h₄
      exact .inl ⟨w, rfl, hw, rfl⟩
    | error f =>
      cases f with
      | fault f =>
        simp only [hbest] at h₂
        cases h₂
      | error e =>
        simp only [hbest] at h₂
        cases hr : e.isRecoverable && o.budgetExhausted with
        | false =>
          simp only [hr] at h₂
          obtain ⟨_, _, -, h₄⟩ := run_bind_eq_ok h₂
          cases h₄
        | true =>
          cases hp : o.seedPlan with
          | none =>
            simp only [hr, hp] at h₂
            obtain ⟨_, _, -, h₄⟩ := run_bind_eq_ok h₂
            cases h₄
          | some plan =>
            simp only [hr, hp] at h₂
            obtain ⟨_, _, -, h₄⟩ := run_bind_eq_ok h₂
            obtain ⟨rfl, -⟩ := run_pure_eq_ok h₄
            exact .inr ⟨rfl, rfl⟩

section SmallHost

open SmallHost

set_option maxRecDepth 100000 in
theorem sorter_optimizes : ∃ fired o outcome,
    answer? (optimizeLogged 20 joined byFirst) sorter = some (fired, o, outcome) ∧
      fired.length = 6 ∧ o.budgetExhausted = false := by
  have hrun : (answer? (optimizeLogged 20 joined byFirst) sorter).map
      (fun a => (a.1.length, a.2.1.budgetExhausted)) = some (6, false) := by cbv
  obtain ⟨⟨fired, o, outcome⟩, h, hshown⟩ := Option.map_eq_some_iff.1 hrun
  obtain ⟨hlength, hbudget⟩ := Prod.mk.inj hshown
  exact ⟨fired, o, outcome, h, hlength, hbudget⟩

end SmallHost

end Optimizer

end PlanSearch
