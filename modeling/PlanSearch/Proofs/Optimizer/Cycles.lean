import PlanSearch.Proofs.Memo.Backing
import PlanSearch.Proofs.Optimizer.Advance
import PlanSearch.Proofs.Optimizer.Winners

/-!
# Cycles of winners

Taking out a plan follows winners from the top, and fails where they lead back into a sub group that is
still being followed. Where costs are never negative, weights do not go up along winners, so all winners on
such a cycle have one weight. Where every operation costs something, there are none, and a plan is found
wherever there is a winner. An operation that costs nothing can close a cycle: a winner may come to read its
own sub group when two groups turn out to be one.

    o.model.Raises (· ≤ ·) → what a winner reads has a winner that is no heavier
    o.model.Raises (· < ·) → no winners form a cycle                            (winner_cycles_are_level)
-/

namespace PlanSearch

open Outline

/-! ## Finding the best plan -/

/-- Where some answer is missing, the whole list of answers is, for the same reason. -/
theorem mapM_cases {α β ε : Type} (f : α → Except ε β) (as : List α) :
    (∃ bs, as.mapM f = .ok bs) ∨ ∃ a ∈ as, ∃ e, f a = .error e ∧ as.mapM f = .error e := by
  induction as with
  | nil => exact .inl ⟨[], rfl⟩
  | cons a as ih =>
    rw [List.mapM_cons]
    cases ha : f a with
    | error e => exact .inr ⟨a, List.mem_cons_self, e, ha, rfl⟩
    | ok b =>
      rcases ih with ⟨bs, hbs⟩ | ⟨a', ha', e, he, hall⟩
      · exact .inl ⟨b :: bs, by rw [hbs]; rfl⟩
      · exact .inr ⟨a', List.mem_cons_of_mem _ ha', e, he, by rw [hall]; rfl⟩

namespace Memo

variable {Op Q : Type} {m : Memo Op Q}

/-- Where a reference leads to a winner, the search for a plan goes on with what that reads, unless it has
been there. -/
theorem bestPlanWithin_eq (ht : m.outline.Tidy) (us : List SubGroupId) {r : SubGroupRef} {s : SubGroupId}
    {v : Winner Q} {x : Expr Op} {g : GroupId} (hs : m.outline.subOf r = some s)
    (hv : m.standings.wins s = some v) (hx : m.outline.entry (m.outline.reduceExpr v.expr) = some (x, g)) :
    ∃ rowType, m.bestPlanWithin us r =
      if s ∈ us then do
        let inputs ← x.inputs.mapM fun input => do
          let n ← m.bestPlanWithin (us.erase s) input
          return n.toPlan
        return ⟨⟨x.op, x.data, rowType, x.traits⟩, inputs⟩
      else throw (.error (.internal (.winnerCycle s (m.reduceGroup r.group)))) := by
  obtain ⟨c, hc, -⟩ := Option.bind_eq_some_iff.1 hs
  obtain ⟨group, -, hgroup, -⟩ := exists_liveGroup hc
  have hget : m.getGroup r.group = .ok group := by
    unfold getGroup group?
    rw [show m.groups[m.reduceGroup r.group]? = some group from hgroup]
  obtain ⟨ref, href, -⟩ := ht.subOf_iff.1 hs
  obtain ⟨sub, hsub, hlive, -⟩ := exists_liveSubGroup href
  have hwinner : sub.winner = some v := (standings_wins_of hlive).symm.trans hv
  have hfind : m.findSubGroup? r = some s := by rw [← Memo.subOf_eq, hs]
  have hexpr : m.getExpr v.expr = .ok x := by
    obtain ⟨entry, hentry, rfl, -⟩ := exists_entry hx
    unfold getExpr getEntry
    rw [show m.exprs[m.reduceExpr v.expr]? = some entry from hentry]
    rfl
  refine ⟨group.rowType, ?_⟩
  rw [bestPlanWithin, hget]
  simp only [bind, Except.bind, hfind, hsub, hwinner, hexpr]
  by_cases hmem : s ∈ us
  · rw [dif_pos hmem, if_pos hmem]
  · rw [dif_neg hmem, if_neg hmem]

variable [Quantity Q] {model : CostModel Op Q} {rel : Q → Q → Prop}

/-- From a sub group with a winner one gets to a plan, or into a cycle. The induction is on the sub groups
not yet entered; from those entered, winners lead to where the search is. -/
theorem bestPlanWithin_cases (ht : m.outline.Tidy) (hq : m.work.Quoted (Backed model rel))
    {us : List SubGroupId} {r : SubGroupRef} {s : SubGroupId} {v : Winner Q}
    (hs : m.outline.subOf r = some s) (hv : m.standings.wins s = some v)
    (hentered : ∀ t, (m.outline.sub t).isSome → t ∉ us → Relation.TransGen m.WinnerReads t s) :
    (∃ n, m.bestPlanWithin us r = .ok n) ∨
      ∃ t g, m.bestPlanWithin us r = .error (.error (.internal (.winnerCycle t g))) ∧
        Relation.TransGen m.WinnerReads t t := by
  induction hl : us.length using Nat.strongRecOn generalizing us r s v with
  | ind k ih =>
  obtain ⟨-, x, g, hx, hinputs⟩ := hq.wins s v hv
  obtain ⟨ref, href, -⟩ := ht.subOf_iff.1 hs
  obtain ⟨rowType, heq⟩ := bestPlanWithin_eq ht us hs hv hx
  rw [heq]
  by_cases hmem : s ∈ us
  · rw [if_pos hmem]
    rcases mapM_cases (fun input => do
        let n ← m.bestPlanWithin (us.erase s) input
        return n.toPlan : SubGroupRef → Except Failure (Plan Op)) x.inputs with
      ⟨inputs, hall⟩ | ⟨input, hinput, e, he, hall⟩
    · exact .inl ⟨_, by rw [hall]; rfl⟩
    · obtain ⟨t, u, hserves, hu, -⟩ := hinputs input hinput
      have hst : m.WinnerReads s t := by
        refine ⟨v, x, g, input, ?_, hx, hinput, ht.subOf_iff.2 hserves⟩
        rw [winnerOf_eq, ht.sound.names.reduceSub_of_live (by rw [href]; rfl)]
        exact hv
      have hafter : ∀ t', (m.outline.sub t').isSome → t' ∉ us.erase s →
          Relation.TransGen m.WinnerReads t' t := by
        intro t' hlive hnot
        by_cases hts : t' = s
        · rw [hts]
          exact .single hst
        · exact (hentered t' hlive (mt (List.mem_erase_of_ne hts).2 hnot)).tail hst
      have hlt : (us.erase s).length < k := hl ▸ length_erase_lt hmem
      rcases ih _ hlt (ht.subOf_iff.2 hserves) hu hafter rfl with ⟨n, hn⟩ | ⟨t', g', hn, hcycle⟩
      · rw [hn] at he
        cases he
      · rw [hn] at he
        cases he
        exact .inr ⟨t', g', by rw [hall]; rfl, hcycle⟩
  · rw [if_neg hmem]
    exact .inr ⟨s, _, rfl, hentered s (by rw [href]; rfl) hmem⟩

omit [Quantity Q] in
/-- Without a winner at the top there is no plan, but no cycle either. -/
theorem bestPlan_ne_cycle {r : SubGroupRef} (h : (m.outline.subOf r).bind m.standings.wins = none)
    (t : SubGroupId) (g : GroupId) :
    m.bestPlan r ≠ .error (.error (.internal (.winnerCycle t g))) := by
  intro hcycle
  rw [Memo.subOf_eq] at h
  rw [bestPlan, bestPlanWithin] at hcycle
  cases hget : m.getGroup r.group with
  | error e =>
    simp only [hget, bind, Except.bind] at hcycle
    unfold getGroup at hget
    split at hget
    · cases hget
    · cases hget
      cases hcycle
  | ok group =>
    simp only [hget, bind, Except.bind] at hcycle
    cases hfind : m.findSubGroup? r with
    | none =>
      simp only [hfind] at hcycle
      cases hcycle
    | some s =>
      rw [hfind] at h
      have hwins : (m.subGroups[s]?).bind SubGroup.winner = none := h
      simp only [hfind, liveSubGroup] at hcycle
      cases hsub : m.subGroups[s]? with
      | none =>
        rw [hsub] at hcycle
        cases hcycle
      | some sub =>
        rw [hsub] at hwins hcycle
        have hnone : sub.winner = none := hwins
        simp only [hnone] at hcycle
        cases hcycle

omit [Quantity Q] in
theorem winner_reduceRef (hn : m.outline.Names) (r : SubGroupRef) : m.winner (m.reduceRef r) = m.winner r := by
  have hr : m.reduceGroup (m.reduceGroup r.group) = m.reduceGroup r.group := hn.reduce_reduce r.group
  unfold winner findSubGroup? group? reduceRef
  simp only [hr]

/-- From the top one gets to a plan, or into a cycle, or there is no winner at the top. -/
theorem bestPlan_cases (ht : m.outline.Tidy) (hq : m.work.Quoted (Backed model rel)) (r : SubGroupRef) :
    (∃ n, m.bestPlan r = .ok n) ∨
      (∃ t g, m.bestPlan r = .error (.error (.internal (.winnerCycle t g))) ∧
        Relation.TransGen m.WinnerReads t t) ∨
      (m.outline.subOf r).bind m.standings.wins = none := by
  cases hwins : (m.outline.subOf r).bind m.standings.wins with
  | none => exact .inr (.inr rfl)
  | some v =>
    obtain ⟨s, hs, hv⟩ := Option.bind_eq_some_iff.1 hwins
    have hentered : ∀ t, (m.outline.sub t).isSome → t ∉ m.subGroups.keys →
        Relation.TransGen m.WinnerReads t s := by
      intro t hlive hnot
      rw [outline_sub, Option.isSome_map, ← Std.TreeMap.mem_iff_isSome_getElem?] at hlive
      exact absurd (Std.TreeMap.mem_keys.2 hlive) hnot
    rcases bestPlanWithin_cases ht hq hs hv hentered with h | h
    · exact .inl h
    · exact .inr (.inl h)

end Memo

/-! ## Searches -/

namespace Optimizer

variable {Op Q : Type} [Operator Op] [Quantity Q] {o o' o₀ : Optimizer Op Q} {M : CostModel Op Q} {P : Terms Op Q}

theorem Advance.moves (h : o.Advance o') (ho : o₀.Fit M) (hm : o₀.Moves M.terms o) : o₀.Moves M.terms o' := by
  cases h with
  | @turn fuel x agenda _ next ok =>
    have hnote : o₀.Moves M.terms { o with agenda := agenda } := hm.note rfl rfl rfl
    exact (runs_dispatch ho hnote fuel x).of_ok ok
  | @stop budget _ ok => exact (runs_exhaust hm budget).of_ok ok

theorem Advances.moves (h : o.Advances o') (ho : o₀.Fit M) (hm : o₀.Moves M.terms o) : o₀.Moves M.terms o' := by
  induction h with
  | refl => exact hm
  | tail _ hadvance ih => exact hadvance.moves ho ih

/-- All that a search does from its beginning on are moves. -/
theorem Blank.moves (h : o.Blank) {fuel : Nat} {plan : PlanNode Op} {required : TraitSet} {g : GroupId}
    (seeded : seed fuel plan required o = .ok g o') {o'' : Optimizer Op Q} (advanced : o'.Advances o'') :
    o.Fit o.model ∧ o.Moves o.model.terms o'' := by
  have ho : o.Fit o.model := ⟨h.reached.orderly.ordered.tidy, rfl⟩
  exact ⟨ho, advanced.moves ho ((runs_seed ho .refl fuel plan required).of_ok seeded)⟩

omit [Operator Op] [Quantity Q] in
/-- To begin with there are no quotes. -/
theorem Blank.quoted (h : o.Blank) (known : Knowledge Op Q) : o.memo.work.Quoted known := by
  obtain ⟨registry, factRules, tieBreak, hm⟩ := h.memo
  rw [hm]
  exact Memo.quoted_empty _ _ _ _

/-- What is known of quotes in every state of a search. -/
theorem Blank.quoted_of_moves (h : o.Blank) {known : Knowledge Op Q} (hl : Lasting P known)
    (hs : Sure P known) (hm : o.Moves P o') : o'.memo.work.Quoted known :=
  Edits.quoted hm.edits (Memo.sound_of_tidy h.reached.orderly.ordered.tidy []) hl hs (h.quoted known)

omit [Operator Op] [Quantity Q] in
/-- Where taking out a plan fails, so does the search for the best plan, or the winner at the top cannot be
looked up. -/
theorem extract_eq_error {root : SubGroupRef} (hroot : o.root = some root) {stop : Stop}
    (h : (extract : Action Op Q (Outcome Op Q)) o = .error stop o') :
    ∃ e, stop = .ofFailure none e ∧ (o.memo.bestPlan (o.memo.reduceRef root) = .error e ∨
      o.memo.winner (o.memo.reduceRef root) = .error e) := by
  unfold extract at h
  have h₁ := run_get_bind_eq_error h
  simp only [hroot] at h₁
  have h₂ := run_get_bind_eq_error (run_modify_bind_eq_error h₁)
  dsimp only at h₂
  cases hbest : o.memo.bestPlan (o.memo.reduceRef root) with
  | ok plan =>
    simp only [hbest] at h₂
    rcases run_bind_eq_error h₂ with h₃ | ⟨w, o₁, -, h₃⟩
    · unfold Action.read at h₃
      dsimp only at h₃
      cases hw : o.memo.winner (o.memo.reduceRef root) with
      | ok w =>
        rw [hw] at h₃
        cases h₃
      | error e =>
        rw [hw] at h₃
        cases h₃
        exact ⟨e, rfl, .inr rfl⟩
    · cases run_modify_bind_eq_error h₃
  | error e =>
    refine ⟨e, ?_, .inl rfl⟩
    cases e with
    | fault f =>
      simp only [hbest] at h₂
      cases h₂
      rfl
    | error e =>
      simp only [hbest] at h₂
      cases hr : e.isRecoverable && o.budgetExhausted with
      | false =>
        simp only [hr] at h₂
        cases run_modify_bind_eq_error h₂
        rfl
      | true =>
        cases hp : o.seedPlan with
        | none =>
          simp only [hr, hp] at h₂
          cases run_modify_bind_eq_error h₂
          rfl
        | some plan =>
          simp only [hr, hp] at h₂
          cases run_modify_bind_eq_error h₂

omit [Operator Op] [Quantity Q] in
/-- Where taking out a plan ends in a cycle, so does the search for the best plan. -/
theorem extract_cycle {site : Option RuleSite} {s : SubGroupId} {g : GroupId}
    (h : (extract : Action Op Q (Outcome Op Q)) o = .error (.error site (.internal (.winnerCycle s g))) o') :
    ∃ r, o.memo.bestPlan r = .error (.error (.internal (.winnerCycle s g))) := by
  cases hroot : o.root with
  | none =>
    unfold extract at h
    have h₁ := run_get_bind_eq_error h
    simp only [hroot] at h₁
    cases h₁
  | some root =>
    obtain ⟨e, hstop, he⟩ := extract_eq_error hroot h
    cases e with
    | fault f => cases hstop
    | error e =>
      cases hstop
      rcases he with hbest | hwinner
      · exact ⟨_, hbest⟩
      · unfold Memo.winner at hwinner
        split at hwinner
        · cases hwinner
        · unfold Memo.liveSubGroup at hwinner
          split at hwinner <;> cases hwinner

section Level

variable [LinearOrder Q] [Quantity.Exact Q]

/-- In every state of a search whose costs are never negative, what a winner reads has a winner that is no
heavier. So winners in a cycle have one weight, and taking out a plan ends in a cycle only where there is
one. Where all operations cost something, there is none, and a plan is taken out if the root has a winner. -/
theorem winner_cycles_are_level (hb : o.Blank) (hM : o.model.Raises (· ≤ ·)) {fuel : Nat} {plan : PlanNode Op}
    {required : TraitSet} {g : GroupId} (seeded : Optimizer.seed fuel plan required o = .ok g o')
    {o'' : Optimizer Op Q} (advanced : o'.Advances o'') :
    (∀ s t, o''.memo.WinnerReads s t → ∃ v v', o''.memo.winnerOf s = some v ∧ o''.memo.winnerOf t = some v' ∧
      v'.price.weight ≤ v.price.weight) ∧
    (∀ s t, Relation.TransGen o''.memo.WinnerReads s t → Relation.TransGen o''.memo.WinnerReads t s →
      ∃ v v', o''.memo.winnerOf s = some v ∧ o''.memo.winnerOf t = some v' ∧ v.price.weight = v'.price.weight) ∧
    (∀ site s k final, Optimizer.extract o'' = .error (.error site (.internal (.winnerCycle s k))) final →
      Relation.TransGen o''.memo.WinnerReads s s) ∧
    (o.model.Raises (· < ·) → (∀ s, ¬ Relation.TransGen o''.memo.WinnerReads s s) ∧
      ∀ root v, o''.root = some root → o''.memo.winner root = .ok (some v) →
        ∃ outcome final, Optimizer.extract o'' = .ok outcome final) := by
  obtain ⟨hfit, hmoves⟩ := hb.moves seeded advanced
  have ht := (hmoves.fit hfit).tidy
  have hle : ∀ a b c : Q, a ≤ b → b ≤ c → a ≤ c := fun _ _ _ h h' => h.trans h'
  have hlt : ∀ a b c : Q, a ≤ b → b < c → a < c := fun _ _ _ h h' => h.trans_lt h'
  have hq := hb.quoted_of_moves (backed_lasting hle) (backed_sure hM) hmoves
  refine ⟨fun s t h => h.below ht hq, fun s t hst hts => ?_, fun site s k final h => ?_, fun hM' => ?_⟩
  · obtain ⟨v, v', hv, hv', hweight⟩ := Memo.below_of_transGen ht hq hle hst
    obtain ⟨u, u', hu, hu', hweight'⟩ := Memo.below_of_transGen ht hq hle hts
    rw [hv'] at hu
    rw [hv] at hu'
    cases hu
    cases hu'
    exact ⟨v, v', hv, hv', le_antisymm hweight' hweight⟩
  · obtain ⟨r, hbest⟩ := extract_cycle h
    rcases Memo.bestPlan_cases ht hq r with ⟨n, hn⟩ | ⟨t, j, hn, hcycle⟩ | hnone
    · rw [hbest] at hn
      cases hn
    · rw [hbest] at hn
      cases hn
      exact hcycle
    · exact absurd hbest (Memo.bestPlan_ne_cycle hnone s k)
  · have hq' := hb.quoted_of_moves (backed_lasting hlt) (backed_sure hM') hmoves
    have hno : ∀ s, ¬ Relation.TransGen o''.memo.WinnerReads s s := by
      intro s h
      obtain ⟨v, v', hv, hv', hweight⟩ := Memo.below_of_transGen ht hq' (fun _ _ _ => lt_trans) h
      rw [hv] at hv'
      cases hv'
      exact lt_irrefl _ hweight
    refine ⟨hno, fun root v hroot hwinner => ?_⟩
    rw [← Memo.winner_reduceRef ht.sound.names] at hwinner
    cases hextract : extract o'' with
    | ok outcome final => exact ⟨outcome, final, rfl⟩
    | error stop final =>
      exfalso
      obtain ⟨e, -, hbest | hnone⟩ := extract_eq_error hroot hextract
      · have hwins := winner_eq_ok hwinner
        rcases Memo.bestPlan_cases ht hq (o''.memo.reduceRef root) with ⟨n, hn⟩ | ⟨t, j, -, hcycle⟩ | hnone
        · rw [hbest] at hn
          cases hn
        · exact hno t hcycle
        · rw [hnone] at hwins
          cases hwins
      · rw [hwinner] at hnone
        cases hnone

end Level

section SmallHost

open SmallHost Relational

/-- Puts a projection in the place of a filter. -/
def relabel : Rule Kind Nat where
  name := "relabel"
  pattern := .node (.exactly .physicalFilter) [.any]
  isImplementation := false
  priority := 0
  apply _ n := .ok [.node { n.head with op := .physicalProject } n.inputs]

/-- Puts the input of a filter in its place. -/
def unfilter : Rule Kind Nat where
  name := "unfilter"
  pattern := .node (.exactly .physicalFilter) [.any]
  isImplementation := false
  priority := 0
  apply _ n := .ok (n.inputs.take 1)

/-- Tables cost one, projections five, and everything else nothing. -/
def tolls : CostModel Kind Nat :=
  { prices with operationCost x _ _ := .done (.ok ⟨[match x.op with
      | .physicalScan => 1
      | .physicalProject => 5
      | _ => 0]⟩) }

/-- Filters cost nothing, and are taken away. -/
def looper : Optimizer Kind Nat := .new [relabel, unfilter] tolls orders [] .default

/-- A table of one row, filtered. -/
def filtered : PlanNode Kind := bare .physicalFilter none [table .physicalScan 1]

/-- What taking out the plan of a call fails with, if it fails. -/
def failure? (o : Optimizer Kind Nat) : Option Stop :=
  match Optimizer.extract o with
  | .error stop _ => some stop
  | .ok _ _ => none

theorem tolls_additive : tolls.Additive where
  weight_accumulate _ _ := List.sum_append

set_option maxRecDepth 100000 in
theorem failure_filtered : (answer? (do
      let _ ← Optimizer.seed 20 filtered orders.any
      Optimizer.search 3
      get) looper).map failure? = some (some (.error none (.internal (.winnerCycle ⟨5⟩ ⟨4⟩)))) := by
  -- Merges are computed in rounds, and stand deep inside the firing of a match.
  simp only [search, searchLoop, dispatch, fire]
  delta produce Memo.addTo
  simp only [Memo.merge_eq_rounds 6]
  cbv

/-- A filter that costs nothing wins what it filters at the price of its input, and reads its own group when
the two groups turn out to be one. -/
theorem filtered_cycle : ∃ g o' o'' final, Optimizer.seed 20 filtered orders.any looper = .ok g o' ∧
    o'.Advances o'' ∧ Optimizer.extract o'' = .error (.error none (.internal (.winnerCycle ⟨5⟩ ⟨4⟩))) final ∧
    Relation.TransGen o''.memo.WinnerReads ⟨5⟩ ⟨5⟩ := by
  obtain ⟨o'', hanswer, hfails⟩ := Option.map_eq_some_iff.1 failure_filtered
  obtain ⟨_, hrun⟩ := answer?_eq_some hanswer
  obtain ⟨g, o', hseeded, hrun⟩ := run_bind_eq_ok hrun
  obtain ⟨_, o₁, hsearched, hrun⟩ := run_bind_eq_ok hrun
  cases hrun
  have hadvanced := search_advances hsearched
  obtain ⟨-, -, hcycle, -⟩ :=
    winner_cycles_are_level (blank_new _ _ _ _ _) tolls_additive.raises hseeded hadvanced
  unfold failure? at hfails
  cases hextract : Optimizer.extract o'' with
  | ok outcome final =>
    rw [hextract] at hfails
    cases hfails
  | error stop final =>
    rw [hextract] at hfails
    cases hfails
    exact ⟨g, o', o'', final, hseeded, hadvanced, hextract, hcycle none ⟨5⟩ ⟨4⟩ final hextract⟩

end SmallHost

end Optimizer

end PlanSearch
