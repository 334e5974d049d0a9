import PlanSearch.Proofs.Optimizer.Anytime
import PlanSearch.Proofs.Optimizer.History
import PlanSearch.Proofs.Optimizer.Runs
import PlanSearch.Proofs.Optimizer.Stances

/-!
# A full memo

In a memo that holds as many expressions as there may be, transformation rules do not fire. What counts is how many
there are when a match has its turn. Expressions are never taken out of a memo, but they become one where they read
groups that have become one. So a full memo stays full until two of its groups are united; then there may be room
again, and transformation rules fire until it is full once more.

    o'.Alike x y → x and y read no two groups that are one in o' → x.Congruent y            (Alike.congruent)
    m.outline.Evolves [] m'.outline [] → ¬ m.outline.Unites m'.outline → m.size ≤ m'.size     (Memo.size_le)
    o.Run → the memo of o is full → searchLogged fuel o = .ok log o' → no groups of o are united in o' →
      all that fired is of implementation rules                                     (Run.implements_in_full_memo)
    o.Run → the memo of o is full → o.Advances o' → a transformation rule does not fire in o', or
      there is room in o' and two groups of o are united                                 (Run.full_until_united)
-/

namespace PlanSearch

open Outline

/-! ## Expressions that become one -/

/-- Lists that agree under one map agree under another that tells no more of their elements apart. -/
theorem map_eq_of_map_eq {α β γ : Type} {f : α → β} {g : α → γ} {as bs : List α} (h : as.map f = bs.map f)
    (hfg : ∀ a ∈ as, ∀ b ∈ bs, f a = f b → g a = g b) : as.map g = bs.map g := by
  induction as generalizing bs with
  | nil => rw [List.map_eq_nil_iff.1 h.symm]
  | cons a as ih =>
    cases bs with
    | nil => cases h
    | cons b bs =>
      obtain ⟨hab, hrest⟩ := List.cons.inj h
      have htail := ih hrest fun a' ha b' hb => hfg a' (List.mem_cons_of_mem _ ha) b' (List.mem_cons_of_mem _ hb)
      rw [List.map_cons, List.map_cons, hfg a List.mem_cons_self b List.mem_cons_self hab, htail]

namespace Outline

variable {Op : Type} {o o' : Outline Op}

/-- Two groups of the first outline are one in the second. -/
def Unites (o o' : Outline Op) : Prop :=
  ∃ g k, g ≠ k ∧ (o.group g).isSome ∧ (o.group k).isSome ∧ o'.reduce g = o'.reduce k

/-- Expressions that are alike are congruent, unless they read groups that are one by now. -/
theorem Alike.congruent {x y : Expr Op} (h : o'.Alike x y) (apart : ∀ r ∈ x.inputs, ∀ s ∈ y.inputs,
      o'.reduce r.group = o'.reduce s.group → r.group = s.group) : x.Congruent y := by
  have h : (o'.settled x).canon = (o'.settled y).canon := h
  simp only [settled, Expr.canon, Expr.mk.injEq, List.map_map] at h
  obtain ⟨hop, hinputs, hdata, htraits⟩ := h
  have hinputs : x.inputs.map SubGroupRef.canon = y.inputs.map SubGroupRef.canon := by
    refine map_eq_of_map_eq hinputs fun r hr s hs hrs => ?_
    have hgroup : o'.reduce r.group = o'.reduce s.group := congrArg SubGroupRef.group hrs
    have hsame : r.traits.canon = s.traits.canon := congrArg SubGroupRef.traits hrs
    rw [SubGroupRef.canon, SubGroupRef.canon, apart r hr s hs hgroup, hsame]
  rw [Expr.Congruent, Expr.canon, Expr.canon, hop, hinputs, hdata, htraits]

/-- As long as no groups are united, no two expressions become one. -/
theorem Tidy.injOn_reduceExpr (ht : o.Tidy) (h : o.Evolves [] o' []) (apart : ¬ o.Unites o') {e e' : ExprId}
    (he : (o.entry e).isSome) (he' : (o.entry e').isSome) (hee : o'.reduceExpr e = o'.reduceExpr e') : e = e' := by
  obtain ⟨⟨x, g⟩, hx⟩ := Option.isSome_iff_exists.1 he
  obtain ⟨⟨y, k⟩, hy⟩ := Option.isSome_iff_exists.1 he'
  obtain ⟨z, j, hz, hxz, -⟩ := h.entry e x g hx
  obtain ⟨z', j', hz', hyz, -⟩ := h.entry e' y k hy
  rw [← hee, hz] at hz'
  cases hz'
  refine ht.sound.places.apart e x g e' y k hx hy ((hxz.trans hyz.symm).congruent fun r hr s hs hrs => ?_)
  by_contra hne
  exact apart ⟨r.group, s.group, hne, (ht.ready e x g hx r hr).isSome, (ht.ready e' y k hy s hs).isSome, hrs⟩

/-- What is one stays one. -/
theorem Unites.later {o'' : Outline Op} (h : o.Unites o') (hr : ∀ g, o''.reduce (o'.reduce g) = o''.reduce g) :
    o.Unites o'' := by
  obtain ⟨g, k, hne, hg, hk, hgk⟩ := h
  exact ⟨g, k, hne, hg, hk, by rw [← hr g, hgk, hr]⟩

end Outline

/-- As long as no groups are united, a memo holds no fewer expressions later. -/
theorem Memo.size_le {Op Q : Type} {m m' : Memo Op Q} (ht : m.outline.Tidy) (h : m.outline.Evolves [] m'.outline [])
    (apart : ¬ m.outline.Unites m'.outline) : m.size ≤ m'.size := by
  have hlive : ∀ {n : Memo Op Q} {e : ExprId}, e ∈ n.exprs.keys ↔ (n.outline.entry e).isSome := fun {n e} => by
    rw [Memo.outline_entry, Option.isSome_map, Std.TreeMap.mem_keys, Std.TreeMap.mem_iff_isSome_getElem?]
  have hnodup : (m.exprs.keys.map m'.reduceExpr).Nodup :=
    List.Nodup.map_on (fun e he e' he' hee => ht.injOn_reduceExpr h apart (hlive.1 he) (hlive.1 he') hee)
      Std.TreeMap.nodup_keys
  have hsub : m.exprs.keys.map m'.reduceExpr ⊆ m'.exprs.keys := by
    intro e' he'
    obtain ⟨e, he, rfl⟩ := List.mem_map.1 he'
    obtain ⟨⟨x, g⟩, hx⟩ := Option.isSome_iff_exists.1 (hlive.1 he)
    obtain ⟨x', g', hx', -⟩ := h.entry e x g hx
    exact hlive.2 (by rw [show m'.outline.entry (m'.reduceExpr e) = _ from hx']; rfl)
  have hlength := (List.subperm_of_subset hnodup hsub).length_le
  rwa [List.length_map, Std.TreeMap.length_keys, Std.TreeMap.length_keys] at hlength

namespace Optimizer

variable {Op Q : Type} [Operator Op] [Quantity Q] {o o' : Optimizer Op Q} {log : List Match} {n fuel : Nat}

/-! ## Searches from a full memo -/

omit [Operator Op] [Quantity Q] in
theorem isPlanSpaceSpent_iff (budget : o.options.planSpaceBudget = some n) :
    o.isPlanSpaceSpent = true ↔ n ≤ o.memo.size := by
  rw [isPlanSpaceSpent, budget, Option.any_some, decide_eq_true_iff]

omit [Operator Op] [Quantity Q] in
/-- Running out of a budget fires nothing, also where it is a fault. -/
theorem exhaust_leave (b : Budget) (o : Optimizer Op Q) :
    ((exhaust b).leave o).steps = o.steps ∧ ((exhaust b).leave o).memo = o.memo := by
  have hevent : ∀ o₁ : Optimizer Op Q, (o₁.withEvent (.budgetExhausted b)).steps = o₁.steps ∧
      (o₁.withEvent (.budgetExhausted b)).memo = o₁.memo := fun o₁ => by
    unfold withEvent
    split <;> exact ⟨rfl, rfl⟩
  have hleave : (exhaust b).leave o =
      withEvent { o with budgetExhausted := true } (.budgetExhausted b) := by
    show (Action.leave (if _ then _ else _ : Action Op Q Unit) _) = _
    split <;> rfl
  rw [hleave]
  exact hevent _

/-- A transformation rule does not fire in a full memo. -/
theorem dispatch_full {x : Match} {rule : Rule Op Q} (known : o.getRule x.rule = .ok rule)
    (transforms : rule.isImplementation = false) (spent : o.isPlanSpaceSpent = true) (fuel : Nat) :
    ((dispatch fuel x).leave o).steps = o.steps ∧ ((dispatch fuel x).leave o).memo = o.memo := by
  rw [dispatch_eq_modify, Action.leave_get_bind]
  split
  · exact ⟨rfl, rfl⟩
  · split
    · exact ⟨rfl, rfl⟩
    · rw [Action.leave_read_bind known, transforms, spent]
      split
      · split
        · exact exhaust_leave _ o
        · exact ⟨rfl, rfl⟩
      · next h => exact absurd rfl h

/-- In the course of a search the memo evolves, and stays tidy. -/
theorem Advances.evolves (h : o.Advances o') (ht : o.memo.outline.Tidy) :
    o.memo.outline.Evolves [] o'.memo.outline [] ∧ o'.memo.outline.Tidy := by
  have hmoves := h.moves (⟨ht, rfl⟩ : o.Fit o.model) .refl
  exact ⟨Edits.evolves hmoves.edits (Memo.sound_of_tidy ht []), (hmoves.fit ⟨ht, rfl⟩).tidy⟩

/-- A full memo stays full until two of its groups are united. -/
theorem Advances.full (h : o.Advances o') (ht : o.memo.outline.Tidy) (full : n ≤ o.memo.size)
    (apart : ¬ o.memo.outline.Unites o'.memo.outline) : n ≤ o'.memo.size :=
  full.trans (Memo.size_le ht (h.evolves ht).1 apart)

theorem Advances.getRule_eq (h : o.Advances o') (id : Nat) : o'.getRule id = o.getRule id := by
  have hrules : o'.rules = o.rules := by
    induction h with
    | refl => rfl
    | tail _ hadvance ih =>
      refine Eq.trans ?_ ih
      cases hadvance with
      | turn _ ok => exact congrArg Prod.fst ((plain_dispatch _ _).steady.rulebook_eq ok)
      | stop ok => exact congrArg Prod.fst ((steady_exhaust _).rulebook_eq ok)
  rw [getRule, getRule, hrules]

/-- A match fires only if its rule is an implementation rule, or there is room in the memo. -/
theorem dispatchLogged_fires {x : Match} (ok : dispatchLogged fuel x o = .ok true o') :
    ∃ rule, o.getRule x.rule = .ok rule ∧ (rule.isImplementation = true ∨ o.isPlanSpaceSpent = false) := by
  have ok := run_get_bind_eq_ok ok
  split at ok
  · cases ok
  · split at ok
    · cases Action.set_bind_eq_ok ok
    · obtain ⟨rule, known, ok⟩ := Action.read_bind_eq_ok ok
      refine ⟨rule, known, ?_⟩
      split at ok
      · split at ok
        · obtain ⟨_, o₁, -, ok⟩ := run_bind_eq_ok ok
          cases ok
        · cases ok
      · next h =>
        rw [Bool.and_eq_true, not_and_or, Bool.not_eq_true, Bool.not_eq_true, Bool.not_eq_false'] at h
        exact h

/-- In a full memo only implementation rules fire, as long as a search unites no groups. The induction is on the turns
of the search; that no groups are united by its end goes for every turn. -/
theorem Goes.implements {o₀ : Optimizer Op Q} {log' : List Match} (h : Goes fuel log o log' o')
    (ht : o₀.memo.outline.Tidy) (budget : o₀.options.planSpaceBudget = some n) (full : n ≤ o₀.memo.size)
    (before : o₀.Advances o) (apart : ¬ o₀.memo.outline.Unites o'.memo.outline) :
    ∀ x ∈ log', x ∈ log ∨ ∃ rule, o₀.getRule x.rule = .ok rule ∧ rule.isImplementation = true := by
  induction h with
  | done => exact fun x hx => .inl hx
  | stop => exact fun x hx => .inl hx
  | @turn log log' o o₁ o' x agenda fires next unspent ok rest ih =>
    have hnext := advance_of_dispatchLogged next ok
    intro y hy
    rcases ih (before.tail hnext) apart y hy with hy | hy
    · cases fires with
      | false => exact .inl hy
      | true =>
        rcases List.mem_append.1 hy with hy | hy
        · exact .inl hy
        · rw [List.mem_singleton.1 hy]
          obtain ⟨rule, known, himplements | hroom⟩ := dispatchLogged_fires ok
          · exact .inr ⟨rule, (before.getRule_eq x.rule).symm.trans known, himplements⟩
          · have hlater : o.Advances o' := .head hnext rest.advances
            have happart : ¬ o₀.memo.outline.Unites o.memo.outline := fun hunites =>
              apart (hunites.later (hlater.evolves (before.evolves ht).2).1.group)
            have hspent : o.isPlanSpaceSpent = true :=
              (isPlanSpaceSpent_iff (before.options_phase.1 ▸ budget)).2 (before.full ht full happart)
            exact absurd (hspent.symm.trans hroom) Bool.noConfusion
    · exact .inr hy

/-- Where a search that begins in a full memo unites no groups, only implementation rules fire in it. -/
theorem Run.implements_in_full_memo (h : o.Run) (budget : o.options.planSpaceBudget = some n) (full : n ≤ o.memo.size)
    (ok : searchLogged fuel o = .ok log o') (apart : ¬ o.memo.outline.Unites o'.memo.outline) :
    ∀ x ∈ log, ∃ rule, o.getRule x.rule = .ok rule ∧ rule.isImplementation = true := by
  intro x hx
  exact ((goes_of_searchLogged ok).implements h.tidy budget full .refl apart x hx).resolve_left List.not_mem_nil

/-- Let the memo hold as many expressions as there may be, or more, at some time of a run, and let a match of a
transformation rule have its turn later in the search. Either nothing fires with it, and the memo stays as it is. Or
there is room in the memo again, and two groups that it had have been united. -/
theorem Run.full_until_united (h : o.Run) (budget : o.options.planSpaceBudget = some n) (full : n ≤ o.memo.size)
    (later : o.Advances o') {x : Match} {rule : Rule Op Q} (known : o'.getRule x.rule = .ok rule)
    (transforms : rule.isImplementation = false) (fuel : Nat) (agenda : Agenda) :
    (((dispatch fuel x).leave { o' with agenda := agenda }).steps = o'.steps ∧
      ((dispatch fuel x).leave { o' with agenda := agenda }).memo = o'.memo) ∨
    (o'.memo.size < n ∧ o.memo.outline.Unites o'.memo.outline) := by
  have hbudget : o'.options.planSpaceBudget = some n := later.options_phase.1 ▸ budget
  by_cases hsize : n ≤ o'.memo.size
  · have hspent : o'.isPlanSpaceSpent = true := (isPlanSpaceSpent_iff hbudget).2 hsize
    exact .inl (dispatch_full (o := { o' with agenda := agenda }) known transforms hspent fuel)
  · refine .inr ⟨Nat.lt_of_not_le hsize, ?_⟩
    by_contra apart
    exact hsize (later.full h.tidy full apart)

section SmallHost

open SmallHost Relational

/-- Runs a filter, as a transformation. -/
def refilter : Rule Kind Nat where
  name := "refilter"
  pattern := .node (.exactly .filter) [.any]
  isImplementation := false
  priority := 0
  apply _ n := .ok [.node { n.head with op := .physicalFilter } n.inputs]

/-- Takes filters away, as an implementation. -/
def strip : Rule Kind Nat := { unfilter with pattern := .node (.exactly .filter) [.any], isImplementation := true }

/-- Three expressions are as many as there may be. -/
def cramped : Optimizer Kind Nat :=
  .new [refilter, strip] prices orders [] { Options.default with planSpaceBudget := some 3 }

/-- A table, filtered twice. -/
def refined : PlanNode Kind := bare .filter none [(bare .filter none [table .scan 1]).toPlan]

/-- Gives the next match its turn. -/
def turn : Action Kind Nat Unit := do
  let o ← get
  match o.agenda.pop? with
  | none => return ()
  | some (x, agenda) =>
    set { o with agenda := agenda }
    dispatch 20 x

theorem advances_of_turn {o o' : Optimizer Kind Nat} (ok : turn o = .ok () o') : o.Advances o' := by
  have ok := run_get_bind_eq_ok ok
  cases hp : o.agenda.pop? with
  | none =>
    simp only [hp] at ok
    obtain ⟨-, rfl⟩ := run_pure_eq_ok ok
    exact .refl
  | some next =>
    simp only [hp] at ok
    exact .single (.turn hp (Action.set_bind_eq_ok ok))

set_option maxRecDepth 100000 in
theorem answer_refined : (answer? (do
      let _ ← Optimizer.seed 20 refined orders.any
      let o ← get
      turn
      turn
      return (o, ← get)) cramped).map (fun a => (a.1.options.planSpaceBudget, a.1.memo.size, a.2.memo.size,
        a.2.steps, a.2.agenda.pop?.map fun next =>
          (next.1, ((dispatch 20 next.1).leave { a.2 with agenda := next.2 }).steps),
        (a.2.rules[0]?).map Rule.isImplementation)) =
      some (some 3, 3, 2, 1, some (⟨0, [⟨6⟩]⟩, 2), some false) := by
  -- Merges are computed in rounds, and stand deep inside the firing of a match.
  simp only [turn, dispatch, fire]
  delta produce Memo.addTo
  simp only [Memo.merge_eq_rounds 6]
  cbv

/-- With a filter taken away, the two filters are one expression, and a transformation rule fires that was held back
before. -/
theorem refined_unites : ∃ (o o' : Optimizer Kind Nat) (x : Match) (agenda : Agenda) (rule : Rule Kind Nat),
    o.Run ∧ o.options.planSpaceBudget = some 3 ∧ 3 ≤ o.memo.size ∧ o.Advances o' ∧
    o'.agenda.pop? = some (x, agenda) ∧ o'.getRule x.rule = .ok rule ∧ rule.isImplementation = false ∧
    ((dispatch 20 x).leave { o' with agenda := agenda }).steps = o'.steps + 1 ∧
    o'.memo.size < 3 ∧ o.memo.outline.Unites o'.memo.outline := by
  obtain ⟨⟨o, o'⟩, hanswer, hshown⟩ := Option.map_eq_some_iff.1 answer_refined
  obtain ⟨_, hrun⟩ := answer?_eq_some hanswer
  obtain ⟨g, seeded, hseed, hrun⟩ := run_bind_eq_ok hrun
  have hrun := run_get_bind_eq_ok hrun
  obtain ⟨_, o₁, hfirst, hrun⟩ := run_bind_eq_ok hrun
  obtain ⟨_, o₂, hsecond, hrun⟩ := run_bind_eq_ok hrun
  cases hrun
  simp only [Prod.mk.injEq] at hshown
  obtain ⟨hbudget, hsize, -, hsteps, hnext, hrule⟩ := hshown
  obtain ⟨⟨x, agenda⟩, hpop, hfires⟩ := Option.map_eq_some_iff.1 hnext
  obtain ⟨rfl, hfires⟩ := Prod.mk.inj hfires
  obtain ⟨rule, hlisted, htransforms⟩ := Option.map_eq_some_iff.1 hrule
  have hknown : o'.getRule 0 = .ok rule := by rw [getRule, hlisted]
  have hseeded : o.Run := .call (.seed 20 refined orders.any) (.start (blank_new _ _ _ _ _) rfl) hseed
  have hlater : o.Advances o' := (advances_of_turn hfirst).trans (advances_of_turn hsecond)
  refine ⟨o, o', _, agenda, rule, hseeded, hbudget, hsize.ge, hlater, hpop, hknown, htransforms,
    hfires.trans (congrArg (· + 1) hsteps).symm, ?_⟩
  -- something fires, so there is room again
  refine (hseeded.full_until_united (x := ⟨0, [⟨6⟩]⟩) hbudget hsize.ge hlater hknown htransforms 20 agenda).resolve_left
    fun h => ?_
  have hsame := h.1
  rw [hfires, hsteps] at hsame
  cases hsame

end SmallHost

end Optimizer

end PlanSearch
