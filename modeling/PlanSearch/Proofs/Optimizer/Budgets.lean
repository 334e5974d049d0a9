import PlanSearch.Proofs.Optimizer.Anytime
import PlanSearch.Proofs.Optimizer.Outcomes
import PlanSearch.Proofs.Optimizer.Stances

/-!
# When a search counts as cut short

Where only the number of matches that may fire is limited, a search notes that its budget has run out exactly if a
match is left on the agenda. Matches of rules at rest, which are disabled or removed, are left there too until their
turn comes, although nothing fires with them. So what is noted is right if an active rule has a match on the agenda,
since the search would come to fire it, and also if the agenda is empty. Where only rules at rest have matches there,
the search would end without firing anything, and counts as cut short all the same.

    search fuel o = .ok () o' → (o'.budgetExhausted = true ↔ a match waits in o')
    o'.unlimited.ComesToFire ↔ a match of an active rule waits in o'
    only matches of rules at rest wait in o' → o'.unlimited.ComesToRest                       (budget_noted_iff)
-/

namespace PlanSearch

namespace Optimizer

variable {Op Q : Type} {o o' : Optimizer Op Q} {fuel turns : Nat}

/-- The match waits for its turn. -/
def Awaits (o : Optimizer Op Q) (x : Match) : Prop := ∃ priority, (priority, x) ∈ o.agenda.pending

/-- Any number of matches may fire. -/
def unlimited (o : Optimizer Op Q) : Optimizer Op Q :=
  { o with options := { o.options with iterationBudget := none } }

/-- There is no limit to the size of the memo, and none to the time. -/
structure OnlyCounts (o : Optimizer Op Q) : Prop where
  planSpace : o.options.planSpaceBudget = none
  time : o.options.timeBudget = none

theorem OnlyCounts.isPlanSpaceSpent (h : o.OnlyCounts) : o.isPlanSpaceSpent = false := by
  rw [Optimizer.isPlanSpaceSpent, h.planSpace, Option.any_none]

theorem OnlyCounts.unspent (h : o.OnlyCounts) (agenda : Agenda) :
    ({ o.unlimited with agenda := agenda } : Optimizer Op Q).spentBudget? = none := by
  unfold spentBudget? unlimited
  simp [h.time]

theorem awaits_iff : (∃ x, o.Awaits x) ↔ o.agenda.pop? ≠ none := by
  constructor
  · rintro ⟨x, priority, hx⟩ hnone
    rw [Agenda.pop?_eq_none hnone] at hx
    cases hx
  · intro h
    obtain ⟨⟨x, agenda⟩, next⟩ := Option.ne_none_iff_exists'.1 h
    obtain ⟨priority, hperm, -⟩ := Agenda.pop?_eq_some next
    exact ⟨x, priority, hperm.mem_iff.2 List.mem_cons_self⟩

variable [Operator Op] [Quantity Q]

/-! ## What a search notes -/

/-- A search that is limited in number only notes that the budget has run out if it leaves a match behind. The induction
is on the turns; none of them notes anything. -/
theorem Goes.notes {log log' : List Match} (h : Goes fuel log o log' o') (counts : o.OnlyCounts)
    (unnoted : o.budgetExhausted = false) : o'.budgetExhausted = true ↔ ∃ x, o'.Awaits x := by
  induction h with
  | done empty =>
    rw [awaits_iff, unnoted]
    exact ⟨fun h => (by cases h), fun h => absurd empty h⟩
  | @stop log o o' next b pending spent ok =>
    obtain ⟨-, hagenda, hnoted, -⟩ := exhaust_spec ok
    rw [awaits_iff, hagenda, pending]
    exact ⟨fun _ h => (by cases h), fun _ => hnoted⟩
  | @turn log log' o o₁ o' x agenda fires next unspent ok rest ih =>
    obtain ⟨hoptions, -, hsame⟩ := dispatchLogged_stance ok
    have hcounts : o₁.OnlyCounts := ⟨hoptions ▸ counts.planSpace, hoptions ▸ counts.time⟩
    exact ih hcounts ((hsame counts.isPlanSpaceSpent).trans unnoted)

/-! ## What would come next -/

/-- If the search goes on, it comes to fire a match that waits, after passing over some others. -/
def ComesToFire (o : Optimizer Op Q) : Prop :=
  ∃ k x agenda, o.Awaits x ∧ o.isActive x.rule = true ∧ ∀ fuel,
    search (fuel + k) o = (fire (fuel + k) x >>= fun _ => searchLoop (fuel + k) fuel) { o with agenda := agenda }

/-- If the search goes on, it ends after passing over all that waits, and the rest of the state is as it was. -/
def ComesToRest (o : Optimizer Op Q) : Prop :=
  ∃ k agenda, agenda.pending = [] ∧ ∀ fuel, search (fuel + k) o = .ok () { o with agenda := agenda }

theorem search_eq_searchLoop (phase : o.phase = .searching) : search fuel o = searchLoop fuel fuel o := by
  rw [search, run_get_bind, if_neg (by rw [phase]; exact fun h => h rfl)]

theorem searchLoop_of_pop {x : Match} {agenda : Agenda} (next : o.agenda.pop? = some (x, agenda))
    (unspent : o.spentBudget? = none) :
    searchLoop fuel (turns + 1) o = (dispatch fuel x >>= fun _ => searchLoop fuel turns) { o with agenda := agenda } := by
  rw [searchLoop, run_get_bind]
  simp only [next, unspent]
  rfl

theorem searchLoop_of_empty (empty : o.agenda.pop? = none) : searchLoop fuel (turns + 1) o = .ok () o := by
  rw [searchLoop, run_get_bind]
  simp only [empty]
  rfl

/-- Where there is room in the memo, a match of an active rule fires. -/
theorem dispatch_of_active {x : Match} (active : o.isActive x.rule = true) (room : o.isPlanSpaceSpent = false) :
    dispatch fuel x o = fire fuel x o := by
  obtain ⟨hdisabled, hremoved⟩ := Bool.and_eq_true_iff.1 active
  rw [Bool.not_eq_true'] at hdisabled hremoved
  rw [dispatch, run_get_bind, if_neg (by rw [hremoved]; exact Bool.false_ne_true),
    if_neg (by rw [hdisabled]; exact Bool.false_ne_true)]
  cases known : o.getRule x.rule with
  | ok rule =>
    rw [run_bind_of_ok (Action.read_of_ok known), room, Bool.and_false, if_neg Bool.false_ne_true]
  | error e =>
    have hread : (Action.read fun o => o.getRule x.rule : Action Op Q (Rule Op Q)) o = .error (.ofFailure none e) o := by
      rw [Action.read, known]
    rw [fire, run_bind_of_error hread, run_bind_of_error hread]

/-- A match of a rule at rest is passed over. -/
theorem dispatch_of_rest {x : Match} (rest : o.isActive x.rule = false) (agenda : Agenda) :
    ∃ agenda', agenda'.pending = agenda.pending ∧ ∀ fuel,
      dispatch fuel x { o with agenda := agenda } = .ok () { o with agenda := agenda' } := by
  cases hremoved : o.removed.contains x.rule with
  | true =>
    refine ⟨agenda, rfl, fun fuel => ?_⟩
    rw [dispatch, run_get_bind, if_pos hremoved]
    rfl
  | false =>
    have hdisabled : o.disabled.contains x.rule = true := by simpa [isActive, hremoved] using rest
    refine ⟨agenda.forget x, rfl, fun fuel => ?_⟩
    rw [dispatch, run_get_bind, if_neg (by rw [hremoved]; exact Bool.false_ne_true), if_pos hdisabled]
    rfl

/-- Without a limit, the search passes over matches of rules at rest until it comes to one of an active rule, or until
none is left. The induction is on how many are waiting. -/
theorem exists_passed (unspent : ∀ agenda, ({ o with agenda := agenda } : Optimizer Op Q).spentBudget? = none)
    (agenda : Agenda) : ∃ k agenda', (∀ p ∈ agenda'.pending, p ∈ agenda.pending) ∧
      ((agenda'.pending = [] ∧ ∀ p ∈ agenda.pending, o.isActive p.2.rule = false) ∨
        ∃ x rest, agenda'.pop? = some (x, rest) ∧ o.isActive x.rule = true) ∧
      ∀ fuel turns, searchLoop fuel (turns + k) { o with agenda := agenda } =
        searchLoop fuel turns { o with agenda := agenda' } := by
  induction hl : agenda.pending.length using Nat.strongRecOn generalizing agenda with
  | ind n ih =>
  cases hp : agenda.pop? with
  | none =>
    have hnil := Agenda.pop?_eq_none hp
    exact ⟨0, agenda, fun _ => id, .inl ⟨hnil, by rw [hnil]; exact fun _ h => (by cases h)⟩, fun _ _ => rfl⟩
  | some next =>
    obtain ⟨x, rest⟩ := next
    cases hactive : o.isActive x.rule with
    | true => exact ⟨0, agenda, fun _ => id, .inr ⟨x, rest, hp, hactive⟩, fun _ _ => rfl⟩
    | false =>
      obtain ⟨priority, hperm, -⟩ := Agenda.pop?_eq_some hp
      obtain ⟨passed, hpending, hpass⟩ := dispatch_of_rest hactive rest
      have hshort : passed.pending.length < n := by
        rw [hpending, ← hl, hperm.length_eq, List.length_cons]
        exact Nat.lt_succ_self _
      obtain ⟨k, agenda', hsub, hend, hgoes⟩ := ih _ hshort passed rfl
      have hmem : ∀ p, p ∈ agenda.pending ↔ p = (priority, x) ∨ p ∈ passed.pending := fun p => by
        rw [hperm.mem_iff, hpending, List.mem_cons]
      have hend : (agenda'.pending = [] ∧ ∀ p ∈ agenda.pending, o.isActive p.2.rule = false) ∨
          ∃ x rest, agenda'.pop? = some (x, rest) ∧ o.isActive x.rule = true := by
        refine hend.imp_left fun h => ⟨h.1, fun p hp => ?_⟩
        rcases (hmem p).1 hp with rfl | hp
        · exact hactive
        · exact h.2 p hp
      refine ⟨k + 1, agenda', fun p h => (hmem p).2 (.inr (hsub p h)), hend, fun fuel turns => ?_⟩
      rw [← Nat.add_assoc, searchLoop_of_pop hp (unspent agenda), run_bind_of_ok (hpass fuel)]
      exact hgoes fuel turns

/-- The search passes over matches of rules at rest, with all the fuel that it has. -/
theorem exists_search_passed (phase : o.phase = .searching)
    (unspent : ∀ agenda, ({ o with agenda := agenda } : Optimizer Op Q).spentBudget? = none) :
    ∃ k agenda, (∀ p ∈ agenda.pending, p ∈ o.agenda.pending) ∧
      ((agenda.pending = [] ∧ ∀ p ∈ o.agenda.pending, o.isActive p.2.rule = false) ∨
        ∃ x rest, agenda.pop? = some (x, rest) ∧ o.isActive x.rule = true) ∧
      ∀ fuel, search (fuel + k) o = searchLoop (fuel + k) (fuel + 1) { o with agenda := agenda } := by
  obtain ⟨k, agenda, hsub, hend, hpass⟩ := exists_passed unspent o.agenda
  refine ⟨k + 1, agenda, hsub, hend, fun fuel => ?_⟩
  rw [search_eq_searchLoop phase, ← hpass, Nat.add_right_comm, Nat.add_assoc]

theorem comesToFire_iff (phase : o.phase = .searching) (room : o.isPlanSpaceSpent = false)
    (unspent : ∀ agenda, ({ o with agenda := agenda } : Optimizer Op Q).spentBudget? = none) :
    o.ComesToFire ↔ ∃ x, o.Awaits x ∧ o.isActive x.rule = true := by
  constructor
  · rintro ⟨k, x, agenda, awaits, active, -⟩
    exact ⟨x, awaits, active⟩
  · rintro ⟨y, ⟨priority, hy⟩, hactive⟩
    obtain ⟨k, agenda, hsub, ⟨-, hrest⟩ | ⟨x, rest, next, active⟩, hpass⟩ := exists_search_passed phase unspent
    · exact absurd (hactive.symm.trans (hrest _ hy)) Bool.noConfusion
    · obtain ⟨priority', hperm, -⟩ := Agenda.pop?_eq_some next
      refine ⟨k, x, rest, ⟨priority', hsub _ (hperm.mem_iff.2 List.mem_cons_self)⟩, active, fun fuel => ?_⟩
      rw [hpass, searchLoop_of_pop next (unspent agenda)]
      exact run_bind_congr (dispatch_of_active (o := { o with agenda := rest }) active room) _

theorem comesToRest (phase : o.phase = .searching)
    (unspent : ∀ agenda, ({ o with agenda := agenda } : Optimizer Op Q).spentBudget? = none)
    (rest : ∀ x, o.Awaits x → o.isActive x.rule = false) : o.ComesToRest := by
  obtain ⟨k, agenda, hsub, ⟨hnil, -⟩ | ⟨x, others, next, active⟩, hpass⟩ := exists_search_passed phase unspent
  · refine ⟨k, agenda, hnil, fun fuel => ?_⟩
    rw [hpass]
    exact searchLoop_of_empty (by rw [Agenda.pop?, hnil])
  · obtain ⟨priority, hperm, -⟩ := Agenda.pop?_eq_some next
    have hx : (priority, x) ∈ o.agenda.pending := hsub _ (hperm.mem_iff.2 List.mem_cons_self)
    exact absurd (active.symm.trans (rest x ⟨priority, hx⟩)) Bool.noConfusion

/-- Let a search be limited in nothing but the number of matches that may fire. It notes that its budget has run out
exactly if matches are left waiting. If one of them is of an active rule, then the search, going on without the limit,
comes to fire it. If all of them are of rules at rest, then it ends without firing anything. -/
theorem budget_noted_iff (counts : o.OnlyCounts) (unnoted : o.budgetExhausted = false) (ok : search fuel o = .ok () o') :
    (o'.budgetExhausted = true ↔ ∃ x, o'.Awaits x) ∧
    (o'.unlimited.ComesToFire ↔ ∃ x, o'.Awaits x ∧ o'.isActive x.rule = true) ∧
    ((∀ x, o'.Awaits x → o'.isActive x.rule = false) → o'.unlimited.ComesToRest) := by
  have hphase : o.phase = .searching := by
    by_contra hne
    rw [search, run_get_bind, if_pos hne] at ok
    cases ok
  obtain ⟨hoptions, hsame⟩ := (search_advances ok).options_phase
  have hcounts : o'.OnlyCounts := ⟨hoptions ▸ counts.planSpace, hoptions ▸ counts.time⟩
  have hphase' : o'.phase = .searching := hsame.trans hphase
  have hnotes : o'.budgetExhausted = true ↔ ∃ x, o'.Awaits x := by
    rw [← searchLogged_eq] at ok
    obtain ⟨log, o₁, hlogged, ok⟩ := run_bind_eq_ok ok
    obtain ⟨-, rfl⟩ := run_pure_eq_ok ok
    exact (goes_of_searchLogged hlogged).notes counts unnoted
  exact ⟨hnotes, comesToFire_iff (o := o'.unlimited) hphase' hcounts.isPlanSpaceSpent hcounts.unspent,
    comesToRest (o := o'.unlimited) hphase' hcounts.unspent⟩

section SmallHost

open SmallHost Relational

/-- Two rules read a table by an index, and one match may fire. -/
def twice : Optimizer Kind Nat :=
  .new [reindex, { reindex with name := "again" }] prices orders []
    { Options.default with iterationBudget := some 1 }

set_option maxRecDepth 100000 in
theorem answer_twice : (answer? (do
      let _ ← Optimizer.seed 20 (bare .physicalScan (some (.i64 1)) []) orders.any
      disableRule 1
      let o ← get
      search 20
      return (o, ← get)) twice).map (fun a => (a.1.options.planSpaceBudget, a.1.options.timeBudget,
        a.1.budgetExhausted, a.2.budgetExhausted, a.2.steps, a.2.agenda.pending.map Prod.snd, a.2.isActive 1)) =
      some (none, none, false, true, 1, [⟨1, [⟨0⟩]⟩], false) := by
  cbv

/-- One rule fires, and the other one is disabled. The search notes that its budget has run out, and would fire nothing
without it. -/
theorem twice_noted : ∃ (g : GroupId) (seeded o o' : Optimizer Kind Nat),
    Optimizer.seed 20 (bare .physicalScan (some (.i64 1)) []) orders.any twice = .ok g seeded ∧
    disableRule 1 seeded = .ok () o ∧ o.OnlyCounts ∧ o.budgetExhausted = false ∧ search 20 o = .ok () o' ∧
    o'.budgetExhausted = true ∧ ¬ o'.unlimited.ComesToFire ∧ o'.unlimited.ComesToRest := by
  obtain ⟨⟨o, o'⟩, hanswer, hshown⟩ := Option.map_eq_some_iff.1 answer_twice
  obtain ⟨_, hrun⟩ := answer?_eq_some hanswer
  obtain ⟨g, seeded, hseed, hrun⟩ := run_bind_eq_ok hrun
  obtain ⟨_, o₁, hdisable, hrun⟩ := run_bind_eq_ok hrun
  obtain ⟨_, o₂, hsearch, hrun⟩ := run_bind_eq_ok (run_get_bind_eq_ok hrun)
  cases hrun
  simp only [Prod.mk.injEq] at hshown
  obtain ⟨hspace, htime, hunnoted, hnoted, -, hpending, hdisabled⟩ := hshown
  have hrest : ∀ x, o'.Awaits x → o'.isActive x.rule = false := by
    rintro x ⟨priority, hx⟩
    have hmem : x ∈ o'.agenda.pending.map Prod.snd := List.mem_map.2 ⟨_, hx, rfl⟩
    rw [hpending, List.mem_singleton] at hmem
    rw [hmem]
    exact hdisabled
  obtain ⟨-, hfire, hends⟩ := budget_noted_iff ⟨hspace, htime⟩ hunnoted hsearch
  refine ⟨g, seeded, o, o', hseed, hdisable, ⟨hspace, htime⟩, hunnoted, hsearch, hnoted, fun h => ?_, hends hrest⟩
  obtain ⟨x, hx, hactive⟩ := hfire.1 h
  exact Bool.noConfusion (hactive.symm.trans (hrest x hx))

end SmallHost

end Optimizer

end PlanSearch
