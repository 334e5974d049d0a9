import PlanSearch.Proofs.Optimizer.Cycles
import PlanSearch.Proofs.Optimizer.Dockets
import PlanSearch.Proofs.Optimizer.Extraction
import PlanSearch.Proofs.Optimizer.Winners

/-!
# Searching longer

A search that may fire more matches begins with those that a shorter one fires, in the same order: the limit bears on
nothing but where the search stops, and searching again after the stop fires nothing. So the longer search comes by a
state with the memo that the shorter one ends with, and from there on the winner for the root only gets cheaper,
whatever its group and its sub group become meanwhile.

    two searches go on from one state under the limits n ≤ m → what fires in the one is a prefix of
      what fires in the other, which comes by the memo that the one leaves                          (Goes.within)
    o.Budgeted n plan required j log₁ o₁ → o.Budgeted m plan required (k + 1) log₂ o₂ → n ≤ m →
      log₁ <+: log₂, and the winner for the root weighs no more in o₂                       (searching_longer)
-/

namespace PlanSearch

open Outline

/-! ## Winners of what a reference asks for -/

section Winners

variable {Op Q K : Type} [Operator Op] [Quantity Q] [LinearOrder K] {rank : Q → K} {m m' : Memo Op Q}
  {model : CostModel Op Q}

omit [Operator Op] [LinearOrder K] in
/-- An unknown weight counts as unbounded. -/
theorem CostModel.isUnknown_weight (hu : Quantity.isUnknown (Quantity.unbounded : Q) = false) (cost : Cost Q) :
    Quantity.isUnknown (model.weight cost) = false := by
  unfold weight
  dsimp only
  split
  · exact hu
  · next h => exact Bool.not_eq_true _ ▸ h

/-- The winner for a reference weighs no more later. -/
theorem Memo.winner_le (hk : Quantity.Ranked rank) (hu : Quantity.isUnknown (Quantity.unbounded : Q) = false)
    (ht : m.outline.Tidy) (hq : m.work.Quoted (Weighed model)) (h : Edits model.terms m.work m'.work)
    {r : SubGroupRef} {v : Winner Q} (hv : m.winner r = .ok (some v)) :
    ∃ v', m'.winner r = .ok (some v') ∧ rank v'.price.weight ≤ rank v.price.weight := by
  have hw := sound_of_tidy ht []
  have ht' := Memo.tidy_of_edits ht h
  rw [Memo.winner_eq ht] at hv
  obtain ⟨s, hs, hwins⟩ := Option.bind_eq_some_iff.1 (Except.ok.inj hv)
  have hs' : m'.outline.subOf r = some (m'.outline.reduceSub s) :=
    ht'.subOf_iff.2 ((Edits.lineage h hw).serves (ht.subOf_iff.1 hs))
  obtain ⟨v', hv', hle⟩ := Edits.lowers (Memo.ranks_known hk) weighed_lasting weighed_sure
    (fun _ _ p hp => (show p.weight = _ from hp) ▸ model.isUnknown_weight hu p.cost) h hw hq s v hwins
  refine ⟨v', ?_, hle⟩
  rw [Memo.winner_eq ht', hs']
  exact congrArg Except.ok hv'

end Winners

namespace Optimizer

variable {Op Q K : Type} [Operator Op] [Quantity Q] {o o' A A' B B' : Optimizer Op Q} {log log' : List Match}
  {fuel fuel' : Nat}

/-! ## The turns of a search -/

theorem dispatchLogged_docket {x : Match} {fires : Bool} (ok : dispatchLogged fuel x o = .ok fires o') :
    o'.docket = o.docket.after fires := by
  obtain ⟨-, hself⟩ := EStateM.Result.ok.inj (ok.symm.trans (dispatchLogged_under le_rfl ok o.docket))
  rw [hself]
  rfl

/-- There is nothing left to fire, or a budget has run out. -/
def Spent (o : Optimizer Op Q) : Prop := o.agenda.pop? = none ∨ ∃ b, o.spentBudget? = some b

omit [Operator Op] [Quantity Q] in
theorem spentBudget?_withEvent (o : Optimizer Op Q) (e : Event Q) : (o.withEvent e).spentBudget? = o.spentBudget? := by
  unfold withEvent
  split <;> rfl

omit [Operator Op] [Quantity Q] in
theorem spentBudget?_of_exhaust {b : Budget} (ok : exhaust b o = .ok () o') : o'.spentBudget? = o.spentBudget? := by
  obtain ⟨_, o₁, h₁, ok⟩ := run_bind_eq_ok (run_modify_bind_eq_ok ok)
  cases h₁
  have ok := run_get_bind_eq_ok ok
  split at ok
  · cases ok
  · obtain ⟨-, rfl⟩ := run_pure_eq_ok ok
    exact spentBudget?_withEvent _ _

omit [Operator Op] [Quantity Q] in
/-- A match may still fire only if fewer than the limit have. -/
theorem steps_lt_of_unspent {n : Nat} (unspent : o.spentBudget? = none) (limit : o.docket.limit = some n) :
    o.steps < n := by
  have limit : o.options.iterationBudget = some n := limit
  unfold spentBudget? at unspent
  rw [limit] at unspent
  split at unspent
  · cases unspent
  · next h => simpa using h

/-- The matches that fire are counted, up to the limit, and the search ends with nothing left to do. -/
theorem Goes.counts (h : Goes fuel log o log' o') : ∃ fired, log' = log ++ fired ∧
    o'.docket = { o.docket with fired := o.steps + fired.length } ∧
    (∀ n, o.docket.limit = some n → o.steps ≤ n → o'.steps ≤ n) ∧ o'.Spent := by
  induction h with
  | done empty => exact ⟨[], (List.append_nil _).symm, rfl, fun _ _ h => h, .inl empty⟩
  | stop _ spent ok =>
    have hdocket := Action.Blind.docket (blind_exhaust _) ok
    refine ⟨[], (List.append_nil _).symm, hdocket, fun n _ h => ?_, .inr ⟨_, (spentBudget?_of_exhaust ok).trans spent⟩⟩
    exact (congrArg Docket.fired hdocket).trans_le h
  | @turn log log' o o₁ o' x agenda fires next unspent ok rest ih =>
    obtain ⟨fired, hlog, hdocket, hlimit, hspent⟩ := ih
    have hafter : o₁.docket = ({ o with agenda := agenda } : Optimizer Op Q).docket.after fires :=
      dispatchLogged_docket ok
    have hsame : o₁.docket.limit = o.docket.limit := by
      rw [hafter]
      cases fires <;> rfl
    have hsteps : o₁.steps = (o.docket.after fires).fired := congrArg Docket.fired hafter
    cases fires with
    | false =>
      refine ⟨fired, hlog, ?_, fun n hn h => hlimit n (hsame.trans hn) (hsteps.trans_le h), hspent⟩
      rw [hdocket, hsteps, hafter]
      rfl
    | true =>
      refine ⟨x :: fired, by simpa using hlog, ?_, fun n hn _ => hlimit n (hsame.trans hn) ?_, hspent⟩
      · rw [hdocket, hsteps, hafter, List.length_cons, Nat.add_comm fired.length, ← Nat.add_assoc]
        rfl
      · exact hsteps.trans_le (steps_lt_of_unspent unspent hn)

/-! ## A search under two limits -/

omit [Operator Op] [Quantity Q] in
/-- What is left of a budget is left of a larger one. -/
theorem unspent_upTo {n m : Nat} (hnm : n ≤ m) {d : Docket} (unspent : (o.under (d.upTo n)).spentBudget? = none) :
    (o.under (d.upTo m)).spentBudget? = none := by
  unfold spentBudget? at unspent ⊢
  split at unspent
  · cases unspent
  · next h =>
    refine Eq.trans (if_neg fun hm => h ?_) unspent
    exact decide_eq_true (hnm.trans (of_decide_eq_true hm))

/-- The search under the larger limit begins as the one under the smaller, and comes by the memo that this ends with. -/
theorem Goes.within {n m : Nat} (hnm : n ≤ m) (h : Goes fuel log A log' A') : ∀ {o : Optimizer Op Q} {d : Docket},
    A = o.under (d.upTo n) → ∀ {log'' : List Match} {B : Optimizer Op Q},
      Goes fuel' log (o.under (d.upTo m)) log'' B → log' <+: log'' ∧
        ∃ B₁, (o.under (d.upTo m)).Advances B₁ ∧ B₁.memo = A'.memo ∧ B₁.Advances B := by
  induction h with
  | done _ =>
    intro o d ho log'' B h'
    obtain ⟨fired, hlog, -⟩ := h'.counts
    exact ⟨⟨fired, hlog.symm⟩, _, .refl, by rw [ho]; rfl, h'.advances⟩
  | stop _ _ ok =>
    intro o d ho log'' B h'
    obtain ⟨fired, hlog, -⟩ := h'.counts
    exact ⟨⟨fired, hlog.symm⟩, _, .refl, by rw [(exhaust_spec ok).1, ho]; rfl, h'.advances⟩
  | @turn log log' A A₁ A' x agenda fires next unspent ok rest ih =>
    rintro o d rfl log'' B h'
    have next : o.agenda.pop? = some (x, agenda) := next
    cases h' with
    | done empty => cases next.symm.trans empty
    | stop _ spent _ => cases (unspent_upTo hnm unspent).symm.trans spent
    | @turn _ _ _ B₁ _ x' agenda' fires' next' _ ok' rest' =>
      cases next.symm.trans next'
      -- the one match is dealt with under both limits
      obtain ⟨rfl, o', rfl, rfl⟩ := dispatch_agree (o := { o with agenda := agenda }) ok ok'
      rw [Docket.upTo_after] at ok' rest'
      obtain ⟨hbegins, B₁, hto, hmemo, hfrom⟩ := ih (congrArg o'.under (d.upTo_after n fires')) rest'
      exact ⟨hbegins, B₁, .head (advance_of_dispatchLogged next' ok') hto, hmemo, hfrom⟩

/-! ## Searches one after the other -/

/-- So many searches, one after the other, with all that fires in them. -/
inductive Searched : Nat → Optimizer Op Q → List Match → Optimizer Op Q → Prop
  | none {o : Optimizer Op Q} : Searched 0 o [] o
  | next {k fuel : Nat} {o o₁ o' : Optimizer Op Q} {log log' : List Match} (ok : searchLogged fuel o = .ok log o₁)
      (rest : Searched k o₁ log' o') : Searched (k + 1) o (log ++ log') o'

/-- What fires is counted, and stays within the limit, however many searches there are. -/
theorem Searched.counts {k : Nat} (h : Searched k o log o') :
    o'.docket = { o.docket with fired := o.steps + log.length } ∧
      ∀ n, o.docket.limit = some n → o.steps ≤ n → o'.steps ≤ n := by
  induction h with
  | none => exact ⟨rfl, fun _ _ h => h⟩
  | @next k fuel o o₁ o' log log' ok rest ih =>
    obtain ⟨fired, rfl, hdocket, hlimit, -⟩ := (goes_of_searchLogged ok).counts
    have hsteps : o₁.steps = o.steps + log.length := congrArg Docket.fired hdocket
    refine ⟨?_, fun n hn h => ih.2 n (by rw [hdocket]; exact hn) (hlimit n hn h)⟩
    rw [ih.1, hsteps, hdocket, List.length_append, Nat.add_assoc]

/-- Where nothing is left to fire, searching does nothing. -/
theorem Searched.of_spent {k : Nat} (h : Searched k o log o') (spent : o.Spent) : log = [] ∧ o'.memo = o.memo := by
  induction h with
  | none => exact ⟨rfl, rfl⟩
  | next ok rest ih =>
    cases goes_of_searchLogged ok with
    | done _ => exact ih spent
    | stop pending hb hstop =>
      obtain ⟨hlog, hmemo⟩ := ih (.inr ⟨_, (spentBudget?_of_exhaust hstop).trans hb⟩)
      exact ⟨hlog, hmemo.trans (exhaust_spec hstop).1⟩
    | turn next unspent _ _ =>
      rcases spent with empty | ⟨b, hb⟩
      · cases empty.symm.trans next
      · cases unspent.symm.trans hb

/-- Searching again fires nothing. -/
theorem Searched.first {k : Nat} (h : Searched (k + 1) o log o') :
    ∃ fuel o₁, Goes fuel [] o log o₁ ∧ o'.memo = o₁.memo := by
  cases h with
  | next ok rest =>
    have hgoes := goes_of_searchLogged ok
    obtain ⟨-, -, -, -, hspent⟩ := hgoes.counts
    obtain ⟨rfl, hmemo⟩ := rest.of_spent hspent
    exact ⟨_, _, by rwa [List.append_nil], hmemo⟩

/-- Searches under the larger limit come by the memo that those under the smaller one end with. -/
theorem Searched.within {n m j k : Nat} (hnm : n ≤ m) {d : Docket} {log'' : List Match}
    (h : Searched j (o.under (d.upTo n)) log' A') (h' : Searched (k + 1) (o.under (d.upTo m)) log'' B') :
    log' <+: log'' ∧ ∃ B₁ B, (o.under (d.upTo m)).Advances B₁ ∧ B₁.memo = A'.memo ∧ B₁.Advances B ∧
      B'.memo = B.memo := by
  obtain ⟨fuel, B, hgoes, hmemo⟩ := h'.first
  cases j with
  | zero =>
    cases h
    exact ⟨List.nil_prefix, _, B, .refl, rfl, hgoes.advances, hmemo⟩
  | succ j =>
    obtain ⟨fuel', A, hgoes', hmemo'⟩ := h.first
    obtain ⟨hbegins, B₁, hto, hB₁, hfrom⟩ := hgoes'.within hnm rfl hgoes
    exact ⟨hbegins, B₁, B, hto, hB₁.trans hmemo'.symm, hfrom, hmemo⟩

/-! ## Runs with a budget -/

/-- The optimizer, cleared for a search that may fire so many matches, and knows no other limit. -/
def limited (o : Optimizer Op Q) (n : Nat) : Optimizer Op Q :=
  clear { o with options := { o.options with iterationBudget := some n, planSpaceBudget := none, timeBudget := none } }

/-- The plan was seeded and searched for so many times, with a budget of `n` matches in all. -/
inductive Budgeted (o : Optimizer Op Q) (n : Nat) (plan : PlanNode Op) (required : TraitSet) (k : Nat)
    (log : List Match) (o' : Optimizer Op Q) : Prop
  | run {fuel : Nat} {g : GroupId} {seeded : Optimizer Op Q}
      (seeds : seed fuel plan required (o.limited n) = .ok g seeded) (searches : Searched k seeded log o')

theorem docket_of_seed {plan : PlanNode Op} {required : TraitSet} {g : GroupId}
    (ok : seed fuel plan required o = .ok g o') : ∃ g₀, o'.docket = { o.docket with root := some ⟨g₀, required⟩ } := by
  obtain ⟨g₀, e, s, m₁, m₂, o₂, -, -, hsettle, rfl, -⟩ := seed_spec ok
  exact ⟨g₀, Action.Blind.docket (repeats_settle le_rfl) hsettle⟩

/-- Let an optimizer be cleared twice, and the same plan be seeded and searched for, with budgets of `n` and `m`
matches, `n ≤ m`. Then what fires in the first run, at most `n` matches however often it searches, is what fires first
in the other one. If the first run has a winner for the root, so has the other one, and it weighs no more. Of quantities
it is enough that those that are known compare by rank, and that the unbounded one, which an unknown weight counts as,
is known. -/
theorem searching_longer [LinearOrder K] {rank : Q → K} (hk : Quantity.Ranked rank)
    (hu : Quantity.isUnknown (Quantity.unbounded : Q) = false) {n m j k : Nat} (hnm : n ≤ m) {plan : PlanNode Op}
    {required : TraitSet} {log₁ log₂ : List Match} {o₁ o₂ : Optimizer Op Q}
    (h₁ : o.Budgeted n plan required j log₁ o₁) (h₂ : o.Budgeted m plan required (k + 1) log₂ o₂) :
    log₁ <+: log₂ ∧ log₁.length ≤ n ∧ o₁.steps = log₁.length ∧
      ∃ g₀, o₁.root = some ⟨g₀, required⟩ ∧ o₂.root = some ⟨g₀, required⟩ ∧
        ∀ w₁, o₁.memo.winner ⟨g₀, required⟩ = .ok (some w₁) →
          ∃ w₂, o₂.memo.winner ⟨g₀, required⟩ = .ok (some w₂) ∧ rank w₂.price.weight ≤ rank w₁.price.weight := by
  obtain ⟨seeds₁, searches₁⟩ := h₁
  obtain ⟨seeds₂, searches₂⟩ := h₂
  obtain ⟨g₀, hdocket⟩ := docket_of_seed seeds₁
  -- both runs begin alike
  obtain ⟨rfl, seeded, root, rfl, rfl⟩ := seed_agree (o := o.limited 0) (d := ⟨some n, 0, none⟩)
    (e := ⟨some m, 0, none⟩) seeds₁ seeds₂
  have hroot : root = some ⟨g₀, required⟩ := congrArg Docket.root hdocket
  obtain ⟨hdocket₁, hlimit₁⟩ := searches₁.counts
  obtain ⟨hdocket₂, -⟩ := searches₂.counts
  have hsteps : o₁.steps = log₁.length := (congrArg Docket.fired hdocket₁).trans (Nat.zero_add _)
  obtain ⟨hbegins, B₁, B, hto, hmemo₁, hfrom, hmemo₂⟩ := searches₁.within (d := ⟨none, 0, root⟩) hnm searches₂
  refine ⟨hbegins, hsteps ▸ hlimit₁ n rfl (Nat.zero_le n), hsteps, g₀, (congrArg Docket.root hdocket₁).trans hroot,
    (congrArg Docket.root hdocket₂).trans hroot, fun w₁ hw₁ => ?_⟩
  obtain ⟨hfit, hmoves⟩ := (blank_clear _).moves seeds₂ hto
  have hfit₁ := hmoves.fit hfit
  have hq := (blank_clear _).quoted_of_moves weighed_lasting weighed_sure hmoves
  rw [← hmemo₁] at hw₁
  rw [hmemo₂]
  exact Memo.winner_le hk hu hfit₁.tidy hq (hfrom.moves hfit₁ .refl).edits hw₁

theorem budgeted_of_optimizeLogged {fuel n : Nat} {plan : PlanNode Op} {required : TraitSet} {outcome : Outcome Op Q}
    (h : answer? (optimizeLogged fuel plan required) (o.limited n) = some (log, o', outcome)) :
    o.Budgeted n plan required 1 log o' := by
  obtain ⟨g, seeded, final, hseed, hsearch, -⟩ := optimizeLogged_spec h
  exact .run hseed (log.append_nil ▸ .next hsearch .none)

section SmallHost

open SmallHost Relational

/-- A table of three rows. -/
def threeRows : PlanNode Kind := bare .scan (some (.i64 3)) []

/-- What is looked at: how many matches fire, and what the root's winner weighs. -/
def rootWeight (a : List Match × Optimizer Kind Nat × Outcome Kind Nat) : Nat × Option Nat :=
  (a.1.length, a.2.1.root.bind fun root =>
    (a.2.1.memo.winner root).toOption.bind fun w => w.map fun w => w.price.weight)

theorem winner_of_rootWeight {a : List Match × Optimizer Kind Nat × Outcome Kind Nat} {n c : Nat}
    (h : rootWeight a = (n, some c)) {root : SubGroupRef} (hroot : a.2.1.root = some root) :
    ∃ w, a.2.1.memo.winner root = .ok (some w) ∧ w.price.weight = c := by
  have h := congrArg Prod.snd h
  rw [rootWeight, hroot] at h
  obtain ⟨w, hw, h⟩ := Option.bind_eq_some_iff.1 h
  obtain ⟨v, rfl, hweight⟩ := Option.map_eq_some_iff.1 h
  refine ⟨v, ?_, hweight⟩
  cases hwinner : a.2.1.memo.winner root with
  | error e =>
    rw [hwinner] at hw
    cases hw
  | ok w =>
    rw [hwinner] at hw
    cases hw
    rfl

set_option maxRecDepth 100000 in
/-- With a budget of one match, the table of three rows is run as it is. With a budget of two it is shrunk, too, and
weighs one. -/
theorem shrinker_longer : ∃ (log₁ log₂ : List Match) (o₁ o₂ : Optimizer Kind Nat) (g₀ : GroupId) (w₁ w₂ : Winner Nat),
    shrinker.Budgeted 1 threeRows orders.any 1 log₁ o₁ ∧ shrinker.Budgeted 2 threeRows orders.any 1 log₂ o₂ ∧
      log₁ <+: log₂ ∧ log₁.length = 1 ∧ log₂.length = 2 ∧ o₁.root = some ⟨g₀, orders.any⟩ ∧
      o₁.memo.winner ⟨g₀, orders.any⟩ = .ok (some w₁) ∧ o₂.memo.winner ⟨g₀, orders.any⟩ = .ok (some w₂) ∧
      w₁.price.weight = 3 ∧ w₂.price.weight ≤ w₁.price.weight ∧ w₂.price.weight ≠ w₁.price.weight := by
  have hshort : (answer? (optimizeLogged 20 threeRows orders.any) (shrinker.limited 1)).map rootWeight =
      some (1, some 3) := by cbv
  have hlong : (answer? (optimizeLogged 20 threeRows orders.any) (shrinker.limited 2)).map rootWeight =
      some (2, some 1) := by cbv
  obtain ⟨⟨log₁, o₁, _⟩, h₁, hshown₁⟩ := Option.map_eq_some_iff.1 hshort
  obtain ⟨⟨log₂, o₂, _⟩, h₂, hshown₂⟩ := Option.map_eq_some_iff.1 hlong
  have hbudgeted₁ := budgeted_of_optimizeLogged h₁
  have hbudgeted₂ := budgeted_of_optimizeLogged h₂
  obtain ⟨hbegins, -, -, g₀, hroot₁, hroot₂, hwins⟩ :=
    searching_longer ranked_nat rfl (by decide) hbudgeted₁ hbudgeted₂
  obtain ⟨w₁, hw₁, hweight₁⟩ := winner_of_rootWeight hshown₁ hroot₁
  obtain ⟨w₂, hw₂, hle⟩ := hwins w₁ hw₁
  obtain ⟨w, hw, hweight₂⟩ := winner_of_rootWeight hshown₂ hroot₂
  cases hw₂.symm.trans hw
  exact ⟨log₁, log₂, o₁, o₂, g₀, w₁, w₂, hbudgeted₁, hbudgeted₂, hbegins, congrArg Prod.fst hshown₁,
    congrArg Prod.fst hshown₂, hroot₁, hw₁, hw₂, hweight₁, hle, by omega⟩

end SmallHost

end Optimizer

end PlanSearch
