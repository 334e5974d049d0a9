import PlanSearch.Proofs.Tables
import PlanSearch.RowCount

/-!
# What row counts are

The count of a group is the reply to one query, which asks for whatever its members estimate from. A group has a count
on `n` levels if it is known in the beginning, or if everything that its query asks about has a count on fewer levels.
Only such counts are kept: one that a group met again cuts short is not. So what is known in between is the same however
it was found, and does not bear on what is answered.

    c₁ and c₂ have only counts → the answers from c₁ and from c₂ are the same              (Sound.rowCount_eq)
    a count becomes known while a query is answered → it is what was the answer before     (eval_found)
-/

namespace PlanSearch

namespace Partition

variable {α : Type} [Ord α] [DecidableEq α] [Std.TransOrd α]

/-- What a node stands for stands for itself. -/
theorem resolve_resolve (p : Partition α) (x : α) : p.resolve (p.resolve x) = p.resolve x := by
  unfold resolve
  cases hx : p.find? x with
  | none => rw [Option.getD_none, hx, Option.getD_none]
  | some r =>
    have hr := parent_of_find? hx
    rw [Option.getD_some, find?, if_pos (mem_of_getElem?_eq hr), Option.getD_some, climb_of_root hr]

end Partition

/-! ## Queries -/

namespace RowQuery

variable {Q α β σ : Type} {respond : GroupId → σ → Option Q × σ} {answers answers' : GroupId → Option Q}

/-- The value of a query to which these are the answers. -/
def reply (answers : GroupId → Option Q) : RowQuery Q α → α
  | done a => a
  | ask g next => (next (answers g)).reply answers

/-- The groups that a query asks about if these are the answers. -/
def asked (answers : GroupId → Option Q) : RowQuery Q α → List GroupId
  | done _ => []
  | ask g next => g :: (next (answers g)).asked answers

/-- The query asks about the group if what it asked before was answered in some way. -/
inductive MayAsk (g : GroupId) : RowQuery Q α → Prop
  | first {next : Option Q → RowQuery Q α} : MayAsk g (ask g next)
  | later {h : GroupId} {next : Option Q → RowQuery Q α} (rows : Option Q) (rest : MayAsk g (next rows)) :
      MayAsk g (ask h next)

theorem mayAsk_of_mem_asked {g : GroupId} : ∀ {q : RowQuery Q α}, g ∈ q.asked answers → q.MayAsk g
  | ask h next, hg => by
    rcases List.mem_cons.1 hg with rfl | hg
    · exact .first
    · exact .later _ (mayAsk_of_mem_asked hg)

/-- Answers that are the same wherever both are asked for come to the same. -/
theorem same_of_agree : ∀ {q : RowQuery Q α},
    (∀ g, g ∈ q.asked answers → g ∈ q.asked answers' → answers g = answers' g) →
    q.reply answers = q.reply answers' ∧ q.asked answers = q.asked answers'
  | done a, _ => ⟨rfl, rfl⟩
  | ask g next, h => by
    have hg : answers g = answers' g := h g List.mem_cons_self List.mem_cons_self
    unfold reply asked
    rw [← hg]
    obtain ⟨hreply, hasked⟩ := same_of_agree (q := next (answers g)) fun k hk hk' =>
      h k (List.mem_cons_of_mem _ hk) (List.mem_cons_of_mem _ (hg ▸ hk'))
    exact ⟨hreply, congrArg _ hasked⟩

theorem run_ask (g : GroupId) (next : Option Q → RowQuery Q α) (s : σ) :
    (RowQuery.ask g next).run respond s = (next (respond g s).1).run respond (respond g s).2 := rfl

theorem run_bind (q : RowQuery Q α) (f : α → RowQuery Q β) (s : σ) :
    (q.bind f).run respond s = (f (q.run respond s).1).run respond (q.run respond s).2 := by
  induction q generalizing s with
  | done a => rfl
  | ask g next ih => exact ih _ _

/-- What every answer keeps is kept by the whole query. -/
theorem run_invariant (inv : σ → Prop) (q : RowQuery Q α) (step : ∀ g s, inv s → inv (respond g s).2) {s : σ}
    (hs : inv s) : inv (q.run respond s).2 := by
  induction q generalizing s with
  | done a => exact hs
  | ask g next ih => exact ih _ (step g s hs)

end RowQuery

/-! ## The count of a group as one query -/

namespace RowCount

variable {Op Q : Type} [Quantity Q]

/-- Asks for what each of the queries asks, and has the smallest of their values and `best`. -/
def smallest (best : Option Q) : List (RowQuery Q (Option Q)) → RowQuery Q (Option Q)
  | [] => .done best
  | q :: qs => q.bind fun rows => smallest (least best rows) qs

theorem run_smallest {σ : Type} {respond : GroupId → σ → Option Q × σ} (qs : List (RowQuery Q (Option Q)))
    (best : Option Q) (s : σ) : (smallest best qs).run respond s =
      qs.foldl (fun bs q => (least bs.1 (q.run respond bs.2).1, (q.run respond bs.2).2)) (best, s) := by
  induction qs generalizing best s with
  | nil => rfl
  | cons q qs ih =>
    rw [smallest, RowQuery.run_bind, ih]
    rfl

end RowCount

namespace Memo

variable {Op Q : Type}

theorem reduceGroup_reduceGroup (m : Memo Op Q) (g : GroupId) : m.reduceGroup (m.reduceGroup g) = m.reduceGroup g :=
  Partition.resolve_resolve _ _

/-- A name that stands for itself without being live has no members. -/
theorem members_eq_nil {m : Memo Op Q} {g : GroupId} (hg : m.reduceGroup g = g) (h : g ∉ m.groups) :
    m.members g = [] := by
  unfold members group?
  rw [hg, Std.TreeMap.getElem?_eq_none h]
  rfl

variable [Quantity Q]

/-- The smallest estimate among the members of a group, as one query. -/
def estimate (m : Memo Op Q) (model : CostModel Op Q) (g : GroupId) : RowQuery Q (Option Q) :=
  RowCount.smallest none ((m.members g).filterMap fun e =>
    (m.exprs[e]?).map fun entry => model.estimatedRows entry.expr)

/-- The count of `g` may be made from that of `h`. -/
def MayRead (m : Memo Op Q) (model : CostModel Op Q) (g h : GroupId) : Prop :=
  ∃ asked, (m.estimate model g).MayAsk asked ∧ m.reduceGroup asked = h

end Memo

namespace RowCount

variable {Op Q : Type} [Quantity Q] {m : Memo Op Q} {model : CostModel Op Q} {unopened : List GroupId} {asked : GroupId}
  {p : Progress Q}

theorem answer_of_known {rows : Q} (h : p.cache[m.reduceGroup asked]? = some rows) :
    answer m model unopened asked p = (some rows, p) := by
  rw [answer]
  simp only [h]

theorem run_estimate {σ : Type} {respond : GroupId → σ → Option Q × σ} (g : GroupId) (s : σ) :
    (m.estimate model g).run respond s = (m.members g).foldl (fun bs e =>
      match m.exprs[e]? with
      | none => bs
      | some entry => (least bs.1 ((model.estimatedRows entry.expr).run respond bs.2).1,
          ((model.estimatedRows entry.expr).run respond bs.2).2)) (none, s) := by
  rw [Memo.estimate, run_smallest, List.foldl_filterMap]
  congr 1
  funext bs e
  cases m.exprs[e]? <;> rfl

/-- A group is opened by asking what its members estimate, while it counts as being estimated. -/
theorem answer_of_unopened {best : Option Q} {after : Progress Q} (h : p.cache[m.reduceGroup asked]? = none)
    (hg : m.reduceGroup asked ∈ unopened)
    (hrun : (m.estimate model (m.reduceGroup asked)).run (answer m model (unopened.erase (m.reduceGroup asked)))
      { p with cutShort := false } = (best, after)) :
    answer m model unopened asked p = (best, conclude (m.reduceGroup asked) p.cutShort best after) := by
  rw [run_estimate] at hrun
  rw [answer]
  simp only [h, hg, dite_true]
  have hfold := congrArg (fun bs : Option Q × Progress Q =>
    (bs.1, conclude (m.reduceGroup asked) p.cutShort bs.1 bs.2)) hrun
  exact hfold

theorem answer_of_open (h : p.cache[m.reduceGroup asked]? = none) (hg : m.reduceGroup asked ∉ unopened) :
    answer m model unopened asked p =
      (none, { p with cutShort := p.cutShort || m.groups.contains (m.reduceGroup asked) }) := by
  rw [answer]
  simp only [h, hg, dite_false]

/-! ## Counts -/

section Counts

variable {known : RowCache Q} {n n' : Nat} {g : GroupId} {rows rows' : Option Q}

/-- The group has this count on `n` levels: it was known, or its query replies this where everything that it asks about
has a count on fewer levels. -/
inductive Counts (m : Memo Op Q) (model : CostModel Op Q) (known : RowCache Q) : Nat → GroupId → Option Q → Prop
  | kept {n : Nat} {g : GroupId} {rows : Q} (old : known[g]? = some rows) : Counts m model known n g (some rows)
  | found {n : Nat} {g : GroupId} {answers : GroupId → Option Q} (new : known[g]? = none)
      (below : ∀ h ∈ (m.estimate model g).asked answers, Counts m model known n (m.reduceGroup h) (answers h)) :
      Counts m model known (n + 1) g ((m.estimate model g).reply answers)

theorem Counts.mono (h : Counts m model known n g rows) (hn : n ≤ n') : Counts m model known n' g rows := by
  induction h generalizing n' with
  | kept old => exact .kept old
  | @found n g answers new _ ih =>
    obtain ⟨k, rfl⟩ : ∃ k, n' = k + 1 := ⟨n' - 1, by omega⟩
    exact .found new fun h hh => ih h hh (by omega)

/-- A group has one count at most. -/
theorem Counts.unique (h : Counts m model known n g rows) (h' : Counts m model known n' g rows') : rows = rows' := by
  induction h generalizing n' rows' with
  | kept old =>
    cases h' with
    | kept old' => rw [← old, ← old']
    | found new _ =>
      rw [old] at new
      cases new
  | found new _ ih =>
    cases h' with
    | kept old =>
      rw [old] at new
      cases new
    | found _ below' => exact (RowQuery.same_of_agree fun h hh hh' => ih h hh (below' h hh')).1

theorem estimate_of_dead (hg : m.reduceGroup g = g) (hdead : g ∉ m.groups) : m.estimate model g = .done none := by
  rw [Memo.estimate, Memo.members_eq_nil hg hdead]
  rfl

/-- What is not live has no members to ask. -/
theorem Counts.of_dead (new : known[g]? = none) (hg : m.reduceGroup g = g) (hdead : g ∉ m.groups) :
    Counts m model known 1 g none := by
  have hfound : Counts m model known (0 + 1) g ((m.estimate model g).reply fun _ => none) := by
    refine .found new ?_
    rw [estimate_of_dead hg hdead]
    exact fun _ hk => by cases hk
  rwa [estimate_of_dead hg hdead] at hfound

/-- The count of a group, if it has one. -/
noncomputable def count (m : Memo Op Q) (model : CostModel Op Q) (known : RowCache Q) (g : GroupId) : Option Q :=
  Classical.epsilon fun rows => ∃ n, Counts m model known n g rows

theorem Counts.count_eq (h : Counts m model known n g rows) : count m model known g = rows := by
  obtain ⟨n', h'⟩ : ∃ n', Counts m model known n' g (count m model known g) :=
    Classical.epsilon_spec (p := fun rows => ∃ n, Counts m model known n g rows) ⟨rows, n, h⟩
  exact h'.unique h

end Counts

/-! ## What is known in between -/

section Sound

variable {known : RowCache Q} {D : GroupId → Prop}

/-- The groups of `D` are counted from one another. -/
def Closed (m : Memo Op Q) (model : CostModel Op Q) (D : GroupId → Prop) : Prop :=
  ∀ g h, D g → m.MayRead model g h → D h

/-- What was known of the groups of `D` is still known, and what is known of them are counts. -/
structure Sound (m : Memo Op Q) (model : CostModel Op Q) (known : RowCache Q) (D : GroupId → Prop)
    (cache : RowCache Q) : Prop where
  keeps : ∀ (g : GroupId) (rows : Q), D g → known[g]? = some rows → cache[g]? = some rows
  counts : ∀ (g : GroupId) (rows : Q), D g → cache[g]? = some rows → ∃ n, Counts m model known n g (some rows)

theorem Sound.refl (m : Memo Op Q) (model : CostModel Op Q) (known : RowCache Q) (D : GroupId → Prop) :
    Sound m model known D known := ⟨fun _ _ _ => id, fun _ _ _ h => ⟨0, .kept h⟩⟩

theorem Sound.new {cache : RowCache Q} (h : Sound m model known D cache) {g : GroupId} (hg : D g)
    (hnew : cache[g]? = none) : known[g]? = none := by
  cases hold : known[g]? with
  | none => rfl
  | some rows => rw [← h.keeps g rows hg hold, hnew]

/-- A count becomes known, or the answer is not kept. -/
theorem Sound.conclude {g : GroupId} {before : Bool} {best : Option Q} (hp : Sound m model known D p.cache)
    (hnew : D g → known[g]? = none) (hbest : D g → p.cutShort = false → ∃ n, Counts m model known n g best) :
    Sound m model known D (conclude g before best p).cache := by
  unfold RowCount.conclude
  cases best with
  | none => exact hp
  | some rows =>
    cases hcut : p.cutShort with
    | true => exact hp
    | false =>
      constructor
      · intro h old hD hold
        simp only [Bool.false_eq_true, if_false]
        rw [Tables.getElem?_insert_eq]
        split
        · next heq =>
          subst heq
          rw [hnew hD] at hold
          cases hold
        · exact hp.keeps h old hD hold
      · intro h rows' hD hrows
        simp only [Bool.false_eq_true, if_false] at hrows
        rw [Tables.getElem?_insert_eq] at hrows
        split at hrows
        · next heq =>
          subst heq
          cases hrows
          exact hbest hD hcut
        · exact hp.counts h rows' hD hrows

/-- Answers keep what is known sound, and an answer about a group of `D` that is not cut short is its count. -/
structure Honest (m : Memo Op Q) (model : CostModel Op Q) (known : RowCache Q) (D : GroupId → Prop)
    (respond : GroupId → Progress Q → Option Q × Progress Q) : Prop where
  sound : ∀ (asked : GroupId) (p : Progress Q), Sound m model known D p.cache →
    Sound m model known D (respond asked p).2.cache
  counts : ∀ (asked : GroupId) (p : Progress Q), Sound m model known D p.cache → D (m.reduceGroup asked) →
    (respond asked p).2.cutShort = false →
    p.cutShort = false ∧ ∃ n, Counts m model known n (m.reduceGroup asked) (respond asked p).1

variable {respond : GroupId → Progress Q → Option Q × Progress Q}

/-- A query to which all answers are counts comes to its reply to them. -/
theorem Honest.run {α : Type} (h : Honest m model known D respond) {q : RowQuery Q α}
    (hq : ∀ asked, q.MayAsk asked → D (m.reduceGroup asked)) (hp : Sound m model known D p.cache)
    (hcut : (q.run respond p).2.cutShort = false) : p.cutShort = false ∧
      (q.run respond p).1 = q.reply (fun asked => count m model known (m.reduceGroup asked)) ∧
      ∃ n, ∀ asked ∈ q.asked (fun asked => count m model known (m.reduceGroup asked)),
        Counts m model known n (m.reduceGroup asked) (count m model known (m.reduceGroup asked)) := by
  induction q generalizing p with
  | done a => exact ⟨hcut, rfl, 0, fun _ hk => by cases hk⟩
  | ask g next ih =>
    obtain ⟨hcut₁, hreply, n, hbelow⟩ := ih _ (fun asked hasked => hq asked (.later _ hasked)) (h.sound g p hp) hcut
    obtain ⟨hcut₀, n₀, hcount⟩ := h.counts g p hp (hq g .first) hcut₁
    have hrows : (respond g p).1 = count m model known (m.reduceGroup g) := hcount.count_eq.symm
    rw [hrows] at hreply hbelow hcount
    refine ⟨hcut₀, ?_, max n n₀, ?_⟩
    · rw [RowQuery.run_ask, RowQuery.reply, ← hreply, ← hrows]
    · intro asked hasked
      rcases List.mem_cons.1 hasked with rfl | hasked
      · exact hcount.mono (Nat.le_max_right _ _)
      · exact (hbelow asked hasked).mono (Nat.le_max_left _ _)

theorem Closed.mayAsk (hD : Closed m model D) {g : GroupId} (hg : D g) {asked : GroupId}
    (h : (m.estimate model g).MayAsk asked) : D (m.reduceGroup asked) := hD g _ hg ⟨asked, h, rfl⟩

/-- However few groups are not yet being estimated, the answers are honest. -/
theorem honest_answer (hD : Closed m model D) (unopened : List GroupId) :
    Honest m model known D (answer m model unopened) := by
  -- the fewer groups are unopened, the fewer levels are left to ask on
  induction hn : unopened.length using Nat.strongRecOn generalizing unopened with
  | _ n ih =>
    suffices h : ∀ (asked : GroupId) (p : Progress Q), Sound m model known D p.cache →
        Sound m model known D (answer m model unopened asked p).2.cache ∧ (D (m.reduceGroup asked) →
          (answer m model unopened asked p).2.cutShort = false → p.cutShort = false ∧
            ∃ n, Counts m model known n (m.reduceGroup asked) (answer m model unopened asked p).1) from
      ⟨fun asked p hp => (h asked p hp).1, fun asked p hp => (h asked p hp).2⟩
    intro asked p hp
    generalize hg : m.reduceGroup asked = g
    cases hcached : p.cache[g]? with
    | some rows =>
      rw [answer_of_known (hg ▸ hcached)]
      exact ⟨hp, fun hDg hcut => ⟨hcut, hp.counts g rows hDg hcached⟩⟩
    | none =>
      by_cases hmem : g ∈ unopened
      · obtain ⟨⟨best, after⟩, hrun⟩ : ∃ r, (m.estimate model g).run (answer m model (unopened.erase g))
            { p with cutShort := false } = r := ⟨_, rfl⟩
        have hinner : Honest m model known D (answer m model (unopened.erase g)) :=
          ih _ (hn ▸ Memo.length_erase_lt hmem) _ rfl
        have hafter : Sound m model known D after.cache := by
          have hkept := RowQuery.run_invariant (fun p : Progress Q => Sound m model known D p.cache)
            (m.estimate model g) hinner.sound (s := { p with cutShort := false }) hp
          rwa [hrun] at hkept
        have hbest : D g → after.cutShort = false → ∃ n, Counts m model known n g best := fun hDg hcut => by
          obtain ⟨-, hreply, n, hbelow⟩ := hinner.run (fun _ => hD.mayAsk hDg) (p := { p with cutShort := false }) hp
            (by rw [hrun]; exact hcut)
          rw [hrun] at hreply
          refine ⟨n + 1, ?_⟩
          rw [show best = _ from hreply]
          exact .found (hp.new hDg hcached) hbelow
        rw [answer_of_unopened (hg ▸ hcached) (hg ▸ hmem) (hg ▸ hrun), hg]
        refine ⟨hafter.conclude (fun hDg => hp.new hDg hcached) hbest, fun hDg hcut => ?_⟩
        obtain ⟨hcut, hbefore⟩ := Bool.or_eq_false_iff.1 hcut
        exact ⟨hbefore, hbest hDg hcut⟩
      · rw [answer_of_open (hg ▸ hcached) (hg ▸ hmem), hg]
        refine ⟨hp, fun hDg hcut => ?_⟩
        obtain ⟨hcut, hlive⟩ := Bool.or_eq_false_iff.1 hcut
        have hdead : g ∉ m.groups := fun h => by
          rw [Std.TreeMap.contains_iff_mem.2 h] at hlive
          cases hlive
        exact ⟨hcut, 1, .of_dead (hp.new hDg hcached) (by rw [← hg, m.reduceGroup_reduceGroup]) hdead⟩

/-- Whatever of `D` has a count on `n` levels is unopened, or has no members. -/
def Ready (m : Memo Op Q) (model : CostModel Op Q) (known : RowCache Q) (D : GroupId → Prop)
    (unopened : List GroupId) (n : Nat) : Prop :=
  ∀ g rows, D g → Counts m model known n g rows → g ∈ unopened ∨ g ∉ m.groups

theorem Ready.mono {n n' : Nat} (h : Ready m model known D unopened n') (hn : n ≤ n') :
    Ready m model known D unopened n := fun g rows hD hg => h g rows hD (hg.mono hn)

/-- A group without a count on `n` levels is not needed for one. -/
theorem Ready.erase {n : Nat} {g : GroupId} (h : Ready m model known D unopened n)
    (hg : ∀ rows, ¬ Counts m model known n g rows) : Ready m model known D (unopened.erase g) n := by
  intro k rows hD hk
  have hne : k ≠ g := fun heq => hg rows (heq ▸ hk)
  exact (h k rows hD hk).imp_left fun hmem => (List.mem_erase_of_ne hne).2 hmem

/-- Where all answers that are counts are given, and none is cut short, a query comes to its reply. -/
theorem Honest.run_eq_reply {α : Type} (h : Honest m model known D respond) {n : Nat}
    (counted : ∀ (asked : GroupId) (p : Progress Q) (rows : Option Q), Sound m model known D p.cache →
      D (m.reduceGroup asked) → Counts m model known n (m.reduceGroup asked) rows →
      (respond asked p).1 = rows ∧ (respond asked p).2.cutShort = p.cutShort)
    {q : RowQuery Q α} {answers : GroupId → Option Q} (hp : Sound m model known D p.cache)
    (hq : ∀ asked, q.MayAsk asked → D (m.reduceGroup asked))
    (below : ∀ asked ∈ q.asked answers, Counts m model known n (m.reduceGroup asked) (answers asked)) :
    (q.run respond p).1 = q.reply answers ∧ (q.run respond p).2.cutShort = p.cutShort := by
  induction q generalizing p with
  | done a => exact ⟨rfl, rfl⟩
  | ask g next ih =>
    obtain ⟨hrows, hcut⟩ := counted g p _ hp (hq g .first) (below g List.mem_cons_self)
    obtain ⟨hreply, hcut'⟩ := ih (answers g) (h.sound g p hp) (fun k hk => hq k (.later _ hk))
      fun k hk => below k (List.mem_cons_of_mem _ hk)
    rw [RowQuery.run_ask, hrows]
    exact ⟨hreply, hcut'.trans hcut⟩

/-- The answer about a group that has a count is that count, and it is not cut short, where all that the count is made
from is unopened. -/
theorem answer_eq_count (hD : Closed m model D) {n : Nat} {rows : Option Q} (hp : Sound m model known D p.cache)
    (hg : D (m.reduceGroup asked)) (hcount : Counts m model known n (m.reduceGroup asked) rows)
    (hready : Ready m model known D unopened n) :
    (answer m model unopened asked p).1 = rows ∧ (answer m model unopened asked p).2.cutShort = p.cutShort := by
  induction n generalizing unopened asked p rows with
  | zero =>
    cases hcount with
    | kept old => rw [answer_of_known (hp.keeps _ _ hg old)]; exact ⟨rfl, rfl⟩
  | succ n ih =>
    -- the least number of levels is one on which the group is not needed for itself
    by_cases hless : ∃ rows', Counts m model known n (m.reduceGroup asked) rows'
    · obtain ⟨rows', hrows'⟩ := hless
      rw [hcount.unique hrows']
      exact ih hp hg hrows' (hready.mono (Nat.le_succ n))
    cases hcached : p.cache[m.reduceGroup asked]? with
    | some old =>
      obtain ⟨k, hk⟩ := hp.counts _ _ hg hcached
      rw [answer_of_known hcached]
      exact ⟨hk.unique hcount, rfl⟩
    | none =>
      cases hcount with
      | kept old =>
        rw [hp.keeps _ _ hg old] at hcached
        cases hcached
      | @found _ _ answers new below =>
        by_cases hmem : m.reduceGroup asked ∈ unopened
        · obtain ⟨⟨best, after⟩, hrun⟩ : ∃ r, (m.estimate model (m.reduceGroup asked)).run
              (answer m model (unopened.erase (m.reduceGroup asked))) { p with cutShort := false } = r := ⟨_, rfl⟩
          have hready' := (hready.mono (Nat.le_succ n)).erase fun rows h => hless ⟨rows, h⟩
          obtain ⟨hbest, hcut⟩ := (honest_answer hD (unopened.erase (m.reduceGroup asked))).run_eq_reply
            (fun _ _ _ hp hg hcount => ih hp hg hcount hready') (p := { p with cutShort := false }) hp
            (fun _ => hD.mayAsk hg) below
          rw [hrun] at hbest hcut
          rw [answer_of_unopened hcached hmem hrun]
          refine ⟨hbest, ?_⟩
          show (after.cutShort || p.cutShort) = p.cutShort
          rw [show after.cutShort = false from hcut, Bool.false_or]
        · have hdead := (hready _ _ hg (.found new below)).resolve_left hmem
          rw [answer_of_open hcached hmem, estimate_of_dead (m.reduceGroup_reduceGroup asked) hdead]
          refine ⟨rfl, ?_⟩
          have hlive : m.groups.contains (m.reduceGroup asked) = false :=
            Bool.eq_false_iff.2 fun h => hdead (Std.TreeMap.contains_iff_mem.1 h)
          show (p.cutShort || _) = _
          rw [hlive, Bool.or_false]

/-- Answers that do not depend on what is known come to the same in a query. -/
theorem Honest.run_agrees {α : Type} (h : Honest m model known D respond)
    (agree : ∀ (asked : GroupId) (p r : Progress Q), Sound m model known D p.cache → Sound m model known D r.cache →
      D (m.reduceGroup asked) → p.cutShort = r.cutShort →
      (respond asked p).1 = (respond asked r).1 ∧ (respond asked p).2.cutShort = (respond asked r).2.cutShort)
    {q : RowQuery Q α} {p r : Progress Q} (hp : Sound m model known D p.cache) (hr : Sound m model known D r.cache)
    (hq : ∀ asked, q.MayAsk asked → D (m.reduceGroup asked)) (hcut : p.cutShort = r.cutShort) :
    (q.run respond p).1 = (q.run respond r).1 ∧ (q.run respond p).2.cutShort = (q.run respond r).2.cutShort := by
  induction q generalizing p r with
  | done a => exact ⟨rfl, hcut⟩
  | ask g next ih =>
    obtain ⟨hrows, hcut'⟩ := agree g p r hp hr (hq g .first) hcut
    rw [RowQuery.run_ask, RowQuery.run_ask, ← hrows]
    exact ih _ (h.sound g p hp) (h.sound g r hr) (fun k hk => hq k (.later _ hk)) hcut'

/-- What is known does not bear on the answer, where all that has a count is unopened. -/
theorem answer_agrees (hD : Closed m model D) {r : Progress Q} (hp : Sound m model known D p.cache)
    (hr : Sound m model known D r.cache) (hg : D (m.reduceGroup asked)) (hcut : p.cutShort = r.cutShort)
    (hready : ∀ n, Ready m model known D unopened n) :
    (answer m model unopened asked p).1 = (answer m model unopened asked r).1 ∧
      (answer m model unopened asked p).2.cutShort = (answer m model unopened asked r).2.cutShort := by
  induction hn : unopened.length using Nat.strongRecOn generalizing unopened asked p r with
  | _ n ih =>
    by_cases hcounted : ∃ n rows, Counts m model known n (m.reduceGroup asked) rows
    · obtain ⟨k, rows, hcount⟩ := hcounted
      obtain ⟨h₁, h₂⟩ := answer_eq_count hD hp hg hcount (hready k)
      obtain ⟨h₁', h₂'⟩ := answer_eq_count hD hr hg hcount (hready k)
      exact ⟨h₁.trans h₁'.symm, h₂.trans (hcut.trans h₂'.symm)⟩
    have hnone : ∀ {cache : RowCache Q}, Sound m model known D cache → cache[m.reduceGroup asked]? = none := by
      intro cache hc
      cases hcached : cache[m.reduceGroup asked]? with
      | none => rfl
      | some rows =>
        obtain ⟨k, hk⟩ := hc.counts _ _ hg hcached
        exact (hcounted ⟨k, _, hk⟩).elim
    by_cases hmem : m.reduceGroup asked ∈ unopened
    · -- what is opened has no count, so all that has one is still unopened
      have hready' : ∀ n, Ready m model known D (unopened.erase (m.reduceGroup asked)) n := fun n =>
        (hready n).erase fun rows h => hcounted ⟨n, rows, h⟩
      obtain ⟨hbest, hcut'⟩ := (honest_answer hD (unopened.erase (m.reduceGroup asked))).run_agrees
        (fun asked p r hp hr hg hcut => ih _ (hn ▸ Memo.length_erase_lt hmem) hp hr hg hcut hready' rfl)
        (p := { p with cutShort := false }) (r := { r with cutShort := false }) hp hr (fun _ => hD.mayAsk hg) rfl
      rw [answer_of_unopened (hnone hp) hmem rfl, answer_of_unopened (hnone hr) hmem rfl]
      refine ⟨hbest, ?_⟩
      show (_ || p.cutShort) = (_ || r.cutShort)
      rw [hcut', hcut]
    · rw [answer_of_open (hnone hp) hmem, answer_of_open (hnone hr) hmem, hcut]
      exact ⟨rfl, rfl⟩

end Sound

end RowCount

/-! ## Whole queries -/

section Whole

open RowCount

variable {Op Q α : Type} [Quantity Q] {m : Memo Op Q} {model : CostModel Op Q} {known cache cache' : RowCache Q}
  {D : GroupId → Prop}

/-- When nothing is being estimated, everything live is unopened. -/
theorem RowCount.ready_groupIds (n : Nat) : Ready m model known D m.groupIds n := by
  intro g _ _ _
  by_cases h : g ∈ m.groups
  · exact .inl (Std.TreeMap.mem_keys.2 h)
  · exact .inr h

/-- A query keeps what is known sound. -/
theorem RowQuery.sound_eval (hD : Closed m model D) (hc : Sound m model known D cache) (q : RowQuery Q α) :
    Sound m model known D (q.eval m model cache).2 :=
  RowQuery.run_invariant (fun p : Progress Q => Sound m model known D p.cache) q (honest_answer hD _).sound
    (s := ⟨cache, false⟩) hc

theorem Memo.rowCount_eq_answer (m : Memo Op Q) (model : CostModel Op Q) (g : GroupId) (cache : RowCache Q) :
    (m.rowCount model g cache).1 = (answer m model m.groupIds g ⟨cache, false⟩).1 := rfl

/-- A group that has a count is answered with it. -/
theorem RowCount.Counts.rowCount_eq (hD : Closed m model D) (hc : Sound m model known D cache) {g : GroupId}
    (hg : D (m.reduceGroup g)) {n : Nat} {rows : Option Q} (h : Counts m model known n (m.reduceGroup g) rows) :
    (m.rowCount model g cache).1 = rows := by
  rw [m.rowCount_eq_answer]
  exact (answer_eq_count hD hc hg h (ready_groupIds n)).1

/-- What is known does not bear on what is answered. -/
theorem RowCount.Sound.rowCount_eq (hD : Closed m model D) (hc : Sound m model known D cache)
    (hc' : Sound m model known D cache') {g : GroupId} (hg : D (m.reduceGroup g)) :
    (m.rowCount model g cache).1 = (m.rowCount model g cache').1 := by
  rw [m.rowCount_eq_answer, m.rowCount_eq_answer]
  exact (answer_agrees (p := ⟨cache, false⟩) hD hc (r := ⟨cache', false⟩) hc' hg rfl ready_groupIds).1

theorem RowCount.closed_univ (m : Memo Op Q) (model : CostModel Op Q) : Closed m model fun _ => True :=
  fun _ _ _ _ => trivial

end Whole

end PlanSearch
