import PlanSearch.Proofs.Memo.RowCounts

/-!
# Row counts that are asked for one after the other

`RowCount.answer` is told which groups are not yet being estimated, and they get fewer at every level. Here a question
is answered from the groups that are being estimated, whatever their number: one that is met again cuts the answer
short, any other is opened, and what its members estimate from is asked in turn. A question has an answer by these steps
if answering it comes to an end. It has exactly one, on cyclic groups also, and this is the one that is computed.

    the groups not in u are being estimated → (a question is answered by r ↔ answer u comes to r)        (answers_iff)
    questions share what becomes known → each is answered as if it were the only one               (answered_together)
-/

namespace PlanSearch

namespace RowCount

section Shares

variable {Op Q : Type} {m : Memo Op Q} {opened unopened : List GroupId}

/-- The live groups are shared out between those that are being estimated and those that are not. -/
structure Shares (m : Memo Op Q) (opened unopened : List GroupId) : Prop where
  live : ∀ g ∈ opened, g ∈ m.groups
  nodup : unopened.Nodup
  mem_unopened : ∀ g, g ∈ unopened ↔ g ∈ m.groups ∧ g ∉ opened

theorem shares_groupIds (m : Memo Op Q) : Shares m [] m.groupIds where
  live _ h := by cases h
  nodup := Std.TreeMap.nodup_keys
  mem_unopened _ := Std.TreeMap.mem_keys.trans (and_iff_left List.not_mem_nil).symm

theorem Shares.opens (h : Shares m opened unopened) {g : GroupId} (hg : g ∈ unopened) :
    Shares m (g :: opened) (unopened.erase g) where
  live := List.forall_mem_cons.2 ⟨((h.mem_unopened g).1 hg).1, h.live⟩
  nodup := h.nodup.erase g
  mem_unopened k := by
    rw [h.nodup.mem_erase_iff, h.mem_unopened, List.mem_cons, not_or]
    exact ⟨fun ⟨hne, hlive, hnew⟩ => ⟨hlive, hne, hnew⟩, fun ⟨hlive, hne, hnew⟩ => ⟨hne, hlive, hnew⟩⟩

end Shares

variable {Op Q : Type} [Quantity Q]

mutual

/-- The question is answered with `rows` while the groups of `opened` are being estimated. -/
inductive Answers (m : Memo Op Q) (model : CostModel Op Q) :
    List GroupId → GroupId → Progress Q → Option Q → Progress Q → Prop
  | known {opened : List GroupId} {asked : GroupId} {p : Progress Q} {rows : Q}
      (old : p.cache[m.reduceGroup asked]? = some rows) : Answers m model opened asked p (some rows) p
  | again {opened : List GroupId} {asked : GroupId} {p : Progress Q} (new : p.cache[m.reduceGroup asked]? = none)
      (met : m.reduceGroup asked ∈ opened) : Answers m model opened asked p none { p with cutShort := true }
  | opens {opened : List GroupId} {asked : GroupId} {p after : Progress Q} {best : Option Q}
      (new : p.cache[m.reduceGroup asked]? = none) (unmet : m.reduceGroup asked ∉ opened)
      (below : Replies m model (m.reduceGroup asked :: opened) (m.estimate model (m.reduceGroup asked))
        { p with cutShort := false } best after) :
      Answers m model opened asked p best (conclude (m.reduceGroup asked) p.cutShort best after)

/-- The questions of the query are answered one after the other, and it comes to `rows`. -/
inductive Replies (m : Memo Op Q) (model : CostModel Op Q) :
    List GroupId → RowQuery Q (Option Q) → Progress Q → Option Q → Progress Q → Prop
  | done {opened : List GroupId} {rows : Option Q} {p : Progress Q} : Replies m model opened (.done rows) p rows p
  | ask {opened : List GroupId} {g : GroupId} {next : Option Q → RowQuery Q (Option Q)} {p p' after : Progress Q}
      {reply rows : Option Q} (first : Answers m model opened g p reply p')
      (rest : Replies m model opened (next reply) p' rows after) : Replies m model opened (.ask g next) p rows after

end

/-- Questions are answered one after the other, each from what the ones before it made known. -/
inductive Asked (m : Memo Op Q) (model : CostModel Op Q) : List GroupId → RowCache Q → List (Option Q) → Prop
  | nil {cache : RowCache Q} : Asked m model [] cache []
  | cons {g : GroupId} {gs : List GroupId} {cache : RowCache Q} {rows : Option Q} {after : Progress Q}
      {answers : List (Option Q)} (first : Answers m model [] g ⟨cache, false⟩ rows after)
      (rest : Asked m model gs after.cache answers) : Asked m model (g :: gs) cache (rows :: answers)

variable {m : Memo Op Q} {model : CostModel Op Q} {opened unopened : List GroupId} {asked : GroupId}
  {p p' : Progress Q} {rows : Option Q} {cache known : RowCache Q}

/-- Where each question has one answer, so has a query. -/
theorem replies_iff {respond : GroupId → Progress Q → Option Q × Progress Q}
    (h : ∀ asked p rows p', Answers m model opened asked p rows p' ↔ respond asked p = (rows, p'))
    (q : RowQuery Q (Option Q)) (p : Progress Q) :
    Replies m model opened q p rows p' ↔ q.run respond p = (rows, p') := by
  induction q generalizing p with
  | done a =>
    constructor
    · rintro ⟨⟩
      rfl
    · rintro ⟨⟩
      exact .done
  | ask g next ih =>
    rw [RowQuery.run_ask]
    constructor
    · rintro (_ | ⟨first, rest⟩)
      rw [(h _ _ _ _).1 first]
      exact (ih _ _).1 rest
    · intro hrun
      exact .ask ((h _ _ _ _).2 rfl) ((ih _ _).2 hrun)

/-! ## What answers there are -/

theorem answers_of_known {old : Q} (hold : p.cache[m.reduceGroup asked]? = some old) :
    Answers m model opened asked p rows p' ↔ (some old, p) = (rows, p') := by
  constructor
  · rintro (old | ⟨new, -⟩ | ⟨new, -, -⟩)
    · rw [← hold, old]
    all_goals
      rw [hold] at new
      cases new
  · rintro ⟨⟩
    exact .known hold

theorem answers_of_met (hnew : p.cache[m.reduceGroup asked]? = none) (hmet : m.reduceGroup asked ∈ opened) :
    Answers m model opened asked p rows p' ↔ (none, { p with cutShort := true }) = (rows, p') := by
  constructor
  · rintro (old | _ | ⟨-, unmet, -⟩)
    · rw [hnew] at old
      cases old
    · rfl
    · exact (unmet hmet).elim
  · rintro ⟨⟩
    exact .again hnew hmet

theorem answers_of_unmet (hnew : p.cache[m.reduceGroup asked]? = none) (hmet : m.reduceGroup asked ∉ opened) :
    Answers m model opened asked p rows p' ↔ ∃ after, Replies m model (m.reduceGroup asked :: opened)
      (m.estimate model (m.reduceGroup asked)) { p with cutShort := false } rows after ∧
      conclude (m.reduceGroup asked) p.cutShort rows after = p' := by
  constructor
  · rintro (old | ⟨-, met⟩ | ⟨-, -, below⟩)
    · rw [hnew] at old
      cases old
    · exact (hmet met).elim
    · exact ⟨_, below, rfl⟩
  · rintro ⟨after, below, rfl⟩
    exact .opens hnew hmet below

/-- A question is answered in one way, and this is how `answer` answers it. -/
theorem answers_iff (h : Shares m opened unopened) :
    Answers m model opened asked p rows p' ↔ answer m model unopened asked p = (rows, p') := by
  -- the more groups are being estimated, the fewer are left to open
  induction hn : unopened.length using Nat.strongRecOn generalizing opened unopened asked p rows p' with
  | _ n ih =>
    cases hcached : p.cache[m.reduceGroup asked]? with
    | some old => rw [answers_of_known hcached, answer_of_known hcached]
    | none =>
      by_cases hmet : m.reduceGroup asked ∈ opened
      · have hlive : m.groups.contains (m.reduceGroup asked) = true := Std.TreeMap.contains_iff_mem.2 (h.live _ hmet)
        rw [answers_of_met hcached hmet, answer_of_open hcached fun hg => ((h.mem_unopened _).1 hg).2 hmet, hlive,
          Bool.or_true]
      rw [answers_of_unmet hcached hmet]
      by_cases hmem : m.reduceGroup asked ∈ unopened
      · obtain ⟨⟨best, after⟩, hrun⟩ : ∃ r, (m.estimate model (m.reduceGroup asked)).run
            (answer m model (unopened.erase (m.reduceGroup asked))) { p with cutShort := false } = r := ⟨_, rfl⟩
        rw [answer_of_unopened hcached hmem hrun]
        have hreplies (rows : Option Q) (after' : Progress Q) : Replies m model (m.reduceGroup asked :: opened)
            (m.estimate model (m.reduceGroup asked)) { p with cutShort := false } rows after' ↔
              (best, after) = (rows, after') := by
          rw [← hrun]
          exact replies_iff (fun _ _ _ _ => ih _ (hn ▸ Memo.length_erase_lt hmem) (h.opens hmem) rfl) _ _
        constructor
        · rintro ⟨after', hreply, rfl⟩
          cases (hreplies _ _).1 hreply
          rfl
        · rintro ⟨⟩
          exact ⟨after, (hreplies _ _).2 rfl, rfl⟩
      · -- a name that is not live has no members, so it is neither opened nor asked about again
        have hdead : m.reduceGroup asked ∉ m.groups := fun hlive => hmem ((h.mem_unopened _).2 ⟨hlive, hmet⟩)
        have hempty : m.groups.contains (m.reduceGroup asked) = false :=
          Bool.eq_false_iff.2 fun hlive => hdead (Std.TreeMap.contains_iff_mem.1 hlive)
        rw [estimate_of_dead (m.reduceGroup_reduceGroup asked) hdead, answer_of_open hcached hmem, hempty,
          Bool.or_false]
        constructor
        · rintro ⟨after, ⟨⟩, rfl⟩
          exact congrArg (fun cut => (none, (⟨p.cache, cut⟩ : Progress Q))) (Bool.false_or p.cutShort).symm
        · rintro ⟨⟩
          exact ⟨_, .done, congrArg (Progress.mk p.cache) (Bool.false_or p.cutShort)⟩

/-! ## Questions one after the other -/

/-- Answering one question keeps what is known sound. -/
theorem Answers.sound (h : Answers m model [] asked ⟨cache, false⟩ rows p')
    (hc : Sound m model known (fun _ => True) cache) : Sound m model known (fun _ => True) p'.cache := by
  have hsound := (honest_answer (closed_univ m model) m.groupIds).sound asked ⟨cache, false⟩ hc
  rwa [(answers_iff (shares_groupIds m)).1 h] at hsound

/-- Where only counts are known beforehand, every question is answered as if nothing were. -/
theorem asked_iff (hc : Sound m model known (fun _ => True) cache) (gs : List GroupId) (answers : List (Option Q)) :
    Asked m model gs cache answers ↔ answers = gs.map fun g => (m.rowCount model g known).1 := by
  induction gs generalizing cache answers with
  | nil =>
    constructor
    · rintro ⟨⟩
      rfl
    · rintro rfl
      exact .nil
  | cons g gs ih =>
    obtain ⟨⟨rows, after⟩, hanswer⟩ : ∃ r, answer m model m.groupIds g ⟨cache, false⟩ = r := ⟨_, rfl⟩
    have hfirst := (answers_iff (shares_groupIds m)).2 hanswer
    have hrows : rows = (m.rowCount model g known).1 := by
      rw [← Sound.rowCount_eq (closed_univ m model) hc (.refl m model known _) trivial, m.rowCount_eq_answer, hanswer]
    have hrest (answers : List (Option Q)) := ih (hfirst.sound hc) answers
    constructor
    · rintro (_ | ⟨first, rest⟩)
      cases hanswer.symm.trans ((answers_iff (shares_groupIds m)).1 first)
      rw [(hrest _).1 rest, hrows, List.map_cons]
    · rintro rfl
      rw [List.map_cons, ← hrows]
      exact .cons hfirst ((hrest _).2 rfl)

/-- Every question comes to an end with one answer, whatever is known, which is the computed one. And where questions
are asked one after the other, nothing being known in the beginning, each is answered as if it were the only one. -/
theorem answered_together (m : Memo Op Q) (model : CostModel Op Q) :
    (∀ g cache, ∃ after, (∀ rows p', Answers m model [] g ⟨cache, false⟩ rows p' ↔
      (rows, p') = ((m.rowCount model g cache).1, after)) ∧ after.cache = (m.rowCount model g cache).2) ∧
    ∀ gs answers, Asked m model gs ∅ answers ↔ answers = gs.map fun g => (m.rowCount model g ∅).1 := by
  constructor
  · intro g cache
    refine ⟨(answer m model m.groupIds g ⟨cache, false⟩).2, fun rows p' => ?_, rfl⟩
    rw [m.rowCount_eq_answer, answers_iff (shares_groupIds m), eq_comm]
  · exact fun gs answers => asked_iff (.refl m model ∅ _) gs answers

end RowCount

end PlanSearch
