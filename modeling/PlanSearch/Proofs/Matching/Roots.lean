import PlanSearch.Proofs.Memo.Integrity
import PlanSearch.Proofs.Memo.Lookups

/-!
# Which rules are tried, and from which roots

When an expression appears, the triggers say which rules are tried and how many levels above it, and the climb
through the readers says from which roots. Both answer with everything there is, nothing else, and nothing twice: a rule
and a depth for each operand of a rule in force that tests a kind and accepts the operator, and every live expression
that reads its way down to the expression in so many steps. Groups may read one another in circles, so one expression
can lie above another at many depths, and above itself.

    c ∈ (run calls).candidates op ↔ a rule in force has an operand for it      (TriggerIndex.mem_candidates_run)
    ((run calls).candidates op).Pairwise (Prod.Lex (· < ·) (· < ·))            (TriggerIndex.candidates_ascending)
    f ∈ es ↔ m.Descends d f (m.reduceExpr e), where m.ancestors e d = .ok es   (Memo.ancestors_descend)
-/

namespace PlanSearch

/-! ## Operands of a pattern -/

namespace Pattern

variable {Op : Type}

/-- The pattern has an operand so many levels below its root. -/
inductive OperandAt : Pattern Op → Nat → Pattern Op → Prop
  | root (p : Pattern Op) : OperandAt p 0 p
  | deeper {p input q : Pattern Op} {d : Nat} (read : input ∈ p.inputs) (rest : OperandAt input d q) :
      OperandAt p (d + 1) q

/-- All that a wildcard has is itself. -/
theorem OperandAt.eq_of_isWildcard {p q : Pattern Op} {d : Nat} (h : p.OperandAt d q) (hp : p.isWildcard = true) :
    q = p := by
  cases h with
  | root => rfl
  | deeper read =>
    cases p with
    | node => cases hp
    | any => cases read
    | anyMany => cases read

variable {d : Nat} {test : KindTest Op} {q : Pattern Op}

mutual

theorem mem_operandsFrom (k : Nat) : ∀ p : Pattern Op, (d, test, q) ∈ p.operandsFrom k ↔
    ∃ n, d = k + n ∧ p.OperandAt n q ∧ ∃ ps, q = .node test ps
  | .node t ps => by
    rw [operandsFrom, List.mem_cons, mem_operandsFromAll (k + 1) ps]
    constructor
    · rintro (heq | ⟨p, hp, n, rfl, hq, hnode⟩)
      · cases heq
        exact ⟨0, rfl, .root _, ps, rfl⟩
      · exact ⟨n + 1, by omega, .deeper hp hq, hnode⟩
    · rintro ⟨n, rfl, hq, qs, rfl⟩
      cases hq with
      | root => exact .inl rfl
      | deeper read rest => exact .inr ⟨_, read, _, by omega, rest, qs, rfl⟩
  | .any => by
    simp only [operandsFrom, List.not_mem_nil, false_iff]
    rintro ⟨n, -, hq, ps, rfl⟩
    cases hq.eq_of_isWildcard rfl
  | .anyMany => by
    simp only [operandsFrom, List.not_mem_nil, false_iff]
    rintro ⟨n, -, hq, ps, rfl⟩
    cases hq.eq_of_isWildcard rfl

theorem mem_operandsFromAll (k : Nat) : ∀ ps : List (Pattern Op), (d, test, q) ∈ operandsFromAll k ps ↔
    ∃ p ∈ ps, ∃ n, d = k + n ∧ p.OperandAt n q ∧ ∃ ps, q = .node test ps
  | [] => by simp [operandsFromAll]
  | p :: ps => by
    rw [operandsFromAll, List.mem_append, mem_operandsFrom k p, mem_operandsFromAll k ps, List.exists_mem_cons_iff]

end

/-- The listed operands are those that test a kind, at the depths where they stand. -/
theorem exists_mem_operands [Operator Op] {p : Pattern Op} {op : Op} :
    (∃ test q, (d, test, q) ∈ p.operands ∧ test.accepts op = true) ↔
      ∃ q, p.OperandAt d q ∧ q.isWildcard = false ∧ q.accepts op = true := by
  constructor
  · rintro ⟨test, q, hmem, haccepts⟩
    obtain ⟨n, rfl, hq, ps, rfl⟩ := (mem_operandsFrom 0 p).1 hmem
    exact ⟨.node test ps, (Nat.zero_add n).symm ▸ hq, rfl, haccepts⟩
  · rintro ⟨q, hq, hkind, haccepts⟩
    cases q with
    | node test ps => exact ⟨test, _, (mem_operandsFrom 0 p).2 ⟨d, (Nat.zero_add d).symm, hq, ps, rfl⟩, haccepts⟩
    | any => cases hkind
    | anyMany => cases hkind

end Pattern

/-! ## Rules in force -/

namespace TriggerIndex

variable {Op : Type}

/-- A change to the index: a rule comes in with its pattern, or goes out. -/
inductive Call (Op : Type) where
  | add (rule : Nat) (pattern : Pattern Op)
  | remove (rule : Nat)

/-- The index after a change. -/
def perform (t : TriggerIndex Op) : Call Op → TriggerIndex Op
  | .add rule p => t.add rule p
  | .remove rule => t.remove rule

/-- The index after changes to one without operands. -/
def run (calls : List (Call Op)) : TriggerIndex Op := calls.foldl perform empty

/-- The rule came in with the pattern, and has not gone out since. -/
def InForce (calls : List (Call Op)) (rule : Nat) (p : Pattern Op) : Prop :=
  ∃ before after, calls = before ++ .add rule p :: after ∧ .remove rule ∉ after

theorem not_inForce_nil {rule : Nat} {p : Pattern Op} : ¬ InForce [] rule p := by
  rintro ⟨before, after, h, -⟩
  simp at h

/-- The last change brings in the rule, or leaves in force what was. -/
theorem inForce_concat {calls : List (Call Op)} {call : Call Op} {rule : Nat} {p : Pattern Op} :
    InForce (calls ++ [call]) rule p ↔ InForce calls rule p ∧ call ≠ .remove rule ∨ call = .add rule p := by
  constructor
  · rintro ⟨before, after, h, hkept⟩
    rcases List.eq_nil_or_concat after with rfl | ⟨after, last, rfl⟩
    · obtain ⟨-, heq⟩ := List.append_inj' h rfl
      exact .inr (List.singleton_inj.1 heq)
    · rw [List.concat_eq_append, ← List.cons_append, ← List.append_assoc] at h
      obtain ⟨rfl, heq⟩ := List.append_inj' h rfl
      cases heq
      rw [List.concat_eq_append] at hkept
      simp only [List.mem_append, List.mem_singleton, not_or] at hkept
      exact .inl ⟨⟨before, after, rfl, hkept.1⟩, Ne.symm hkept.2⟩
  · rintro (⟨⟨before, after, rfl, hkept⟩, hcall⟩ | rfl)
    · refine ⟨before, after ++ [call], by simp, ?_⟩
      simp only [List.mem_append, List.mem_singleton, not_or]
      exact ⟨hkept, Ne.symm hcall⟩
    · exact ⟨calls, [], rfl, List.not_mem_nil⟩

variable [Operator Op]

/-- The candidates are the operands of the rules in force that accept the operator. -/
theorem mem_candidates_run (calls : List (Call Op)) {op : Op} {c : Nat × Nat} : c ∈ (run calls).candidates op ↔
    ∃ p, InForce calls c.1 p ∧ ∃ test q, (c.2, test, q) ∈ p.operands ∧ test.accepts op = true := by
  induction calls using List.reverseRecOn with
  | nil => simp [run, candidates_empty, not_inForce_nil]
  | append_singleton calls call ih =>
    have hrun : run (calls ++ [call]) = (run calls).perform call := List.foldl_concat _ _ _ _
    simp only [hrun, inForce_concat]
    cases call with
    | add rule p =>
      rw [perform, mem_candidates_add, ih]
      constructor
      · rintro (⟨p', hp', haccepts⟩ | ⟨rfl, haccepts⟩)
        · exact ⟨p', .inl ⟨hp', by simp⟩, haccepts⟩
        · exact ⟨p, .inr rfl, haccepts⟩
      · rintro ⟨p', ⟨hp', -⟩ | heq, haccepts⟩
        · exact .inl ⟨p', hp', haccepts⟩
        · cases heq
          exact .inr ⟨rfl, haccepts⟩
    | remove rule =>
      rw [perform, mem_candidates_remove, ih]
      constructor
      · rintro ⟨⟨p, hp, haccepts⟩, hother⟩
        exact ⟨p, .inl ⟨hp, fun heq => hother (Call.remove.inj heq).symm⟩, haccepts⟩
      · rintro ⟨p, ⟨hp, hother⟩ | heq, haccepts⟩
        · exact ⟨⟨p, hp, haccepts⟩, fun heq => hother (congrArg Call.remove heq.symm)⟩
        · cases heq

/-! ## Ascending order -/

section Ascending

variable {α : Type} [BEq α] [LawfulBEq α] {le lt : α → α → Prop}

/-- Repetitions stand side by side in an ascending list, so that nothing comes twice once they are gone. What the loop
has put aside lies strictly before what it holds. -/
theorem pairwise_eraseRepsBy_loop (hlt : ∀ {a b}, le a b → a ≠ b → lt a b)
    (htrans : ∀ {a b c}, lt a b → le b c → lt a c) : ∀ {as acc : List α} {a : α},
    (a :: as).Pairwise le → (acc.reverse ++ [a]).Pairwise lt →
      (List.eraseRepsBy.loop (· == ·) a as acc).Pairwise lt
  | [], acc, a, _, hacc => by
    rw [List.eraseRepsBy.loop, List.reverse_cons]
    exact hacc
  | a' :: as, acc, a, has, hacc => by
    obtain ⟨hfirst, hrest⟩ := List.pairwise_cons.1 has
    have hnext : le a a' := hfirst a' List.mem_cons_self
    unfold List.eraseRepsBy.loop
    split
    · next heq =>
      rw [← eq_of_beq heq] at hrest
      exact pairwise_eraseRepsBy_loop hlt htrans hrest hacc
    · next hne =>
      have hstep : lt a a' := hlt hnext (by simpa using hne)
      refine pairwise_eraseRepsBy_loop hlt htrans hrest ?_
      rw [List.reverse_cons, List.pairwise_append]
      refine ⟨hacc, List.pairwise_singleton _ _, fun b hb c hc => ?_⟩
      rw [List.mem_singleton.1 hc]
      rcases List.mem_append.1 hb with hb | hb
      · exact htrans ((List.pairwise_append.1 hacc).2.2 b hb a List.mem_cons_self) hnext
      · rw [List.mem_singleton.1 hb]
        exact hstep

end Ascending

theorem before_iff {a b : Nat × Nat} : before a b = true ↔ a.1 < b.1 ∨ a.1 = b.1 ∧ a.2 ≤ b.2 := by
  simp [before]

/-- Candidates come by rule and then by depth, each once. -/
theorem candidates_ascending (t : TriggerIndex Op) (op : Op) :
    (t.candidates op).Pairwise (Prod.Lex (· < ·) (· < ·)) := by
  have hsorted : ((t.found op).mergeSort before).Pairwise fun a b => before a b = true :=
    List.pairwise_mergeSort (fun a b c => by simp only [before_iff]; omega)
      (fun a b => by simp only [Bool.or_eq_true, before_iff]; omega) _
  unfold candidates
  cases h : (t.found op).mergeSort before with
  | nil => exact List.Pairwise.nil
  | cons a as =>
    refine pairwise_eraseRepsBy_loop (fun {a b} hle hne => ?_) (fun {a b c} hlt hle => ?_) (h ▸ hsorted)
      (List.pairwise_singleton _ a)
    · rw [Prod.lex_def]
      rw [Ne, Prod.ext_iff] at hne
      rw [before_iff] at hle
      omega
    · rw [Prod.lex_def] at hlt ⊢
      rw [before_iff] at hle
      omega

end TriggerIndex

/-! ## Descents -/

namespace Memo

variable {Op Q : Type} {m : Memo Op Q} {n : Nat} {e f : ExprId}

/-- The live expression `f` reads a group that contains `e`. -/
def ReadsGroupOf (m : Memo Op Q) (f e : ExprId) : Prop :=
  ∃ entry, m.exprs[f]? = some entry ∧ ∃ r ∈ entry.expr.inputs, e ∈ m.members r.group

/-- So many steps lead from one expression down to another. -/
inductive Descends (m : Memo Op Q) : Nat → ExprId → ExprId → Prop
  | stay (e : ExprId) : Descends m 0 e e
  | read {n : Nat} {f g e : ExprId} (reads : m.ReadsGroupOf f g) (rest : Descends m n g e) : Descends m (n + 1) f e

theorem readsGroupOf_iff (hs : m.outline.Sound) : m.ReadsGroupOf f e ↔ m.outline.ReadsFrom f e := by
  constructor
  · rintro ⟨entry, hentry, r, hr, he⟩
    obtain ⟨y, hy⟩ := (mem_members hs).1 he
    have hx : m.outline.entry f = some (entry.expr, entry.group) := by
      rw [outline_entry, hentry]
      rfl
    exact ⟨_, _, y, _, hx, hy, r, hr, rfl⟩
  · rintro ⟨x, k, y, g, hx, hy, r, hr, rfl⟩
    obtain ⟨entry, hentry, rfl, -⟩ := exists_entry hx
    exact ⟨entry, hentry, r, hr, (mem_members hs).2 ⟨y, hy⟩⟩

/-- One more step at the bottom. -/
theorem Descends.bottom {g : ExprId} (h : m.Descends n f g) (hr : m.ReadsGroupOf g e) : m.Descends (n + 1) f e := by
  induction h with
  | stay g => exact .read hr (.stay e)
  | read reads _ ih => exact .read reads (ih hr)

/-- What is climbed to is what descends. -/
theorem descends_iff (hs : m.outline.Sound) : m.Descends n f e ↔ m.outline.Above n e f := by
  constructor
  · intro h
    induction h with
    | stay e => exact .here e
    | read reads _ ih => exact ih.top ((readsGroupOf_iff hs).1 reads)
  · intro h
    induction h with
    | here e => exact .stay e
    | up reads _ ih => exact ih.bottom ((readsGroupOf_iff hs).2 reads)

/-- The ancestors of a name that was given out are the live expressions that descend to what it stands for. -/
theorem ancestors_descend (ht : m.outline.Tidy) (he : m.KnowsExpr e) (d : Nat) : ∃ es, m.ancestors e d = .ok es ∧
    es.Nodup ∧ ∀ f, f ∈ es ↔ f ∈ m.exprs ∧ m.Descends d f (m.reduceExpr e) := by
  obtain ⟨x, g, hx⟩ := he.live ht
  have hsome : (m.outline.entry (m.reduceExpr e)).isSome := Option.isSome_iff_exists.2 ⟨(x, g), hx⟩
  obtain ⟨es, hes, hlive, hnd, hall⟩ := ancestors_spec ht.sound hsome d
  refine ⟨es, hes, hnd, fun f => ?_⟩
  rw [descends_iff ht.sound, ← hall f]
  exact ⟨fun hf => ⟨(isSome_entry_iff m f).1 (hlive f hf), hf⟩, And.right⟩

end Memo

/-! ## Rules and roots -/

section Exact

variable {Op Q : Type} [Operator Op] [Quantity Q]

/-- Whatever rules came in and went out, the candidates for an operator are in strictly ascending order, and they are
the rules and depths at which a rule that came in and has not gone out since has an operand that tests a kind and accepts
the operator. In every memo that calls have led to, the ancestors of an expression are, each once, the live expressions
from which so many steps lead down to what it stands for. -/
theorem candidates_and_ancestors_exact :
    (∀ (calls : List (TriggerIndex.Call Op)) (op : Op),
      ((TriggerIndex.run calls).candidates op).Pairwise (Prod.Lex (· < ·) (· < ·)) ∧
      ∀ rule depth, (rule, depth) ∈ (TriggerIndex.run calls).candidates op ↔
        ∃ p, TriggerIndex.InForce calls rule p ∧
          ∃ q, p.OperandAt depth q ∧ q.isWildcard = false ∧ q.accepts op = true) ∧
    ∀ m : Memo Op Q, m.Reached → ∀ e, m.KnowsExpr e → ∀ d, ∃ es, m.ancestors e d = .ok es ∧ es.Nodup ∧
      ∀ f, f ∈ es ↔ f ∈ m.exprs ∧ m.Descends d f (m.reduceExpr e) := by
  refine ⟨fun calls op => ⟨TriggerIndex.candidates_ascending _ op, fun rule depth => ?_⟩, fun m hm e he d => ?_⟩
  · rw [TriggerIndex.mem_candidates_run]
    exact exists_congr fun p => and_congr_right fun _ => Pattern.exists_mem_operands
  · exact Memo.ancestors_descend hm.attempted.tidy he d

end Exact

section SmallHost

open SmallHost Relational TriggerIndex

/-- A join of joins, any scan, and any logical operator; that for scans goes out again. -/
def shuffled : List (Call Kind) :=
  [.add 5 (.node (.exactly (.join "")) [.node (.exactly (.join "")) [.any, .any], .any]),
    .add 0 (.node (.variant (Operator.variant Kind.scan)) []),
    .add 2 (.node (.holding "logical" Kind.isLogical) [.anyMany]),
    .remove 0]

/-- A table, a filter over it, the same filter over the filter, and another filter on top. -/
def refiltered : Memo Kind Nat :=
  (Memo.empty orders [] .keepIncumbent : Memo Kind Nat)
    |>.after (Memo.add (bare .scan (some (.i64 1)) []))
    |>.after (Memo.add (Memo.reading .filter (some (.i64 2)) ⟨1⟩))
    |>.after (Memo.add (Memo.reading .filter (some (.i64 2)) ⟨4⟩))
    |>.after (Memo.add (Memo.reading .filter (some (.i64 1)) ⟨7⟩))

/-- The first filter turns out to change nothing. The second becomes one with it, and it reads its own group. -/
def looped : Memo Kind Nat := (Memo.mergeRounds 6 refiltered [(⟨1⟩, ⟨4⟩)]).getD refiltered

theorem looped_reached : looped.Reached := by
  have hempty : (Memo.empty orders [] .keepIncumbent : Memo Kind Nat).Reached := .empty _ _ _
  have hbefore : refiltered.Reached :=
    (((hempty.after fun _ _ => .add).after fun _ _ => .add).after fun _ _ => .add).after fun _ _ => .add
  exact hbefore.merged 6 ⟨1⟩ ⟨4⟩

set_option maxRecDepth 100000 in
theorem looped_ancestors : ((looped.exprAlias.find? ⟨6⟩).isSome, looped.reduceExpr ⟨6⟩, looped.ancestors ⟨6⟩ 3) =
    (true, ⟨3⟩, .ok [⟨3⟩, ⟨9⟩]) := by
  cbv

/-- The join is tried by itself and for the operand below another join. The filter that was dropped lies above itself,
by way of the filter that it was dropped for, and so does the filter on top. -/
theorem shuffled_looped :
    (run shuffled).candidates (.join "") = [(2, 0), (5, 0), (5, 1)] ∧
    (∃ p, InForce shuffled 5 p ∧ ∃ q, p.OperandAt 1 q ∧ q.isWildcard = false ∧ q.accepts (.join "") = true) ∧
    looped.Reached ∧ looped.reduceExpr ⟨6⟩ = ⟨3⟩ ∧ looped.ancestors ⟨6⟩ 3 = .ok [⟨3⟩, ⟨9⟩] ∧
    looped.Descends 3 ⟨3⟩ ⟨3⟩ ∧ looped.Descends 3 ⟨9⟩ ⟨3⟩ := by
  obtain ⟨hcandidates, hancestors⟩ := @candidates_and_ancestors_exact Kind Nat _ _
  obtain ⟨-, hmem⟩ := hcandidates shuffled (.join "")
  have hjoin : (run shuffled).candidates (.join "") = [(2, 0), (5, 0), (5, 1)] := by cbv
  obtain ⟨hknown, h⟩ := Prod.mk.inj looped_ancestors
  obtain ⟨hreduce, hread⟩ := Prod.mk.inj h
  obtain ⟨es, hes, -, hall⟩ := hancestors looped looped_reached ⟨6⟩ hknown 3
  cases hread.symm.trans hes
  rw [hreduce] at hall
  exact ⟨hjoin, (hmem 5 1).1 (by rw [hjoin]; decide), looped_reached, hreduce, hread,
    ((hall ⟨3⟩).1 (by decide)).2, ((hall ⟨9⟩).1 (by decide)).2⟩

end SmallHost

end PlanSearch
