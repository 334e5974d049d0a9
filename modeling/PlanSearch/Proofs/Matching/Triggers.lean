import PlanSearch.Proofs.Matching.Binds
import PlanSearch.Trigger

/-!
# Where a binding is found from

Every expression of a binding lies below its root, as deep as the operand that it is bound to, and
passes the test of that operand. So the binding is found from each of its expressions: the triggers
name rule and depth, and the root is among the ancestors at that depth.

    o.Binds p root es → e ∈ es → ∃ d test q, (d, test, q) ∈ p.operands ∧ o.Above d e root ∧ …
                                                                          (Binds.operand)
    m.ancestors e d = .ok roots, and root ∈ roots ↔ m.outline.Above d e root (ancestors_spec)
-/

namespace PlanSearch

namespace Outline

variable {Op : Type}

/-- The expression `f` reads the group of the expression `e`. -/
def ReadsFrom (o : Outline Op) (f e : ExprId) : Prop :=
  ∃ x k y g, o.entry f = some (x, k) ∧ o.entry e = some (y, g) ∧ ∃ r ∈ x.inputs, o.reduce r.group = g

theorem ReadsFrom.isSome {o : Outline Op} {f e : ExprId} (h : o.ReadsFrom f e) :
    (o.entry f).isSome := by
  obtain ⟨x, k, y, g, hx, -⟩ := h
  rw [hx]; rfl

/-- The expression `root` is so many levels above `e`. -/
inductive Above (o : Outline Op) : Nat → ExprId → ExprId → Prop
  | here (e : ExprId) : Above o 0 e e
  | up {n : Nat} {e f root : ExprId} (reads : o.ReadsFrom f e) (rest : Above o n f root) :
      Above o (n + 1) e root

/-- One more level at the top. -/
theorem Above.top {o : Outline Op} {n : Nat} {e f root : ExprId} (h : o.Above n e f)
    (hr : o.ReadsFrom root f) : o.Above (n + 1) e root := by
  induction h with
  | here e => exact .up hr (.here root)
  | up reads _ ih => exact .up reads (ih hr)

/-! ## Operands -/

variable [Operator Op] {o : Outline Op}

/-- The expression passes the test. -/
def Passes (o : Outline Op) (e : ExprId) (test : KindTest Op) : Prop :=
  ∃ x g, o.entry e = some (x, g) ∧ test.accepts x.op = true

mutual

/-- The depths are counted from `k`, that of the root. -/
theorem Binds.operandFrom (k : Nat) {p : Pattern Op} {root e : ExprId} {es : List ExprId}
    (hp : p.isWildcard = false) (he : e ∈ es) : o.Binds p root es →
    ∃ d test q, (k + d, test, q) ∈ p.operandsFrom k ∧ o.Above d e root ∧ o.Passes e test
  | .leaf wild _ _ => by rw [hp] at wild; cases wild
  | @Binds.node _ _ _ test ps _ x _ _ known accepts fits below => by
    rcases List.mem_cons.1 he with rfl | he
    · exact ⟨0, test, _, List.mem_cons_self, .here _, x, _, known, accepts⟩
    · obtain ⟨d, test', q, c, y, r, hq, hd, hr, hc, hpass⟩ := below.operandFrom (k + 1) he
      refine ⟨d + 1, test', q, List.mem_cons_of_mem _ ?_, ?_, hpass⟩
      · rw [show k + (d + 1) = k + 1 + d by omega]
        exact hq
      · exact hd.top ⟨x, _, y, _, known, hc, r, hr, rfl⟩

theorem BindsAll.operandFrom (k : Nat) {ps : List (Pattern Op)} {rs : List SubGroupRef} {e : ExprId}
    {es : List ExprId} (he : e ∈ es) : o.BindsAll ps rs es →
    ∃ d test q c y r, (k + d, test, q) ∈ Pattern.operandsFromAll k ps ∧ o.Above d e c ∧ r ∈ rs ∧
      o.entry c = some (y, o.reduce r.group) ∧ o.Passes e test
  | .nil => by cases he
  | .many => by cases he
  | .any rest => by
    obtain ⟨d, test, q, c, y, r, hq, hd, hr, hc⟩ := rest.operandFrom k he
    exact ⟨d, test, q, c, y, r, List.mem_append_right _ hq, hd, List.mem_of_mem_drop hr, hc⟩
  | .node (r := r) (e := c) (y := y) member first rest => by
    rcases List.mem_append.1 he with he | he
    · obtain ⟨d, test, q, hq, hd, hpass⟩ := first.operandFrom k rfl he
      exact ⟨d, test, q, c, y, r, List.mem_append_left _ hq, hd, List.mem_cons_self, member, hpass⟩
    · obtain ⟨d, test, q, c, y, r, hq, hd, hr, hc⟩ := rest.operandFrom k he
      exact ⟨d, test, q, c, y, r, List.mem_append_right _ hq, hd, List.mem_cons_of_mem _ hr, hc⟩

end

/-- An expression of a binding lies as far below the root as the operand that it is bound to. -/
theorem Binds.operand {p : Pattern Op} {root e : ExprId} {es : List ExprId}
    (h : o.Binds p root es) (hp : p.isWildcard = false) (he : e ∈ es) :
    ∃ d test q, (d, test, q) ∈ p.operands ∧ o.Above d e root ∧ o.Passes e test := by
  obtain ⟨d, test, q, hq, hd, hpass⟩ := h.operandFrom 0 hp he
  exact ⟨d, test, q, by rw [Nat.zero_add] at hq; exact hq, hd, hpass⟩

end Outline

/-! ## Ancestors -/

namespace Memo

variable {Op Q : Type} {m : Memo Op Q}

open Outline

/-- The readers of the group of a live expression. -/
theorem parents_spec (hs : m.outline.Sound) {e : ExprId} (he : (m.outline.entry e).isSome) :
    ∃ fs, (do
      let group ← m.liveGroup (← m.groupOf e)
      return group.parents.toList : Except Failure (List ExprId)) = .ok fs ∧
      ∀ f, f ∈ fs ↔ m.outline.ReadsFrom f e := by
  obtain ⟨⟨y, g⟩, hy⟩ := Option.isSome_iff_exists.1 he
  obtain ⟨entry, hentry, hp⟩ := Option.map_eq_some_iff.1 (m.outline_entry e ▸ hy)
  cases hp
  have hhome := hs.places.home _ _ _ hy
  obtain ⟨c, hc⟩ := Option.isSome_iff_exists.1 hhome
  obtain ⟨group, hgroup, rfl⟩ := Option.map_eq_some_iff.1 (m.outline_group entry.group ▸ hc)
  have hread : m.groupOf e = .ok entry.group := by
    unfold groupOf getEntry
    rw [show m.reduceExpr e = e from hs.names.reduceExpr_of_live he, hentry]
    exact congrArg Except.ok (hs.names.reduce_of_live hhome)
  refine ⟨group.parents.toList, ?_, fun f => ?_⟩
  · rw [hread]
    show (m.liveGroup entry.group >>= fun group => pure group.parents.toList) = _
    rw [liveGroup, hgroup]
    rfl
  · rw [Std.TreeSet.mem_toList]
    refine (hs.places.parents _ _ hc f).trans ⟨?_, ?_⟩
    · rintro ⟨x, k, hx, r, hr, hk⟩
      exact ⟨x, k, _, _, hx, hy, r, hr, hk⟩
    · rintro ⟨x, k, y', g', hx, hy', r, hr, hk⟩
      rw [hy] at hy'
      cases hy'
      exact ⟨x, k, hx, r, hr, hk⟩

theorem nodup_eraseDups {α : Type} [BEq α] [LawfulBEq α] : ∀ xs : List α, xs.eraseDups.Nodup
  | [] => by simp
  | x :: xs => by
    have hshorter : (xs.filter fun y => !y == x).length < xs.length + 1 :=
      Nat.lt_succ_of_le (List.length_filter_le _ _)
    rw [List.eraseDups_cons, List.nodup_cons]
    exact ⟨by simp [List.mem_eraseDups], nodup_eraseDups _⟩
termination_by xs => xs.length

theorem readersOf_spec (hs : m.outline.Sound) {es : List ExprId} (hes : ∀ e ∈ es, (m.outline.entry e).isSome) :
    ∃ fs, m.readersOf es = .ok fs ∧ fs.Nodup ∧ ∀ f, f ∈ fs ↔ ∃ e ∈ es, m.outline.ReadsFrom f e := by
  obtain ⟨found, hfound, hmem⟩ := mapM_flatten es fun e he => parents_spec hs (hes e he)
  refine ⟨found.flatten.eraseDups, ?_, nodup_eraseDups _, fun f => by rw [List.mem_eraseDups, hmem]⟩
  simp only [readersOf, hfound]
  rfl

/-- The climb from a level of live expressions meets live expressions only, and exactly those that are so
many levels above, each once. -/
theorem above_spec (hs : m.outline.Sound) : ∀ (n : Nat) {es : List ExprId},
    (∀ e ∈ es, (m.outline.entry e).isSome) → es.Nodup → ∃ roots, ancestors.above m n es = .ok roots ∧
      (∀ root ∈ roots, (m.outline.entry root).isSome) ∧ roots.Nodup ∧
      ∀ root, root ∈ roots ↔ ∃ e ∈ es, m.outline.Above n e root
  | 0, es, hes, hnd => by
    refine ⟨es, rfl, hes, hnd, fun root => ⟨fun hroot => ⟨root, hroot, .here root⟩, ?_⟩⟩
    rintro ⟨e, he, ha⟩
    cases ha
    exact he
  | n + 1, es, hes, _ => by
    obtain ⟨fs, hfs, hfsnd, hmem⟩ := readersOf_spec hs hes
    have hlevel : ∀ f ∈ fs, (m.outline.entry f).isSome := fun f hf => by
      obtain ⟨e, -, hr⟩ := (hmem f).1 hf
      exact hr.isSome
    obtain ⟨roots, hroots, hlive, hnd, hall⟩ := above_spec hs n hlevel hfsnd
    refine ⟨roots, ?_, hlive, hnd, fun root => (hall root).trans ⟨?_, ?_⟩⟩
    · rw [ancestors.above, hfs]
      exact hroots
    · rintro ⟨f, hf, rest⟩
      obtain ⟨e, he, reads⟩ := (hmem f).1 hf
      exact ⟨e, he, .up reads rest⟩
    · rintro ⟨e, he, ha⟩
      cases ha with
      | up reads rest => exact ⟨_, (hmem _).2 ⟨e, he, reads⟩, rest⟩

/-- The ancestors of a name that stands for a live expression. -/
theorem ancestors_spec (hs : m.outline.Sound) {e : ExprId} (he : (m.outline.entry (m.reduceExpr e)).isSome)
    (n : Nat) : ∃ roots, m.ancestors e n = .ok roots ∧ (∀ root ∈ roots, (m.outline.entry root).isSome) ∧
      roots.Nodup ∧ ∀ root, root ∈ roots ↔ m.outline.Above n (m.reduceExpr e) root := by
  have hlevel : ∀ e' ∈ [m.reduceExpr e], (m.outline.entry e').isSome := fun e' he' => by
    rw [List.mem_singleton.1 he']
    exact he
  obtain ⟨roots, hroots, hlive, hnd, hall⟩ := above_spec hs n hlevel (by simp)
  refine ⟨roots, hroots, hlive, hnd, fun root => (hall root).trans ?_⟩
  simp only [List.mem_singleton, exists_eq_left]

end Memo

/-! ## Candidates -/

namespace TriggerIndex

variable {Op : Type} [Operator Op]

theorem mem_eraseRepsBy_loop {α : Type} [BEq α] [LawfulBEq α] {a b : α} : ∀ {as acc : List α},
    b ∈ List.eraseRepsBy.loop (· == ·) a as acc ↔ b = a ∨ b ∈ as ∨ b ∈ acc
  | [], acc => by simp [List.eraseRepsBy.loop, or_comm]
  | a' :: as, acc => by
    unfold List.eraseRepsBy.loop
    split
    · next h =>
      rw [mem_eraseRepsBy_loop, eq_of_beq h, List.mem_cons]
      grind
    · rw [mem_eraseRepsBy_loop, List.mem_cons, List.mem_cons]
      grind

theorem mem_eraseReps {α : Type} [BEq α] [LawfulBEq α] {b : α} {as : List α} :
    b ∈ as.eraseReps ↔ b ∈ as := by
  cases as with
  | nil => exact Iff.rfl
  | cons a as =>
    show b ∈ List.eraseRepsBy.loop (· == ·) a as [] ↔ _
    rw [mem_eraseRepsBy_loop]
    simp

theorem mem_candidates {t : TriggerIndex Op} {op : Op} {c : Nat × Nat} : c ∈ t.candidates op ↔ c ∈ t.found op := by
  rw [candidates, mem_eraseReps, List.mem_mergeSort]

theorem candidates_empty (op : Op) : (empty : TriggerIndex Op).candidates op = [] := by
  have hnone : (empty : TriggerIndex Op).found op = [] := rfl
  rw [candidates, hnone, List.mergeSort_nil]
  rfl

/-- What is entered is found under every operator that it accepts. -/
theorem mem_candidates_enter {t : TriggerIndex Op} {x : Trigger Op} {op : Op} {c : Nat × Nat} :
    c ∈ (t.enter x).candidates op ↔ c ∈ t.candidates op ∨ c = (x.rule, x.depth) ∧ x.test.accepts op = true := by
  obtain ⟨rule, depth, test⟩ := x
  rw [mem_candidates, mem_candidates]
  cases test <;> simp [found, enter, KindTest.accepts, List.filter_append, List.filter_cons] <;> grind

/-- Of a rule that comes in, the operands that accept the operator are found besides what was found before. -/
theorem mem_candidates_add {t : TriggerIndex Op} {rule : Nat} {p : Pattern Op} {op : Op} {c : Nat × Nat} :
    c ∈ (t.add rule p).candidates op ↔ c ∈ t.candidates op ∨
      c.1 = rule ∧ ∃ test q, (c.2, test, q) ∈ p.operands ∧ test.accepts op = true := by
  have key : ∀ (xs : List (Nat × KindTest Op × Pattern Op)) (t : TriggerIndex Op),
      c ∈ (xs.foldl (fun t x => t.enter ⟨rule, x.1, x.2.1⟩) t).candidates op ↔
        c ∈ t.candidates op ∨ c.1 = rule ∧ ∃ test q, (c.2, test, q) ∈ xs ∧ test.accepts op = true := by
    intro xs
    induction xs with
    | nil => simp
    | cons x xs ih =>
      intro t
      obtain ⟨depth, test, q⟩ := x
      rw [List.foldl_cons, ih, mem_candidates_enter, or_assoc]
      refine or_congr_right ?_
      constructor
      · rintro (⟨rfl, ha⟩ | ⟨hc, test', q', hmem, ha⟩)
        · exact ⟨rfl, test, q, List.mem_cons_self, ha⟩
        · exact ⟨hc, test', q', List.mem_cons_of_mem _ hmem, ha⟩
      · rintro ⟨hc, test', q', hmem, ha⟩
        rcases List.mem_cons.1 hmem with heq | hmem
        · cases heq
          exact .inl ⟨Prod.ext hc rfl, ha⟩
        · exact .inr ⟨hc, test', q', hmem, ha⟩
  exact key p.operands t

/-- Of a rule that goes out, nothing is found any more, and of the others what was found before. -/
theorem mem_candidates_remove {t : TriggerIndex Op} {rule : Nat} {op : Op} {c : Nat × Nat} :
    c ∈ (t.remove rule).candidates op ↔ c ∈ t.candidates op ∧ c.1 ≠ rule := by
  rw [mem_candidates, mem_candidates]
  simp [found, remove, List.filter_filter]
  grind

end TriggerIndex

end PlanSearch
