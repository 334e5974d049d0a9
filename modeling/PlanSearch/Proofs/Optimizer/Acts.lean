import PlanSearch.Proofs.Matching.Binds
import PlanSearch.Proofs.Memo.Heeds
import PlanSearch.Proofs.Optimizer.Success

/-!
# What an optimizer does

Settling, firing and seeding consist of acts of three kinds: the memo changes by one of its calls, a
match is put on the agenda that is a binding of an active rule, or something is noted that neither
depends on. What justifies that a plan joins a group is left open here, as `just`.

    Acts just o o' → o.memo.Orderly → o'.memo.Orderly                     (Acts.orderly)
    Acts just o o' → o.memo.Orderly →
      o.memo.outline.Evolves [] o'.memo.outline []                        (Acts.evolves)
-/

namespace PlanSearch

open Outline

namespace Agenda

/-- What was seen stays seen, and so is the match from now on. -/
theorem push_seen {a a' : Agenda} {x : Match} {priority : Int} {b : Bool}
    (h : a.push x priority = (a', b)) : ∀ k, k ∈ a'.seen ↔ k ∈ a.seen ∨ k = x.key := by
  intro k
  unfold push at h
  split at h
  · next hs =>
    cases h
    rw [Std.TreeSet.contains_iff_mem] at hs
    exact ⟨.inl, fun hk => hk.elim id fun e => e ▸ hs⟩
  · cases h
    rw [Std.TreeSet.mem_insert, Std.LawfulEqOrd.compare_eq_iff_eq]
    exact ⟨fun hk => hk.symm.imp_right Eq.symm, fun hk => hk.symm.imp_left Eq.symm⟩

/-- A match is accepted if it was not seen, and is then the youngest of those pending. -/
theorem push_accepted {a a' : Agenda} {x : Match} {priority : Int}
    (h : a.push x priority = (a', true)) :
    a'.pending = a.pending ++ [(priority, x)] ∧ x.key ∉ a.seen := by
  have hnew := (push_eq_true_iff a x priority).1 (by rw [h])
  unfold push at h
  split at h
  · cases h
  · cases h
    exact ⟨rfl, hnew⟩

end Agenda

namespace Optimizer

variable {Op Q : Type} [Operator Op] [Quantity Q]

/-! ## Acts -/

/-- What a plan joins which group for. -/
abbrev Just (Op Q : Type) := Memo Op Q → Plan Op → GroupId → Prop

/-- A change of the memo by a call that succeeds; a plan joins a group for a reason only. -/
inductive Change (just : Just Op Q) (m : Memo Op Q) : Memo Op Q → Prop
  | add {n : PlanNode Op} {answer : GroupId × ExprId} {m' : Memo Op Q}
      (ok : Memo.add n m = .ok answer m') : Change just m m'
  | request {r : SubGroupRef} {require : Bool} {answer : SubGroupId} {m' : Memo Op Q}
      (ok : Memo.ensureSubGroup r require m = .ok answer m') : Change just m m'
  | price {e : ExprId} {price : Price Q} {m' : Memo Op Q}
      (ok : Memo.recordPrice e price m = .ok m') : Change just m m'
  | join {p : Plan Op} {g : GroupId} {answer : Option ExprId} {m' : Memo Op Q} (reason : just m p g)
      (ok : Memo.addTo p g m = .ok answer m') : Change just m m'
  | enforce {n : PlanNode Op} {g : GroupId} {answer : Option ExprId} {m' : Memo Op Q}
      (reason : just m n.toPlan g) (ok : Memo.addEnforcer n g m = .ok answer m') : Change just m m'

theorem Change.call {just : Just Op Q} {m m' : Memo Op Q} (h : Change just m m') : m.Call m' := by
  cases h with
  | add ok => exact .add ok
  | request ok => exact .ensureSubGroup ok
  | price ok => exact .recordPrice ok
  | join _ ok => exact .addTo ok
  | enforce _ ok => exact .addEnforcer ok

/-- What settling and firing leave alone: the rules with their state, and what the call is about. -/
structure Frame (o o' : Optimizer Op Q) : Prop where
  rules : o'.rules = o.rules
  disabled : o'.disabled = o.disabled
  removed : o'.removed = o.removed
  triggers : o'.triggers = o.triggers
  root : o'.root = o.root
  seedPlan : o'.seedPlan = o.seedPlan
  budgetExhausted : o'.budgetExhausted = o.budgetExhausted

omit [Operator Op] [Quantity Q] in
theorem Frame.refl (o : Optimizer Op Q) : o.Frame o := ⟨rfl, rfl, rfl, rfl, rfl, rfl, rfl⟩

omit [Operator Op] [Quantity Q] in
theorem Frame.trans {o o' o'' : Optimizer Op Q} (h₁ : o.Frame o') (h₂ : o'.Frame o'') :
    o.Frame o'' where
  rules := h₂.rules.trans h₁.rules
  disabled := h₂.disabled.trans h₁.disabled
  removed := h₂.removed.trans h₁.removed
  triggers := h₂.triggers.trans h₁.triggers
  root := h₂.root.trans h₁.root
  seedPlan := h₂.seedPlan.trans h₁.seedPlan
  budgetExhausted := h₂.budgetExhausted.trans h₁.budgetExhausted

omit [Operator Op] [Quantity Q] in
theorem Frame.isActive {o o' : Optimizer Op Q} (h : o.Frame o') (id : Nat) :
    o'.isActive id = o.isActive id := by
  rw [Optimizer.isActive, Optimizer.isActive, h.disabled, h.removed]

section Idle

omit [Operator Op] [Quantity Q]

variable {o o' o'' : Optimizer Op Q}

/-- The memo, the agenda and what settling and firing leave alone are as they were. -/
structure Idle (o o' : Optimizer Op Q) : Prop where
  memo : o'.memo = o.memo
  agenda : o'.agenda = o.agenda
  frame : o.Frame o'

theorem Idle.trans (h₁ : o.Idle o') (h₂ : o'.Idle o'') : o.Idle o'' :=
  ⟨h₂.memo.trans h₁.memo, h₂.agenda.trans h₁.agenda, h₁.frame.trans h₂.frame⟩

/-- Events are noted beside everything else. -/
theorem idle_withEvent (o : Optimizer Op Q) (e : Event Q) : o.Idle (o.withEvent e) := by
  unfold withEvent
  split
  · exact ⟨rfl, rfl, rfl, rfl, rfl, rfl, rfl, rfl, rfl⟩
  · exact ⟨rfl, rfl, .refl o⟩

theorem idle_count (o : Optimizer Op Q) (stats : Stats) : o.Idle { o with stats := stats } :=
  ⟨rfl, rfl, rfl, rfl, rfl, rfl, rfl, rfl, rfl⟩

theorem idle_renewed (o : Optimizer Op Q) (c : Changes) : o.Idle (o.renewed c) := by
  unfold renewed
  split
  · exact ⟨rfl, rfl, .refl o⟩
  · exact ⟨rfl, rfl, rfl, rfl, rfl, rfl, rfl, rfl, rfl⟩

theorem idle_asked (o : Optimizer Op Q) (cache : RowCache Q) : o.Idle (o.asked cache) :=
  ⟨rfl, rfl, rfl, rfl, rfl, rfl, rfl, rfl, rfl⟩

theorem idle_attempting (o : Optimizer Op Q) (g : GroupId) (actual required : TraitSet) :
    o.Idle (o.attempting g actual required) :=
  ⟨rfl, rfl, rfl, rfl, rfl, rfl, rfl, rfl, rfl⟩

theorem idle_enforced (o : Optimizer Op Q) (g : GroupId) (actual required : TraitSet) (es : List ExprId) :
    o.Idle (o.enforced g actual required es) := (o.idle_count _).trans (idle_withEvent _ _)

theorem idle_firing (o : Optimizer Op Q) (rule : Nat) : o.Idle (o.firing rule) :=
  ⟨rfl, rfl, rfl, rfl, rfl, rfl, rfl, rfl, rfl⟩

end Idle

/-- Something is noted, or a binding of an active rule is put on the agenda. -/
inductive Find (o : Optimizer Op Q) : Optimizer Op Q → Prop
  | idle {o' : Optimizer Op Q} (memo : o'.memo = o.memo) (agenda : o'.agenda = o.agenda)
      (frame : o.Frame o') : Find o o'
  | push {id : Nat} {rule : Rule Op Q} {e : ExprId} {es : List ExprId} {agenda : Agenda}
      (known : o.rules[id]? = some rule) (active : o.isActive id = true)
      (binds : o.memo.outline.Binds rule.pattern e es)
      (pushed : o.agenda.push ⟨id, es⟩ rule.priority = (agenda, true)) :
      Find o { o with agenda := agenda }

/-- A find, or a change of the memo. -/
inductive Act (just : Just Op Q) (o : Optimizer Op Q) : Optimizer Op Q → Prop
  | find {o' : Optimizer Op Q} (find : o.Find o') : Act just o o'
  | change {m : Memo Op Q} (change : Change just o.memo m) : Act just o { o with memo := m }

/-- Any number of finds. -/
abbrev Finds : Optimizer Op Q → Optimizer Op Q → Prop := Relation.ReflTransGen Find

/-- Any number of acts. -/
abbrev Acts (just : Just Op Q) : Optimizer Op Q → Optimizer Op Q → Prop :=
  Relation.ReflTransGen (Act just)

section Acts

variable {just : Just Op Q} {o o' : Optimizer Op Q}

omit [Quantity Q] in
theorem Find.frame (h : o.Find o') : o.Frame o' := by
  cases h with
  | idle _ _ frame => exact frame
  | push => exact ⟨rfl, rfl, rfl, rfl, rfl, rfl, rfl⟩

omit [Quantity Q] in
theorem Find.memo_eq (h : o.Find o') : o'.memo = o.memo := by
  cases h with
  | idle memo _ _ => exact memo
  | push => rfl

omit [Quantity Q] in
theorem Finds.frame (h : o.Finds o') : o.Frame o' := by
  induction h with
  | refl => exact .refl o
  | tail _ hf ih => exact ih.trans hf.frame

omit [Quantity Q] in
theorem Finds.memo_eq (h : o.Finds o') : o'.memo = o.memo := by
  induction h with
  | refl => rfl
  | tail _ hf ih => exact hf.memo_eq.trans ih

omit [Quantity Q] in
theorem Find.seen (h : o.Find o') {k : List Nat} (hk : k ∈ o.agenda.seen) : k ∈ o'.agenda.seen := by
  cases h with
  | idle _ agenda _ => rw [agenda]; exact hk
  | push _ _ _ pushed => exact (Agenda.push_seen pushed k).2 (.inl hk)

omit [Quantity Q] in
theorem Finds.seen (h : o.Finds o') {k : List Nat} (hk : k ∈ o.agenda.seen) :
    k ∈ o'.agenda.seen := by
  induction h with
  | refl => exact hk
  | tail _ hf ih => exact hf.seen ih

theorem Finds.acts (h : o.Finds o') : o.Acts just o' := by
  induction h with
  | refl => exact .refl
  | tail _ hf ih => exact ih.tail (.find hf)

theorem Act.frame (h : o.Act just o') : o.Frame o' := by
  cases h with
  | find find => exact find.frame
  | change => exact ⟨rfl, rfl, rfl, rfl, rfl, rfl, rfl⟩

theorem Acts.frame (h : o.Acts just o') : o.Frame o' := by
  induction h with
  | refl => exact .refl o
  | tail _ ha ih => exact ih.trans ha.frame

theorem Acts.orderly (h : o.Acts just o') (ho : o.memo.Orderly) : o'.memo.Orderly := by
  induction h with
  | refl => exact ho
  | tail _ ha ih =>
    cases ha with
    | find find => rw [find.memo_eq]; exact ih
    | change change => exact change.call.orderly ih

theorem Acts.evolves (h : o.Acts just o') (ho : o.memo.Orderly) :
    o.memo.outline.Evolves [] o'.memo.outline [] := by
  induction h with
  | refl => exact .refl ho.ordered.tidy.sound.names
  | tail hs ha ih =>
    refine ih.trans ?_
    cases ha with
    | find find =>
      rw [find.memo_eq]
      exact .refl (Acts.orderly hs ho).ordered.tidy.sound.names
    | change change => exact change.call.evolves (Acts.orderly hs ho)

theorem Acts.registry_eq (h : o.Acts just o') : o'.memo.registry = o.memo.registry := by
  induction h with
  | refl => rfl
  | tail _ ha ih =>
    refine Eq.trans ?_ ih
    cases ha with
    | find find => rw [find.memo_eq]
    | change change => exact change.call.registry_eq

theorem Acts.reached (h : o.Acts just o') (ho : o.memo.Reached) : o'.memo.Reached := by
  induction h with
  | refl => exact ho
  | tail _ ha ih =>
    cases ha with
    | find find => rw [find.memo_eq]; exact ih
    | change change => exact .call ih change.call

theorem Acts.of_idle (h : o.Idle o') : o.Acts just o' := .single (.find (.idle h.memo h.agenda h.frame))

theorem Acts.of_change {m : Memo Op Q} (h : Change just o.memo m) :
    o.Acts just { o with memo := m } := .single (.change h)

end Acts

/-! ## Actions that consist of acts -/

/-- Where the action succeeds on a memo in order, it consists of acts. -/
def Leads {α : Type} (just : Just Op Q) (x : Action Op Q α) : Prop :=
  ∀ o a o', o.memo.Orderly → x o = .ok a o' → o.Acts just o'

section Leads

variable {just : Just Op Q}

theorem composes_acts : Action.Composes (fun o : Optimizer Op Q => o.memo.Orderly) (Acts just) where
  refl _ := .refl
  keeps ho ha := ha.orderly ho
  trans := .trans

theorem leads_record (e : Event Q) : Leads just (record e : Action Op Q Unit) := by
  intro o a o' _ h
  cases h
  exact .of_idle (idle_withEvent o e)

end Leads

end Optimizer

end PlanSearch
