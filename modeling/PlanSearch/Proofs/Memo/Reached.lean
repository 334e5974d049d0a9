import PlanSearch.Proofs.Memo.Insertion

/-!
# Reached memos

A memo is reached from an empty one by any calls that succeed: plans are added, on their own, as
members of a group or as enforcers, sub groups are asked for, prices are recorded, groups are merged,
and the changes are taken. Every reached memo is in order, and what an old name stands for is carried
along by every call.

    Reached m → m.Orderly                        (Reached.orderly)
    m.Orderly → m.Call m' → m.outline.Evolves [] m'.outline []       (Call.evolves)
-/

namespace PlanSearch

open Outline

namespace Memo

variable {Op Q : Type} [Operator Op] [Quantity Q]

/-- A call on a memo that succeeds. -/
inductive Call (m : Memo Op Q) : Memo Op Q → Prop
  | add {n : PlanNode Op} {answer : GroupId × ExprId} {m' : Memo Op Q}
      (ok : add n m = .ok answer m') : Call m m'
  | addTo {p : Plan Op} {g : GroupId} {answer : Option ExprId} {m' : Memo Op Q}
      (ok : addTo p g m = .ok answer m') : Call m m'
  | addEnforcer {n : PlanNode Op} {g : GroupId} {answer : Option ExprId} {m' : Memo Op Q}
      (ok : addEnforcer n g m = .ok answer m') : Call m m'
  | ensureSubGroup {r : SubGroupRef} {require : Bool} {answer : SubGroupId} {m' : Memo Op Q}
      (ok : ensureSubGroup r require m = .ok answer m') : Call m m'
  | recordPrice {e : ExprId} {price : Price Q} {m' : Memo Op Q}
      (ok : recordPrice e price m = .ok m') : Call m m'
  | merge {a b : GroupId} {m' : Memo Op Q} (ok : merge a b m = .ok () m') : Call m m'
  | forgetChanges : Call m m.forgetChanges

/-- A memo that calls lead to, from one without expressions. -/
inductive Reached : Memo Op Q → Prop
  | empty (registry : Registry Op) (factRules : List (FactRule Op)) (tieBreak : TieBreak) :
      Reached (.empty registry factRules tieBreak)
  | call {m m' : Memo Op Q} (before : Reached m) (call : m.Call m') : Reached m'

/-- The memo is in order, with no merge pending and no group without members. -/
structure Orderly (m : Memo Op Q) : Prop where
  ordered : m.Ordered []
  filled : m.outline.Filled

variable {m m' : Memo Op Q}

omit [Operator Op] [Quantity Q] in
theorem orderly_empty (registry : Registry Op) (factRules : List (FactRule Op)) (tieBreak : TieBreak) :
    (empty registry factRules tieBreak : Memo Op Q).Orderly := by
  have hr : ∀ {k : Named} (i : Ident k), (Partition.empty : Partition (Ident k)).find? i = none :=
    fun i => by rw [Partition.find?_eq_none_iff]; simp [Partition.empty]
  refine ⟨⟨.of_none (fun g => by simp [outline, empty]) (fun s => by simp [outline, empty])
    (fun e => by simp [outline, empty]) hr hr hr, fun s g e h => by simp [crowns, empty] at h, rfl⟩,
    fun g c h => by simp [outline, empty] at h⟩

/-- What every call does: it keeps the order, and names go on standing for what they stood for. -/
theorem Call.step (h : m.Call m') (hm : m.Orderly) :
    m'.Orderly ∧ m.outline.Evolves [] m'.outline [] := by
  have ht := hm.ordered.tidy
  cases h with
  | add ok =>
    obtain ⟨hg, hm', -⟩ := add_stands hm.ordered ok
    exact ⟨⟨hm', hg.filled ht hm.filled⟩, hg.evolves ht⟩
  | addTo ok =>
    obtain ⟨hj, hm'⟩ := addTo_joins hm.ordered ok
    exact ⟨⟨hm', hj.filled ht hm.filled⟩, hj.evolves ht⟩
  | addEnforcer ok =>
    obtain ⟨hj, hm'⟩ := addNodeTo_joins hm.ordered ok
    exact ⟨⟨hm', hj.filled ht hm.filled⟩, hj.evolves ht⟩
  | ensureSubGroup ok =>
    obtain ⟨hg, -, hm'⟩ := ensureSubGroup_grown hm.ordered ok
    exact ⟨⟨hm', hg.filled ht hm.filled⟩, hg.evolves ht⟩
  | recordPrice ok =>
    have hout := outline_recordPrice ok
    exact ⟨⟨recordPrice_ordered hm.ordered ok, hout ▸ hm.filled⟩, by
      rw [hout]; exact .refl ht.sound.names⟩
  | merge ok =>
    obtain ⟨hmerges, hm'⟩ := merge_merges hm.ordered ok
    have he := hmerges.evolves ht
    exact ⟨⟨hm', hmerges.filled ht hm.filled⟩, he.group, he.expr, he.entry, fun _ hp => by cases hp⟩
  | forgetChanges =>
    have he : m.outline.Evolves [] m.forgetChanges.outline [] := ht.evolves_forget
    exact ⟨⟨⟨ht.forget, hm.ordered.crowned.of_same he rfl, hm.ordered.counted⟩, hm.filled⟩, he⟩

theorem Call.orderly (h : m.Call m') (hm : m.Orderly) : m'.Orderly := (h.step hm).1

theorem Call.evolves (h : m.Call m') (hm : m.Orderly) : m.outline.Evolves [] m'.outline [] :=
  (h.step hm).2

theorem Reached.orderly (h : Reached m) : m.Orderly := by
  induction h with
  | empty => exact orderly_empty _ _ _
  | call _ call ih => exact call.orderly ih

/-! ## Running calls -/

/-- The memo after a call; where the call fails, the memo before it. -/
def after {α : Type} (m : Memo Op Q) (call : Update Op Q α) : Memo Op Q :=
  match call m with
  | .ok _ m' => m'
  | .error _ _ => m

theorem Reached.after {α : Type} {call : Update Op Q α} (h : Reached m)
    (hc : ∀ answer m', call m = .ok answer m' → m.Call m') : Reached (m.after call) := by
  unfold Memo.after
  split
  · next ok => exact .call h (hc _ _ ok)
  · exact h

theorem Reached.price (h : Reached m) (e : ExprId) (p : Price Q) :
    (m.after (Update.step (recordPrice e p))).Reached := by
  refine h.after fun _ m' ok => ?_
  unfold Update.step at ok
  split at ok
  · next hok => cases ok; exact .recordPrice hok
  · cases ok

/-- What `mergeAll` comes to, if so many merges are enough and all of them succeed. -/
def mergeRounds : Nat → Memo Op Q → List (GroupId × GroupId) → Option (Memo Op Q)
  | 0, _, _ => none
  | rounds + 1, m, pending =>
    match pending.dropWhile fun p => m.reduceGroup p.1 = m.reduceGroup p.2 with
    | [] => some m
    | p :: rest =>
      match mergePair (m.reduceGroup p.1) (m.reduceGroup p.2) m with
      | .error _ => none
      | .ok (m', more) => mergeRounds rounds m' (rest ++ more)

theorem mergeAll_of_mergeRounds : ∀ {rounds : Nat} {m : Memo Op Q} {pending : List (GroupId × GroupId)},
    mergeRounds rounds m pending = some m' → mergeAll m pending = .ok () m'
  | 0, _, _, h => by cases h
  | rounds + 1, m, pending, h => by
    rw [mergeRounds] at h
    rw [mergeAll]
    cases hp : pending.dropWhile fun p => m.reduceGroup p.1 = m.reduceGroup p.2 with
    | nil =>
      simp only [hp] at h
      cases h
      rfl
    | cons p rest =>
      simp only [hp] at h
      dsimp only
      split
      · next hpair =>
        rw [hpair] at h
        cases h
      · next hpair =>
        rw [hpair] at h
        exact mergeAll_of_mergeRounds h

theorem Reached.merged (h : Reached m) (rounds : Nat) (a b : GroupId) :
    Reached ((mergeRounds rounds m [(a, b)]).getD m) := by
  cases hm : mergeRounds rounds m [(a, b)] with
  | none => exact h
  | some m' => exact .call h (.merge (mergeAll_of_mergeRounds hm))

/-- A merge that can be computed in so many rounds, if they are enough. -/
theorem merge_eq_rounds (rounds : Nat) (a b : GroupId) : (merge a b : Update Op Q Unit) = fun m =>
    match mergeRounds rounds m [(a, b)] with
    | some m' => .ok () m'
    | none => mergeAll m [(a, b)] := by
  funext m
  cases h : mergeRounds rounds m [(a, b)] with
  | none => rfl
  | some m' => exact mergeAll_of_mergeRounds h

end Memo

end PlanSearch
