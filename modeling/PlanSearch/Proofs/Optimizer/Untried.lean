import PlanSearch.Proofs.Memo.Stock
import PlanSearch.Proofs.Optimizer.Errands

/-!
# Attempts run out

An attempt at a conversion is made once for a group and two trait sets. All of these are in stock, and what enforcers
bring up is in stock too. So there are finitely many attempts that can be made at all, and whenever one is made, there
is one less.

    p ∉ tried → k.untried (tried ++ [p]) ⊂ k.untried tried                               (Stock.untried_append)
    addEnforcers g o = .ok () o' → o.Stocked k → o'.Stocked k ∧ o.Narrows k o'          (Stocked.addEnforcers)
-/

namespace PlanSearch

open Outline

namespace Stock

variable {k : Stock} {tried : List (GroupId × TraitSet × TraitSet)}

/-- The attempts that are not among those made, with trait sets in canonical form. -/
def untried (k : Stock) (tried : List (GroupId × TraitSet × TraitSet)) : Set (GroupId × TraitSet × TraitSet) :=
  {p | p ∈ k.groups ×ˢ k.kinds ×ˢ k.kinds ∧ ∀ q ∈ tried, (q.1, q.2.1.canon, q.2.2.canon) ≠ p}

theorem finite_untried (k : Stock) (tried : List (GroupId × TraitSet × TraitSet)) : (k.untried tried).Finite :=
  (k.finite_groups.prod (k.finite_kinds.prod k.finite_kinds)).subset fun _ hp => hp.1

/-- With an attempt made that was not made before, there is one less. -/
theorem untried_append {g : GroupId} {a r : TraitSet} (hg : g ∈ k.groups) (ha : k.Has a) (hr : k.Has r)
    (hnew : ∀ q ∈ tried, ¬ (q.1 = g ∧ q.2.1.Same a ∧ q.2.2.Same r)) :
    k.untried (tried ++ [(g, a, r)]) ⊂ k.untried tried := by
  refine Set.ssubset_iff_exists.2 ⟨fun p hp => ⟨hp.1, fun q hq => hp.2 q (List.mem_append_left _ hq)⟩,
    (g, a.canon, r.canon), ⟨⟨hg, ⟨a, ha, rfl⟩, ⟨r, hr, rfl⟩⟩, fun q hq heq => hnew q hq ?_⟩, fun hp => ?_⟩
  · obtain ⟨hg, heq⟩ := Prod.mk.inj heq
    obtain ⟨ha, hr⟩ := Prod.mk.inj heq
    exact ⟨hg, ha, hr⟩
  · exact hp.2 (g, a, r) (List.mem_append_right _ (List.mem_singleton_self _)) rfl

end Stock

/-- Only elements of a list are left when those that agree are taken for one. -/
theorem mem_of_mem_eraseDupsBy {α : Type} {r : α → α → Bool} {as : List α} {a : α} (ha : a ∈ as.eraseDupsBy r) :
    a ∈ as := by
  have hloop : ∀ (as bs : List α), a ∈ List.eraseDupsBy.loop r as bs → a ∈ as ∨ a ∈ bs := by
    intro as
    induction as with
    | nil => exact fun bs h => .inr (List.mem_reverse.1 h)
    | cons a' as ih =>
      intro bs h
      rw [List.eraseDupsBy.loop] at h
      split at h
      · exact (ih bs h).imp (List.mem_cons_of_mem _) id
      · rcases ih (a' :: bs) h with hmem | hmem
        · exact .inl (List.mem_cons_of_mem _ hmem)
        · rcases List.mem_cons.1 hmem with rfl | hmem
          · exact .inl List.mem_cons_self
          · exact .inr hmem
  exact (hloop as [] ha).resolve_right List.not_mem_nil

namespace Optimizer

variable {Op Q : Type} {o o' o'' : Optimizer Op Q} {k : Stock}

/-- The memo is in order, and all groups and traits are in stock. -/
structure Stocked (k : Stock) (o : Optimizer Op Q) : Prop where
  orderly : o.memo.Orderly
  outline : o.memo.outline.Stocked k

theorem Stocked.unmoved (h : o.Stocked k) (hu : o.Unmoved o') : o'.Stocked k :=
  ⟨hu.memo ▸ h.orderly, hu.memo ▸ h.outline⟩

/-- Nothing was attempted and the memo is as it was, or there are fewer attempts left. -/
def Narrows (k : Stock) (o o' : Optimizer Op Q) : Prop :=
  o'.memo = o.memo ∧ o'.attempted = o.attempted ∨ k.untried o'.attempted ⊂ k.untried o.attempted

theorem Narrows.refl (k : Stock) (o : Optimizer Op Q) : o.Narrows k o := .inl ⟨rfl, rfl⟩

theorem Narrows.trans (h₁ : o.Narrows k o') (h₂ : o'.Narrows k o'') : o.Narrows k o'' := by
  rcases h₂ with ⟨hmemo, hattempted⟩ | hlt
  · unfold Narrows
    rw [hmemo, hattempted]
    exact h₁
  · rcases h₁ with ⟨-, hattempted⟩ | hlt'
    · exact .inr (hattempted ▸ hlt)
    · exact .inr (hlt.trans hlt')

/-! ## What is delivered and required -/

/-- What sub groups require is in stock. -/
theorem has_of_requiredOf {m : Memo Op Q} (hk : m.outline.Stocked k) {g : GroupId} {required : List TraitSet}
    (h : requiredOf m g = .ok required) {t : TraitSet} (ht : t ∈ required) : k.Has t := by
  obtain ⟨subs, hsubs, h⟩ := bind_eq_ok h
  cases h
  obtain ⟨sub, hmem, rfl⟩ := List.mem_map.1 ht
  obtain ⟨s, -, hsub⟩ := (mem_of_mapM_eq_ok hsubs).1 (List.mem_filter.1 hmem).1
  refine hk.sub (m.reduceSubGroup s) sub.ref ?_
  rw [Memo.outline_sub, Memo.liveSubGroup_eq_ok hsub]
  rfl

variable [Operator Op]

/-- What members deliver is in stock. -/
theorem has_of_deliveredBy {m : Memo Op Q} (hk : m.outline.Stocked k) {g : GroupId} {delivered : List TraitSet}
    (h : deliveredBy m g = .ok delivered) {t : TraitSet} (ht : t ∈ delivered) : k.Has t := by
  obtain ⟨exprs, hexprs, h⟩ := bind_eq_ok h
  cases h
  obtain ⟨x, hmem, rfl⟩ := List.mem_map.1 (mem_of_mem_eraseDupsBy ht)
  obtain ⟨e, -, hx⟩ := (mem_of_mapM_eq_ok hexprs).1 (List.mem_filter.1 hmem).1
  obtain ⟨entry, hentry, hx⟩ := bind_eq_ok hx
  cases hx
  exact hk.entry _ _ _ (Memo.outline_entry_of (Memo.getEntry_eq_ok hentry))

variable [Quantity Q]

/-! ## Enforcers -/

/-- A chain along traits in stock stays in stock. -/
theorem Stocked.addChain {g : GroupId} {rowType : RowType} : ∀ {ls : List (Leg Op)} {o o' : Optimizer Op Q}
    {es : List ExprId}, o.Stocked k → (∀ l ∈ ls, k.Has l.source ∧ k.Has l.target) →
    addChain g (ls.map (Leg.node g rowType)) o = .ok es o' → o'.Stocked k ∧ o'.attempted = o.attempted
  | [], o, o', es, h, hls, ok => by
    obtain ⟨-, rfl⟩ := run_pure_eq_ok ok
    exact ⟨h, rfl⟩
  | l :: ls, o, o', es, h, hls, ok => by
    obtain ⟨e, m, es', hm, h₂, -⟩ := addChain_cons_eq_ok ok
    obtain ⟨hl, hls⟩ := List.forall_mem_cons.1 hls
    have hprecedes := (Change.enforce trivial hm : Change Freely _ _).precedes h.orderly
    have hfirst : Stocked k { o with memo := m } :=
      ⟨hprecedes.orderly, Memo.addEnforcer_stocked h.orderly.ordered h.outline hl.1 hl.2 hm⟩
    obtain ⟨hrest, hattempted⟩ := Stocked.addChain (o := { o with memo := m }) hfirst hls h₂
    exact ⟨hrest, hattempted⟩

/-- An attempt at a conversion is made only if it was not made before. -/
theorem Stocked.convertWithin {g : GroupId} {actual required : TraitSet} (h : o.Stocked k) (ha : k.Has actual)
    (hr : k.Has required) (ok : convertWithin g actual required o = .ok () o') :
    o'.Stocked k ∧ o.Narrows k o' := by
  -- a group that is known is in stock, and an attempt that is new leaves one less
  have hless : ∀ {group : Group}, ¬ o.Tried g actual required →
      o.memo.getGroup (o.memo.reduceGroup g) = .ok group →
      k.untried (o.attempted ++ [(o.memo.reduceGroup g, actual, required)]) ⊂ k.untried o.attempted := by
    intro group new known
    refine Stock.untried_append ?_ ha hr fun q hq heq => new ⟨q.2.1, q.2.2, heq.1 ▸ hq, heq.2⟩
    have hcell := Memo.outline_group_of (Memo.getGroup_eq_ok known)
    have hg : o.memo.reduceGroup (o.memo.reduceGroup g) = o.memo.reduceGroup g :=
      h.orderly.ordered.tidy.sound.names.reduce_reduce g
    change o.memo.outline.group (o.memo.reduceGroup (o.memo.reduceGroup g)) = _ at hcell
    exact h.outline.group _ (by rw [← hg, hcell]; rfl)
  cases convertWithin_eq_ok ok with
  | idle => exact ⟨h, .refl k o⟩
  | vain new known => exact ⟨⟨h.orderly, h.outline⟩, .inr (hless new known)⟩
  | @chained _ _ _ _ es o₁ new known chain asked added =>
    obtain ⟨legs, hlegs, -, rfl⟩ := Registry.convert_eq_some.1 chain
    have hnoted := untouched_enforced o₁ (o.memo.reduceGroup g) actual required es
    obtain ⟨hchained, hattempted⟩ := Stocked.addChain (k := k) ⟨
      ((Change.request asked : Change Freely _ _).precedes h.orderly).orderly,
      Memo.ensureSubGroup_stocked h.orderly.ordered.tidy h.outline ha asked⟩ (Registry.route_has hr ha hlegs) added
    refine ⟨hchained.unmoved hnoted.toUnmoved, .inr ?_⟩
    rw [hnoted.attempted, hattempted]
    exact hless new known

/-- A group gets its enforcers from what is in stock. -/
theorem Stocked.addEnforcers {g : GroupId} (h : o.Stocked k) (ok : addEnforcers g o = .ok () o') :
    o'.Stocked k ∧ o.Narrows k o' := by
  have ok := run_get_bind_eq_ok ok
  obtain ⟨required, hrequired, ok⟩ := Action.read_bind_eq_ok ok
  obtain ⟨delivered, hdelivered, ok⟩ := Action.read_bind_eq_ok ok
  -- what is still to be converted is in stock
  refine (run_forM_invariant (fun as o₁ => (∀ a ∈ as, k.Has a) ∧ o₁.Stocked k ∧ o.Narrows k o₁)
    (fun a as o₁ o₂ h₁ ok₁ => ?_) ok ⟨fun a ha => has_of_deliveredBy h.outline hdelivered ha, h, .refl k o⟩).2
  obtain ⟨has, h₁, hnarrows⟩ := h₁
  obtain ⟨ha, has⟩ := List.forall_mem_cons.1 has
  refine ⟨has, (run_forM_invariant (fun rs o₂ => (∀ r ∈ rs, k.Has r) ∧ o₂.Stocked k ∧ o.Narrows k o₂)
    (fun r rs o₃ o₄ h₃ ok₃ => ?_) ok₁ ⟨fun r hr => has_of_requiredOf h.outline hrequired hr, h₁, hnarrows⟩).2⟩
  obtain ⟨hrs, h₃, hnarrows⟩ := h₃
  obtain ⟨hr, hrs⟩ := List.forall_mem_cons.1 hrs
  obtain ⟨h₄, hnarrows'⟩ := h₃.convertWithin ha hr ok₃
  exact ⟨hrs, h₄, hnarrows.trans hnarrows'⟩

end Optimizer

end PlanSearch
