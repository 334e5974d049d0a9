import Mathlib.Data.Set.Finite.List
import PlanSearch.Proofs.Conversions
import PlanSearch.Proofs.Memo.CallEdits

/-!
# What is in stock

A memo has finitely many groups, and the trait sets in it are made of finitely many traits. Merging brings up neither
a new group nor a new trait, since it gives out no numbers. An enforcer delivers a trait set in which a trait that is
delivered has been replaced by one that is required, so enforcers get by with the traits that are there. So as long as
only enforcers are added, all conversions that can ever be asked for are among finitely many.

    Edits P w w' → w'.outline.next = w.outline.next → w.outline.Stocked k → w'.outline.Stocked k      (Edits.stocked)
    route required ks i current = .ok (some legs) → k.Has current → k.Has required → …                    (route_has)
    addEnforcer (l.node g rowType) h m = .ok e m' → m.outline.Stocked k → … → m'.outline.Stocked k
                                                                                            (addEnforcer_stocked)
-/

namespace PlanSearch

open Outline

/-- Finitely many groups and traits, and a bound for the size of trait sets. -/
structure Stock where
  groups : Set GroupId
  traits : Set Trait
  size : ℕ
  finite_groups : groups.Finite
  finite_traits : traits.Finite

namespace Stock

variable {k : Stock}

/-- The trait set is made of traits in stock, up to the canonical form of values. -/
def Has (k : Stock) (s : TraitSet) : Prop := s.size ≤ k.size ∧ ∀ t ∈ s.traits, t.canon ∈ k.traits

theorem Has.replace {s r : TraitSet} {i : ℕ} {t : Trait} (hs : k.Has s) (hr : k.Has r) (ht : r.get? i = some t) :
    k.Has (s.replace i t) := by
  refine ⟨(s.size_replace i t).trans_le hs.1, fun u hu => ?_⟩
  rcases List.mem_or_eq_of_mem_set hu with hu | rfl
  · exact hs.2 u hu
  · exact hr.2 u (List.mem_of_getElem? ht)

/-- The trait sets in stock, in canonical form. -/
def kinds (k : Stock) : Set TraitSet := TraitSet.canon '' {s | k.Has s}

/-- Up to the canonical form of values, there are finitely many trait sets in stock. -/
theorem finite_kinds (k : Stock) : k.kinds.Finite := by
  have := k.finite_traits.to_subtype
  refine ((List.finite_length_le k.traits k.size).image fun ts => TraitSet.mk (ts.map Subtype.val)).subset ?_
  rintro _ ⟨s, hs, rfl⟩
  have hall : ∀ t ∈ s.traits.map Trait.canon, t ∈ k.traits := List.forall_mem_map.2 hs.2
  refine ⟨(s.traits.map Trait.canon).attach.map fun t => ⟨t.1, hall t.1 t.2⟩, ?_, ?_⟩
  · simpa [TraitSet.size] using hs.1
  · show TraitSet.mk (List.map Subtype.val _) = ⟨s.traits.map Trait.canon⟩
    rw [List.map_map]
    exact congrArg TraitSet.mk (List.attach_map_subtype_val _)

end Stock

/-- A route leads along traits in stock if it starts and ends there. -/
theorem Registry.route_has {Op : Type} {k : Stock} {required : TraitSet} (hr : k.Has required) :
    ∀ {ks : List (TraitKind Op)} {i : ℕ} {current : TraitSet} {legs : List (Leg Op)}, k.Has current →
    route required ks i current = .ok (some legs) → ∀ l ∈ legs, k.Has l.source ∧ k.Has l.target
  | [], i, current, legs, hc, h => by
    cases h
    exact fun l hl => by cases hl
  | kind :: ks, i, current, legs, hc, h => by
    obtain ⟨a, t, -, ht, ⟨-, hrest⟩ | ⟨-, op, data, rest, -, hrest, rfl⟩⟩ := route_cons_iff.1 h
    · exact route_has hr hc hrest
    · have hnext := hc.replace hr ht
      rw [List.forall_mem_cons]
      exact ⟨⟨hc, hnext⟩, route_has hr hnext hrest⟩

/-! ## Stocked outlines -/

namespace Outline

variable {Op : Type} {o o' : Outline Op} {k : Stock}

/-- All groups and traits are in stock. -/
structure Stocked (k : Stock) (o : Outline Op) : Prop where
  group : ∀ g, (o.group g).isSome → g ∈ k.groups
  sub : ∀ s r, o.sub s = some r → k.Has r.traits
  entry : ∀ e x g, o.entry e = some (x, g) → k.Has x.traits

theorem Stocked.openSub (h : o.Stocked k) (g : GroupId) {traits : TraitSet} (ht : k.Has traits) :
    (o.openSub g traits).Stocked k where
  group g' hg := h.group g' (by rwa [isSome_group_openSub] at hg)
  sub s r hs := by
    simp only [Outline.openSub] at hs
    split at hs
    · cases hs
      exact ht
    · exact h.sub s r hs
  entry := h.entry

theorem Stocked.attach (h : o.Stocked k) {x : Expr Op} (hx : k.Has x.traits) (g : GroupId) :
    (o.attach x g).Stocked k where
  group g' hg := h.group g' (by rwa [isSome_group_attach] at hg)
  sub := h.sub
  entry e y g' he := by
    simp only [Outline.attach, Outline.enter] at he
    split at he
    · cases he
      exact hx
    · exact h.entry e y g' he

theorem Absorbs.next_eq {keep absorbed : GroupId} {more : List (GroupId × GroupId)}
    (h : o.Absorbs keep absorbed o' more) : o'.next = o.next := by
  cases h with
  | intro _ _ _ _ shifts _ => exact shifts.frame.2.2.1

/-- Merging gives out no numbers. -/
theorem Merges.next_eq {ps : List (GroupId × GroupId)} (h : o.Merges ps o') : o'.next = o.next := by
  induction h with
  | done => rfl
  | skip _ _ ih => exact ih
  | absorb _ first _ ih => exact ih.trans first.next_eq

end Outline

section Edits

variable {Op Q : Type} [Quantity Q] {P : Terms Op Q} {w w' : Work Op Q} {k : Stock}

theorem Edit.next_le (h : Edit P w w') : w.outline.next ≤ w'.outline.next := by
  cases h with
  | skip | openSub | attach => exact Nat.le_succ _
  | found => exact Nat.le_add_right _ 2
  | forget | price | propose | same | takeIn | fold | hand | convene | offer | pass | rewrite | drop | finish =>
    exact Nat.le_refl _

theorem Edits.next_le (h : Edits P w w') : w.outline.next ≤ w'.outline.next := by
  induction h with
  | refl => exact Nat.le_refl _
  | tail _ hedit ih => exact ih.trans hedit.next_le

/-- An edit that gives out no numbers brings up neither groups nor traits. -/
theorem Edit.stocked (h : Edit P w w') (hn : w'.outline.next = w.outline.next) (hk : w.outline.Stocked k) :
    w'.outline.Stocked k := by
  cases h with
  | skip | openSub | attach => exact absurd hn (Nat.succ_ne_self _)
  | found => exact absurd hn (by simp [Outline.found])
  | forget | finish => exact ⟨hk.group, hk.sub, hk.entry⟩
  | price | propose | same | convene | offer | pass => exact hk
  | takeIn =>
    refine ⟨fun g hg => hk.group g ?_, hk.sub, fun e x g he => ?_⟩
    · rw [isSome_group_takeIn, Bool.and_eq_true] at hg
      exact hg.2
    · obtain ⟨g₀, he₀, -⟩ := entry_takeIn.1 he
      exact hk.entry e x g₀ he₀
  | fold =>
    refine ⟨hk.group, fun s r hs => ?_, hk.entry⟩
    simp only [Outline.foldSub] at hs
    split at hs
    · cases hs
    · exact hk.sub s r hs
  | @hand keep absorbed hadReaders s strays t c calm stage stray live new =>
    refine ⟨fun g hg => hk.group g (by rwa [isSome_group_handSub] at hg), fun s' r hs => ?_, hk.entry⟩
    simp only [Outline.handSub] at hs
    split at hs
    · cases hs
      exact hk.sub s ⟨absorbed, t⟩ stray
    · exact hk.sub s' r hs
  | @rewrite keep absorbed e todo x home calm stage known apart =>
    refine ⟨hk.group, hk.sub, fun e' y g he => ?_⟩
    simp only [Outline.rewrite] at he
    split at he
    · cases he
      exact hk.entry e x home known
    · exact hk.entry e' y g he
  | drop =>
    exact ⟨fun g hg => hk.group g (by rwa [isSome_group_drop] at hg), hk.sub,
      fun e x g he => hk.entry e x g (entry_drop.1 he).2⟩

/-- Numbers are never taken back, so where none was given out in the end, none was given out on the way. -/
theorem Edits.stocked (h : Edits P w w') (hn : w'.outline.next = w.outline.next) (hk : w.outline.Stocked k) :
    w'.outline.Stocked k := by
  induction h with
  | refl => exact hk
  | tail hedits hedit ih =>
    have hle := Edits.next_le hedits
    have hle' := hedit.next_le
    exact hedit.stocked (by omega) (ih (by omega))

end Edits

/-! ## Stocked memos -/

namespace Memo

variable {Op Q : Type} {m m' : Memo Op Q} {k : Stock}

/-- The names that a table knows are finitely many. -/
theorem finite_keys {α β : Type} [Ord α] [Std.TransOrd α] [Std.LawfulEqOrd α] (t : Std.TreeMap α β) :
    {a : α | (t[a]?).isSome}.Finite := by
  refine (List.finite_toSet t.keys).subset fun a (ha : (t[a]?).isSome) => ?_
  exact Std.TreeMap.mem_keys.2 (Std.TreeMap.mem_iff_isSome_getElem?.2 ha)

theorem finite_groups (m : Memo Op Q) : {g | (m.outline.group g).isSome}.Finite := by
  simp only [outline_group, Option.isSome_map]
  exact finite_keys m.groups

theorem finite_subs (m : Memo Op Q) : {s | (m.outline.sub s).isSome}.Finite := by
  simp only [outline_sub, Option.isSome_map]
  exact finite_keys m.subGroups

theorem finite_entries (m : Memo Op Q) : {e | (m.outline.entry e).isSome}.Finite := by
  simp only [outline_entry, Option.isSome_map]
  exact finite_keys m.exprs

/-- What finitely many names stand for is finite. -/
theorem finite_values {α β : Type} {f : α → Option β} (h : {a | (f a).isSome}.Finite) :
    {b | ∃ a, f a = some b}.Finite := by
  refine ((h.image f).preimage (Option.some_injective β).injOn).subset ?_
  rintro b ⟨a, ha⟩
  exact ⟨a, by rw [Set.mem_ofPred_eq, ha]; rfl, ha⟩

/-- Whatever a memo has can be stocked. -/
theorem exists_stock (m : Memo Op Q) : ∃ k : Stock, m.outline.Stocked k := by
  let listed : Set TraitSet := SubGroupRef.traits '' {r | ∃ s, m.outline.sub s = some r} ∪
    (fun p : Expr Op × GroupId => p.1.traits) '' {p | ∃ e, m.outline.entry e = some p}
  have hlisted : listed.Finite :=
    ((finite_values m.finite_subs).image _).union ((finite_values m.finite_entries).image _)
  obtain ⟨n, hn⟩ := (hlisted.image TraitSet.size).bddAbove
  let k : Stock := ⟨{g | (m.outline.group g).isSome}, ⋃ s ∈ listed, {t | t ∈ s.traits.map Trait.canon}, n,
    m.finite_groups, hlisted.biUnion fun s _ => List.finite_toSet _⟩
  have hhas : ∀ s ∈ listed, k.Has s := fun s hs =>
    ⟨hn (Set.mem_image_of_mem _ hs), fun t ht => Set.mem_biUnion hs (List.mem_map_of_mem (f := Trait.canon) ht)⟩
  exact ⟨k, fun g hg => hg, fun s r hs => hhas _ (.inl ⟨r, ⟨s, hs⟩, rfl⟩),
    fun e x g he => hhas _ (.inr ⟨(x, g), ⟨e, he⟩, rfl⟩)⟩

variable [Quantity Q]

theorem ensureSubGroup_stocked {r : SubGroupRef} {require : Bool} {s : SubGroupId} (ht : m.outline.Tidy)
    (hk : m.outline.Stocked k) (hr : k.Has r.traits) (ok : ensureSubGroup r require m = .ok s m') :
    m'.outline.Stocked k := by
  rcases ensureSubGroup_opens ht ok with hout | ⟨c, -, -, hout⟩
  · rw [hout]
    exact hk
  · rw [hout]
    exact hk.openSub _ hr

variable [Operator Op]

/-- An operation joins a group, or that and another group are merged. -/
theorem register_stocked {head : Operation Op} {refs : List SubGroupRef} {t g : GroupId} {e : ExprId}
    (hm : m.Ordered []) (hx : m.outline.Ready ⟨head.op, refs, head.data, head.traits⟩)
    (ht : m.outline.reduce t = t) (hk : m.outline.Stocked k) (hh : k.Has head.traits)
    (ok : register head refs (some t) m = .ok (g, e) m') : m'.outline.Stocked k := by
  obtain ⟨-, ⟨y, home, -, -, hmerges⟩ | ⟨-, -, hout⟩⟩ := register_joins hm hx ht ok
  · have hedited := register_edited (P := .free) head (some t) hm.tidy hx fun t' h => by cases h; exact ht
    exact (hedited.of_ok ok).1.stocked hmerges.next_eq hk
  · rw [hout]
    exact hk.attach hh t

/-- An enforcer brings up no group, and of traits only those that it reads and delivers. -/
theorem addEnforcer_stocked {l : Leg Op} {rowType : RowType} {g h : GroupId} {e : Option ExprId}
    (hm : m.Ordered []) (hk : m.outline.Stocked k) (hs : k.Has l.source) (ht : k.Has l.target)
    (ok : addEnforcer (l.node g rowType) h m = .ok e m') : m'.outline.Stocked k := by
  simp only [addEnforcer, addNodeTo, insertNode, insertOver] at ok
  have ok := run_get_bind_eq_ok ok
  obtain ⟨⟨g', e'⟩, m₂, h₂, ok⟩ := run_bind_eq_ok ok
  obtain ⟨-, rfl⟩ := run_pure_eq_ok ok
  obtain ⟨_, -, h₂⟩ := Update.read_bind_eq_ok h₂
  obtain ⟨refs, m₁, h₁, h₂⟩ := run_bind_eq_ok h₂
  have hins := insertInputs_inserted _ false _ hm h₁
  have hh : m.reduceGroup h = m₁.outline.reduce h := ((hins.grown.keeps hm.tidy).reduce h).symm
  rw [hh] at h₂
  -- the only input is a reference to the group that is converted
  have hk₁ : m₁.outline.Stocked k := by
    simp only [Leg.node, insertInputs] at h₁
    obtain ⟨_, -, h₁⟩ := Update.read_bind_eq_ok h₁
    obtain ⟨_, -, h₁⟩ := Update.read_bind_eq_ok h₁
    have h₁ := run_get_bind_eq_ok h₁
    obtain ⟨s, m₃, h₃, h₁⟩ := run_bind_eq_ok h₁
    obtain ⟨_, m₄, h₄, h₁⟩ := run_bind_eq_ok h₁
    obtain ⟨-, rfl⟩ := run_pure_eq_ok h₄
    obtain ⟨-, rfl⟩ := run_pure_eq_ok h₁
    exact ensureSubGroup_stocked hm.tidy hk hs h₃
  exact register_stocked hins.ordered hins.served (hins.ordered.tidy.sound.names.reduce_reduce h) hk₁ ht h₂

end Memo

end PlanSearch
