import PlanSearch.Proofs.Requirements

/-!
# Conversions

A conversion goes the same way in every group: its route is a list of legs, each an operation that delivers one more of
the required traits, from what the leg before delivers. A chain of enforcers is a route laid over a group. Where a
route ends, everything that is required is delivered. Trait sets that are the same are converted alike.

    chain rowType required ks i ⟨g, s⟩ s = (route required ks i s).map …                                   (chain_eq)
    r.check required = .ok () → route required r.kinds 0 s = .ok (some legs) → s.size = r.size →
      ∃ t, Path s legs t ∧ r.satisfies t required = true                                              (route_path)
-/

namespace PlanSearch

namespace TraitKind

variable {Op : Type}

/-- The operator and the data of what delivers a required trait from an actual one. -/
def tool : TraitKind Op → Trait → Trait → Option (Op × Option Value)
  | convention converters, .convention (.named source), .convention (.named target) =>
    (converters.find? fun c => c.source = source && c.target = target).map fun c => (c.op, none)
  | collation sort, _, .collation c => sort.map fun op => (op, some c.toValue)
  | distribution exchange, _, .distribution d => exchange.map fun op => (op, some d.toValue)
  | custom _ op, _, .custom v => op.map fun op => (op, some v)
  | _, _, _ => none

theorem enforce_eq (k : TraitKind Op) (e : Enforcement) :
    k.enforce e = (k.tool e.actual e.required).map fun t => e.node t.1 t.2 := by
  obtain ⟨input, rowType, output, actual, required⟩ := e
  cases k with
  | convention converters =>
    cases actual with
    | convention a =>
      cases required with
      | convention r => cases a <;> cases r <;> simp [enforce, tool, Function.comp_def]
      | _ => cases a <;> rfl
    | _ => rfl
  | collation sort => cases required <;> simp [enforce, tool, Function.comp_def]
  | distribution exchange => cases required <;> simp [enforce, tool, Function.comp_def]
  | custom v op => cases required <;> simp [enforce, tool, Function.comp_def]

/-- Traits that are the same are converted by the same operator, with data that are the same. -/
theorem tool_canon (k : TraitKind Op) (a t : Trait) :
    (k.tool a.canon t.canon).map (Prod.map id (Option.map Value.canon)) =
      (k.tool a t).map (Prod.map id (Option.map Value.canon)) := by
  cases k with
  | convention converters =>
    cases t with
    | custom v => cases a <;> simp [tool, Trait.canon]
    | _ => cases a <;> rfl
  | collation sort => cases t <;> rfl
  | distribution exchange => cases t <;> rfl
  | custom v op => cases t <;> cases op <;> simp [tool, Trait.canon, Value.canon_canon]

/-- A trait meets itself as a requirement. -/
theorem satisfies_self {k : TraitKind Op} {t : Trait} (h : k.accepts t = true) : k.satisfies t t = true := by
  cases k with
  | convention converters =>
    cases t with
    | convention c => cases c <;> simp [satisfies]
    | _ => cases h
  | collation sort =>
    cases t with
    | collation c => simp [satisfies]
    | _ => cases h
  | distribution exchange =>
    cases t with
    | distribution d => cases d <;> simp [satisfies]
    | _ => cases h
  | custom v op => simp [satisfies, Trait.Same]

end TraitKind

namespace TraitSet

theorem get?_canon (s : TraitSet) (i : Nat) : s.canon.get? i = (s.get? i).map Trait.canon := by
  simp [canon, get?]

theorem Same.get? {a b : TraitSet} (h : a.Same b) {i : Nat} {x : Trait} (hx : a.get? i = some x) :
    ∃ y, b.get? i = some y ∧ y.canon = x.canon := by
  have hb : (b.get? i).map Trait.canon = some x.canon := by
    rw [← get?_canon, ← show a.canon = b.canon from h, get?_canon, hx]
    rfl
  obtain ⟨y, hy, heq⟩ := Option.map_eq_some_iff.1 hb
  exact ⟨y, hy, heq⟩

theorem canon_replace (s : TraitSet) (i : Nat) (t : Trait) : (s.replace i t).canon = s.canon.replace i t.canon := by
  simp [canon, replace, List.map_set]

end TraitSet

/-! ## Routes -/

/-- One operation of a conversion, from the traits that it starts from to those that it delivers. -/
structure Leg (Op : Type) where
  op : Op
  data : Option Value
  source : TraitSet
  target : TraitSet

/-- The legs lead from the first traits to the last. -/
inductive Path {Op : Type} : TraitSet → List (Leg Op) → TraitSet → Prop
  | nil (s : TraitSet) : Path s [] s
  | cons {s t : TraitSet} {leg : Leg Op} {legs : List (Leg Op)} (starts : leg.source = s)
      (rest : Path leg.target legs t) : Path s (leg :: legs) t

namespace Leg

variable {Op : Type}

/-- The enforcer that a leg comes to over a group. -/
def node (g : GroupId) (rowType : RowType) (l : Leg Op) : PlanNode Op :=
  ⟨⟨l.op, l.data, rowType, l.target⟩, [.group ⟨g, l.source⟩]⟩

/-- The leg with its values in canonical form. -/
def canon (l : Leg Op) : Leg Op := ⟨l.op, l.data.map Value.canon, l.source.canon, l.target.canon⟩

end Leg

namespace Registry

variable {Op : Type}

/-- The legs for the kinds from position `i` on, where `current` is what is delivered already. -/
def route (required : TraitSet) : List (TraitKind Op) → Nat → TraitSet → Except Fault (Option (List (Leg Op)))
  | [], _, _ => .ok (some [])
  | k :: ks, i, current =>
    match current.get? i, required.get? i with
    | some a, some t =>
      if k.satisfies a t then route required ks (i + 1) current
      else
        match k.tool a t with
        | none => .ok none
        | some (op, data) => do
          let rest ← route required ks (i + 1) (current.replace i t)
          return rest.map (⟨op, data, current, current.replace i t⟩ :: ·)
    | _, _ => .error (.noSuchPosition i)

/-- A chain of enforcers is a route laid over a group. -/
theorem chain_eq (rowType : RowType) (required : TraitSet) (g : GroupId) : ∀ (ks : List (TraitKind Op)) (i : Nat)
    (current : TraitSet), chain rowType required ks i ⟨g, current⟩ current =
      (route required ks i current).map (Option.map (List.map (Leg.node g rowType)))
  | [], _, _ => rfl
  | k :: ks, i, current => by
    rw [chain, route]
    cases current.get? i with
    | none => rfl
    | some a =>
      cases required.get? i with
      | none => rfl
      | some t =>
        dsimp only
        split
        · exact chain_eq rowType required g ks (i + 1) current
        · rw [k.enforce_eq]
          dsimp only
          cases k.tool a t with
          | none => rfl
          | some tool =>
            simp only [Option.map_some]
            rw [chain_eq rowType required g ks (i + 1)]
            cases route required ks (i + 1) (current.replace i t) with
            | error f => rfl
            | ok rest => cases rest <;> rfl

/-- A conversion is a route with at least one leg, laid over the group of its input. -/
theorem convert_eq_some {r : Registry Op} {g : GroupId} {rowType : RowType} {actual required : TraitSet}
    {ns : List (PlanNode Op)} : r.convert ⟨g, actual⟩ rowType actual required = .ok (some ns) ↔
      ∃ legs, route required r.kinds 0 actual = .ok (some legs) ∧ legs ≠ [] ∧ legs.map (Leg.node g rowType) = ns := by
  unfold convert
  rw [chain_eq]
  cases route required r.kinds 0 actual with
  | error f => simp [Except.map, bind, Except.bind]
  | ok legs? =>
    cases legs? with
    | none => simp [Except.map, bind, Except.bind, pure, Except.pure]
    | some legs => cases legs <;> simp [Except.map, bind, Except.bind, pure, Except.pure, Option.filter]

/-- A route over a kind passes it by where it is satisfied, and otherwise has a leg for it. -/
theorem route_cons_iff {required : TraitSet} {k : TraitKind Op} {ks : List (TraitKind Op)} {i : Nat}
    {current : TraitSet} {legs : List (Leg Op)} : route required (k :: ks) i current = .ok (some legs) ↔
      ∃ a t, current.get? i = some a ∧ required.get? i = some t ∧
        (k.satisfies a t = true ∧ route required ks (i + 1) current = .ok (some legs) ∨
        k.satisfies a t = false ∧ ∃ op data legs', k.tool a t = some (op, data) ∧
          route required ks (i + 1) (current.replace i t) = .ok (some legs') ∧
          ⟨op, data, current, current.replace i t⟩ :: legs' = legs) := by
  constructor
  · intro h
    rw [route] at h
    cases ha : current.get? i with
    | none => simp [ha] at h
    | some a =>
      cases ht : required.get? i with
      | none => simp [ha, ht] at h
      | some t =>
        simp only [ha, ht] at h
        split at h
        · next hmeets => exact ⟨a, t, rfl, rfl, .inl ⟨hmeets, h⟩⟩
        · next hmeets =>
          cases htool : k.tool a t with
          | none => simp [htool] at h
          | some tool =>
            simp only [htool] at h
            obtain ⟨rest, hrest, h⟩ := bind_eq_ok h
            cases rest with
            | none => cases h
            | some legs' =>
              cases h
              exact ⟨a, t, rfl, rfl, .inr ⟨Bool.not_eq_true _ ▸ hmeets, tool.1, tool.2, legs', htool, hrest, rfl⟩⟩
  · rintro ⟨a, t, ha, ht, ⟨hmeets, hrest⟩ | ⟨hmeets, op, data, legs', htool, hrest, rfl⟩⟩
    · simp [route, ha, ht, hmeets, hrest]
    · simp [route, ha, ht, hmeets, htool, hrest, bind, Except.bind, pure, Except.pure]

/-- Trait sets that are the same are converted by routes with the same legs. -/
theorem route_congr {required required' : TraitSet} (hr : required.Same required') : ∀ {ks : List (TraitKind Op)}
    {i : Nat} {current current' : TraitSet} {legs : List (Leg Op)}, current.Same current' →
    route required ks i current = .ok (some legs) →
    ∃ legs', route required' ks i current' = .ok (some legs') ∧ legs'.map Leg.canon = legs.map Leg.canon
  | [], i, current, current', legs, hc, h => by
    cases h
    exact ⟨[], rfl, rfl⟩
  | k :: ks, i, current, current', legs, hc, h => by
    obtain ⟨a, t, ha, ht, hcases⟩ := route_cons_iff.1 h
    obtain ⟨a', ha', haa⟩ := hc.get? ha
    obtain ⟨t', ht', htt⟩ := hr.get? ht
    have hmeets : k.satisfies a' t' = k.satisfies a t := by
      rw [← k.satisfies_canon a' t', ← k.satisfies_canon a t, haa, htt]
    rcases hcases with ⟨hyes, hrest⟩ | ⟨hno, op, data, rest, htool, hrest, rfl⟩
    · obtain ⟨legs', hlegs', hcanon⟩ := route_congr hr hc hrest
      exact ⟨legs', route_cons_iff.2 ⟨a', t', ha', ht', .inl ⟨hmeets.trans hyes, hlegs'⟩⟩, hcanon⟩
    · have hnext : (current.replace i t).Same (current'.replace i t') := by
        unfold TraitSet.Same
        rw [TraitSet.canon_replace, TraitSet.canon_replace, htt, show current.canon = current'.canon from hc]
      obtain ⟨rest', hrest', hcanon⟩ := route_congr hr hnext hrest
      have hsame := (k.tool_canon a' t').symm
      rw [haa, htt, k.tool_canon a t, htool] at hsame
      obtain ⟨⟨op', data'⟩, htool', heq⟩ := Option.map_eq_some_iff.1 hsame
      obtain ⟨hop, hdata⟩ := Prod.mk.inj heq
      refine ⟨_, route_cons_iff.2
        ⟨a', t', ha', ht', .inr ⟨hmeets.trans hno, op', data', rest', htool', hrest', rfl⟩⟩, ?_⟩
      rw [List.map_cons, List.map_cons, hcanon]
      refine congrArg (· :: _) ?_
      simp only [Leg.canon, Leg.mk.injEq]
      exact ⟨hop, hdata, Eq.symm hc, Eq.symm hnext⟩

/-! ## What a route comes to -/

theorem satisfiesAll_iff : ∀ {ks : List (TraitKind Op)} {as ts : List Trait}, satisfiesAll ks as ts = true ↔
    ∀ (j : Nat) (k : TraitKind Op) (a t : Trait), ks[j]? = some k → as[j]? = some a → ts[j]? = some t →
      k.satisfies a t = true
  | [], _, _ => by simp [satisfiesAll]
  | _ :: _, [], _ => by simp [satisfiesAll]
  | _ :: _, _ :: _, [] => by simp [satisfiesAll]
  | k :: ks, a :: as, t :: ts => by
    rw [satisfiesAll, Bool.and_eq_true, satisfiesAll_iff]
    constructor
    · rintro ⟨hfirst, hrest⟩ j k' a' t' hk ha ht
      cases j with
      | zero =>
        cases hk
        cases ha
        cases ht
        exact hfirst
      | succ j => exact hrest j k' a' t' hk ha ht
    · intro h
      exact ⟨h 0 k a t rfl rfl rfl, fun j k a t hk ha ht => h (j + 1) k a t hk ha ht⟩

theorem accepts_of_misfit?_eq_none : ∀ {ks : List (TraitKind Op)} {i : Nat} {ts : List Trait},
    misfit? i ks ts = none → ∀ (j : Nat) (k : TraitKind Op) (t : Trait), ks[j]? = some k → ts[j]? = some t →
      k.accepts t = true
  | [], _, _, _, _, _, _, hk, _ => by cases hk
  | _ :: _, _, [], _, _, _, _, _, ht => by cases ht
  | k :: ks, i, t :: ts, h, j, k', t', hk, ht => by
    rw [misfit?] at h
    split at h
    · next haccepts =>
      cases j with
      | zero =>
        cases hk
        cases ht
        exact haccepts
      | succ j => exact accepts_of_misfit?_eq_none h j k' t' hk ht
    · cases h

/-- In a trait set that fits, every trait is of its kind. -/
theorem accepts_of_check {r : Registry Op} {s : TraitSet} (h : r.check s = .ok ()) {j : Nat} {k : TraitKind Op}
    {t : Trait} (hk : r.kinds[j]? = some k) (ht : s.get? j = some t) : k.accepts t = true := by
  unfold check at h
  split at h
  · cases h
  · split at h
    · cases h
    · next hfit => exact accepts_of_misfit?_eq_none hfit j k t hk ht

/-- A trait set that fits meets itself as a requirement. -/
theorem satisfies_self {r : Registry Op} {s : TraitSet} (h : r.check s = .ok ()) : r.satisfies s s = true := by
  have hall : satisfiesAll r.kinds s.traits s.traits = true := by
    refine satisfiesAll_iff.2 fun j k a t hk ha ht => ?_
    rw [ha] at ht
    cases ht
    exact TraitKind.satisfies_self (accepts_of_check h hk ha)
  simp [satisfies, size_of_check h, hall]

/-- Where everything is met, a route has no legs. -/
theorem route_eq_nil {required : TraitSet} : ∀ {ks : List (TraitKind Op)} {i : Nat} {current : TraitSet}
    {legs : List (Leg Op)}, (∀ (j : Nat) (k : TraitKind Op) (a t : Trait), ks[j]? = some k →
      current.get? (i + j) = some a → required.get? (i + j) = some t → k.satisfies a t = true) →
    route required ks i current = .ok (some legs) → legs = []
  | [], i, current, legs, _, h => by
    cases h
    rfl
  | k :: ks, i, current, legs, hall, h => by
    obtain ⟨a, t, ha, ht, ⟨-, hrest⟩ | ⟨hno, -⟩⟩ := route_cons_iff.1 h
    · refine route_eq_nil (fun j k' a' t' hk ha' ht' => ?_) hrest
      rw [Nat.add_right_comm] at ha' ht'
      exact hall (j + 1) k' a' t' hk ha' ht'
    · rw [hall 0 k a t rfl ha ht] at hno
      cases hno

theorem route_eq_nil_of_satisfies {r : Registry Op} {actual required : TraitSet} {legs : List (Leg Op)}
    (hm : r.satisfies actual required = true) (h : route required r.kinds 0 actual = .ok (some legs)) :
    legs = [] := by
  unfold satisfies at hm
  rw [Bool.and_eq_true, satisfiesAll_iff] at hm
  refine route_eq_nil (fun j k a t hk ha ht => ?_) h
  rw [Nat.zero_add] at ha ht
  exact hm.2 j k a t hk ha ht

/-- A route leads to traits that agree with the required ones wherever what was there did not meet them. -/
theorem route_spec {required : TraitSet} : ∀ {ks : List (TraitKind Op)} {i : Nat} {current : TraitSet}
    {legs : List (Leg Op)}, route required ks i current = .ok (some legs) → ∃ final, Path current legs final ∧
      final.size = current.size ∧ (∀ j < i, final.get? j = current.get? j) ∧
      ∀ j k, ks[j]? = some k → ∃ a t, final.get? (i + j) = some a ∧ required.get? (i + j) = some t ∧
        (k.satisfies a t = true ∨ a = t)
  | [], i, current, legs, h => by
    cases h
    exact ⟨current, .nil _, rfl, fun _ _ => rfl, fun j k hk => by cases hk⟩
  | k :: ks, i, current, legs, h => by
    obtain ⟨a, t, ha, ht, ⟨hmeets, hrest⟩ | ⟨-, op, data, rest, -, hrest, rfl⟩⟩ := route_cons_iff.1 h
    · obtain ⟨final, hpath, hsize, hbefore, hall⟩ := route_spec hrest
      refine ⟨final, hpath, hsize, fun j hj => hbefore j (Nat.lt_succ_of_lt hj), fun j k' hk => ?_⟩
      cases j with
      | zero =>
        cases hk
        exact ⟨a, t, (hbefore i (Nat.lt_succ_self i)).trans ha, ht, .inl hmeets⟩
      | succ j =>
        have hlater := hall j k' hk
        rwa [Nat.add_right_comm] at hlater
    · obtain ⟨final, hpath, hsize, hbefore, hall⟩ := route_spec hrest
      have hi : i < current.size := (List.getElem?_eq_some_iff.1 ha).1
      refine ⟨final, .cons rfl hpath, hsize.trans (current.size_replace i t), fun j hj => ?_, fun j k' hk => ?_⟩
      · rw [hbefore j (Nat.lt_succ_of_lt hj), current.get?_replace_ne i j t (Nat.ne_of_gt hj)]
      · cases j with
        | zero =>
          cases hk
          refine ⟨t, t, ?_, ht, .inr rfl⟩
          exact (hbefore i (Nat.lt_succ_self i)).trans (current.get?_replace_self i t hi)
        | succ j =>
          have hlater := hall j k' hk
          rwa [Nat.add_right_comm] at hlater

/-- Where a route ends, what is required is met. -/
theorem route_path {r : Registry Op} {actual required : TraitSet} {legs : List (Leg Op)}
    (ha : r.check actual = .ok ()) (hq : r.check required = .ok ())
    (h : route required r.kinds 0 actual = .ok (some legs)) :
    ∃ final, Path actual legs final ∧ r.satisfies final required = true := by
  obtain ⟨final, hpath, hsize, -, hall⟩ := route_spec h
  have hmeets : satisfiesAll r.kinds final.traits required.traits = true := by
    refine satisfiesAll_iff.2 fun j k a t hk hfinal hrequired => ?_
    obtain ⟨a', t', ha', ht', hsatisfies⟩ := hall j k hk
    rw [Nat.zero_add] at ha' ht'
    obtain rfl : a = a' := Option.some.inj (hfinal.symm.trans ha')
    obtain rfl : t = t' := Option.some.inj (hrequired.symm.trans ht')
    rcases hsatisfies with hsatisfies | rfl
    · exact hsatisfies
    · exact TraitKind.satisfies_self (accepts_of_check hq hk ht')
  refine ⟨final, hpath, ?_⟩
  simp [satisfies, hsize, size_of_check ha, size_of_check hq, hmeets]

end Registry

end PlanSearch
