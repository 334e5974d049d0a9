import PlanSearch.Proofs.Satisfaction

/-!
# Chains of enforcers

What a conversion is, said without its loop. The kinds that are not satisfied are listed in the order of the registry, and
the chain has one enforcer for each of them. The first reads the input, every other one the group of the input under the
traits that the one before delivers. Each changes the trait of its own kind into the required one and leaves the others, so
that all that is required is delivered at the end and not before. There is no chain if nothing is to be converted, or if
some kind that is not satisfied refuses.

    r.check actual = .ok () → r.check required = .ok () →
      (r.convert input rowType actual required = .ok none ↔ r.satisfies actual required ∨ r.Refused actual required) ∧
      (… → ∃ ns, r.convert … = .ok (some ns) ∧ r.Bridges input rowType actual required ns)    (convert_bridges)
-/

namespace PlanSearch

variable {Op : Type}

/-- The kind gives no enforcer from the one trait to the other, wherever it is asked to. -/
def TraitKind.Refuses (k : TraitKind Op) (a t : Trait) : Prop :=
  ∀ input rowType output, k.enforce ⟨input, rowType, output, a, t⟩ = none

/-- Whether a kind refuses depends on the traits alone. -/
theorem TraitKind.refuses_iff {k : TraitKind Op} {a t : Trait} : k.Refuses a t ↔ k.tool a t = none := by
  unfold Refuses
  simp only [enforce_eq, Option.map_eq_none_iff]
  exact ⟨fun h => h ⟨⟨0⟩, ⟨[]⟩⟩ ⟨[]⟩ ⟨[]⟩, fun h _ _ _ => h⟩

/-- What a chain delivers: what its last node does, or what was there if it has none. -/
def delivered (actual : TraitSet) (ns : List (PlanNode Op)) : TraitSet :=
  (ns.getLast?.map fun n => n.head.traits).getD actual

namespace Registry

/-! ## What a conversion is -/

/-- Whether the kind in the position has a trait there that does not meet the required one. -/
def isUnmet (actual required : TraitSet) (p : TraitKind Op × Nat) : Bool :=
  match actual.get? p.2, required.get? p.2 with
  | some a, some t => !p.1.satisfies a t
  | _, _ => false

/-- The kinds that are not satisfied, with their positions, in the order of the registry. -/
def unmet (r : Registry Op) (actual required : TraitSet) : List (TraitKind Op × Nat) :=
  r.kinds.zipIdx.filter (isUnmet actual required)

/-- The kind in the position refuses to turn the trait there into the required one. -/
def IsRefused (actual required : TraitSet) (p : TraitKind Op × Nat) : Prop :=
  ∃ a t, actual.get? p.2 = some a ∧ required.get? p.2 = some t ∧ p.1.Refuses a t

/-- A kind that is not satisfied refuses. -/
def Refused (r : Registry Op) (actual required : TraitSet) : Prop :=
  ∃ p ∈ r.unmet actual required, IsRefused actual required p

/-- A node is an enforcer of the kind: it has the operator and the data of the kind, reads the reference and keeps the row
type, and what it delivers is what was there, but for the trait of the kind, which is the required one. -/
structure Enforces (p : TraitKind Op × Nat) (reads : SubGroupRef) (rowType : RowType) (there required : TraitSet)
    (n : PlanNode Op) : Prop where
  tool : ∃ a t, there.get? p.2 = some a ∧ required.get? p.2 = some t ∧ p.1.tool a t = some (n.head.op, n.head.data)
  reads : n.inputs = [.group reads]
  rowType : n.head.rowType = rowType
  changed : n.head.traits.get? p.2 = required.get? p.2
  kept : ∀ i, i ≠ p.2 → n.head.traits.get? i = there.get? i

/-- The nodes lead from what the input delivers to what is required. -/
structure Bridges (r : Registry Op) (input : SubGroupRef) (rowType : RowType) (actual required : TraitSet)
    (ns : List (PlanNode Op)) : Prop where
  /-- There is one node for each kind that is not satisfied. -/
  length : ns.length = (r.unmet actual required).length
  /-- The first node reads the input, the others what the chain before them delivers. -/
  enforces : ∀ before n after, ns = before ++ n :: after → ∃ p, (r.unmet actual required)[before.length]? = some p ∧
    Enforces p (if before = [] then input else ⟨input.group, delivered actual before⟩) rowType (delivered actual before)
      required n
  /-- No part of the chain would do. -/
  needed : ∀ part, part <+: ns → part ≠ ns → r.satisfies (delivered actual part) required = false
  meets : r.satisfies (delivered actual ns) required = true

/-! ## Lemmas -/

theorem delivered_cons (actual : TraitSet) (n : PlanNode Op) (ns : List (PlanNode Op)) :
    delivered actual (n :: ns) = delivered n.head.traits ns := by
  cases ns with
  | nil => rfl
  | cons m ns =>
    rw [delivered, delivered, List.getLast?_cons_cons, List.getLast?_eq_some_getLast (List.cons_ne_nil m ns)]
    rfl

variable {rowType : RowType} {actual required there : TraitSet} {reads : SubGroupRef} {ps : List (TraitKind Op × Nat)}
  {ns : List (PlanNode Op)}

theorem isUnmet_iff {p : TraitKind Op × Nat} : isUnmet actual required p = true ↔
    ∃ a t, actual.get? p.2 = some a ∧ required.get? p.2 = some t ∧ p.1.satisfies a t = false := by
  unfold isUnmet
  cases actual.get? p.2 <;> cases required.get? p.2 <;> simp

theorem mem_unmet {r : Registry Op} {p : TraitKind Op × Nat} : p ∈ r.unmet actual required ↔
    r.kinds[p.2]? = some p.1 ∧ isUnmet actual required p = true := by
  rw [unmet, List.mem_filter, List.mem_zipIdx_iff_getElem?]

/-- No two kinds are in one position. -/
theorem nodup_unmet (r : Registry Op) (actual required : TraitSet) :
    ((r.unmet actual required).map Prod.snd).Nodup := by
  have hall : (r.kinds.zipIdx.map Prod.snd).Nodup := by
    rw [List.zipIdx_map_snd]
    exact List.nodup_range'
  exact hall.sublist (List.filter_sublist.map _)

/-- The nodes are enforcers of the kinds one by one, each reading what the one before delivers. -/
inductive Linked (rowType : RowType) (required : TraitSet) :
    SubGroupRef → TraitSet → List (TraitKind Op × Nat) → List (PlanNode Op) → Prop
  | nil (reads : SubGroupRef) (there : TraitSet) : Linked rowType required reads there [] []
  | cons {reads : SubGroupRef} {there : TraitSet} {p : TraitKind Op × Nat} {ps : List (TraitKind Op × Nat)}
      {n : PlanNode Op} {ns : List (PlanNode Op)} (enforces : Enforces p reads rowType there required n)
      (rest : Linked rowType required ⟨reads.group, n.head.traits⟩ n.head.traits ps ns) :
      Linked rowType required reads there (p :: ps) (n :: ns)

theorem Linked.length (h : Linked rowType required reads there ps ns) : ns.length = ps.length := by
  induction h with
  | nil => rfl
  | cons _ _ ih => rw [List.length_cons, List.length_cons, ih]

/-- What linked nodes deliver is what is required in the positions of their kinds, and else what was there. -/
theorem Linked.get?_delivered (h : Linked rowType required reads there ps ns) (j : Nat) :
    (delivered there ns).get? j = if j ∈ ps.map Prod.snd then required.get? j else there.get? j := by
  induction h with
  | nil => rfl
  | @cons _ _ p ps n _ enforces _ ih =>
    rw [delivered_cons, ih, List.map_cons]
    by_cases hlater : j ∈ ps.map Prod.snd
    · rw [if_pos hlater, if_pos (List.mem_cons_of_mem _ hlater)]
    · rw [if_neg hlater]
      by_cases hj : j = p.2
      · rw [if_pos (hj ▸ List.mem_cons_self), hj, enforces.changed]
      · rw [if_neg (by simp [hj, hlater]), enforces.kept j hj]

/-- Up to any of its nodes, a chain is a chain, and the node reads what that delivers. -/
theorem Linked.split {before after : List (PlanNode Op)} {n : PlanNode Op}
    (h : Linked rowType required reads there ps (before ++ n :: after)) : ∃ ps₁ p ps₂, ps = ps₁ ++ p :: ps₂ ∧
      Linked rowType required reads there ps₁ before ∧
      Enforces p (if before = [] then reads else ⟨reads.group, delivered there before⟩) rowType (delivered there before)
        required n := by
  induction before generalizing reads there ps with
  | nil =>
    cases h with
    | @cons _ _ p ps _ _ enforces _ => exact ⟨[], p, ps, rfl, .nil _ _, enforces⟩
  | cons m before ih =>
    cases h with
    | @cons _ _ q qs _ _ enforces rest =>
      obtain ⟨ps₁, p, ps₂, rfl, hbefore, hn⟩ := ih rest
      refine ⟨q :: ps₁, p, ps₂, rfl, .cons enforces hbefore, ?_⟩
      rw [delivered_cons, if_neg (List.cons_ne_nil _ _)]
      -- after one node, what is read is what it delivers, whether or not others have come in between
      have hreads : (if before = [] then (⟨reads.group, m.head.traits⟩ : SubGroupRef)
          else ⟨reads.group, delivered m.head.traits before⟩) = ⟨reads.group, delivered m.head.traits before⟩ := by
        split
        · next hnil => rw [hnil]; rfl
        · rfl
      exact hreads ▸ hn

/-! ## The loop -/

theorem isUnmet_replace {p : TraitKind Op × Nat} {i : Nat} {t : Trait} (h : i ≠ p.2) :
    isUnmet (actual.replace i t) required p = isUnmet actual required p := by
  unfold isUnmet
  rw [actual.get?_replace_ne i p.2 t h]

theorem isRefused_replace {p : TraitKind Op × Nat} {i : Nat} {t : Trait} (h : i ≠ p.2) :
    IsRefused (actual.replace i t) required p ↔ IsRefused actual required p := by
  unfold IsRefused
  rw [actual.get?_replace_ne i p.2 t h]

/-- From some position on, either a kind that is not satisfied refuses and there is no chain, or none does and there is
one. -/
theorem chain_linked (rowType : RowType) (required : TraitSet) : ∀ (ks : List (TraitKind Op)) (i : Nat)
    (reads : SubGroupRef) (there : TraitSet),
    (∀ j < ks.length, ∃ a t, there.get? (i + j) = some a ∧ required.get? (i + j) = some t) →
    (∃ p ∈ (ks.zipIdx i).filter (isUnmet there required), IsRefused there required p) ∧
        chain rowType required ks i reads there = .ok none ∨
      (∀ p ∈ (ks.zipIdx i).filter (isUnmet there required), ¬ IsRefused there required p) ∧
        ∃ ns, chain rowType required ks i reads there = .ok (some ns) ∧
          Linked rowType required reads there ((ks.zipIdx i).filter (isUnmet there required)) ns
  | [], i, reads, there, _ => .inr ⟨fun p hp => (by cases hp), [], rfl, .nil _ _⟩
  | k :: ks, i, reads, there, hall => by
    obtain ⟨a, t, ha, ht⟩ := hall 0 (Nat.succ_pos _)
    rw [Nat.add_zero] at ha ht
    have hlater : ∀ j < ks.length, ∃ a t, there.get? (i + 1 + j) = some a ∧ required.get? (i + 1 + j) = some t := by
      intro j hj
      rw [Nat.add_right_comm]
      exact hall (j + 1) (Nat.succ_lt_succ hj)
    rw [List.zipIdx_cons, chain]
    simp only [ha, ht]
    cases hmeets : k.satisfies a t with
    | true =>
      rw [List.filter_cons_of_neg (by simp [isUnmet, ha, ht, hmeets])]
      exact chain_linked rowType required ks (i + 1) reads there hlater
    | false =>
      have hunmet : isUnmet there required (k, i) = true := isUnmet_iff.2 ⟨a, t, ha, ht, hmeets⟩
      rw [List.filter_cons_of_pos hunmet, k.enforce_eq]
      cases htool : k.tool a t with
      | none =>
        refine .inl ⟨⟨(k, i), List.mem_cons_self, a, t, ha, ht, TraitKind.refuses_iff.2 htool⟩, ?_⟩
        simp
      | some tool =>
        have hkept : ¬ IsRefused there required (k, i) := by
          rintro ⟨a', t', ha', ht', hrefuses⟩
          cases ha.symm.trans ha'
          cases ht.symm.trans ht'
          rw [TraitKind.refuses_iff.1 hrefuses] at htool
          cases htool
        -- what is replaced is behind, so that the kinds to come see no change
        have hbehind : ∀ p ∈ ks.zipIdx (i + 1), i ≠ p.2 := fun p hp => by
          have := List.le_snd_of_mem_zipIdx hp
          omega
        have hsame : (ks.zipIdx (i + 1)).filter (isUnmet (there.replace i t) required) =
            (ks.zipIdx (i + 1)).filter (isUnmet there required) :=
          List.filter_congr fun p hp => isUnmet_replace (hbehind p hp)
        have hbehind' : ∀ p ∈ (ks.zipIdx (i + 1)).filter (isUnmet there required), i ≠ p.2 := fun p hp =>
          hbehind p (List.mem_filter.1 hp).1
        have hrest := chain_linked rowType required ks (i + 1) ⟨reads.group, there.replace i t⟩ (there.replace i t)
          fun j hj => by
            rw [there.get?_replace_ne i (i + 1 + j) t (by omega)]
            exact hlater j hj
        rw [hsame] at hrest
        simp only [Bool.false_eq_true, if_false, Option.map_some]
        rcases hrest with ⟨⟨p, hp, hrefused⟩, hchain⟩ | ⟨hnone, ns, hchain, hlinked⟩
        · rw [hchain]
          exact .inl ⟨⟨p, List.mem_cons_of_mem _ hp, (isRefused_replace (hbehind' p hp)).1 hrefused⟩, rfl⟩
        · rw [hchain]
          refine .inr ⟨fun p hp => ?_, _, rfl, .cons ?_ hlinked⟩
          · rcases List.mem_cons.1 hp with rfl | hp
            · exact hkept
            · exact fun hrefused => hnone p hp ((isRefused_replace (hbehind' p hp)).2 hrefused)
          · have hi : i < there.size := (List.getElem?_eq_some_iff.1 ha).1
            exact ⟨⟨a, t, ha, ht, htool⟩, rfl, rfl, (there.get?_replace_self i t hi).trans ht.symm,
              fun j hj => there.get?_replace_ne i j t (Ne.symm hj)⟩

/-! ## What is met -/

section Fitting

variable {r : Registry Op} (ha : r.check actual = .ok ()) (hr : r.check required = .ok ())
include ha hr

/-- Everything is met where no kind is not satisfied. -/
theorem unmet_eq_nil_iff : r.unmet actual required = [] ↔ r.satisfies actual required = true := by
  have hsizes : r.satisfies actual required = satisfiesAll r.kinds actual.traits required.traits := by
    simp [satisfies, size_of_check ha, size_of_check hr]
  rw [hsizes, satisfiesAll_iff, List.eq_nil_iff_forall_not_mem]
  constructor
  · intro h j k a t hk hactual hrequired
    have hnot := h (k, j)
    rw [mem_unmet, isUnmet_iff] at hnot
    cases hmeets : k.satisfies a t with
    | true => rfl
    | false => exact absurd ⟨hk, a, t, hactual, hrequired, hmeets⟩ hnot
  · intro h p hp
    obtain ⟨hk, hunmet⟩ := mem_unmet.1 hp
    obtain ⟨a, t, hactual, hrequired, hmeets⟩ := isUnmet_iff.1 hunmet
    rw [h p.2 p.1 a t hk hactual hrequired] at hmeets
    cases hmeets

/-- A part of a chain leaves unmet what the rest is for, and nothing else. -/
theorem Linked.satisfies_iff {ps' : List (TraitKind Op × Nat)} (hps : r.unmet actual required = ps ++ ps')
    (h : Linked rowType required reads actual ps ns) :
    r.satisfies (delivered actual ns) required = true ↔ ps' = [] := by
  have hnodup := nodup_unmet r actual required
  rw [hps, List.map_append] at hnodup
  have hget := h.get?_delivered
  constructor
  · intro hmeets
    cases ps' with
    | nil => rfl
    | cons p rest =>
      have hp : p ∈ r.unmet actual required := hps ▸ List.mem_append_right _ List.mem_cons_self
      obtain ⟨hk, hunmet⟩ := mem_unmet.1 hp
      obtain ⟨a, t, hactual, hrequired, hfails⟩ := isUnmet_iff.1 hunmet
      have hother : p.2 ∉ ps.map Prod.snd := fun hmem =>
        (List.nodup_append.1 hnodup).2.2 p.2 hmem p.2 (List.mem_map_of_mem List.mem_cons_self) rfl
      rw [satisfies, Bool.and_eq_true, satisfiesAll_iff] at hmeets
      rw [hmeets.2 p.2 p.1 a t hk ((hget p.2).trans (by rw [if_neg hother, hactual])) hrequired] at hfails
      cases hfails
  · rintro rfl
    have hsize : (delivered actual ns).size = r.size := by
      have hnone : ∀ j, (delivered actual ns).size ≤ j ↔ r.size ≤ j := by
        intro j
        have hj := congrArg (· = none) (hget j)
        simp only [TraitSet.get?, eq_iff_iff, List.getElem?_eq_none_iff] at hj
        rw [TraitSet.size, hj]
        split
        · rw [List.getElem?_eq_none_iff, ← size_of_check hr, TraitSet.size]
        · rw [List.getElem?_eq_none_iff, ← size_of_check ha, TraitSet.size]
      exact Nat.le_antisymm ((hnone _).2 (Nat.le_refl _)) ((hnone _).1 (Nat.le_refl _))
    have hall : satisfiesAll r.kinds (delivered actual ns).traits required.traits = true := by
      refine satisfiesAll_iff.2 fun j k a t hk hdelivered hrequired => ?_
      have hj : (delivered actual ns).get? j = some a := hdelivered
      rw [hget j] at hj
      split at hj
      · cases hj.symm.trans hrequired
        exact TraitKind.satisfies_self (accepts_of_check hr hk hrequired)
      · next hother =>
        cases hmeets : k.satisfies a t with
        | true => rfl
        | false =>
          refine absurd (List.mem_map.2 ⟨(k, j), ?_, rfl⟩) hother
          rw [← List.append_nil ps, ← hps, mem_unmet]
          exact ⟨hk, isUnmet_iff.2 ⟨a, t, hj, hrequired, hmeets⟩⟩
    simp [satisfies, hsize, size_of_check hr, hall]

theorem Linked.bridges (h : Linked rowType required reads actual (r.unmet actual required) ns) :
    r.Bridges reads rowType actual required ns where
  length := h.length
  enforces before n after hns := by
    obtain ⟨ps₁, p, ps₂, hps, hbefore, hn⟩ := Linked.split (hns ▸ h)
    refine ⟨p, ?_, hn⟩
    rw [hps, hbefore.length, List.getElem?_append_right (Nat.le_refl _), Nat.sub_self]
    rfl
  needed part hpart hne := by
    obtain ⟨rest, rfl⟩ := hpart
    cases rest with
    | nil => exact absurd (List.append_nil part).symm hne
    | cons n after =>
      obtain ⟨ps₁, p, ps₂, hps, hbefore, -⟩ := Linked.split h
      rw [← Bool.not_eq_true, hbefore.satisfies_iff ha hr hps]
      exact List.cons_ne_nil _ _
  meets := (h.satisfies_iff ha hr (List.append_nil _).symm).2 rfl

/-- Between trait sets that fit, a conversion always has an answer. There is no chain exactly if everything is met already,
or if a kind that is not satisfied refuses. Otherwise there is one, of one enforcer for each kind that is not satisfied in
the order of the registry: the first reads the input, every other one the group of the input under what the one before
delivers; each keeps the row type and changes the trait of its own kind alone; and all that is required is delivered by the
last, and by none before it. -/
theorem convert_bridges (input : SubGroupRef) (rowType : RowType) :
    (r.convert input rowType actual required = .ok none ↔
      r.satisfies actual required = true ∨ r.Refused actual required) ∧
    (¬ (r.satisfies actual required = true ∨ r.Refused actual required) →
      ∃ ns, r.convert input rowType actual required = .ok (some ns) ∧ r.Bridges input rowType actual required ns) := by
  have hall : ∀ j < r.kinds.length, ∃ a t, actual.get? (0 + j) = some a ∧ required.get? (0 + j) = some t := by
    intro j hj
    rw [Nat.zero_add]
    have hactual : j < actual.traits.length := Nat.lt_of_lt_of_eq hj (size_of_check ha).symm
    have hrequired : j < required.traits.length := Nat.lt_of_lt_of_eq hj (size_of_check hr).symm
    exact ⟨_, _, List.getElem?_eq_getElem hactual, List.getElem?_eq_getElem hrequired⟩
  unfold convert
  rcases chain_linked rowType required r.kinds 0 input actual hall with ⟨hrefused, hchain⟩ | ⟨hnone, ns, hchain, hlinked⟩
  · rw [hchain]
    exact ⟨⟨fun _ => .inr hrefused, fun _ => rfl⟩, fun h => absurd (.inr hrefused) h⟩
  · have hlinked : Linked rowType required input actual (r.unmet actual required) ns := hlinked
    have hnot : ¬ r.Refused actual required := fun ⟨p, hp, hrefused⟩ => hnone p hp hrefused
    rw [hchain, ← unmet_eq_nil_iff ha hr]
    cases ns with
    | nil =>
      have hnil := List.eq_nil_of_length_eq_zero hlinked.length.symm
      exact ⟨⟨fun _ => .inl hnil, fun _ => rfl⟩, fun h => absurd (.inl hnil) h⟩
    | cons n ns =>
      have hne : r.unmet actual required ≠ [] := fun hnil => by
        have hlength := hlinked.length
        rw [hnil] at hlength
        cases hlength
      refine ⟨⟨fun h => ?_, fun h => ?_⟩, fun _ => ⟨n :: ns, rfl, hlinked.bridges ha hr⟩⟩
      · cases h
      · exact absurd h (not_or.2 ⟨hne, hnot⟩)

end Fitting

end Registry

namespace SmallHost

open Relational

/-- What takes a conversion of every kind, but that of the host's second one. -/
def columnar : TraitSet :=
  ⟨[.custom (.i64 5), .distribution (.hash [4]), .collation ⟨[⟨1, .desc, true⟩]⟩, .convention (.named "columns"),
    .custom (.string "none")]⟩

/-- What the host's second kind has no operator for. -/
def marked : TraitSet := columnar.replace 4 (.custom (.bool false))

/-- From rows in no order on no particular worker to columns in order on many. -/
def unordered : TraitSet :=
  ⟨[.custom (.i64 3), .distribution .any, .collation ⟨[]⟩, .convention (.named "rows"), .custom (.bool true)]⟩

/-- The one takes four enforcers, and for the other there is none. -/
theorem unordered_bridges : allKinds.check unordered = .ok () ∧ allKinds.check columnar = .ok () ∧
    (∃ ns, allKinds.convert ⟨⟨7⟩, unordered⟩ ⟨[]⟩ unordered columnar = .ok (some ns) ∧ ns.length = 4 ∧
      allKinds.Bridges ⟨⟨7⟩, unordered⟩ ⟨[]⟩ unordered columnar ns) ∧
    allKinds.convert ⟨⟨7⟩, unordered⟩ ⟨[]⟩ unordered marked = .ok none := by
  have hactual : allKinds.check unordered = .ok () := rfl
  have hcolumnar : allKinds.check columnar = .ok () := rfl
  have hmarked : allKinds.check marked = .ok () := rfl
  obtain ⟨hnone, hsome⟩ := Registry.convert_bridges hactual hcolumnar ⟨⟨7⟩, unordered⟩ ⟨[]⟩
  have hopen : ¬ (allKinds.satisfies unordered columnar = true ∨ allKinds.Refused unordered columnar) := by
    intro h
    have himpossible := hnone.2 h
    cases himpossible
  obtain ⟨ns, hchain, hbridges⟩ := hsome hopen
  have hlength : ns.length = 4 := hbridges.length
  have hrefused : allKinds.Refused unordered marked :=
    ⟨(.custom (.string "none") none, 4), Registry.mem_unmet.2 ⟨rfl, by decide⟩, .custom (.bool true), .custom (.bool false),
      rfl, rfl, fun _ _ _ => rfl⟩
  have hstuck := (Registry.convert_bridges hactual hmarked ⟨⟨7⟩, unordered⟩ ⟨[]⟩).1.2 (.inr hrefused)
  exact ⟨hactual, hcolumnar, ⟨ns, hchain, hlength, hbridges⟩, hstuck⟩

end SmallHost

end PlanSearch
