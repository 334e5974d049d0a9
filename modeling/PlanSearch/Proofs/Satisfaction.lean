import PlanSearch.Proofs.Conversions
import PlanSearch.Relational.Kind

/-!
# Satisfaction as an order

Each kind of trait orders its traits: a named convention is above nothing but itself, an order of rows is above all orders
that it begins, every hash distribution is above the single stream, and what a host's kind requires nothing by is above
all. The trait without requirements is on top each time. Trait sets are ordered kind by kind, whatever kinds there are and
in whatever order, so that satisfaction is a partial order on the sets that fit, up to the values in them that are the
same.

    k.satisfies a b → k.satisfies b a → a.Same b                     (TraitKind.same_of_satisfies)
    r.check a = .ok () → (r.satisfies a b ∧ r.satisfies b a ↔ a.Same b) ∧ r.satisfies a r.any
                                                                     (Registry.satisfies_partialOrder)
-/

namespace PlanSearch

variable {Op : Type}

namespace TraitKind

/-- A trait of a kind meets the trait of the kind that requires nothing. -/
theorem satisfies_any {k : TraitKind Op} {t : Trait} (h : k.accepts t = true) : k.satisfies t k.any = true := by
  cases k with
  | convention converters => rfl
  | collation sort =>
    cases t with
    | collation c => rfl
    | _ => cases h
  | distribution exchange =>
    cases t with
    | distribution d => rfl
    | _ => cases h
  | custom v op => simp [satisfies, any, Trait.Same]

/-- Traits that meet each other are the same. -/
theorem same_of_satisfies (k : TraitKind Op) {a b : Trait} (hab : k.satisfies a b = true)
    (hba : k.satisfies b a = true) : a.Same b := by
  cases k with
  | convention converters =>
    cases a with
    | convention a =>
      cases b with
      | convention b => cases a <;> cases b <;> simp_all [satisfies, Trait.Same]
      | _ => simp [satisfies] at hab
    | _ => cases b <;> simp [satisfies] at hba
  | collation sort =>
    cases a with
    | collation a =>
      cases b with
      | collation b =>
        simp only [satisfies, List.isPrefixOf_iff_prefix] at hab hba
        have hkeys : a.keys = b.keys := hba.eq_of_length_le hab.length_le
        rw [show a = b from congrArg Collation.mk hkeys]
        rfl
      | _ => cases hab
    | _ => simp [satisfies] at hab
  | distribution exchange =>
    cases a with
    | distribution a =>
      cases b with
      | distribution b => cases a <;> cases b <;> simp_all [satisfies, Trait.Same]
      | _ => simp [satisfies] at hab
    | _ => simp [satisfies] at hab
  | custom v op =>
    simp only [satisfies, Bool.or_eq_true, decide_eq_true_eq] at hab hba
    rcases hab with hany | hsame
    · rcases hba with hany' | hsame
      · exact hany'.trans hany.symm
      · exact hsame.symm
    · exact hsame

end TraitKind

namespace Registry

theorem same_of_satisfiesAll : ∀ (ks : List (TraitKind Op)) {as bs : List Trait}, as.length = ks.length →
    bs.length = ks.length → satisfiesAll ks as bs = true → satisfiesAll ks bs as = true →
    as.map Trait.canon = bs.map Trait.canon
  | [], [], [], _, _, _, _ => rfl
  | k :: ks, a :: as, b :: bs, ha, hb, hab, hba => by
    simp only [satisfiesAll, Bool.and_eq_true] at hab hba
    rw [List.map_cons, List.map_cons, show a.canon = b.canon from k.same_of_satisfies hab.1 hba.1,
      same_of_satisfiesAll ks (Nat.succ.inj ha) (Nat.succ.inj hb) hab.2 hba.2]

/-- Trait sets that meet each other are the same. -/
theorem same_of_satisfies {r : Registry Op} {a b : TraitSet} (hab : r.satisfies a b = true)
    (hba : r.satisfies b a = true) : a.Same b := by
  simp only [satisfies, Bool.and_eq_true, decide_eq_true_eq] at hab hba
  obtain ⟨⟨-, ha⟩, hab⟩ := hab
  obtain ⟨⟨-, hb⟩, hba⟩ := hba
  exact congrArg TraitSet.mk (same_of_satisfiesAll r.kinds ha hb hab hba)

/-- A trait set that fits meets the set without requirements. -/
theorem satisfies_any {r : Registry Op} {s : TraitSet} (h : r.check s = .ok ()) : r.satisfies s r.any = true := by
  have hall : satisfiesAll r.kinds s.traits r.any.traits = true := by
    refine satisfiesAll_iff.2 fun j k a t hk ha ht => ?_
    have hany : r.any.traits[j]? = some k.any := by simp [any, hk]
    rw [ht] at hany
    cases hany
    exact TraitKind.satisfies_any (accepts_of_check h hk ha)
  simp [satisfies, size_of_check h, size_any, hall]

/-- Whatever kinds there are, and in whatever order: on the trait sets that fit, satisfaction is reflexive and transitive,
sets satisfy each other exactly if they are the same, and each of them satisfies the set without requirements, which fits
as well. -/
theorem satisfies_partialOrder (r : Registry Op) :
    (∀ a, r.check a = .ok () → r.satisfies a a = true) ∧
    (∀ a b c, r.satisfies a b = true → r.satisfies b c = true → r.satisfies a c = true) ∧
    (∀ a b, r.check a = .ok () → (r.satisfies a b = true ∧ r.satisfies b a = true ↔ a.Same b)) ∧
    r.check r.any = .ok () ∧ ∀ a, r.check a = .ok () → r.satisfies a r.any = true := by
  refine ⟨fun a ha => satisfies_self ha, fun a b c => r.satisfies_trans, fun a b ha => ⟨fun h => ?_, fun hs => ?_⟩,
    r.check_any, fun a ha => satisfies_any ha⟩
  · exact same_of_satisfies h.1 h.2
  · have hself := satisfies_self ha
    exact ⟨r.satisfies_congr (TraitSet.same_refl a) hs ▸ hself, r.satisfies_congr hs (TraitSet.same_refl a) ▸ hself⟩

end Registry

namespace SmallHost

open Relational

/-- All kinds, that of the host twice: its zero requires nothing in the first position, and its text in the last. -/
def allKinds : Registry Kind :=
  ⟨[.custom (.float ⟨0⟩) (some (.ext 1)), .distribution (some .exchange), .collation (some .sort),
    .convention [⟨"rows", "columns", .converter⟩], .custom (.string "none") none]⟩

/-- A single ordered stream of rows. -/
def stream : TraitSet :=
  ⟨[.custom (.i64 3), .distribution .singleton, .collation ⟨[⟨0, .asc, false⟩, ⟨1, .desc, true⟩]⟩,
    .convention (.named "rows"), .custom (.bool true)]⟩

/-- Less than what a stream is. -/
def partitioned : TraitSet :=
  ⟨[.custom (.float ⟨0⟩), .distribution (.hash [4]), .collation ⟨[⟨0, .asc, false⟩]⟩, .convention (.named "rows"),
    .custom (.bool true)]⟩

/-- The same, with the other zero. -/
def partitioned' : TraitSet := partitioned.replace 0 (.custom (.float ⟨0x8000000000000000⟩))

/-- A stream is partitioned as well, with either zero, but partitions are no stream. -/
theorem stream_partialOrder : allKinds.check stream = .ok () ∧ allKinds.check partitioned = .ok () ∧
    allKinds.satisfies stream stream = true ∧ allKinds.satisfies stream partitioned' = true ∧
    allKinds.satisfies partitioned partitioned' = true ∧ allKinds.satisfies partitioned' partitioned = true ∧
    allKinds.satisfies partitioned stream = false ∧ allKinds.satisfies stream allKinds.any = true := by
  obtain ⟨hrefl, htrans, hsame, -, htop⟩ := Registry.satisfies_partialOrder allKinds
  have hstream : allKinds.check stream = .ok () := rfl
  have hpartitioned : allKinds.check partitioned = .ok () := rfl
  have hzeros : partitioned.Same partitioned' := by decide
  obtain ⟨hto, hfrom⟩ := (hsame partitioned partitioned' hpartitioned).2 hzeros
  exact ⟨hstream, hpartitioned, hrefl stream hstream, htrans stream partitioned partitioned' (by decide) hto, hto, hfrom,
    by decide, htop stream hstream⟩

end SmallHost

end PlanSearch
