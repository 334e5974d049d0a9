import PlanSearch.Trait.Registry

/-!
# Requirements

What meets a requirement meets every weaker one: to satisfy is transitive, kind by kind and so for whole
trait sets. It does not matter either which of the values that are the same a trait holds.

    r.satisfies a b → r.satisfies b c → r.satisfies a c                        (Registry.satisfies_trans)
-/

namespace PlanSearch

namespace TraitKind

variable {Op : Type}

theorem satisfies_trans (k : TraitKind Op) {a b c : Trait} (hab : k.satisfies a b = true)
    (hbc : k.satisfies b c = true) : k.satisfies a c = true := by
  cases k with
  | convention converters =>
    cases c with
    | convention c =>
      by_cases hany : c = .any
      · rw [hany]
        rfl
      · cases b with
        | convention b =>
          obtain rfl : b = c := by cases c <;> simp_all [satisfies]
          exact hab
        | _ => cases c <;> simp_all [satisfies]
    | _ => simp [satisfies] at hbc
  | collation sort =>
    cases c with
    | collation c =>
      cases b with
      | collation b =>
        cases a with
        | collation a =>
          simp only [satisfies, List.isPrefixOf_iff_prefix] at hab hbc ⊢
          exact hbc.trans hab
        | _ => cases hab
      | _ => cases hbc
    | _ => simp [satisfies] at hbc
  | distribution exchange =>
    cases c with
    | distribution c =>
      cases b with
      | distribution b =>
        cases a with
        | distribution a => cases c <;> cases b <;> cases a <;> simp_all [satisfies]
        | _ => simp [satisfies] at hab
      | _ => simp [satisfies] at hbc
    | _ => simp [satisfies] at hbc
  | custom v op =>
    simp only [satisfies, Bool.or_eq_true, decide_eq_true_eq] at hab hbc ⊢
    rcases hbc with hany | hsame
    · exact .inl hany
    · rcases hab with hany | hab
      · exact .inl (hsame.symm.trans hany)
      · exact .inr (hab.trans hsame)

/-- Traits that are the same satisfy, and are satisfied by, the same traits. -/
theorem satisfies_canon (k : TraitKind Op) (a b : Trait) :
    k.satisfies a.canon b.canon = k.satisfies a b := by
  cases k with
  | convention converters =>
    cases b with
    | convention c => cases c <;> cases a <;> rfl
    | _ => cases a <;> rfl
  | collation sort => cases a <;> cases b <;> rfl
  | distribution exchange => cases a <;> cases b <;> rfl
  | custom v op =>
    rw [Bool.eq_iff_iff]
    simp only [satisfies, Bool.or_eq_true, decide_eq_true_eq]
    simp only [Trait.Same, Trait.canon_canon]

end TraitKind

namespace Registry

variable {Op : Type}

theorem satisfiesAll_trans : ∀ (ks : List (TraitKind Op)) {as bs cs : List Trait},
    as.length = bs.length → bs.length = cs.length → satisfiesAll ks as bs = true →
    satisfiesAll ks bs cs = true → satisfiesAll ks as cs = true
  | [], _, _, _, _, _, _, _ => rfl
  | _ :: _, [], [], [], _, _, _, _ => rfl
  | k :: ks, a :: as, b :: bs, c :: cs, hab, hbc, h₁, h₂ => by
    simp only [satisfiesAll, Bool.and_eq_true] at h₁ h₂ ⊢
    refine ⟨k.satisfies_trans h₁.1 h₂.1, ?_⟩
    exact satisfiesAll_trans ks (Nat.succ.inj hab) (Nat.succ.inj hbc) h₁.2 h₂.2

/-- What satisfies a trait set satisfies all that it satisfies. -/
theorem satisfies_trans (r : Registry Op) {a b c : TraitSet} (hab : r.satisfies a b = true)
    (hbc : r.satisfies b c = true) : r.satisfies a c = true := by
  simp only [satisfies, Bool.and_eq_true, decide_eq_true_eq] at hab hbc ⊢
  obtain ⟨⟨hsize, hr⟩, hab⟩ := hab
  obtain ⟨⟨hsize', -⟩, hbc⟩ := hbc
  exact ⟨⟨hsize.trans hsize', hr⟩, satisfiesAll_trans r.kinds hsize hsize' hab hbc⟩

theorem satisfiesAll_canon : ∀ (ks : List (TraitKind Op)) (as bs : List Trait),
    satisfiesAll ks (as.map Trait.canon) (bs.map Trait.canon) = satisfiesAll ks as bs
  | [], _, _ => rfl
  | _ :: _, [], _ => rfl
  | _ :: _, _ :: _, [] => rfl
  | k :: ks, a :: as, b :: bs => by
    simp only [List.map_cons, satisfiesAll, k.satisfies_canon a b, satisfiesAll_canon ks as bs]

/-- Trait sets that are the same satisfy, and are satisfied by, the same. -/
theorem satisfies_congr (r : Registry Op) {a a' b b' : TraitSet} (ha : a.Same a') (hb : b.Same b') :
    r.satisfies a b = r.satisfies a' b' := by
  have hcanon : ∀ a b : TraitSet, r.satisfies a.canon b.canon = r.satisfies a b := by
    intro a b
    rw [Bool.eq_iff_iff]
    simp only [satisfies, Bool.and_eq_true, decide_eq_true_eq]
    simp only [TraitSet.canon, TraitSet.size, List.length_map, satisfiesAll_canon]
  rw [← hcanon a b, ← hcanon a' b', show a.canon = a'.canon from ha, show b.canon = b'.canon from hb]

end Registry

end PlanSearch
