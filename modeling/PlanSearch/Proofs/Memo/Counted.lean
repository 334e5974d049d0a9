import PlanSearch.Proofs.Memo.Merging
import PlanSearch.Proofs.Memo.Piecewise

/-!
# Counting groups

Every group name is either live or was joined to another by a merge, so there are as many live groups
as the partition of the names has parts. A merge takes one away of either.

    m.Counted → m.groupAlias.parts = m.groups.size                  (Memo.Counted.parts_eq)
    m.Counted → … → absorb keep absorbed gone m = .ok (m', more) → m'.Counted      (Memo.Counted.absorb)
-/

namespace PlanSearch

namespace Memo

variable {Op Q : Type}

/-- There are as many live groups as group names that were never joined to another. -/
def Counted (m : Memo Op Q) : Prop := m.groupAlias.parts = m.groupCount

theorem Counted.parts_eq {m : Memo Op Q} (h : m.Counted) : m.groupAlias.parts = m.groups.size := h

theorem Counted.of_same {m m' : Memo Op Q} (h : m.Counted) (ha : m'.groupAlias = m.groupAlias)
    (hc : m'.groupCount = m.groupCount) : m'.Counted := by
  unfold Counted
  rw [ha, hc]
  exact h

/-! ## Steps that leave the names of groups alone -/

theorem groupAlias_markIf {require : Bool} {s : SubGroupId} {m m' : Memo Op Q}
    (h : markIf require s m = .ok m') : m'.groupAlias = m.groupAlias := by
  obtain ⟨rfl, -⟩ | ⟨-, sub, -, -, rfl⟩ := markIf_eq_ok h <;> rfl

/-- A merge joins names and takes a group away at once, when it takes the group in. -/
theorem piecewise_counts : Piecewise fun m m' : Memo Op Q =>
    m'.groupAlias = m.groupAlias ∧ m'.groupCount = m.groupCount where
  refl _ := ⟨rfl, rfl⟩
  trans h₁ h₂ := ⟨h₂.1.trans h₁.1, h₂.2.trans h₁.2⟩
  noted _ := ⟨rfl, rfl⟩
  crowned _ := ⟨rfl, rfl⟩
  priced _ := ⟨rfl, rfl⟩
  folded _ hmark _ := ⟨(groupAlias_markIf hmark :), congrArg Std.TreeMap.size (groups_of_markIf hmark :)⟩
  handed _ := ⟨rfl, Std.TreeMap.size_modify⟩
  rewritten _ := ⟨rfl, rfl⟩
  struck _ _ _ _ x := ⟨rfl, Std.TreeMap.size_modify.trans (size_foldl_modify x.inputs _ _)⟩

/-! ## Merging -/

theorem Counted.absorb [DecidableEq Op] [Quantity Q] {keep absorbed : GroupId} {gone : Group} {m m' : Memo Op Q}
    {more : List (GroupId × GroupId)} (hc : m.Counted) (hn : m.outline.Names) (hne : keep ≠ absorbed)
    (hk : (m.outline.group keep).isSome) (ha : m.groups[absorbed]? = some gone)
    (h : absorb keep absorbed gone m = .ok (m', more)) : m'.Counted := by
  have hmem : absorbed ∈ m.groups := by rw [Std.TreeMap.mem_iff_isSome_getElem?, ha]; rfl
  have hlive : (m.outline.group absorbed).isSome := by rw [outline_group_of ha]; rfl
  have htaken : (takeIn keep absorbed gone m).Counted := by
    have hlt := groupCount_takeIn keep gone hmem
    have hsize : (takeIn keep absorbed gone m).groupCount + 1 = m.groupCount := by
      simp only [groupCount, takeIn, Std.TreeMap.size_modify, Std.TreeMap.size_erase,
        Std.TreeMap.contains_iff_mem.2 hmem, if_true] at hlt ⊢
      omega
    unfold Counted at hc ⊢
    have hparts : (takeIn keep absorbed gone m).groupAlias.parts = m.groupAlias.parts - 1 :=
      (Partition.parts_unite (hn.groupRep_of_live hk) (hn.groupRep_of_live hlive)).trans (if_neg hne)
    omega
  obtain ⟨halias, hcount⟩ := piecewise_counts.absorb h
  exact htaken.of_same halias hcount

end Memo

end PlanSearch
