import PlanSearch.Proofs.Outline.Appraisal
import PlanSearch.Proofs.Outline.Growth

/-!
# Labels carried over

A labelling derives the label of an expression from the labels of the groups that it reads. When an outline grows, a
new group gets the label of the expression that founds it, and labels that were right before stay so. In an outline
that grew from nothing there is no choice: two assignments of labels that are right agree on all live groups.

    o.Grown o' → o.Labelled L v → ∃ w, o'.Labelled L w ∧ o.Agree v w             (Grown.labelled)
    o.Joins g p o' → o.Rigid L → o'.Rigid L                                      (Joins.rigid)
-/

namespace PlanSearch

universe u

/-- How the label of an expression comes from the labels of the groups that it reads. The names of these groups do
not matter, nor does in which form its values are. -/
structure Labelling (Op : Type) (V : Type u) where
  label : (GroupId → V) → Expr Op → V
  congruent : ∀ v x y, x.Congruent y → label v x = label v y
  reads : ∀ (v w : GroupId → V) (f : GroupId → GroupId) (x : Expr Op),
    (∀ r ∈ x.inputs, w (f r.group) = v r.group) →
    label w { x with inputs := x.inputs.map fun r => ⟨f r.group, r.traits⟩ } = label v x

namespace Labelling

variable {Op : Type} {V : Type u}

/-- Labels only see what groups are labelled with. -/
theorem discreet (L : Labelling Op V) (v : GroupId → V) : Outline.Discreet (L.label v) v where
  congruent := L.congruent v
  moved f hf x := L.reads v v f x fun r _ => hf r.group

theorem label_congr (L : Labelling Op V) {v w : GroupId → V} {x : Expr Op}
    (h : ∀ r ∈ x.inputs, w r.group = v r.group) : L.label w x = L.label v x := by
  have hreads := L.reads v w id x h
  have hself : x.inputs.map (fun r => (⟨id r.group, r.traits⟩ : SubGroupRef)) = x.inputs := List.map_id x.inputs
  rwa [hself] at hreads

end Labelling

namespace Outline

variable {Op : Type} {V : Type u}

/-- Every live expression has the label of its group, and every name of a group the same label. -/
abbrev Labelled (o : Outline Op) (L : Labelling Op V) (v : GroupId → V) : Prop := o.Appraised (L.label v) v

/-- Two assignments agree on all names given out. -/
def Agree (o : Outline Op) (v w : GroupId → V) : Prop := ∀ g, (o.groupRep g).isSome → w g = v g

/-- Names once given out stay so. -/
def Registers (o o' : Outline Op) : Prop := ∀ g, (o.groupRep g).isSome → (o'.groupRep g).isSome

section Labelled

variable {o o' : Outline Op} {L : Labelling Op V} {v w : GroupId → V}

theorem Labelled.earlier (h : o'.Labelled L v) (he : o.Evolves [] o' []) (hn : o'.Names) : o.Labelled L v :=
  Appraised.earlier h (L.discreet v) he hn

theorem Names.named_of_live (h : o.Names) {g : GroupId} (hg : (o.group g).isSome) : (o.groupRep g).isSome := by
  rw [h.groupRep_of_live hg]
  rfl

/-- The labels of names that were never given out do not matter. -/
theorem Labelled.congr (h : o.Labelled L v) (ho : o.Tidy) (hw : o.Agree v w) : o.Labelled L w where
  names g := by
    have hv := h.names g
    unfold reduce at hv ⊢
    cases hr : o.groupRep g with
    | none => rfl
    | some r =>
      rw [hr] at hv
      rw [Option.getD_some, hw r (by rw [ho.sound.names.groups.rep_rep g r hr]; rfl), hw g (by rw [hr]; rfl)]
      exact hv
  exprs e x g hx := by
    have hin : ∀ r ∈ x.inputs, w r.group = v r.group := fun r hr =>
      hw _ (ho.sound.names.named_of_live (ho.ready e x g hx r hr).isSome)
    rw [hw g (ho.sound.names.named_of_live (ho.sound.places.home e x g hx)), ← h.exprs e x g hx]
    exact L.label_congr hin

/-! ## Growth -/

theorem Growth.registers (h : o.Growth o') : o.Registers o' := by
  intro g hg
  cases h with
  | openSub => exact hg
  | found =>
    simp only [Outline.found, enter]
    split
    · rfl
    · exact hg

theorem Grown.registers (h : o.Grown o') : o.Registers o' := by
  induction h with
  | refl => exact fun _ hg => hg
  | tail _ hs ih => exact fun g hg => hs.registers g (ih g hg)

/-- A new group gets the label of its first member. -/
theorem Growth.labelled (h : o.Growth o') (ho : o.Tidy) (hv : o.Labelled L v) :
    ∃ w, o'.Labelled L w ∧ o.Agree v w := by
  cases h with
  | openSub => exact ⟨v, ⟨hv.names, hv.exprs⟩, fun _ _ => rfl⟩
  | @found x rowType facts ready apart =>
    have hold : ∀ k, (o.groupRep k).isSome → k ≠ ⟨o.next + 1⟩ := fun k hk e => by
      rw [e, ho.sound.names.groups.rep_eq_none (Nat.le_succ _)] at hk
      cases hk
    let w : GroupId → V := fun g => if g = ⟨o.next + 1⟩ then L.label v x else v g
    have hagree : o.Agree v w := fun g hg => if_neg (hold g hg)
    have hw := hv.congr ho hagree
    refine ⟨w, ⟨fun g => ?_, fun e y g hy => ?_⟩, hagree⟩
    · rw [ho.sound.names.reduce_found]
      exact hw.names g
    · simp only [Outline.found, enter] at hy
      split at hy
      · cases hy
        have hnew : w ⟨o.next + 1⟩ = L.label v x := if_pos rfl
        rw [hnew]
        exact L.label_congr fun r hr => hagree _ (ho.sound.names.named_of_live (ready r hr).isSome)
      · exact hw.exprs e y g hy

theorem Grown.labelled (h : o.Grown o') (ho : o.Tidy) (hv : o.Labelled L v) :
    ∃ w, o'.Labelled L w ∧ o.Agree v w := by
  induction h with
  | refl => exact ⟨v, hv, fun _ _ => rfl⟩
  | tail hg hs ih =>
    obtain ⟨w, hw, hagree⟩ := ih
    obtain ⟨u, hu, hagree'⟩ := hs.labelled (Grown.tidy hg ho) hw
    exact ⟨u, hu, fun g hr => (hagree' g (Grown.registers hg g hr)).trans (hagree g hr)⟩

/-! ## No choice -/

/-- Labels that are right are the same for all live groups. -/
def Rigid (o : Outline Op) (L : Labelling Op V) : Prop :=
  ∀ v w, o.Labelled L v → o.Labelled L w → ∀ g, (o.group g).isSome → w g = v g

/-- Where no group is new, there is no more choice than before. -/
theorem Rigid.later (h : o.Rigid L) (he : o.Evolves [] o' []) (hn : o'.Names)
    (hl : ∀ g, (o'.group g).isSome → (o.group g).isSome) : o'.Rigid L :=
  fun v w hv hw g hg => h v w (hv.earlier he hn) (hw.earlier he hn) g (hl g hg)

/-- There is no choice for a new group either. -/
theorem Growth.rigid (h : o.Growth o') (ho : o.Tidy) (hr : o.Rigid L) : o'.Rigid L := by
  have hn := (h.tidy ho).sound.names
  cases h with
  | @openSub g traits c live new =>
    exact hr.later (ho.sound.evolves_openSub g traits) hn fun k hk => by
      rwa [isSome_group_openSub] at hk
  | @found x rowType facts ready apart =>
    intro v w hv hw g hg
    have he : o.Evolves [] (o.found x rowType facts) [] :=
      ho.sound.evolves_found rowType facts ready.reading apart
    have hbefore := hr v w (hv.earlier he hn) (hw.earlier he hn)
    have hnew : (o.found x rowType facts).entry ⟨o.next⟩ = some (x, ⟨o.next + 1⟩) := if_pos rfl
    rw [isSome_group_found, Bool.or_eq_true, decide_eq_true_eq] at hg
    rcases hg with rfl | hg
    · rw [← hv.exprs _ _ _ hnew, ← hw.exprs _ _ _ hnew]
      exact L.label_congr fun r hr => hbefore r.group (ready r hr).isSome
    · exact hbefore g hg

theorem Grown.rigid (h : o.Grown o') (ho : o.Tidy) (hr : o.Rigid L) : o'.Rigid L := by
  induction h with
  | refl => exact hr
  | tail hg hs ih => exact hs.rigid (Grown.tidy hg ho) ih

theorem Merges.rigid {ps : List (GroupId × GroupId)} (h : o.Merges ps o') (ho : o.Tidy) (hr : o.Rigid L) :
    o'.Rigid L := by
  have he := h.evolves ho
  exact hr.later ⟨he.group, he.expr, he.entry, fun _ hq => by cases hq⟩ (h.tidy ho).sound.names
    fun _ hg => h.live_of_live hg

theorem Joins.rigid {g : GroupId} {p : Plan Op} (h : o.Joins g p o') (ho : o.Tidy) (hr : o.Rigid L) :
    o'.Rigid L := by
  cases h with
  | merge grown _ _ _ merges => exact merges.rigid (grown.tidy ho) (grown.rigid ho hr)
  | attach grown _ live ready apart =>
    have ht := grown.tidy ho
    exact (grown.rigid ho hr).later (ht.sound.evolves_attach live ready.reading apart)
      (ht.attach live ready apart).sound.names fun k hk => by rwa [isSome_group_attach] at hk
  | identify merges => exact merges.rigid ho hr

end Labelled

end Outline

end PlanSearch
