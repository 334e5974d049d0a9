import PlanSearch.Proofs.Memo.CallEdits
import PlanSearch.Proofs.Memo.Congruence
import PlanSearch.Proofs.SmallHost

/-!
# Row types of what is added

An operation has a row type, and so has a group, but an expression of the memo has none of its own: it counts as
having that of its group. Where an operation is added as a member of a group, the two row types are compared. Where
it founds a group, the group gets its row type. But where it is found to be known already, which is told by
everything but the row type, it is taken for what is known without a comparison. So the group that holds an
operation has its row type unless the operation was known before, or another one of the same plan is taken for the
same expression.

    o.Stands p r → o.Evolves [] o' [] → o'.Stands p (o'.reduceRef r)                            (Stands.evolve)
    add n m = .ok (g, e) m' → every operation of `n` is held, and founded its group or was known
                                                                                   (Memo.Reached.row_types)
-/

namespace PlanSearch

open Outline

/-! ## Parts of plans -/

/-- The operation over these inputs is a part of the plan. -/
inductive Plan.Has {Op : Type} : Plan Op → Operation Op → List (Plan Op) → Prop
  | root (head : Operation Op) (inputs : List (Plan Op)) : Plan.Has (.node head inputs) head inputs
  | inside {head head' : Operation Op} {inputs inputs' : List (Plan Op)} {p : Plan Op} (mem : p ∈ inputs)
      (part : Plan.Has p head' inputs') : Plan.Has (.node head inputs) head' inputs'

namespace Outline

variable {Op : Type} {o o' : Outline Op}

/-- The expression `e`, a member of the group `g`, is the operation over what stands for its inputs. -/
def Holds (o : Outline Op) (head : Operation Op) (inputs : List (Plan Op)) (e : ExprId) (g : GroupId) : Prop :=
  ∃ refs y, o.StandAll inputs refs ∧ o.entry e = some (y, g) ∧
    y.Congruent ⟨head.op, refs, head.data, head.traits⟩

theorem StandAll.exists_stands {ps : List (Plan Op)} {rs : List SubGroupRef} (h : o.StandAll ps rs)
    {p : Plan Op} (hp : p ∈ ps) : ∃ r, o.Stands p r := by
  induction ps generalizing rs with
  | nil => cases hp
  | cons q ps ih =>
    cases h with
    | cons first rest =>
      rcases List.mem_cons.1 hp with rfl | hp
      · exact ⟨_, first⟩
      · exact ih rest hp

/-- Where a plan stands, every operation in it is held. -/
theorem Stands.holds {p : Plan Op} {r : SubGroupRef} (h : o.Stands p r) {head : Operation Op}
    {inputs : List (Plan Op)} (hp : p.Has head inputs) : ∃ e g, o.Holds head inputs e g := by
  induction hp generalizing r with
  | root head inputs =>
    cases h with
    | node below known congruent => exact ⟨_, _, _, _, below, known, congruent⟩
  | inside mem part ih =>
    cases h with
    | node below known congruent =>
      obtain ⟨r', hr'⟩ := below.exists_stands mem
      exact ih hr'

theorem Holds.later (hk : o.Keeps o') {head : Operation Op} {inputs : List (Plan Op)} {e : ExprId} {g : GroupId}
    (h : o.Holds head inputs e g) : o'.Holds head inputs e g := by
  obtain ⟨refs, y, hbelow, hy, hc⟩ := h
  exact ⟨refs, y, hbelow.later hk, hk.entry _ _ hy, hc⟩

/-! ### Over merges -/

/-- A live expression over redirected inputs is what its name stands for later. -/
theorem Evolves.congruent (he : o.Evolves [] o' []) (ht : o'.Tidy) {e : ExprId} {y x : Expr Op} {g : GroupId}
    (hy : o.entry e = some (y, g)) (hc : y.Congruent x) :
    ∃ y', o'.entry (o'.reduceExpr e) = some (y', o'.reduce g) ∧ y'.Congruent (o'.settled x) := by
  obtain ⟨y', hy', halike⟩ := he.entry_settled ht.sound hy
  have hself : o'.settled y' = y' := by
    have hin : y'.inputs.map o'.reduceRef = y'.inputs := by
      refine (List.map_congr_left fun r hr => ?_).trans (List.map_id _)
      show (⟨o'.reduce r.group, r.traits⟩ : SubGroupRef) = r
      rw [ht.reduce_input hy' hr]
    rw [settled, hin]
  refine ⟨y', hy', ?_⟩
  have hsettled : (o'.settled y').Congruent (o'.settled x) := halike.symm.trans (Alike.of_congruent hc)
  rwa [hself] at hsettled

mutual

/-- What stands for a plan goes on doing so, by whatever name. -/
theorem Stands.evolve (he : o.Evolves [] o' []) (ht : o'.Tidy) {p : Plan Op} {r : SubGroupRef} :
    o.Stands p r → o'.Stands p (o'.reduceRef r)
  | .ref r => by
    have hr : o'.reduceRef (o.reduceRef r) = o'.reduceRef r :=
      congrArg (SubGroupRef.mk · r.traits) (he.group r.group)
    rw [hr]
    exact .ref r
  | .node below known congruent => by
    obtain ⟨y', hy', hc⟩ := he.congruent ht known congruent
    exact .node (below.evolve he ht) hy' hc

theorem StandAll.evolve (he : o.Evolves [] o' []) (ht : o'.Tidy) {ps : List (Plan Op)} {rs : List SubGroupRef} :
    o.StandAll ps rs → o'.StandAll ps (rs.map o'.reduceRef)
  | .nil => .nil
  | .cons first rest => .cons (first.evolve he ht) (rest.evolve he ht)

end

theorem Holds.evolve (he : o.Evolves [] o' []) (ht : o'.Tidy) {head : Operation Op} {inputs : List (Plan Op)}
    {e : ExprId} {g : GroupId} (h : o.Holds head inputs e g) :
    o'.Holds head inputs (o'.reduceExpr e) (o'.reduce g) := by
  obtain ⟨refs, y, hbelow, hy, hc⟩ := h
  obtain ⟨y', hy', hc'⟩ := he.congruent ht hy hc
  exact ⟨refs.map o'.reduceRef, y', hbelow.evolve he ht, hy', hc'⟩

/-! ### One of each -/

mutual

/-- There is one reference only that stands for a plan. -/
theorem Stands.unique (hs : o.Places) {p : Plan Op} {r r' : SubGroupRef} :
    o.Stands p r → o.Stands p r' → r = r'
  | .ref _, .ref _ => rfl
  | .node below known congruent, .node below' known' congruent' => by
    obtain rfl := below.unique hs below'
    obtain rfl := hs.apart _ _ _ _ _ _ known known' (congruent.trans congruent'.symm)
    cases known.symm.trans known'
    rfl

theorem StandAll.unique (hs : o.Places) {ps : List (Plan Op)} {rs rs' : List SubGroupRef} :
    o.StandAll ps rs → o.StandAll ps rs' → rs = rs'
  | .nil, .nil => rfl
  | .cons first rest, .cons first' rest' => by
    rw [first.unique hs first', rest.unique hs rest']

end

theorem Holds.unique (hs : o.Places) {head : Operation Op} {inputs : List (Plan Op)} {e e' : ExprId} {g g' : GroupId}
    (h : o.Holds head inputs e g) (h' : o.Holds head inputs e' g') : e = e' ∧ g = g' := by
  obtain ⟨refs, y, hbelow, hy, hc⟩ := h
  obtain ⟨refs', y', hbelow', hy', hc'⟩ := h'
  obtain rfl := hbelow.unique hs hbelow'
  obtain rfl := hs.apart _ _ _ _ _ _ hy hy' (hc.trans hc'.symm)
  cases hy.symm.trans hy'
  exact ⟨rfl, rfl⟩

/-! ### New expressions -/

/-- Every expression that is new is held for one of the operations `part`, whose row type its group has. -/
def Founds (o o' : Outline Op) (part : Operation Op → List (Plan Op) → Prop) : Prop :=
  ∀ e y g, o'.entry e = some (y, g) → o.entry e = none →
    ∃ head inputs, part head inputs ∧ o'.Holds head inputs e g ∧ o'.rowType? g = some head.rowType

variable {part part' : Operation Op → List (Plan Op) → Prop}

theorem Founds.of_entry_eq (h : o'.entry = o.entry) : o.Founds o' part := by
  intro e y g hy hnone
  rw [h, hnone] at hy
  cases hy

theorem Founds.mono (h : o.Founds o' part) (hp : ∀ head inputs, part head inputs → part' head inputs) :
    o.Founds o' part' := by
  intro e y g hy hnone
  obtain ⟨head, inputs, hpart, hrest⟩ := h e y g hy hnone
  exact ⟨head, inputs, hp head inputs hpart, hrest⟩

theorem Founds.trans {o'' : Outline Op} (h₁ : o.Founds o' part) (h₂ : o'.Founds o'' part) (ht : o'.Tidy)
    (hk : o'.Keeps o'') (hr : ∀ g, (o'.groupRep g).isSome → o''.rowType? g = o'.rowType? g) :
    o.Founds o'' part := by
  intro e y g hy hnone
  cases he : o'.entry e with
  | none => exact h₂ e y g hy he
  | some p =>
    obtain ⟨y', g'⟩ := p
    obtain ⟨head, inputs, hpart, hholds, hrow⟩ := h₁ e y' g' he hnone
    cases (hk.entry _ _ he).symm.trans hy
    refine ⟨head, inputs, hpart, hholds.later hk, ?_⟩
    rw [hr _ (by rw [ht.sound.names.groupRep_of_live (ht.sound.places.home _ _ _ he)]; rfl), hrow]

end Outline

namespace Memo

variable {Op Q : Type} [Quantity Q] {m m' : Memo Op Q}

/-! ## Adding plans -/

theorem entry_ensureSubGroup {r : SubGroupRef} {require : Bool} {s : SubGroupId} (ht : m.outline.Tidy)
    (h : ensureSubGroup r require m = .ok s m') : m'.outline.entry = m.outline.entry := by
  rcases ensureSubGroup_opens ht h with hout | ⟨c, -, -, hout⟩ <;> rw [hout]
  rfl

/-- Row types stay as they are over any edits. -/
theorem rowType?_of_edits {P : Terms Op Q} (ht : m.outline.Tidy) (h : Edits P m.work m'.work) (g : GroupId)
    (hg : (m.outline.groupRep g).isSome) : m'.outline.rowType? g = m.outline.rowType? g :=
  (Edits.rowType?_eq h (sound_of_tidy ht []) hg).2

variable [Operator Op]

/-- An operation that is not known founds a group with its row type. -/
theorem register_founds {head : Operation Op} {inputs : List (Plan Op)} {refs : List SubGroupRef} {g : GroupId}
    {e : ExprId} (hm : m.Ordered []) (hi : m.outline.StandAll inputs refs) (hserved : ∀ r ∈ refs, m.outline.Served r)
    (h : register head refs none m = .ok (g, e) m') :
    m.outline.Founds m'.outline (Plan.Has (.node head inputs)) := by
  cases register_eq_ok h with
  | found known => exact .of_entry_eq rfl
  | created new ok =>
    have ha := findExpr?_eq_none new
    obtain ⟨facts, hout, rfl, rfl, hm'⟩ :=
      create_founds (x := ⟨head.op, refs, head.data, head.traits⟩) hm hserved ha ok
    have hn := hm.tidy.sound.names
    have hk := hn.keeps_found ⟨head.op, refs, head.data, head.traits⟩ head.rowType facts
    intro e y g hy hnone
    rw [hout] at hy ⊢
    have hy₀ := hy
    simp only [Outline.found, enter] at hy
    split at hy
    · next he =>
      cases hy
      refine ⟨head, inputs, .root head inputs, ⟨refs, _, hi.later hk, hy₀, rfl⟩, ?_⟩
      have hlive := hm'.tidy.sound.places.home _ _ _ (hout.symm ▸ hy₀)
      unfold rowType?
      rw [← hout, hm'.tidy.sound.names.reduce_of_live hlive, hout]
      simp only [Outline.found]
      rw [if_pos trivial]
      rfl
    · rw [hnone] at hy
      cases hy

theorem insertOver_founds {head : Operation Op} {inputs : Update Op Q (List SubGroupRef)} {ps : List (Plan Op)}
    {g : GroupId} {e : ExprId}
    (hi : ∀ refs m₁, inputs m = .ok refs m₁ → Inserted m ps refs m₁ ∧
      m.outline.Founds m₁.outline fun head inputs => ∃ p ∈ ps, p.Has head inputs)
    (h : insertOver head inputs none m = .ok (g, e) m') :
    m.outline.Founds m'.outline (Plan.Has (.node head ps)) := by
  obtain ⟨-, refs, m₁, h₁, h⟩ := insertOver_eq_ok h
  obtain ⟨hins, hfounds⟩ := hi refs m₁ h₁
  have ht := hins.ordered.tidy
  obtain ⟨hgrown, -⟩ := register_grown hins.ordered hins.served h
  have hedits := ((register_edited (P := .free) head none ht hins.served (fun t h => by cases h)).of_ok h).1
  refine (hfounds.mono fun head' inputs' hpart => ?_).trans (register_founds hins.ordered hins.stand hins.served h)
    ht (hgrown.keeps ht) (rowType?_of_edits ht hedits)
  obtain ⟨p, hp, hhas⟩ := hpart
  exact .inside hp hhas

/-- The induction follows the plans from left to right, and each of them down to its leaves. -/
theorem insertInputs_founds (op : Op) (require : Bool) : ∀ (ps : List (Plan Op)) {m m' : Memo Op Q}
    {refs : List SubGroupRef}, m.Ordered [] → insertInputs op require ps m = .ok refs m' →
    m.outline.Founds m'.outline fun head inputs => ∃ p ∈ ps, p.Has head inputs
  | [], m, m', refs, hm, h => by
    obtain ⟨-, rfl⟩ := insertInputs_nil_eq_ok h
    exact .of_entry_eq rfl
  | .group ref :: rest, m, m', refs, hm, h => by
    obtain ⟨-, s, m₁, refs', h₁, h₂, rfl⟩ := insertInputs_group_eq_ok h
    obtain ⟨-, -, hm₁⟩ := ensureSubGroup_grown hm h₁
    have hins := insertInputs_inserted op require rest hm₁ h₂
    have hedits := ((insertInputs_edited (P := .free) op require rest hm₁.tidy).of_ok h₂).1
    refine Founds.trans (.of_entry_eq (entry_ensureSubGroup hm.tidy h₁)) ?_ hm₁.tidy
      (hins.grown.keeps hm₁.tidy) (rowType?_of_edits hm₁.tidy hedits)
    exact (insertInputs_founds op require rest hm₁ h₂).mono fun _ _ hex =>
      hex.imp fun _ hp => hp.imp_left (List.mem_cons_of_mem _)
  | .node head inputs :: rest, m, m', refs, hm, h => by
    obtain ⟨g, e, m₁, s, m₂, refs', h₁, h₂, h₃, rfl⟩ := insertInputs_node_eq_ok h
    have hinputs : ∀ refs m₁, insertInputs head.op true inputs m = .ok refs m₁ → Inserted m inputs refs m₁ :=
      fun refs m₁ => insertInputs_inserted head.op true inputs hm
    obtain ⟨-, hm₁, -⟩ := insertOver_grown hinputs h₁
    have hroot : m.outline.Founds m₁.outline (Plan.Has (.node head inputs)) :=
      insertOver_founds (fun refs m₁ h => ⟨hinputs refs m₁ h, insertInputs_founds head.op true inputs hm h⟩) h₁
    obtain ⟨hg₂, -, hm₂⟩ := ensureSubGroup_grown hm₁ h₂
    have hedits₂ := ((ensureSubGroup_edited (P := .free) hm₁.tidy _ _).of_ok h₂).1
    have hins := insertInputs_inserted op require rest hm₂ h₃
    have hedits₃ := ((insertInputs_edited (P := .free) op require rest hm₂.tidy).of_ok h₃).1
    have hfirst := (hroot.mono fun head' inputs' hhas =>
      (⟨.node head inputs, List.mem_cons_self, hhas⟩ : ∃ p ∈ Plan.node head inputs :: rest, p.Has head' inputs')).trans
      (.of_entry_eq (entry_ensureSubGroup hm₁.tidy h₂)) hm₁.tidy (hg₂.keeps hm₁.tidy)
      (rowType?_of_edits hm₁.tidy hedits₂)
    refine hfirst.trans ?_ hm₂.tidy (hins.grown.keeps hm₂.tidy) (rowType?_of_edits hm₂.tidy hedits₃)
    exact (insertInputs_founds op require rest hm₂ h₃).mono fun _ _ hex =>
      hex.imp fun _ hp => hp.imp_left (List.mem_cons_of_mem _)

/-! ## What is held after a call -/

omit [Quantity Q] [Operator Op] in
/-- The row type of the group that a name stands for. -/
def rowType? (m : Memo Op Q) (g : GroupId) : Option RowType := (m.group? g).map Group.rowType

omit [Quantity Q] [Operator Op] in
theorem rowType?_eq (m : Memo Op Q) (g : GroupId) : m.rowType? g = m.outline.rowType? g := by
  unfold rowType? Outline.rowType?
  rw [outline_group, Option.map_map]
  rfl

omit [Quantity Q] [Operator Op] in
theorem named_of_rowType? (hn : m.outline.Names) {g : GroupId} {rowType : RowType} (h : m.rowType? g = some rowType) :
    (m.outline.groupRep g).isSome := by
  rw [rowType?_eq] at h
  obtain ⟨c, hc, -⟩ := Option.map_eq_some_iff.1 h
  cases hr : m.outline.groupRep g with
  | some r => rfl
  | none =>
    have hreduce : m.outline.reduce g = g := by rw [Outline.reduce, hr]; rfl
    rw [hreduce] at hc
    rw [hn.groupRep_of_live (by rw [hc]; rfl)] at hr
    cases hr

omit [Quantity Q] [Operator Op] in
theorem rowType?_of_check {g : GroupId} {rowType : RowType} (h : m.checkRowType g rowType = .ok ()) :
    m.rowType? g = some rowType := by
  obtain ⟨group, hgroup, rfl⟩ := checkRowType_eq_ok h
  unfold rowType? group?
  rw [hgroup]
  rfl

/-- The memo `m'` came from `m` when the operations `part` were added. Each of them is held by one expression. Either
that was known before, and its group has the row type that it had. Or the group has the row type of one of the
operations that are held by this expression. -/
structure Enrolled (m m' : Memo Op Q) (part : Operation Op → List (Plan Op) → Prop) : Prop where
  held : ∀ head inputs, part head inputs → ∃ e g, m'.outline.Holds head inputs e g ∧
    ((∃ e₀ entry, m.exprs[e₀]? = some entry ∧ m'.reduceExpr e₀ = e ∧ m'.rowType? g = m.rowType? entry.group) ∨
      ∃ head' inputs', part head' inputs' ∧ m'.outline.Holds head' inputs' e g ∧ m'.rowType? g = some head'.rowType)
  one : ∀ head inputs e e' g g', m'.outline.Holds head inputs e g → m'.outline.Holds head inputs e' g' →
    e = e' ∧ g = g'
  kept : ∀ g rowType, m.rowType? g = some rowType → m'.rowType? g = some rowType

section Enrolled

variable {part : Operation Op → List (Plan Op) → Prop} {P : Terms Op Q}

omit [Operator Op] in
/-- Where every new expression founded its group, that is so. -/
theorem enrolled_of_founds (hm : m.Ordered []) (hm' : m'.Ordered []) (hk : m.outline.Keeps m'.outline)
    (he : Edits P m.work m'.work)
    (hall : ∀ head inputs, part head inputs → ∃ e g, m'.outline.Holds head inputs e g)
    (hf : m.outline.Founds m'.outline part) : Enrolled m m' part where
  held head inputs hpart := by
    obtain ⟨e, g, hholds⟩ := hall head inputs hpart
    refine ⟨e, g, hholds, ?_⟩
    obtain ⟨refs, y, -, hy, -⟩ := hholds
    cases hentry : m.outline.entry e with
    | none =>
      obtain ⟨head', inputs', hpart', hholds', hrow⟩ := hf e y g hy hentry
      exact .inr ⟨head', inputs', hpart', hholds', by rw [rowType?_eq, hrow]⟩
    | some p =>
      cases (hk.entry e p hentry).symm.trans hy
      obtain ⟨entry, hknown, rfl, rfl⟩ := exists_entry hentry
      refine .inl ⟨e, entry, hknown, hm'.tidy.sound.names.reduceExpr_of_live (by rw [hy]; rfl), ?_⟩
      rw [rowType?_eq, rowType?_eq]
      refine rowType?_of_edits hm.tidy he _ ?_
      rw [hm.tidy.sound.names.groupRep_of_live (hm.tidy.sound.places.home _ _ _ hentry)]
      rfl
  one head inputs e e' g g' h h' := h.unique hm'.tidy.sound.places h'
  kept g rowType h := by
    have hnamed := named_of_rowType? hm.tidy.sound.names h
    rw [rowType?_eq] at h ⊢
    rw [rowType?_of_edits hm.tidy he g hnamed, h]

omit [Operator Op] in
/-- Whatever is merged then, operations are held by what became of the expressions. -/
theorem Enrolled.evolve {m₁ : Memo Op Q} (h : Enrolled m m₁ part) (ht : m₁.outline.Tidy)
    (he : m₁.outline.Evolves [] m'.outline []) (ht' : m'.outline.Tidy) (hedits : Edits P m₁.work m'.work) :
    Enrolled m m' part := by
  have hlater : ∀ {head : Operation Op} {inputs : List (Plan Op)} {e : ExprId} {g : GroupId},
      m₁.outline.Holds head inputs e g →
      m'.outline.Holds head inputs (m'.outline.reduceExpr e) (m'.outline.reduce g) ∧
        m'.rowType? (m'.outline.reduce g) = m₁.rowType? g := by
    intro head inputs e g hholds
    refine ⟨hholds.evolve he ht', ?_⟩
    obtain ⟨refs, y, -, hy, -⟩ := hholds
    have hnamed : (m₁.outline.groupRep g).isSome := by
      rw [ht.sound.names.groupRep_of_live (ht.sound.places.home _ _ _ hy)]; rfl
    rw [rowType?_eq, rowType?_eq, ← rowType?_of_edits ht hedits g hnamed]
    unfold Outline.rowType?
    rw [ht'.sound.names.reduce_reduce]
  refine ⟨fun head inputs hpart => ?_, fun _ _ _ _ _ _ h h' => h.unique ht'.sound.places h', fun g rowType hrow => ?_⟩
  · obtain ⟨e, g, hholds, hcases⟩ := h.held head inputs hpart
    obtain ⟨hholds', hrow⟩ := hlater hholds
    refine ⟨_, _, hholds', ?_⟩
    rcases hcases with ⟨e₀, entry, hknown, hreduce, hsame⟩ | ⟨head', inputs', hpart', hholds₁, hrow₁⟩
    · refine .inl ⟨e₀, entry, hknown, ?_, hrow.trans hsame⟩
      rw [← hreduce]
      exact (he.expr e₀).symm
    · obtain ⟨hholds₂, hrow₂⟩ := hlater hholds₁
      exact .inr ⟨head', inputs', hpart', hholds₂, hrow₂.trans hrow₁⟩
  · have h₁ := h.kept g rowType hrow
    have hnamed := named_of_rowType? ht.sound.names h₁
    rw [rowType?_eq] at h₁ ⊢
    rw [rowType?_of_edits ht hedits g hnamed, h₁]

omit [Quantity Q] [Operator Op] in
/-- An operation whose row type was compared is held as it should be. -/
theorem Enrolled.root {head : Operation Op} {inputs : List (Plan Op)} {e : ExprId} {g : GroupId}
    (h : Enrolled m m' fun head inputs' => ∃ p ∈ inputs, p.Has head inputs')
    (hr : m'.outline.Holds head inputs e g) (hrow : m'.rowType? g = some head.rowType) :
    Enrolled m m' (Plan.Has (.node head inputs)) where
  held head' inputs' hpart := by
    cases hpart with
    | root => exact ⟨e, g, hr, .inr ⟨head, inputs, .root head inputs, hr, hrow⟩⟩
    | inside mem part =>
      obtain ⟨e', g', hholds, hcases⟩ := h.held head' inputs' ⟨_, mem, part⟩
      refine ⟨e', g', hholds, hcases.imp id ?_⟩
      rintro ⟨head'', inputs'', ⟨p, hp, hhas⟩, hrest⟩
      exact ⟨head'', inputs'', .inside hp hhas, hrest⟩
  one := h.one
  kept := h.kept

end Enrolled

/-! ## Members of a group that is given -/

/-- An operation that is to be a member of a group has the row type of the group, and is one then. -/
theorem register_target {head : Operation Op} {refs : List SubGroupRef} {t g : GroupId} {e : ExprId}
    (hm : m.Ordered []) (hx : m.outline.Ready ⟨head.op, refs, head.data, head.traits⟩)
    (ht : m.outline.reduce t = t) (h : register head refs (some t) m = .ok (g, e) m') :
    m.rowType? t = some head.rowType ∧ m.outline.Evolves [] m'.outline [] ∧ m'.Ordered [] ∧
      ∃ y, m'.outline.entry (m'.outline.reduceExpr e) = some (y, m'.outline.reduce t) ∧
        y.Congruent (m'.outline.settled ⟨head.op, refs, head.data, head.traits⟩) := by
  have h₀ := h
  cases register_eq_ok h with
  | united known fits _ =>
    rw [show m.reduceGroup t = t from ht] at fits
    obtain ⟨hm', ⟨y, k, hy, hc, hmerges⟩ | ⟨-, ha, -⟩⟩ := register_joins hm hx ht h₀
    · have hev := hmerges.evolves hm.tidy
      have hev' : m.outline.Evolves [] m'.outline [] := ⟨hev.group, hev.expr, hev.entry, fun _ hq => by cases hq⟩
      obtain ⟨y', hy', hc'⟩ := hev'.congruent hm'.tidy hy hc
      have htk : m'.outline.reduce t = m'.outline.reduce k :=
        hm'.tidy.sound.names.linked_nil_iff.1 (hev.pairs (t, k) List.mem_cons_self)
      exact ⟨rowType?_of_check fits, hev', hm', y', htk ▸ hy', hc'⟩
    · obtain ⟨he, hc⟩ := findExpr?_eq_some known
      exact absurd hc (ha _ _ _ (outline_entry_of he))
  | extended new ok =>
    obtain ⟨hlive, hout, rfl, hm'⟩ := extend_attaches (x := ⟨head.op, refs, head.data, head.traits⟩) hm hx
      (findExpr?_eq_none new) ht ok
    obtain ⟨-, -, hrow, -⟩ := extend_eq_ok ok
    have hev : m.outline.Evolves [] m'.outline [] := by
      rw [hout]
      exact hm.tidy.sound.evolves_attach hlive (Ready.reading hx) (findExpr?_eq_none new)
    have hnew : m'.outline.entry ⟨m.next⟩ = some (⟨head.op, refs, head.data, head.traits⟩, t) := by
      rw [hout]
      exact if_pos rfl
    obtain ⟨y, hy, hc⟩ := (Evolves.refl hm'.tidy.sound.names).congruent hm'.tidy hnew rfl
    exact ⟨rowType?_of_check (m := m.skip) hrow, hev, hm', y, hy, hc⟩

/-! ## Whole plans -/

theorem add_enrolled {n : PlanNode Op} {g : GroupId} {e : ExprId} (hm : m.Ordered [])
    (h : add n m = .ok (g, e) m') : Enrolled m m' n.toPlan.Has := by
  obtain ⟨hgrown, hm', hstands⟩ := add_stands hm h
  have hedits := ((add_edited (P := .free) hm.tidy n).of_ok h).1
  refine enrolled_of_founds hm hm' (hgrown.keeps hm.tidy) hedits (fun head inputs hpart => hstands.holds hpart) ?_
  obtain ⟨g', h₁, -⟩ := add_eq_ok h
  exact insertOver_founds (fun refs m₁ h => ⟨insertInputs_inserted n.head.op true n.inputs hm h,
    insertInputs_founds n.head.op true n.inputs hm h⟩) h₁

/-- An operation that is added to a group is held in the group, whose row type it has. -/
theorem addTo_enrolled {head : Operation Op} {inputs : List (Plan Op)} {g : GroupId} {answer : Option ExprId}
    (hm : m.Ordered []) (h : addTo (.node head inputs) g m = .ok answer m') :
    Enrolled m m' (Plan.Has (.node head inputs)) ∧ m'.rowType? g = some head.rowType ∧
      ∃ e, m'.outline.Holds head inputs e (m'.reduceGroup g) := by
  obtain ⟨-, refs, m₁, g', e, h₁, hins, h₂, rfl⟩ := addNodeTo_stages (n := ⟨head, inputs⟩) hm h
  have hm₁ := hins.ordered
  have hk := hins.grown.keeps hm.tidy
  have htt := hm₁.tidy.sound.names.reduce_reduce g
  obtain ⟨hrow, hev, hm', y, hy, hc⟩ := register_target hm₁ hins.served htt h₂
  have hedits₁ := ((insertInputs_edited (P := .free) head.op true inputs hm.tidy).of_ok h₁).1
  have hedits₂ := ((register_edited (P := .free) head (some (m₁.outline.reduce g)) hm₁.tidy hins.served
    fun t h => by cases h; exact htt).of_ok h₂).1
  -- the inputs are held before the root is, and go on being held
  have hinputs : Enrolled m m₁ fun head inputs' => ∃ p ∈ inputs, p.Has head inputs' :=
    enrolled_of_founds hm hm₁ hk hedits₁ (fun head inputs' hex => by
      obtain ⟨p, hp, hhas⟩ := hex
      obtain ⟨r, hr⟩ := hins.stand.exists_stands hp
      exact hr.holds hhas) (insertInputs_founds head.op true inputs hm h₁)
  have hgroup : m'.outline.reduce (m₁.outline.reduce g) = m'.outline.reduce g := hev.group g
  rw [hgroup] at hy
  have hholds : m'.outline.Holds head inputs (m'.outline.reduceExpr e) (m'.outline.reduce g) :=
    ⟨refs.map m'.outline.reduceRef, y, hins.stand.evolve hev hm'.tidy, hy, hc⟩
  have hrow₂ : m'.rowType? g = some head.rowType := by
    have hnamed := named_of_rowType? hm₁.tidy.sound.names hrow
    have hlater := rowType?_of_edits hm₁.tidy hedits₂ _ hnamed
    rw [← rowType?_eq m₁, hrow] at hlater
    rw [rowType?_eq]
    unfold Outline.rowType? at hlater ⊢
    rwa [hgroup] at hlater
  refine ⟨(hinputs.evolve hm₁.tidy hev hm'.tidy hedits₂).root hholds ?_, hrow₂, _, hholds⟩
  rw [← hrow₂, rowType?_eq, rowType?_eq]
  unfold Outline.rowType?
  rw [hm'.tidy.sound.names.reduce_reduce]

/-- An operation of another row type than the group that it is added to is rejected. -/
theorem addTo_rejected {head : Operation Op} {inputs : List (Plan Op)} {g : GroupId} {refs : List SubGroupRef}
    {m₁ : Memo Op Q} {rowType : RowType} (hm : m.Ordered []) (hfit : m.checkTraits head.traits = .ok ())
    (h₁ : insertInputs head.op true inputs m = .ok refs m₁) (hrow : m.rowType? g = some rowType)
    (hne : rowType ≠ head.rowType) : ∃ m', addTo (.node head inputs) g m =
      .error (.error (.rowTypeMismatch (m.reduceGroup g) rowType head.rowType)) m' := by
  have hins := insertInputs_inserted head.op true inputs hm h₁
  have hk := hins.grown.keeps hm.tidy
  have hedits := ((insertInputs_edited (P := .free) head.op true inputs hm.tidy).of_ok h₁).1
  have hn₁ := hins.ordered.tidy.sound.names
  have hreduce : m₁.reduceGroup (m.reduceGroup g) = m.reduceGroup g := by
    show m₁.outline.reduce (m.outline.reduce g) = m.outline.reduce g
    rw [← hk.reduce g, hn₁.reduce_reduce]
  -- the row type is compared with that of the group whether the operation is known or not
  have hcheck : ∀ n, ({ m₁ with next := n } : Memo Op Q).checkRowType (m.reduceGroup g) head.rowType =
      .error (.error (.rowTypeMismatch (m.reduceGroup g) rowType head.rowType)) := by
    intro n
    have hnamed := named_of_rowType? hm.tidy.sound.names hrow
    rw [rowType?_eq, ← rowType?_of_edits hm.tidy hedits g hnamed, ← rowType?_eq] at hrow
    obtain ⟨group, hgroup, rfl⟩ := Option.map_eq_some_iff.1 hrow
    have hget : ({ m₁ with next := n } : Memo Op Q).getGroup (m.reduceGroup g) = .ok group := by
      have hg : m₁.groups[m₁.reduceGroup g]? = some group := hgroup
      rw [show m₁.reduceGroup g = m.reduceGroup g from hk.reduce g, ← hreduce] at hg
      have hg : ({ m₁ with next := n } : Memo Op Q).group? (m.reduceGroup g) = some group := hg
      unfold getGroup
      rw [hg]
    rw [checkRowType, hget]
    show (if group.rowType = head.rowType then _ else _) = _
    rw [if_neg hne]
    rfl
  obtain ⟨m', hregister⟩ : ∃ m', register head refs (some (m.reduceGroup g)) m₁ =
      .error (.error (.rowTypeMismatch (m.reduceGroup g) rowType head.rowType)) m' := by
    unfold register
    rw [run_get_bind]
    cases hf : m₁.findExpr? ⟨head.op, refs, head.data, head.traits⟩ with
    | some p =>
      refine ⟨m₁, ?_⟩
      dsimp only
      rw [run_get_bind, hreduce, run_bind_of_error (Update.read_of_error (hcheck m₁.next))]
    | none =>
      refine ⟨m₁.skip, ?_⟩
      dsimp only
      unfold extend
      have hfresh : (fresh : Update Op Q ExprId) m₁ = .ok ⟨m₁.next⟩ m₁.skip := rfl
      rw [run_bind_of_ok hfresh, run_bind_of_error (Update.read_of_error (hcheck (m₁.next + 1)))]
  refine ⟨m', ?_⟩
  unfold addTo addNodeTo insertNode insertOver
  dsimp only
  rw [run_get_bind]
  refine run_bind_of_error ?_
  rw [run_bind_of_ok (Update.read_of_ok hfit), run_bind_of_ok h₁, hregister]

/-- The row type of an operation that is known already is not looked at. -/
theorem add_known {n : PlanNode Op} {g : GroupId} {e : ExprId} (hm : m.Ordered []) (h : add n m = .ok (g, e) m')
    (he : e ∈ m.exprs) (rowType : RowType) :
    add ⟨{ n.head with rowType := rowType }, n.inputs⟩ m = .ok (g, e) m' := by
  simp only [add, insertNode, insertOver] at h
  obtain ⟨⟨g', e'⟩, m₂, h₂, h⟩ := run_bind_eq_ok h
  obtain ⟨_, hfit, h₂⟩ := Update.read_bind_eq_ok h₂
  obtain ⟨refs, m₁, h₁, h₂⟩ := run_bind_eq_ok h₂
  have hins := insertInputs_inserted n.head.op true n.inputs hm h₁
  have hlater : register { n.head with rowType := rowType } refs none m₁ = .ok (g', e') m₂ := by
    unfold register at h₂ ⊢
    rw [run_get_bind] at h₂ ⊢
    cases hf : m₁.findExpr? ⟨n.head.op, refs, n.head.data, n.head.traits⟩ with
    | some p =>
      simp only [hf] at h₂ ⊢
      exact h₂
    | none =>
      -- a new expression has a name that was not given out before
      simp only [hf] at h₂
      obtain ⟨-, -, -, hnew, -⟩ := create_founds (x := ⟨n.head.op, refs, n.head.data, n.head.traits⟩) hins.ordered
        hins.served (findExpr?_eq_none hf) h₂
      have h := run_get_bind_eq_ok h
      obtain ⟨heq, -⟩ := run_pure_eq_ok h
      cases heq
      have hnone := hm.tidy.sound.names.fresh_entry (e := ⟨m₁.next⟩) (hins.grown.keeps hm.tidy).next
      rw [hnew] at he
      rw [outline_entry, Option.map_eq_none_iff] at hnone
      rw [Std.TreeMap.mem_iff_isSome_getElem?, hnone] at he
      cases he
  unfold add insertNode insertOver
  have hinsert : (Update.read (·.checkTraits n.head.traits) >>= fun _ => insertInputs n.head.op true n.inputs >>=
      fun refs => register { n.head with rowType := rowType } refs none) m = .ok (g', e') m₂ := by
    rw [run_bind_of_ok (Update.read_of_ok hfit), run_bind_of_ok h₁, hlater]
  exact (run_bind_of_ok hinsert).trans h

/-- What becomes of row types when a plan is added to a reached memo. Every operation of the plan is held by one
expression, whose group keeps its row type if it was known before, and has otherwise that of one of the operations
held. An operation that is added to a group has the row type of the group, or is rejected. But where it is added by
itself and was known before, its row type is not looked at. -/
theorem Reached.row_types (h : Reached m) :
    (∀ n g e m', add n m = .ok (g, e) m' → Enrolled m m' n.toPlan.Has ∧
      (e ∈ m.exprs → ∀ rowType, add ⟨{ n.head with rowType := rowType }, n.inputs⟩ m = .ok (g, e) m')) ∧
    (∀ head inputs g answer m', addTo (.node head inputs) g m = .ok answer m' →
      Enrolled m m' (Plan.Has (.node head inputs)) ∧ m'.rowType? g = some head.rowType ∧
        ∃ e, m'.outline.Holds head inputs e (m'.reduceGroup g)) ∧
    ∀ head inputs g refs m₁ rowType, m.checkTraits head.traits = .ok () →
      insertInputs head.op true inputs m = .ok refs m₁ → m.rowType? g = some rowType → rowType ≠ head.rowType →
      ∃ m', addTo (.node head inputs) g m =
        .error (.error (.rowTypeMismatch (m.reduceGroup g) rowType head.rowType)) m' := by
  have hm := h.orderly.ordered
  refine ⟨fun n g e m' ok => ⟨add_enrolled hm ok, add_known hm ok⟩, fun head inputs g answer m' ok =>
    addTo_enrolled hm ok, fun head inputs g refs m₁ rowType hfit h₁ hrow hne => addTo_rejected hm hfit h₁ hrow hne⟩

section SmallHost

open SmallHost Relational

/-- A table without columns. -/
def tabled : Memo Kind Nat :=
  (empty orders [] .keepIncumbent : Memo Kind Nat).after (add (bare .scan (some (.i64 1)) []))

/-- The same table with a column. -/
def widened : PlanNode Kind := ⟨{ (bare .scan (some (.i64 1)) []).head with rowType := ⟨[⟨"a", .int64, true⟩]⟩ }, []⟩

theorem tabled_reached : Reached tabled := (Reached.empty _ _ _).after fun _ _ => .add

/-- The table with a column is taken for the one without, in a group of another row type, but is rejected where it is
added to that group. -/
theorem tabled_row_types : Reached tabled ∧ add widened tabled = .ok (⟨1⟩, ⟨0⟩) tabled ∧
    tabled.outline.Holds widened.head [] ⟨0⟩ ⟨1⟩ ∧ tabled.rowType? ⟨1⟩ ≠ some widened.head.rowType ∧
    ∃ m', addTo widened.toPlan ⟨1⟩ tabled =
      .error (.error (.rowTypeMismatch ⟨1⟩ ⟨[]⟩ widened.head.rowType)) m' := by
  obtain ⟨hadd, -, hreject⟩ := Reached.row_types tabled_reached
  have hknown : add (bare .scan (some (.i64 1)) []) tabled = .ok (⟨1⟩, ⟨0⟩) tabled := by cbv
  have hentry : tabled.exprs[(⟨0⟩ : ExprId)]? = some ⟨⟨.scan, [], some (.i64 1), ⟨[.collation ⟨[]⟩]⟩⟩, ⟨1⟩, none⟩ := by
    cbv
  have hrow : tabled.rowType? ⟨1⟩ = some ⟨[]⟩ := by cbv
  have hne : (⟨[]⟩ : RowType) ≠ widened.head.rowType := by decide
  have hmem : (⟨0⟩ : ExprId) ∈ tabled.exprs := by
    rw [Std.TreeMap.mem_iff_isSome_getElem?, hentry]
    rfl
  refine ⟨tabled_reached, (hadd _ _ _ _ hknown).2 hmem widened.head.rowType, ?_, ?_, ?_⟩
  · exact ⟨[], _, .nil, outline_entry_of hentry, rfl⟩
  · rw [hrow]
    exact fun h => hne (Option.some.inj h)
  · have hself : tabled.reduceGroup ⟨1⟩ = ⟨1⟩ := by cbv
    have hfit : tabled.checkTraits widened.head.traits = .ok () := by cbv
    obtain ⟨m', h⟩ := hreject widened.head [] ⟨1⟩ [] tabled ⟨[]⟩ hfit (by simp only [insertInputs]; rfl) hrow hne
    rw [hself] at h
    exact ⟨m', h⟩

end SmallHost

end Memo

end PlanSearch
