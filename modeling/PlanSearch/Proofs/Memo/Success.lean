import PlanSearch.Proofs.Steps

/-!
# What calls on a memo did that succeeded

A call that succeeds tells what it looked up, which calls it made on the way and which memo it left. Each call is taken
apart here once, whatever is to be shown of it.

    offer s e m = .ok m' → m' = m, or `e` has a price and is the winner of `s` now                      (offer_eq_ok)
    create x rowType m = .ok (g, e) m' → `m'` is `m` with `x` entered under `e` in a new group `g`      (create_eq_ok)
    register head refs target m = .ok answer m' → m.Registered head refs target answer m'             (register_eq_ok)
    m.MergeRun ps (mergeAll m ps)                                                                       (mergeAll_run)
-/

namespace PlanSearch

namespace Memo

variable {Op Q : Type} {m m' : Memo Op Q}

/-! ## What is looked up -/

theorem liveSubGroup_eq_ok {s : SubGroupId} {sub : SubGroup Q} (h : m.liveSubGroup s = .ok sub) :
    m.subGroups[s]? = some sub := by
  unfold liveSubGroup at h
  split at h
  · next hs => cases h; exact hs
  · cases h

theorem liveGroup_eq_ok {g : GroupId} {group : Group} (h : m.liveGroup g = .ok group) :
    m.groups[g]? = some group := by
  unfold liveGroup at h
  split at h
  · next hg => cases h; exact hg
  · cases h

theorem getGroup_eq_ok {g : GroupId} {group : Group} (h : m.getGroup g = .ok group) :
    m.groups[m.reduceGroup g]? = some group := by
  unfold getGroup group? at h
  split at h
  · next hg => cases h; exact hg
  · cases h

theorem getEntry_eq_ok {e : ExprId} {entry : Entry Op Q} (h : m.getEntry e = .ok entry) :
    m.exprs[m.reduceExpr e]? = some entry := by
  unfold getEntry at h
  split at h
  · next he => cases h; exact he
  · cases h

theorem checkTraits_eq_ok {traits : TraitSet} (h : m.checkTraits traits = .ok ()) :
    m.registry.check traits = .ok () := by
  unfold checkTraits at h
  split at h
  · next hcheck => exact hcheck
  · cases h

theorem checkRowType_eq_ok {g : GroupId} {rowType : RowType} (h : m.checkRowType g rowType = .ok ()) :
    ∃ group, m.groups[m.reduceGroup g]? = some group ∧ group.rowType = rowType := by
  simp only [checkRowType] at h
  obtain ⟨group, hgroup, h⟩ := bind_eq_ok h
  split at h
  · next hrow => exact ⟨group, getGroup_eq_ok hgroup, hrow⟩
  · cases h

/-! ## Marks -/

/-- The sub group `s`, whose record is `sub`, marked as required, which is noted. -/
def mark (s : SubGroupId) (sub : SubGroup Q) (m : Memo Op Q) : Memo Op Q :=
  { m.setSubGroup s { sub with required := true } with
    changes := { m.changes with required := m.changes.required ++ [s] } }

/-- A sub group gets its mark, unless it has one or none is asked for. -/
theorem markIf_eq_ok {require : Bool} {s : SubGroupId} (h : markIf require s m = .ok m') :
    m' = m ∧ (require = true → ∃ sub, m.subGroups[s]? = some sub ∧ sub.required = true) ∨
      require = true ∧ ∃ sub, m.subGroups[s]? = some sub ∧ sub.required = false ∧ m' = m.mark s sub := by
  unfold markIf at h
  split at h
  · next hrequire =>
    simp only [markRequired] at h
    obtain ⟨sub, hsub, h⟩ := bind_eq_ok h
    have hs := liveSubGroup_eq_ok hsub
    split at h
    · next hmark => cases h; exact .inl ⟨rfl, fun _ => ⟨sub, hs, hmark⟩⟩
    · next hmark => cases h; exact .inr ⟨hrequire, sub, hs, Bool.not_eq_true _ ▸ hmark, rfl⟩
  · next hrequire => cases h; exact .inl ⟨rfl, fun h => absurd h hrequire⟩

section Quantity

variable [Quantity Q]

/-! ## Offers and prices -/

/-- An offer changes nothing, or what is offered has a price and wins. -/
theorem offer_eq_ok {s : SubGroupId} {e : ExprId} (h : offer s e m = .ok m') : m' = m ∨
    ∃ entry price sub, m.exprs[e]? = some entry ∧ entry.price = some price ∧ m.subGroups[s]? = some sub ∧
      m' = (m.setSubGroup s { sub with winner := some ⟨e, price⟩ }).noteImproved s := by
  unfold offer at h
  split at h
  · cases h; exact .inl rfl
  · next entry he =>
    split at h
    · cases h; exact .inl rfl
    · next price hp =>
      split at h
      · cases h
      · next sub hs =>
        split at h
        · cases h; exact .inr ⟨entry, price, sub, he, hp, hs, rfl⟩
        · cases h; exact .inl rfl

/-- A price is entered, and the expression is offered to all sub groups of its group. -/
theorem recordPrice_eq_ok {e : ExprId} {price : Price Q} (h : recordPrice e price m = .ok m') :
    ∃ entry group, m.exprs[m.reduceExpr e]? = some entry ∧ m.groups[m.reduceGroup entry.group]? = some group ∧
      (group.subGroups.map Prod.snd).foldlM (fun m₁ s => offer s (m.reduceExpr e) m₁)
        { m with exprs := m.exprs.insert (m.reduceExpr e) { entry with price := some price } } = .ok m' := by
  simp only [recordPrice] at h
  obtain ⟨entry, hentry, h⟩ := bind_eq_ok h
  obtain ⟨group, hgroup, h⟩ := bind_eq_ok h
  exact ⟨entry, group, getEntry_eq_ok hentry, liveGroup_eq_ok hgroup, h⟩

/-! ## Sub groups on request -/

/-- A sub group that is asked for is there already, or is opened and offered the members of the group. -/
theorem ensureSubGroup_eq_ok {r : SubGroupRef} {require : Bool} {s : SubGroupId}
    (h : ensureSubGroup r require m = .ok s m') : m.checkTraits r.traits = .ok () ∧
      ∃ group, m.groups[m.reduceGroup r.group]? = some group ∧
        (group.sub? r.traits = some s ∧ markIf require s m = .ok m' ∨
          group.sub? r.traits = none ∧ s = ⟨m.next⟩ ∧
            ∃ m₁, markIf require s (m.openSubGroup (m.reduceGroup r.group) r.traits).1 = .ok m₁ ∧
              offerAll s group.members m₁ = .ok m') := by
  simp only [ensureSubGroup] at h
  obtain ⟨_, hcheck, h⟩ := Update.read_bind_eq_ok h
  obtain ⟨group, hgroup, h⟩ := Update.read_bind_eq_ok h
  refine ⟨hcheck, group, getGroup_eq_ok hgroup, ?_⟩
  cases hs' : group.sub? r.traits with
  | some s' =>
    simp only [hs'] at h
    obtain ⟨m₁, hmark, h⟩ := Update.step_bind_eq_ok h
    obtain ⟨rfl, rfl⟩ := run_pure_eq_ok h
    exact .inl ⟨rfl, hmark⟩
  | none =>
    simp only [hs'] at h
    obtain ⟨s', m₁, h₁, h⟩ := run_bind_eq_ok h
    obtain ⟨m₂, hmark, h⟩ := Update.step_bind_eq_ok h
    obtain ⟨m₃, hoffer, h⟩ := Update.step_bind_eq_ok h
    obtain ⟨rfl, rfl⟩ := run_pure_eq_ok h
    cases h₁
    exact .inr ⟨rfl, rfl, m₂, hmark, hoffer⟩

/-! ## Merging -/

omit [Quantity Q] in
/-- The memo without the sub group `s`, whose name now stands for `kept`. -/
def retire (kept s : SubGroupId) (m : Memo Op Q) : Memo Op Q :=
  { m with
    subGroups := m.subGroups.erase s
    subGroupAlias := (m.subGroupAlias.unite kept s).1 }

/-- The sub group hands its mark on, and its winner if that is the better one. -/
theorem foldInto_eq_ok {kept s : SubGroupId} {sub : SubGroup Q} {hadReaders : Bool}
    (h : foldInto kept s sub hadReaders m = .ok m') : ∃ m₁ keptSub,
      markIf sub.required kept (m.retire kept s) = .ok m₁ ∧ m₁.subGroups[kept]? = some keptSub ∧
      m' = match sub.winner.filter fun w => beats m₁.tieBreak w keptSub.winner with
        | some w => (m₁.setSubGroup kept { keptSub with winner := some w }).noteImproved kept
        | none => if hadReaders && keptSub.winner.isSome then m₁.noteImproved kept else m₁ := by
  simp only [foldInto] at h
  obtain ⟨m₁, hmark, h⟩ := bind_eq_ok h
  obtain ⟨keptSub, hkept, h⟩ := bind_eq_ok h
  refine ⟨m₁, keptSub, hmark, liveSubGroup_eq_ok hkept, ?_⟩
  cases hbetter : sub.winner.filter fun w => beats m₁.tieBreak w keptSub.winner with
  | some w => rw [hbetter] at h; cases h; rfl
  | none => rw [hbetter] at h; cases h; rfl

omit [Quantity Q] in
/-- The sub group `s`, whose record is `sub`, handed over to the group `keep`. -/
def handOver (keep : GroupId) (s : SubGroupId) (sub : SubGroup Q) (m : Memo Op Q) : Memo Op Q :=
  { m with
    subGroups := m.subGroups.insert s { sub with group := keep }
    groups := m.groups.modify keep fun group =>
      { group with subGroups := group.subGroups ++ [(sub.traits, s)] } }

/-- A sub group is folded into one under the same traits, or handed over where there is none. -/
theorem moveSubGroup_eq_ok {keep : GroupId} {hadReaders : Bool} {s : SubGroupId}
    (h : moveSubGroup keep hadReaders s m = .ok m') : ∃ sub group,
      m.subGroups[s]? = some sub ∧ m.groups[keep]? = some group ∧
      ((∃ kept, group.sub? sub.traits = some kept ∧ foldInto kept s sub hadReaders m = .ok m') ∨
        group.sub? sub.traits = none ∧ m' = m.handOver keep s sub) := by
  simp only [moveSubGroup] at h
  obtain ⟨sub, hsub, h⟩ := bind_eq_ok h
  obtain ⟨group, hgroup, h⟩ := bind_eq_ok h
  refine ⟨sub, group, liveSubGroup_eq_ok hsub, liveGroup_eq_ok hgroup, ?_⟩
  cases hkept : group.sub? sub.traits with
  | some kept => rw [hkept] at h; exact .inl ⟨kept, rfl, h⟩
  | none => rw [hkept] at h; cases h; exact .inr ⟨rfl, rfl⟩

omit [Quantity Q] in
theorem renameWinner_eq_ok {e twin : ExprId} {s : SubGroupId} (h : renameWinner e twin m s = .ok m') :
    ∃ sub, m.subGroups[s]? = some sub ∧ m' = m.setSubGroup s
      { sub with winner := sub.winner.map fun w => if w.expr = e then { w with expr := twin } else w } := by
  simp only [renameWinner] at h
  obtain ⟨sub, hsub, h⟩ := bind_eq_ok h
  cases h
  exact ⟨sub, liveSubGroup_eq_ok hsub, rfl⟩

omit [Quantity Q] in
/-- The tables without the expression `e`, whose name now stands for `twin`. -/
def strike (e twin : ExprId) (entry : Entry Op Q) (x : Expr Op) (m : Memo Op Q) : Memo Op Q :=
  { m with
    exprs := (m.exprs.erase e).modify twin fun t => { t with price := t.price <|> entry.price }
    exprAlias := (m.exprAlias.unite twin e).1
    groups := (x.inputs.foldl (fun t r =>
      t.modify r.group fun group => { group with parents := group.parents.erase e }) m.groups).modify
        entry.group fun group => { group with members := group.members.filter (· ≠ e) } }

omit [Quantity Q] in
/-- The expression is struck, its victories are handed on, and it is not new any more. -/
theorem dropTwin_eq_ok {e twin : ExprId} {entry : Entry Op Q} {x : Expr Op} (h : dropTwin e twin entry x m = .ok m') :
    ∃ m₁, ((m.strike e twin entry x).subGroupsOf entry.group).foldlM (renameWinner e twin)
        (m.strike e twin entry x) = .ok m₁ ∧
      m' = { m₁ with changes := { m₁.changes with newExprs := m₁.changes.newExprs.filter (· ≠ e) } } := by
  simp only [dropTwin] at h
  obtain ⟨m₁, h₁, h⟩ := bind_eq_ok h
  cases h
  exact ⟨m₁, h₁, rfl⟩

section Merging

variable [DecidableEq Op] {p : GroupId × GroupId} {ps more : List (GroupId × GroupId)}

/-- Of two groups of one row type, one takes the other in. -/
theorem mergePair_eq_ok {a b : GroupId} (h : mergePair a b m = .ok (m', more)) :
    ∃ keep absorbed kept gone, ((keep, absorbed) = (a, b) ∨ (absorbed, keep) = (a, b)) ∧ (a ≠ b → keep ≠ absorbed) ∧
      m.groups[keep]? = some kept ∧ m.groups[absorbed]? = some gone ∧ kept.rowType = gone.rowType ∧
      absorb keep absorbed gone m = .ok (m', more) := by
  unfold mergePair at h
  split at h
  · cases h
  · next ga ha =>
    split at h
    · cases h
    · next gb hb =>
      split at h
      next keep kept absorbed gone hpick =>
      split at h
      · cases h
      · next hrow =>
        have hrow := Decidable.not_not.1 hrow
        split at hpick
        · cases hpick
          exact ⟨a, b, ga, gb, .inl rfl, id, ha, hb, hrow, h⟩
        · cases hpick
          exact ⟨b, a, gb, ga, .inr rfl, Ne.symm, hb, ha, hrow, h⟩

/-- Two groups that are one already are passed over. -/
theorem mergeAll_cons_of_eq (h : m.reduceGroup p.1 = m.reduceGroup p.2) : mergeAll m (p :: ps) = mergeAll m ps := by
  rw [mergeAll, mergeAll, List.dropWhile_cons_of_pos (by simpa using h)]

/-- Two different groups are merged, and what follows from that is merged last. -/
theorem mergeAll_cons_of_ne (h : m.reduceGroup p.1 ≠ m.reduceGroup p.2) : mergeAll m (p :: ps)
      = match mergePair (m.reduceGroup p.1) (m.reduceGroup p.2) m with
        | .error e => .error e m
        | .ok (m', more) => mergeAll m' (ps ++ more) := by
  rw [mergeAll, List.dropWhile_cons_of_neg (by simpa using h)]
  dsimp only
  split
  · next e he => rw [he]
  · next m' more he => rw [he]

/-- How a chain of merges runs, and what it ends with. -/
inductive MergeRun : Memo Op Q → List (GroupId × GroupId) → EStateM.Result Failure (Memo Op Q) Unit → Prop
  | done (m : Memo Op Q) : MergeRun m [] (.ok () m)
  | skip {m : Memo Op Q} {p : GroupId × GroupId} {ps : List (GroupId × GroupId)}
      {r : EStateM.Result Failure (Memo Op Q) Unit} (same : m.reduceGroup p.1 = m.reduceGroup p.2)
      (rest : MergeRun m ps r) : MergeRun m (p :: ps) r
  | refuse {m : Memo Op Q} {p : GroupId × GroupId} (ps : List (GroupId × GroupId)) {f : Failure}
      (ne : m.reduceGroup p.1 ≠ m.reduceGroup p.2)
      (no : mergePair (m.reduceGroup p.1) (m.reduceGroup p.2) m = .error f) : MergeRun m (p :: ps) (.error f m)
  | merge {m m₁ : Memo Op Q} {p : GroupId × GroupId} {ps more : List (GroupId × GroupId)}
      {r : EStateM.Result Failure (Memo Op Q) Unit} (ne : m.reduceGroup p.1 ≠ m.reduceGroup p.2)
      (ok : mergePair (m.reduceGroup p.1) (m.reduceGroup p.2) m = .ok (m₁, more))
      (rest : MergeRun m₁ (ps ++ more) r) : MergeRun m (p :: ps) r

/-- The induction is on the number of live groups, and within it on the pairs that are one group already. -/
theorem mergeAll_run (m : Memo Op Q) (ps : List (GroupId × GroupId)) : MergeRun m ps (mergeAll m ps) := by
  induction hn : m.groupCount using Nat.strongRecOn generalizing m ps with
  | ind n ih =>
  induction ps with
  | nil =>
    rw [mergeAll]
    exact .done m
  | cons p ps ihp =>
    by_cases hp : m.reduceGroup p.1 = m.reduceGroup p.2
    · rw [mergeAll_cons_of_eq hp]
      exact .skip hp ihp
    · rw [mergeAll_cons_of_ne hp]
      cases hpair : mergePair (m.reduceGroup p.1) (m.reduceGroup p.2) m with
      | error f => exact .refuse ps hp hpair
      | ok answer => exact .merge hp hpair (ih _ (hn ▸ size_mergePair_lt hpair) _ _ rfl)

/-- What every merge keeps, a chain of merges keeps, as far as it goes. -/
theorem MergeRun.keeps {R : Memo Op Q → Memo Op Q → Prop} (refl : ∀ m, R m m)
    (trans : ∀ {m m' m''}, R m m' → R m' m'' → R m m'')
    (merged : ∀ {a b m m' more}, mergePair a b m = .ok (m', more) → R m m')
    {r : EStateM.Result Failure (Memo Op Q) Unit} (h : MergeRun m ps r)
    (hr : r = .ok () m' ∨ ∃ f, r = .error f m') : R m m' := by
  induction h with
  | done m =>
    obtain hr | ⟨f, hr⟩ := hr <;> cases hr
    exact refl _
  | skip _ _ ih => exact ih hr
  | refuse _ _ _ =>
    obtain hr | ⟨f, hr⟩ := hr <;> cases hr
    exact refl _
  | merge _ ok _ ih => exact trans (merged ok) (ih hr)

end Merging

end Quantity

/-! ## New expressions -/

section Entering

/-- The memo with one number given out. -/
def skip (m : Memo Op Q) : Memo Op Q := { m with next := m.next + 1 }

/-- The memo with `e` listed as a member of the group `g`. -/
def addMember (e : ExprId) (g : GroupId) (m : Memo Op Q) : Memo Op Q :=
  { m with groups := m.groups.modify g fun group => { group with members := group.members ++ [e] } }

/-- The memo with a group `g` of the one member `e`. -/
def openGroup (e : ExprId) (g : GroupId) (rowType : RowType) (facts : List Fact) (m : Memo Op Q) :
    Memo Op Q :=
  { m with
    groups := m.groups.insert g ⟨[e], rowType, [], facts, ∅⟩
    groupAlias := m.groupAlias.add g }

variable [Operator Op] {x : Expr Op} {rowType : RowType} {g t : GroupId} {e : ExprId}

/-- A new expression is a member of the group that it was added to, which is of its row type. -/
theorem extend_eq_ok (h : extend x rowType t m = .ok (g, e) m') : g = t ∧ e = ⟨m.next⟩ ∧
    m.skip.checkRowType t rowType = .ok () ∧ m' = (m.skip.enterExpr ⟨m.next⟩ x t).addMember ⟨m.next⟩ t := by
  simp only [extend] at h
  obtain ⟨e', m₁, h₁, h⟩ := run_bind_eq_ok h
  cases h₁
  obtain ⟨_, hrow, h⟩ := Update.read_bind_eq_ok h
  obtain ⟨_, -, h⟩ := Update.read_bind_eq_ok h
  have h := run_modify_bind_eq_ok h
  obtain ⟨hanswer, rfl⟩ := run_pure_eq_ok h
  cases hanswer
  exact ⟨rfl, rfl, hrow, rfl⟩

/-- A new expression in a group of its own, with the facts that were derived for it. -/
theorem create_eq_ok (h : create x rowType m = .ok (g, e) m') : g = ⟨m.next + 1⟩ ∧ e = ⟨m.next⟩ ∧
    ∃ facts, m.skip.skip.deriveFacts x = .ok facts ∧
      m' = (m.skip.skip.enterExpr ⟨m.next⟩ x ⟨m.next + 1⟩).openGroup ⟨m.next⟩ ⟨m.next + 1⟩ rowType facts := by
  simp only [create] at h
  obtain ⟨e', m₁, h₁, h⟩ := run_bind_eq_ok h
  cases h₁
  obtain ⟨g', m₂, h₂, h⟩ := run_bind_eq_ok h
  cases h₂
  obtain ⟨facts, hfacts, h⟩ := Update.read_bind_eq_ok h
  obtain ⟨_, -, h⟩ := Update.read_bind_eq_ok h
  have h := run_modify_bind_eq_ok h
  obtain ⟨hanswer, rfl⟩ := run_pure_eq_ok h
  cases hanswer
  exact ⟨rfl, rfl, facts, hfacts, rfl⟩

end Entering

/-! ## Plans -/

section Plans

variable [Operator Op] [Quantity Q] {head : Operation Op} {refs : List SubGroupRef} {target : Option GroupId}
  {answer : GroupId × ExprId}

/-- What becomes of an operation over references: it is known, and its group may have to be merged with the one that
it is added to, or it is new. -/
inductive Registered (m : Memo Op Q) (head : Operation Op) (refs : List SubGroupRef) :
    Option GroupId → GroupId × ExprId → Memo Op Q → Prop
  | found {e : ExprId} {entry : Entry Op Q}
      (known : m.findExpr? ⟨head.op, refs, head.data, head.traits⟩ = some (e, entry)) :
      Registered m head refs none (entry.group, e) m
  | united {e : ExprId} {entry : Entry Op Q} {t : GroupId} {m' : Memo Op Q}
      (known : m.findExpr? ⟨head.op, refs, head.data, head.traits⟩ = some (e, entry))
      (fits : m.checkRowType (m.reduceGroup t) head.rowType = .ok ())
      (merged : merge (m.reduceGroup t) entry.group m = .ok () m') :
      Registered m head refs (some t) (m'.reduceGroup (m.reduceGroup t), e) m'
  | created {g : GroupId} {e : ExprId} {m' : Memo Op Q}
      (new : m.findExpr? ⟨head.op, refs, head.data, head.traits⟩ = none)
      (ok : create ⟨head.op, refs, head.data, head.traits⟩ head.rowType m = .ok (g, e) m') :
      Registered m head refs none (g, e) m'
  | extended {t g : GroupId} {e : ExprId} {m' : Memo Op Q}
      (new : m.findExpr? ⟨head.op, refs, head.data, head.traits⟩ = none)
      (ok : extend ⟨head.op, refs, head.data, head.traits⟩ head.rowType t m = .ok (g, e) m') :
      Registered m head refs (some t) (g, e) m'

theorem register_eq_ok (h : register head refs target m = .ok answer m') :
    m.Registered head refs target answer m' := by
  simp only [register] at h
  have h := run_get_bind_eq_ok h
  cases hf : m.findExpr? ⟨head.op, refs, head.data, head.traits⟩ with
  | some found =>
    simp only [hf] at h
    cases target with
    | some t =>
      have h := run_get_bind_eq_ok h
      obtain ⟨_, hrow, h⟩ := Update.read_bind_eq_ok h
      obtain ⟨_, m₁, h₁, h⟩ := run_bind_eq_ok h
      have h := run_get_bind_eq_ok h
      obtain ⟨rfl, rfl⟩ := run_pure_eq_ok h
      exact .united hf hrow h₁
    | none =>
      obtain ⟨rfl, rfl⟩ := run_pure_eq_ok h
      exact .found hf
  | none =>
    simp only [hf] at h
    cases target with
    | some t => exact .extended hf h
    | none => exact .created hf h

/-- The traits of an operation fit, and it is registered once its inputs are there. -/
theorem insertOver_eq_ok {inputs : Update Op Q (List SubGroupRef)}
    (h : insertOver head inputs target m = .ok answer m') : m.registry.check head.traits = .ok () ∧
      ∃ refs m₁, inputs m = .ok refs m₁ ∧ register head refs target m₁ = .ok answer m' := by
  simp only [insertOver] at h
  obtain ⟨_, hcheck, h⟩ := Update.read_bind_eq_ok h
  obtain ⟨refs, m₁, h₁, h⟩ := run_bind_eq_ok h
  exact ⟨checkTraits_eq_ok hcheck, refs, m₁, h₁, h⟩

variable {op : Op} {require : Bool} {ps : List (Plan Op)}

theorem insertInputs_nil_eq_ok (h : insertInputs op require [] m = .ok refs m') : refs = [] ∧ m' = m := by
  simp only [insertInputs] at h
  obtain ⟨rfl, rfl⟩ := run_pure_eq_ok h
  exact ⟨rfl, rfl⟩

/-- For a reference, a sub group is asked for, and then come the other inputs. -/
theorem insertInputs_group_eq_ok {ref : SubGroupRef} (h : insertInputs op require (.group ref :: ps) m = .ok refs m') :
    m.registry.check ref.traits = .ok () ∧ ∃ s m₁ rest, ensureSubGroup (m.reduceRef ref) require m = .ok s m₁ ∧
      insertInputs op require ps m₁ = .ok rest m' ∧ refs = m.reduceRef ref :: rest := by
  simp only [insertInputs] at h
  obtain ⟨_, hcheck, h⟩ := Update.read_bind_eq_ok h
  obtain ⟨_, -, h⟩ := Update.read_bind_eq_ok h
  have h := run_get_bind_eq_ok h
  obtain ⟨s, m₁, h₁, h⟩ := run_bind_eq_ok h
  obtain ⟨rest, m₂, h₂, h⟩ := run_bind_eq_ok h
  obtain ⟨rfl, rfl⟩ := run_pure_eq_ok h
  exact ⟨checkTraits_eq_ok hcheck, s, m₁, rest, h₁, h₂, rfl⟩

/-- An operation is added with what is below it, then a sub group of its group is asked for, and then come the other
inputs. -/
theorem insertInputs_node_eq_ok {inputs : List (Plan Op)}
    (h : insertInputs op require (.node head inputs :: ps) m = .ok refs m') : ∃ g e m₁ s m₂ rest,
      insertOver head (insertInputs head.op true inputs) none m = .ok (g, e) m₁ ∧
      ensureSubGroup ⟨m₁.reduceGroup g, head.traits⟩ require m₁ = .ok s m₂ ∧
      insertInputs op require ps m₂ = .ok rest m' ∧ refs = ⟨m₁.reduceGroup g, head.traits⟩ :: rest := by
  simp only [insertInputs] at h
  obtain ⟨⟨g, e⟩, m₁, h₁, h⟩ := run_bind_eq_ok h
  have h := run_get_bind_eq_ok h
  obtain ⟨s, m₂, h₂, h⟩ := run_bind_eq_ok h
  obtain ⟨rest, m₃, h₃, h⟩ := run_bind_eq_ok h
  obtain ⟨rfl, rfl⟩ := run_pure_eq_ok h
  exact ⟨g, e, m₁, s, m₂, rest, h₁, h₂, h₃, rfl⟩

variable {n : PlanNode Op} {g : GroupId} {e : ExprId}

/-- The group is answered under its live name. -/
theorem add_eq_ok (h : add n m = .ok (g, e) m') :
    ∃ g', insertOver n.head (insertInputs n.head.op true n.inputs) none m = .ok (g', e) m' ∧ g = m'.reduceGroup g' := by
  simp only [add, insertNode] at h
  obtain ⟨⟨g', e'⟩, m₁, h₁, h⟩ := run_bind_eq_ok h
  have h := run_get_bind_eq_ok h
  obtain ⟨hanswer, rfl⟩ := run_pure_eq_ok h
  cases hanswer
  exact ⟨g', h₁, rfl⟩

/-- The inputs of an operation are inserted, and then it is registered with the group. -/
theorem addNodeTo_eq_ok {answer : Option ExprId} (h : addNodeTo n g require m = .ok answer m') :
    m.registry.check n.head.traits = .ok () ∧ ∃ refs m₁ g' e,
      insertInputs n.head.op require n.inputs m = .ok refs m₁ ∧
      register n.head refs (some (m.reduceGroup g)) m₁ = .ok (g', e) m' ∧ answer = some e := by
  simp only [addNodeTo, insertNode] at h
  have h := run_get_bind_eq_ok h
  obtain ⟨⟨g', e⟩, m₂, h₂, h⟩ := run_bind_eq_ok h
  obtain ⟨rfl, rfl⟩ := run_pure_eq_ok h
  obtain ⟨hfits, refs, m₁, h₁, h₂⟩ := insertOver_eq_ok h₂
  exact ⟨hfits, refs, m₁, g', e, h₁, h₂, rfl⟩

/-- A reference that is added to a group merges the two groups. -/
theorem addTo_group_eq_ok {ref : SubGroupRef} {answer : Option ExprId} (h : addTo (.group ref) g m = .ok answer m') :
    merge (m.reduceGroup g) (m.reduceGroup ref.group) m = .ok () m' ∧ answer = none := by
  simp only [addTo] at h
  have h := run_get_bind_eq_ok h
  obtain ⟨_, m₁, h₁, h⟩ := run_bind_eq_ok h
  obtain ⟨rfl, rfl⟩ := run_pure_eq_ok h
  exact ⟨h₁, rfl⟩

end Plans

end Memo

end PlanSearch
