import PlanSearch.Memo.Basic

/-!
# Winners

An expression with a price is offered to every sub group of its group. It becomes the winner when it
delivers what the sub group requires, does not read itself, and weighs less than the winner so far;
exact ties go by the tie-break of the memo. A sub group is created on first request and is offered
all members of its group then.

    offer s e m = .ok m' → m'.groups = m.groups        (Memo.groups_of_offer)
-/

namespace PlanSearch

/-- A step that changes the memo and can end in a fault or an error, with the memo as it was left. -/
abbrev Update (Op Q α : Type) := EStateM Failure (Memo Op Q) α

namespace Update

variable {Op Q α : Type}

/-- Reads the memo. -/
def read (f : Memo Op Q → Except Failure α) : Update Op Q α := fun m =>
  match f m with
  | .ok a => .ok a m
  | .error e => .error e m

/-- Replaces the memo by the result of a step, if there is one. -/
def step (f : Memo Op Q → Except Failure (Memo Op Q)) : Update Op Q Unit := fun m =>
  match f m with
  | .ok m' => .ok () m'
  | .error e => .error e m

end Update

namespace Memo

variable {Op Q : Type}

/-- Replaces the record of a sub group. -/
def setSubGroup (m : Memo Op Q) (s : SubGroupId) (sub : SubGroup Q) : Memo Op Q :=
  { m with subGroups := m.subGroups.insert s sub }

/-- Records that the winner of a sub group changed, or is now read by others. -/
def noteImproved (m : Memo Op Q) (s : SubGroupId) : Memo Op Q :=
  { m with changes := { m.changes with improved := m.changes.improved ++ [s] } }

/-! ## Offers -/

/-- Whether an expression would feed on itself as the winner: it reads its own group under traits
that already meet the requirement. -/
def readsItself (m : Memo Op Q) (x : Expr Op) (sub : SubGroup Q) : Bool :=
  x.inputs.any fun r => m.reduceGroup r.group = sub.group && m.registry.satisfies r.traits sub.traits

/-- Whether an expression may win the sub group at all. -/
def eligible (m : Memo Op Q) (x : Expr Op) (sub : SubGroup Q) : Bool :=
  m.registry.satisfies x.traits sub.traits && !m.readsItself x sub

variable [Quantity Q]

/-- Whether a candidate takes the place of the winner so far. No tie-break prefers an expression to
itself, so the winner itself is only replaced at a lower weight. -/
def beats (t : TieBreak) (candidate : Winner Q) : Option (Winner Q) → Bool
  | none => true
  | some w =>
    Quantity.less candidate.price.weight w.price.weight
      || (Quantity.same candidate.price.weight w.price.weight && t.prefers candidate.expr w.expr)

/-- Offers an expression to a sub group. -/
def offer (s : SubGroupId) (e : ExprId) (m : Memo Op Q) : Except Failure (Memo Op Q) :=
  match m.exprs[e]? with
  | none => .ok m
  | some entry =>
    match entry.price with
    | none => .ok m
    | some price =>
      match m.subGroups[s]? with
      | none => .error (.fault (.unknownSubGroup s))
      | some sub =>
        if m.eligible entry.expr sub && beats m.tieBreak ⟨e, price⟩ sub.winner then
          .ok ((m.setSubGroup s { sub with winner := some ⟨e, price⟩ }).noteImproved s)
        else .ok m

/-- Offers every one of some expressions to a sub group. -/
def offerAll (s : SubGroupId) (es : List ExprId) (m : Memo Op Q) : Except Failure (Memo Op Q) :=
  es.foldlM (fun m e => offer s e m) m

/-! ## Prices -/

/-- Records the price of an expression and offers the expression to every sub group of its group. -/
def recordPrice (e : ExprId) (price : Price Q) (m : Memo Op Q) : Except Failure (Memo Op Q) := do
  let entry ← m.getEntry e
  let e := m.reduceExpr e
  let m : Memo Op Q := { m with exprs := m.exprs.insert e { entry with price := some price } }
  let group ← m.liveGroup (m.reduceGroup entry.group)
  (group.subGroups.map Prod.snd).foldlM (fun m s => offer s e m) m

/-! ## Sub groups on request -/

/-- Marks a sub group as required; the first time is recorded. -/
def markRequired (s : SubGroupId) (m : Memo Op Q) : Except Failure (Memo Op Q) := do
  let sub ← m.liveSubGroup s
  if sub.required then return m
  else
    let m := m.setSubGroup s { sub with required := true }
    return { m with changes := { m.changes with required := m.changes.required ++ [s] } }

/-- Marks a sub group as required if that is asked for. -/
def markIf (require : Bool) (s : SubGroupId) (m : Memo Op Q) : Except Failure (Memo Op Q) :=
  if require then markRequired s m else .ok m

/-- A fresh sub group of a live group, without a winner. -/
def openSubGroup (g : GroupId) (traits : TraitSet) (m : Memo Op Q) : Memo Op Q × SubGroupId :=
  let s : SubGroupId := ⟨m.next⟩
  ({ m with
      next := m.next + 1
      subGroups := m.subGroups.insert s ⟨g, traits, none, false⟩
      subGroupAlias := m.subGroupAlias.add s
      groups := m.groups.modify g fun group =>
        { group with subGroups := group.subGroups ++ [(traits, s)] } }, s)

/-- A trait set that fits the registry, or the error that says why it does not. -/
def checkTraits (m : Memo Op Q) (traits : TraitSet) : Except Failure Unit :=
  match m.registry.check traits with
  | .ok () => .ok ()
  | .error e => .error (.error e)

/-- The sub group that a reference stands for, created on first request. -/
def ensureSubGroup (r : SubGroupRef) (require : Bool) : Update Op Q SubGroupId := do
  Update.read fun m => m.checkTraits r.traits
  let group ← Update.read fun m => m.getGroup r.group
  match group.sub? r.traits with
  | some s =>
    Update.step (markIf require s)
    return s
  | none =>
    let s ← modifyGet fun m => let (m', s) := m.openSubGroup (m.reduceGroup r.group) r.traits; (s, m')
    Update.step (markIf require s)
    Update.step (offerAll s group.members)
    return s

/-! ## Lemmas -/

theorem groups_of_offer {s : SubGroupId} {e : ExprId} {m m' : Memo Op Q}
    (h : offer s e m = .ok m') : m'.groups = m.groups := by
  unfold offer at h
  split at h
  · cases h; rfl
  · split at h
    · cases h; rfl
    · split at h
      · cases h
      · split at h <;> (cases h; rfl)

theorem groups_of_offerAll {s : SubGroupId} {es : List ExprId} {m m' : Memo Op Q}
    (h : offerAll s es m = .ok m') : m'.groups = m.groups := by
  induction es generalizing m with
  | nil => cases h; rfl
  | cons e es ih =>
    simp only [offerAll, List.foldlM_cons] at h
    cases ho : offer s e m with
    | error x => rw [ho] at h; cases h
    | ok m₁ =>
      rw [ho] at h
      rw [ih (m := m₁) h, groups_of_offer ho]

omit [Quantity Q] in
theorem groups_of_markRequired {s : SubGroupId} {m m' : Memo Op Q}
    (h : markRequired s m = .ok m') : m'.groups = m.groups := by
  unfold markRequired at h
  cases hs : m.liveSubGroup s with
  | error x => rw [hs] at h; cases h
  | ok sub =>
    rw [hs] at h
    simp only [bind, Except.bind, pure, Except.pure] at h
    split at h <;> (cases h; rfl)

omit [Quantity Q] in
theorem groups_of_markIf {require : Bool} {s : SubGroupId} {m m' : Memo Op Q}
    (h : markIf require s m = .ok m') : m'.groups = m.groups := by
  unfold markIf at h
  split at h
  · exact groups_of_markRequired h
  · cases h; rfl

end Memo

end PlanSearch
