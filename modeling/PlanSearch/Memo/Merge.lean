import PlanSearch.Memo.Winner

/-!
# Merging groups

When two groups turn out to hold equivalent expressions, the one with more members takes the other
in; of equally large ones the lower name stays. The sub groups of the absorbed group are folded into
those of the other, winners of one side are offered to the other, and the readers of the absorbed
group are redirected. A redirected reader may become congruent to another expression. Then it is
dropped, and if the two were in different groups, those groups have to be merged in turn. Every merge
takes one group out of the memo, so the chain of merges ends.

    mergePair a b m = .ok (m', ps) → m'.groups.size < m.groups.size        (Memo.size_mergePair_lt)
-/

namespace PlanSearch

namespace Memo

variable {Op Q : Type}

/-- The error of a row type that is not the one of the group. -/
def checkRowType (m : Memo Op Q) (g : GroupId) (rowType : RowType) : Except Failure Unit := do
  let group ← m.getGroup g
  if group.rowType = rowType then return ()
  else throw (.error (.rowTypeMismatch g group.rowType rowType))

/-! ## Taking a group in -/

/-- Moves the members and parents of the group `gone` under the name `absorbed` to the group `keep`,
and redirects the name. -/
def takeIn (keep absorbed : GroupId) (gone : Group) (m : Memo Op Q) : Memo Op Q :=
  { m with
    groups := (m.groups.erase absorbed).modify keep fun group =>
      { group with
        members := group.members ++ gone.members
        parents := group.parents.insertMany gone.parents.toList }
    groupAlias := (m.groupAlias.unite keep absorbed).1
    exprs := gone.members.foldl (fun t e => t.modify e fun x => { x with group := keep }) m.exprs }

variable [Quantity Q]

/-- Folds a sub group of the absorbed group into the sub group `kept` under the same traits, which
gets the better of the two winners. Where the absorbed group had readers, they read `kept` from now
on, so its winner counts as improved for them. -/
def foldInto (kept s : SubGroupId) (sub : SubGroup Q) (hadReaders : Bool) (m : Memo Op Q) :
    Except Failure (Memo Op Q) := do
  let m : Memo Op Q :=
    { m with
      subGroups := m.subGroups.erase s
      subGroupAlias := (m.subGroupAlias.unite kept s).1 }
  let m ← markIf sub.required kept m
  let keptSub ← m.liveSubGroup kept
  let better := sub.winner.filter fun w => beats m.tieBreak w keptSub.winner
  match better with
  | some w => return (m.setSubGroup kept { keptSub with winner := some w }).noteImproved kept
  | none => return if hadReaders && keptSub.winner.isSome then m.noteImproved kept else m

/-- Hands a sub group of the absorbed group over to the group `keep`. -/
def moveSubGroup (keep : GroupId) (hadReaders : Bool) (s : SubGroupId) (m : Memo Op Q) :
    Except Failure (Memo Op Q) := do
  let sub ← m.liveSubGroup s
  let group ← m.liveGroup keep
  match group.sub? sub.traits with
  | some kept => foldInto kept s sub hadReaders m
  | none =>
    return { m with
      subGroups := m.subGroups.insert s { sub with group := keep }
      groups := m.groups.modify keep fun group =>
        { group with subGroups := group.subGroups ++ [(sub.traits, s)] } }

/-- Offers every member of a group to every sub group of it. -/
def offerMembers (g : GroupId) (m : Memo Op Q) : Except Failure (Memo Op Q) := do
  let group ← m.liveGroup g
  (group.subGroups.map Prod.snd).foldlM (fun m s => offerAll s group.members m) m

/-! ## Redirecting readers -/

/-- Lets every winner that is the expression `e` be `twin` instead. -/
def renameWinner (e twin : ExprId) (m : Memo Op Q) (s : SubGroupId) : Except Failure (Memo Op Q) := do
  let sub ← m.liveSubGroup s
  return m.setSubGroup s
    { sub with winner := sub.winner.map fun w => if w.expr = e then { w with expr := twin } else w }

/-- Drops the expression `e`, a member of `entry.group` that has become congruent to `twin` and now
reads the groups of `x`. The twin inherits its price, if it has none of its own, and its victories
in that group. -/
def dropTwin (e twin : ExprId) (entry : Entry Op Q) (x : Expr Op) (m : Memo Op Q) :
    Except Failure (Memo Op Q) := do
  let exprs := (m.exprs.erase e).modify twin fun t => { t with price := t.price <|> entry.price }
  let groups := x.inputs.foldl (fun t r =>
    t.modify r.group fun group => { group with parents := group.parents.erase e }) m.groups
  let m : Memo Op Q :=
    { m with
      exprs := exprs
      exprAlias := (m.exprAlias.unite twin e).1
      groups := groups.modify entry.group fun group =>
        { group with members := group.members.filter (· ≠ e) } }
  let m ← (m.subGroupsOf entry.group).foldlM (renameWinner e twin) m
  return { m with changes := { m.changes with newExprs := m.changes.newExprs.filter (· ≠ e) } }

/-- Redirects one reader of the absorbed group to the group `keep`, and adds the pair of groups that
are to be merged if the reader is found to have a twin in another group. -/
def redirectReader [DecidableEq Op] (keep absorbed : GroupId)
    (state : Memo Op Q × List (GroupId × GroupId)) (e : ExprId) :
    Except Failure (Memo Op Q × List (GroupId × GroupId)) :=
  let (m, pending) := state
  match m.exprs[e]? with
  | none => .ok (m, pending)
  | some entry =>
    if !entry.expr.reads absorbed then .ok (m, pending)
    else
      let x := entry.expr.redirect absorbed keep
      match m.findExpr? x with
      | none => .ok ({ m with exprs := m.exprs.insert e { entry with expr := x } }, pending)
      | some (twin, other) => do
        let m ← dropTwin e twin entry x m
        return (m, if other.group = entry.group then pending
          else pending ++ [(other.group, entry.group)])

/-! ## Merging -/

/-- Merges the live group `gone` under the name `absorbed` into the live group `keep`. Answers the
pairs of groups that have to be merged because of it. -/
def absorb [DecidableEq Op] (keep absorbed : GroupId) (gone : Group) (m : Memo Op Q) :
    Except Failure (Memo Op Q × List (GroupId × GroupId)) := do
  let m := takeIn keep absorbed gone m
  let hadReaders := !gone.parents.isEmpty
  let m ← (gone.subGroups.map Prod.snd).foldlM (fun m s => moveSubGroup keep hadReaders s m) m
  let m ← offerMembers keep m
  let group ← m.liveGroup keep
  let (m, pending) ← group.parents.toList.foldlM (redirectReader keep absorbed) (m, [])
  return ({ m with changes := { m.changes with merged := m.changes.merged ++ [(keep, absorbed)] } },
    pending)

/-- Whether the first of two groups takes the second in. -/
def staysFirst (a b : GroupId) (ga gb : Group) : Bool :=
  gb.members.length < ga.members.length || (ga.members.length = gb.members.length && a < b)

/-- Merges two different live groups. -/
def mergePair [DecidableEq Op] (a b : GroupId) (m : Memo Op Q) :
    Except Failure (Memo Op Q × List (GroupId × GroupId)) :=
  match m.groups[a]? with
  | none => .error (.error (.danglingReference a .lookup))
  | some ga =>
    match m.groups[b]? with
    | none => .error (.error (.danglingReference b .lookup))
    | some gb =>
      let (keep, gk, absorbed, gone) :=
        if staysFirst a b ga gb then (a, ga, b, gb) else (b, gb, a, ga)
      if gk.rowType ≠ gone.rowType then
        .error (.error (.rowTypeMismatch keep gk.rowType gone.rowType))
      else absorb keep absorbed gone m

/-! ## Merging takes groups away -/

/-- The number of live groups. -/
def groupCount (m : Memo Op Q) : Nat := m.groups.size

omit [Quantity Q] in
theorem groupCount_takeIn (keep : GroupId) {absorbed : GroupId} (gone : Group) {m : Memo Op Q}
    (h : absorbed ∈ m.groups) : (takeIn keep absorbed gone m).groupCount < m.groupCount := by
  have hpos : 0 < m.groups.size := by
    rcases Nat.eq_zero_or_pos m.groups.size with h0 | h0
    · have he : m.groups.isEmpty = true := by
        rw [Std.TreeMap.isEmpty_eq_size_eq_zero, h0]; rfl
      have hc : m.groups.contains absorbed = true := Std.TreeMap.contains_iff_mem.2 h
      rw [Std.TreeMap.isEmpty_iff_forall_contains] at he
      rw [he] at hc; cases hc
    · exact h0
  simp only [groupCount, takeIn, Std.TreeMap.size_modify, Std.TreeMap.size_erase]
  rw [if_pos (Std.TreeMap.contains_iff_mem.2 h)]
  omega

theorem groupCount_foldInto {kept s : SubGroupId} {sub : SubGroup Q} {hadReaders : Bool}
    {m m' : Memo Op Q} (h : foldInto kept s sub hadReaders m = .ok m') :
    m'.groupCount = m.groupCount := by
  simp only [foldInto] at h
  obtain ⟨m₁, h₁, h₂⟩ := bind_eq_ok h
  obtain ⟨keptSub, -, h₃⟩ := bind_eq_ok h₂
  have hm₁ : m₁.groups = m.groups := (groups_of_markIf h₁ :)
  split at h₃
  · cases h₃; simp [groupCount, noteImproved, setSubGroup, hm₁]
  · cases h₃
    split <;> simp [groupCount, noteImproved, hm₁]

theorem groupCount_moveSubGroup {keep : GroupId} {hadReaders : Bool} {s : SubGroupId}
    {m m' : Memo Op Q} (h : moveSubGroup keep hadReaders s m = .ok m') :
    m'.groupCount = m.groupCount := by
  simp only [moveSubGroup] at h
  obtain ⟨sub, -, h₁⟩ := bind_eq_ok h
  obtain ⟨group, -, h₂⟩ := bind_eq_ok h₁
  split at h₂
  · exact groupCount_foldInto h₂
  · cases h₂
    simp [groupCount, Std.TreeMap.size_modify]

theorem groupCount_offerMembers {g : GroupId} {m m' : Memo Op Q} (h : offerMembers g m = .ok m') :
    m'.groupCount = m.groupCount := by
  simp only [offerMembers] at h
  obtain ⟨group, -, h₁⟩ := bind_eq_ok h
  exact foldlM_keeps groupCount
    (fun s b s' hs => congrArg Std.TreeMap.size (groups_of_offerAll hs)) _ _ _ h₁

omit [Quantity Q] in
theorem groupCount_renameWinner {e twin : ExprId} {s : SubGroupId} {m m' : Memo Op Q}
    (h : renameWinner e twin m s = .ok m') : m'.groupCount = m.groupCount := by
  simp only [renameWinner] at h
  obtain ⟨sub, -, h₁⟩ := bind_eq_ok h
  cases h₁; rfl

omit [Quantity Q] in
theorem size_foldl_modify (rs : List SubGroupRef) (f : Group → Group) (t : Std.TreeMap GroupId Group) :
    (rs.foldl (fun t r => t.modify r.group f) t).size = t.size := by
  induction rs generalizing t with
  | nil => rfl
  | cons r rs ih => rw [List.foldl_cons, ih, Std.TreeMap.size_modify]

omit [Quantity Q] in
theorem groupCount_dropTwin {e twin : ExprId} {entry : Entry Op Q} {x : Expr Op}
    {m m' : Memo Op Q} (h : dropTwin e twin entry x m = .ok m') : m'.groupCount = m.groupCount := by
  simp only [dropTwin] at h
  obtain ⟨m₁, h₁, h₂⟩ := bind_eq_ok h
  cases h₂
  have := foldlM_keeps groupCount (fun s b s' hs => groupCount_renameWinner hs) _ _ _ h₁
  simpa [groupCount, Std.TreeMap.size_modify, size_foldl_modify] using this

omit [Quantity Q] in
theorem groupCount_redirectReader [DecidableEq Op] {keep absorbed : GroupId} {e : ExprId}
    {st st' : Memo Op Q × List (GroupId × GroupId)}
    (h : redirectReader keep absorbed st e = .ok st') : st'.1.groupCount = st.1.groupCount := by
  obtain ⟨m, pending⟩ := st
  simp only [redirectReader] at h
  split at h
  · cases h; rfl
  · split at h
    · cases h; rfl
    · split at h
      · cases h; rfl
      · obtain ⟨m₁, h₁, h₂⟩ := bind_eq_ok h
        cases h₂
        exact groupCount_dropTwin h₁

theorem groupCount_absorb [DecidableEq Op] {keep absorbed : GroupId} {gone : Group}
    {m m' : Memo Op Q} {pending : List (GroupId × GroupId)} (hmem : absorbed ∈ m.groups)
    (h : absorb keep absorbed gone m = .ok (m', pending)) : m'.groupCount < m.groupCount := by
  simp only [absorb] at h
  obtain ⟨m₁, h₁, h⟩ := bind_eq_ok h
  obtain ⟨m₂, h₂, h⟩ := bind_eq_ok h
  obtain ⟨group, -, h⟩ := bind_eq_ok h
  obtain ⟨⟨m₃, p₃⟩, h₃, h⟩ := bind_eq_ok h
  cases h
  have e₁ := foldlM_keeps groupCount (fun s b s' hs => groupCount_moveSubGroup hs) _ _ _ h₁
  have e₂ := groupCount_offerMembers h₂
  have e₃ := foldlM_keeps (fun st : Memo Op Q × List (GroupId × GroupId) => st.1.groupCount)
    (fun s b s' hs => groupCount_redirectReader hs) _ _ _ h₃
  have e₀ := groupCount_takeIn keep gone hmem
  show m₃.groupCount < m.groupCount
  simp only at e₃
  omega

theorem size_mergePair_lt [DecidableEq Op] {a b : GroupId} {m m' : Memo Op Q}
    {pending : List (GroupId × GroupId)} (h : mergePair a b m = .ok (m', pending)) :
    m'.groupCount < m.groupCount := by
  unfold mergePair at h
  split at h
  · cases h
  · next ga ha =>
    split at h
    · cases h
    · next gb hb =>
      have hma : a ∈ m.groups := by rw [Std.TreeMap.mem_iff_isSome_getElem?, ha]; rfl
      have hmb : b ∈ m.groups := by rw [Std.TreeMap.mem_iff_isSome_getElem?, hb]; rfl
      split at h
      next keep gk absorbed gone hpick =>
      have hmem : absorbed ∈ m.groups := by
        split at hpick <;> (cases hpick; assumption)
      split at h
      · cases h
      · exact groupCount_absorb hmem h

/-- Merges the pairs of groups one after the other, first those given and then those that become
equivalent on the way. A merge that fails leaves the memo as the merges before it left it. -/
def mergeAll [DecidableEq Op] (m : Memo Op Q) (pending : List (GroupId × GroupId)) :
    EStateM.Result Failure (Memo Op Q) Unit :=
  match pending.dropWhile fun p => m.reduceGroup p.1 = m.reduceGroup p.2 with
  | [] => .ok () m
  | p :: rest =>
    match h : mergePair (m.reduceGroup p.1) (m.reduceGroup p.2) m with
    | .error e => .error e m
    | .ok (m', more) =>
      have := size_mergePair_lt h
      mergeAll m' (rest ++ more)
termination_by m.groupCount

/-- Merges two groups, then all groups that become equivalent because of it. -/
def merge [DecidableEq Op] (a b : GroupId) : Update Op Q Unit := fun m => mergeAll m [(a, b)]

end Memo

end PlanSearch
