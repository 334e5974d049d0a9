import PlanSearch.Proofs.Memo.Merging

/-!
# The standings of a memo

Beside its outline, a memo says who is winning: the winner of every sub group, the price of every
expression, and the sub groups noted as improved since the changes were last taken. An offer, a price
and the folding of two sub groups change the standings; everything else carries them along.

    offer s e m = .ok m' → m'.standings = m.standings.offer m.registry m.tieBreak m.outline s e
                                                                          (Memo.standings_offer)
    dropTwin e twin entry x m = .ok m' → m'.standings = m.standings.drop e twin (m.subGroupsOf entry.group)
                                                                          (Memo.standings_dropTwin)
-/

namespace PlanSearch

/-- Winners, prices, and the sub groups noted as improved. -/
@[ext]
structure Standings (Q : Type) where
  wins : SubGroupId → Option (Winner Q)
  price : ExprId → Option (Price Q)
  improved : List SubGroupId

/-- The standings of a memo. -/
def Memo.standings {Op Q : Type} (m : Memo Op Q) : Standings Q where
  wins s := (m.subGroups[s]?).bind SubGroup.winner
  price e := (m.exprs[e]?).bind Entry.price
  improved := m.changes.improved

/-- The winner of the sub group that a name stands for. -/
def Memo.winnerOf {Op Q : Type} (m : Memo Op Q) (s : SubGroupId) : Option (Winner Q) :=
  (m.subGroups[m.reduceSubGroup s]?).bind SubGroup.winner

/-- Whether an expression may win a sub group, as far as names go: it delivers what is required, and
none of its inputs is on the group of the sub group under traits that meet the requirement. -/
def Outline.eligible {Op : Type} (registry : Registry Op) (o : Outline Op) (x : Expr Op)
    (r : SubGroupRef) : Bool :=
  registry.satisfies x.traits r.traits
    && !x.inputs.any fun i => o.reduce i.group = r.group && registry.satisfies i.traits r.traits

namespace Standings

variable {Op Q : Type}

/-- The sub group `s` has the winner `w`, and this is noted. -/
def crown (s : SubGroupId) (w : Winner Q) (st : Standings Q) : Standings Q :=
  { st with wins := fun s' => if s' = s then some w else st.wins s', improved := st.improved ++ [s] }

/-- The expression `e` has the price `p`. -/
def setPrice (e : ExprId) (p : Price Q) (st : Standings Q) : Standings Q :=
  { st with price := fun e' => if e' = e then some p else st.price e' }

/-- The sub group `s` has no winner. -/
def vacate (s : SubGroupId) (st : Standings Q) : Standings Q :=
  { st with wins := fun s' => if s' = s then none else st.wins s' }

/-- The winner with the name `twin` in place of `e`. -/
def retitle (e twin : ExprId) (w : Winner Q) : Winner Q :=
  if w.expr = e then { w with expr := twin } else w

/-- The victories of `e` among `subs` are those of `twin`. -/
def rename (e twin : ExprId) (subs : List SubGroupId) (st : Standings Q) : Standings Q :=
  { st with wins := fun s => if s ∈ subs then (st.wins s).map (retitle e twin) else st.wins s }

/-- The expression `e` is dropped for `twin`, which inherits its price, if it has none, and its victories
among `subs`. -/
def drop (e twin : ExprId) (subs : List SubGroupId) (st : Standings Q) : Standings Q :=
  { st.rename e twin subs with
    price := fun e' =>
      if e' = twin then st.price twin <|> st.price e else if e' = e then none else st.price e' }

/-- Nothing is noted as improved. -/
def forget (st : Standings Q) : Standings Q := { st with improved := [] }

variable [Quantity Q]

/-- The live expression `e` is offered to the live sub group `s`. -/
def offer (registry : Registry Op) (tie : TieBreak) (o : Outline Op) (s : SubGroupId) (e : ExprId)
    (st : Standings Q) : Standings Q :=
  match o.entry e, o.sub s, st.price e with
  | some (x, _), some r, some p =>
    if o.eligible registry x r && Memo.beats tie ⟨e, p⟩ (st.wins s) then st.crown s ⟨e, p⟩ else st
  | _, _, _ => st

/-- The sub group `s` is folded into `kept`, which gets the better of the two winners. -/
def fold (tie : TieBreak) (hadReaders : Bool) (kept s : SubGroupId) (st : Standings Q) : Standings Q :=
  match (st.wins s).filter fun w => Memo.beats tie w (st.wins kept) with
  | some w => (st.vacate s).crown kept w
  | none =>
    if hadReaders && (st.wins kept).isSome then
      { st.vacate s with improved := st.improved ++ [kept] }
    else st.vacate s

end Standings

namespace Memo

open Standings

variable {Op Q : Type} {m m' : Memo Op Q}

theorem winnerOf_eq (m : Memo Op Q) (s : SubGroupId) :
    m.winnerOf s = m.standings.wins (m.outline.reduceSub s) := rfl

theorem standings_wins_of {s : SubGroupId} {sub : SubGroup Q} (h : m.subGroups[s]? = some sub) :
    m.standings.wins s = sub.winner := by
  simp only [standings, h]
  rfl

theorem standings_price_of {e : ExprId} {entry : Entry Op Q} (h : m.exprs[e]? = some entry) :
    m.standings.price e = entry.price := by
  simp only [standings, h]
  rfl

/-! ## Steps that leave the standings alone -/

theorem eligible_eq (m : Memo Op Q) (x : Expr Op) (sub : SubGroup Q) :
    m.eligible x sub = m.outline.eligible m.registry x sub.ref := rfl

/-- A mark on a sub group changes no winner. -/
theorem standings_setSubGroup {s : SubGroupId} {sub sub' : SubGroup Q}
    (h : m.subGroups[s]? = some sub) (hw : sub'.winner = sub.winner) :
    (m.setSubGroup s sub').standings = m.standings := by
  ext1
  · funext s'
    simp only [standings, setSubGroup, Tables.getElem?_insert_eq]
    split
    · next hs => rw [hs, h]; exact hw
    · rfl
  · rfl
  · rfl

theorem standings_markIf {require : Bool} {s : SubGroupId} (h : markIf require s m = .ok m') :
    m'.standings = m.standings := by
  obtain ⟨rfl, -⟩ | ⟨-, sub, hs, -, rfl⟩ := markIf_eq_ok h
  · rfl
  · show (m.setSubGroup s { sub with required := true }).standings = m.standings
    exact standings_setSubGroup hs rfl

/-- A new sub group has no winner, like a name that was not given out. -/
theorem standings_openSubGroup {g : GroupId} {traits : TraitSet}
    (h : m.outline.sub ⟨m.next⟩ = none) : (m.openSubGroup g traits).1.standings = m.standings := by
  ext1
  · funext s
    simp only [standings, openSubGroup, Tables.getElem?_insert_eq]
    split
    · next hs =>
      rw [outline_sub, Option.map_eq_none_iff] at h
      rw [hs, h]
      rfl
    · rfl
  · rfl
  · rfl

/-- A new expression has no price, like a name that was not given out. -/
theorem standings_enterExpr {e : ExprId} {x : Expr Op} {g : GroupId} (h : m.outline.entry e = none) :
    (m.enterExpr e x g).standings = m.standings := by
  ext1
  · rfl
  · funext e'
    simp only [standings, enterExpr, addParent, Tables.getElem?_insert_eq]
    split
    · next he =>
      rw [outline_entry, Option.map_eq_none_iff] at h
      rw [he, h]
      rfl
    · rfl
  · rfl

theorem standings_takeIn (keep absorbed : GroupId) (gone : Group) (m : Memo Op Q) :
    (takeIn keep absorbed gone m).standings = m.standings := by
  have key : ∀ (es : List ExprId) (t : Std.TreeMap ExprId (Entry Op Q)) (e : ExprId),
      ((es.foldl (fun t e => t.modify e fun x => { x with group := keep }) t)[e]?).bind Entry.price
        = (t[e]?).bind Entry.price := by
    intro es
    induction es with
    | nil => intro t e; rfl
    | cons e₀ es ih =>
      intro t e
      rw [List.foldl_cons, ih, Tables.getElem?_modify_eq]
      split
      · cases t[e]? <;> rfl
      · rfl
  ext1
  · rfl
  · funext e; exact key gone.members m.exprs e
  · rfl

theorem standings_handOver {keep : GroupId} {s : SubGroupId} {sub : SubGroup Q}
    (h : m.subGroups[s]? = some sub) : (m.handOver keep s sub).standings = m.standings :=
  standings_setSubGroup h (show ({ sub with group := keep } : SubGroup Q).winner = sub.winner from rfl)

/-- The live expression `e` is rewritten. -/
theorem standings_rewrite {e : ExprId} {entry : Entry Op Q} {x : Expr Op}
    (h : m.exprs[e]? = some entry) :
    ({ m with exprs := m.exprs.insert e { entry with expr := x } } : Memo Op Q).standings
      = m.standings := by
  ext1
  · rfl
  · funext e'
    simp only [standings, Tables.getElem?_insert_eq]
    split
    · next he => rw [he, h]; rfl
    · rfl
  · rfl

/-! ## Prices and offers -/

theorem standings_setPrice {e : ExprId} {entry : Entry Op Q} (p : Price Q) (m : Memo Op Q) :
    ({ m with exprs := m.exprs.insert e { entry with price := some p } } : Memo Op Q).standings
      = m.standings.setPrice e p := by
  ext1
  · rfl
  · funext e'
    simp only [standings, Standings.setPrice, Tables.getElem?_insert_eq]
    split <;> rfl
  · rfl

section Offers

variable [Quantity Q]

theorem standings_offer {s : SubGroupId} {e : ExprId} (h : offer s e m = .ok m') :
    m'.standings = m.standings.offer m.registry m.tieBreak m.outline s e := by
  simp only [Standings.offer, outline_entry, outline_sub]
  unfold offer at h
  split at h
  · next he => cases h; rw [he]; rfl
  · next entry he =>
    rw [he, standings_price_of he]
    split at h
    · next hp =>
      cases h
      rw [hp]
      cases m.subGroups[s]? <;> rfl
    · next p hp =>
      rw [hp]
      split at h
      · cases h
      · next sub hs =>
        rw [hs]
        simp only [Option.map_some, Entry.place, standings_wins_of hs, ← eligible_eq]
        split at h
        · next hc =>
          cases h
          rw [if_pos hc]
          ext1
          · funext s'
            simp only [standings, Standings.crown, noteImproved, setSubGroup,
              Tables.getElem?_insert_eq]
            split <;> rfl
          · rfl
          · rfl
        · next hc =>
          cases h
          rw [if_neg hc]

/-! ## Merging -/

/-- A sub group of the absorbed group is folded into another. -/
theorem standings_foldInto {kept s : SubGroupId} {sub : SubGroup Q} {hadReaders : Bool}
    (hne : kept ≠ s) (hs : m.subGroups[s]? = some sub)
    (h : foldInto kept s sub hadReaders m = .ok m') :
    m'.standings = m.standings.fold m.tieBreak hadReaders kept s := by
  obtain ⟨m₁, keptSub, h₁, hlive, rfl⟩ := foldInto_eq_ok h
  have hst : m₁.standings = m.standings.vacate s := by
    rw [standings_markIf h₁]
    ext1
    · funext s'
      simp only [standings, retire, Standings.vacate, Tables.getElem?_erase_eq]
      split <;> rfl
    · rfl
    · rfl
  have htie : m₁.tieBreak = m.tieBreak := by
    obtain ⟨rfl, -⟩ | ⟨-, sub', -, -, rfl⟩ := markIf_eq_ok h₁ <;> rfl
  have hwk : m.standings.wins kept = keptSub.winner := by
    have hkept := standings_wins_of hlive
    rw [hst] at hkept
    simpa [Standings.vacate, hne] using hkept
  simp only [Standings.fold, hwk, standings_wins_of hs]
  rw [← htie]
  generalize sub.winner.filter (fun w => beats m₁.tieBreak w keptSub.winner) = better
  cases better with
  | some w =>
    rw [← hst]
    ext1
    · funext s'
      simp only [standings, Standings.crown, noteImproved, setSubGroup, Tables.getElem?_insert_eq]
      split <;> rfl
    · rfl
    · rfl
  | none =>
    have himp : m₁.standings.improved = m.standings.improved := by rw [hst]; rfl
    rw [← hst, ← himp]
    dsimp only
    split <;> rfl

end Offers

theorem standings_renameWinner {e twin : ExprId} {s : SubGroupId}
    (h : renameWinner e twin m s = .ok m') :
    m'.standings = m.standings.rename e twin [s] := by
  obtain ⟨sub, hs, rfl⟩ := renameWinner_eq_ok h
  ext1
  · funext s'
    simp only [standings, Standings.rename, setSubGroup, Tables.getElem?_insert_eq,
      List.mem_singleton]
    split
    · next he => rw [he, hs]; rfl
    · rfl
  · rfl
  · rfl

/-- Renaming the winners of several sub groups one after the other renames each of them once. -/
theorem standings_renameWinners {e twin : ExprId} (hne : twin ≠ e) {ss : List SubGroupId}
    (h : ss.foldlM (renameWinner e twin) m = .ok m') :
    m'.standings = m.standings.rename e twin ss := by
  have hidem : retitle e twin ∘ retitle e twin = (retitle e twin : Winner Q → Winner Q) := by
    funext w
    by_cases hw : w.expr = e <;> simp [retitle, hw, hne]
  induction ss generalizing m with
  | nil => cases h; simp [rename]
  | cons s ss ih =>
    rw [List.foldlM_cons] at h
    obtain ⟨m₁, h₁, h₂⟩ := bind_eq_ok h
    rw [ih h₂, standings_renameWinner h₁]
    ext1
    · funext s'
      by_cases hs : s' = s
      · subst hs
        by_cases hss : s' ∈ ss <;> simp [rename, hss, Option.map_map, hidem]
      · simp [rename, hs]
    · rfl
    · rfl

theorem standings_dropTwin {e twin : ExprId} {entry : Entry Op Q} {x : Expr Op} (hne : twin ≠ e)
    (he : m.exprs[e]? = some entry) (ht : (m.outline.entry twin).isSome)
    (h : dropTwin e twin entry x m = .ok m') : m'.standings
      = m.standings.drop e twin ((m.strike e twin entry x).subGroupsOf entry.group) := by
  obtain ⟨m₁, h₁, rfl⟩ := dropTwin_eq_ok h
  have hst := standings_renameWinners hne h₁
  refine Eq.trans (b := m₁.standings) rfl (hst.trans ?_)
  ext1
  · rfl
  · funext e'
    rw [outline_entry, Option.isSome_map, Option.isSome_iff_exists] at ht
    obtain ⟨other, ht⟩ := ht
    simp only [standings, strike, Standings.drop, Standings.rename, Tables.getElem?_modify_eq,
      Tables.getElem?_erase_eq]
    split
    · next h₁ =>
      rw [h₁, if_neg hne, ht, he]
      cases hp : other.price <;> simp [hp]
    · split <;> rfl
  · rfl

end Memo

end PlanSearch
