import PlanSearch.Proofs.Outline.Effect
import PlanSearch.Proofs.Outline.Merges

/-!
# Whom the winners stand for

The crowns of a memo tell for each sub group which expression its winner names. That name may be the
one of an expression that was dropped since, but it always stands for a live expression at home in the
group of the sub group, up to merges that are still pending.

    offer s e m = .ok m' → m.Crowned ps → … → m'.Crowned ps        (Memo.Crowned.offer)
-/

namespace PlanSearch

/-- The group of a sub group, and the expression that its winner names. -/
def SubGroup.crown {Q : Type} (sub : SubGroup Q) : GroupId × Option ExprId :=
  (sub.group, sub.winner.map Winner.expr)

/-- Every name crowned stands for a live expression of the group, up to pending merges. -/
def Outline.Crowns {Op : Type} (o : Outline Op) (ps : List (GroupId × GroupId))
    (crowns : SubGroupId → Option (GroupId × Option ExprId)) : Prop :=
  ∀ s g e, crowns s = some (g, some e) →
    ∃ x k, o.entry (o.reduceExpr e) = some (x, k) ∧ o.Linked ps k g

namespace Memo

variable {Op Q : Type}

/-- The crowns of all live sub groups. -/
def crowns (m : Memo Op Q) (s : SubGroupId) : Option (GroupId × Option ExprId) :=
  (m.subGroups[s]?).map SubGroup.crown

/-- Every winner stands for a live expression of its group, up to pending merges. -/
def Crowned (ps : List (GroupId × GroupId)) (m : Memo Op Q) : Prop := m.outline.Crowns ps m.crowns

/-! ## Over time -/

/-- Winners stay good where each is, up to what it stands for, one that was there before. -/
theorem Crowned.later {m m' : Memo Op Q} {ps ps' : List (GroupId × GroupId)} (h : m.Crowned ps)
    (he : m.outline.Evolves ps m'.outline ps')
    (hc : ∀ s g e, m'.crowns s = some (g, some e) → ∃ s₀ g₀ e₀, m.crowns s₀ = some (g₀, some e₀) ∧
      m'.outline.reduceExpr e₀ = m'.outline.reduceExpr e ∧ m'.outline.Linked ps' g₀ g) :
    m'.Crowned ps' := by
  intro s g e hs
  obtain ⟨s₀, g₀, e₀, hs₀, hr, hl⟩ := hc s g e hs
  obtain ⟨x, k, hx, hk⟩ := h s₀ g₀ e₀ hs₀
  obtain ⟨x', k', hx', -, hk'⟩ := he.entry _ x k hx
  rw [he.expr, hr] at hx'
  exact ⟨x', k', hx', hk'.symm.trans ((he.linked hk).trans hl)⟩

/-- Winners that do not change stay good. -/
theorem Crowned.of_same {m m' : Memo Op Q} {ps ps' : List (GroupId × GroupId)} (h : m.Crowned ps)
    (he : m.outline.Evolves ps m'.outline ps') (hc : m'.crowns = m.crowns) : m'.Crowned ps' :=
  h.later he fun s g e hs => ⟨s, g, e, by rw [← hc, hs], rfl, .refl _ _ _⟩

/-- A member of its group may be crowned anew. -/
theorem Crowned.crown {m m' : Memo Op Q} {ps : List (GroupId × GroupId)} (h : m.Crowned ps)
    (ho : m'.outline = m.outline) {s : SubGroupId} {g : GroupId} {e : ExprId}
    (hc : m'.crowns = fun s' => if s' = s then some (g, some e) else m.crowns s')
    (he : ∃ x k, m.outline.entry (m.outline.reduceExpr e) = some (x, k) ∧ m.outline.Linked ps k g) :
    m'.Crowned ps := by
  intro s' g' e' hs
  rw [ho]
  rw [hc] at hs
  dsimp only at hs
  split at hs
  · cases hs; exact he
  · exact h s' g' e' hs

/-! ## Steps -/

theorem crowns_setSubGroup (m : Memo Op Q) (s : SubGroupId) (sub : SubGroup Q) :
    (m.setSubGroup s sub).crowns = fun s' => if s' = s then some sub.crown else m.crowns s' := by
  funext s'
  simp only [crowns, setSubGroup, Tables.getElem?_insert_eq]
  split <;> rfl

theorem crowns_setSubGroup_same {m : Memo Op Q} {s : SubGroupId} {sub sub' : SubGroup Q}
    (h : m.subGroups[s]? = some sub) (hc : sub'.crown = sub.crown) :
    (m.setSubGroup s sub').crowns = m.crowns := by
  rw [crowns_setSubGroup]
  funext s'
  split
  · next hs => simp [crowns, hs, h, hc]
  · rfl

theorem crowns_markIf {require : Bool} {s : SubGroupId} {m m' : Memo Op Q}
    (h : markIf require s m = .ok m') : m'.crowns = m.crowns := by
  obtain ⟨rfl, -⟩ | ⟨-, sub, hs, -, rfl⟩ := markIf_eq_ok h
  · rfl
  · show (m.setSubGroup s { sub with required := true }).crowns = m.crowns
    exact crowns_setSubGroup_same hs rfl

/-- A winner that is the dropped expression is its twin from now on. -/
theorem crowns_renameWinner {e twin : ExprId} {s : SubGroupId} {m m' : Memo Op Q}
    (h : renameWinner e twin m s = .ok m') : ∃ g w, m.crowns s = some (g, w) ∧
      m'.crowns = fun s' => if s' = s then some (g, w.map fun e' => if e' = e then twin else e')
        else m.crowns s' := by
  obtain ⟨sub, hs, rfl⟩ := renameWinner_eq_ok h
  refine ⟨sub.group, sub.winner.map Winner.expr, by rw [crowns, hs]; rfl, ?_⟩
  rw [crowns_setSubGroup]
  funext s'
  split
  · simp only [SubGroup.crown, Option.map_map]
    congr 2
    cases sub.winner with
    | none => rfl
    | some w =>
      simp only [Option.map_some, Function.comp_apply]
      split <;> rfl
  · rfl

section Offers

variable [Quantity Q]

/-- An offer changes nothing, or it crowns the expression. -/
theorem crowns_offer {s : SubGroupId} {e : ExprId} {m m' : Memo Op Q} (h : offer s e m = .ok m') :
    m'.crowns = m.crowns ∨ ∃ g w, m.crowns s = some (g, w) ∧ (m.outline.entry e).isSome ∧
      m'.crowns = fun s' => if s' = s then some (g, some e) else m.crowns s' := by
  obtain rfl | ⟨entry, price, sub, he, -, hs, rfl⟩ := offer_eq_ok h
  · exact .inl rfl
  · refine .inr ⟨sub.group, sub.winner.map Winner.expr, by rw [crowns, hs]; rfl, by rw [outline_entry, he]; rfl, ?_⟩
    exact crowns_setSubGroup m s _

/-- Offering a member of the group of a sub group. -/
theorem Crowned.offer {s : SubGroupId} {e : ExprId} {m m' : Memo Op Q}
    {ps : List (GroupId × GroupId)} {g : GroupId} (h : m.Crowned ps) (hn : m.outline.Names)
    (hs : ∀ r, m.outline.sub s = some r → r.group = g)
    (he : ∀ x k, m.outline.entry e = some (x, k) → m.outline.Linked ps k g)
    (ho : Memo.offer s e m = .ok m') : m'.Crowned ps := by
  have hout := outline_offer ho
  rcases crowns_offer ho with hc | ⟨g', w, hs', hlive, hc⟩
  · exact h.of_same (by rw [hout]; exact .refl hn) hc
  · have hg : g' = g := by
      obtain ⟨sub, hsub, hcr⟩ := Option.map_eq_some_iff.1 hs'
      have hr := hs sub.ref (by rw [outline_sub, hsub]; rfl)
      rw [← hr]
      exact (congrArg Prod.fst hcr).symm
    obtain ⟨⟨x, k⟩, hx⟩ := Option.isSome_iff_exists.1 hlive
    refine h.crown hout hc ⟨x, k, ?_, hg ▸ he x k hx⟩
    rw [hn.reduceExpr_of_live hlive, hx]

theorem Crowned.offerAll {s : SubGroupId} {es : List ExprId} {m m' : Memo Op Q}
    {ps : List (GroupId × GroupId)} {g : GroupId} (h : m.Crowned ps) (hn : m.outline.Names)
    (hs : ∀ r, m.outline.sub s = some r → r.group = g)
    (he : ∀ e ∈ es, ∀ x k, m.outline.entry e = some (x, k) → m.outline.Linked ps k g)
    (ho : Memo.offerAll s es m = .ok m') : m'.Crowned ps := by
  induction es generalizing m with
  | nil => cases ho; exact h
  | cons e es ih =>
    rw [Memo.offerAll, List.foldlM_cons] at ho
    obtain ⟨m₁, h₁, h₂⟩ := bind_eq_ok ho
    have hout := outline_offer h₁
    have hm₁ := h.offer hn hs (he e List.mem_cons_self) h₁
    exact ih hm₁ (hout ▸ hn) (hout ▸ hs)
      (fun e' he' => hout ▸ he e' (List.mem_cons_of_mem _ he')) h₂

/-- Offering the same expressions to several sub groups of one group. -/
theorem Crowned.offerEach {ss : List SubGroupId} {es : List ExprId} {m m' : Memo Op Q}
    {ps : List (GroupId × GroupId)} {g : GroupId} (h : m.Crowned ps) (hn : m.outline.Names)
    (hs : ∀ s ∈ ss, ∀ r, m.outline.sub s = some r → r.group = g)
    (he : ∀ e ∈ es, ∀ x k, m.outline.entry e = some (x, k) → m.outline.Linked ps k g)
    (ho : ss.foldlM (fun m s => Memo.offerAll s es m) m = .ok m') : m'.Crowned ps := by
  induction ss generalizing m with
  | nil => cases ho; exact h
  | cons s ss ih =>
    rw [List.foldlM_cons] at ho
    obtain ⟨m₁, h₁, h₂⟩ := bind_eq_ok ho
    have hout := outline_offerAll h₁
    have hm₁ := h.offerAll hn (hs s List.mem_cons_self) he h₁
    exact ih hm₁ (hout ▸ hn) (fun s' hs' => hout ▸ hs s' (List.mem_cons_of_mem _ hs')) (hout ▸ he) h₂

end Offers

end Memo

end PlanSearch
