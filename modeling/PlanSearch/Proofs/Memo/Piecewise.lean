import PlanSearch.Proofs.Outline.Effect

/-!
# What merges keep piece by piece

Offers, prices and merges are made of a few small changes: a winner or a price is entered, a sub group is folded into
another or handed over, an expression is rewritten or struck, and changes are noted. A relation between memos that holds
before and after each of these holds before and after all that is made of them. Taking a group in changes more than the
others do, so it is asked for apart.

    Piecewise R → offerAll s es m = .ok m' → R m m'                                                (Piecewise.offerAll)
    Piecewise R → absorb keep absorbed gone m = .ok (m', more) → R (takeIn keep absorbed gone m) m'  (Piecewise.absorb)
    Piecewise R → (R m (takeIn …) for every m) → mergeAll m ps = .ok () m' → R m m'                (Piecewise.mergeAll)
-/

namespace PlanSearch

namespace Memo

variable {Op Q : Type} {R : Memo Op Q → Memo Op Q → Prop} {m m' : Memo Op Q}

/-- Every small change that offers, prices and merges are made of keeps the relation. -/
structure Piecewise (R : Memo Op Q → Memo Op Q → Prop) : Prop where
  refl : ∀ m, R m m
  trans : ∀ {m m' m''}, R m m' → R m' m'' → R m m''
  noted : ∀ {m changes}, changes.required = m.changes.required → R m { m with changes := changes }
  crowned : ∀ {m s sub winner}, m.subGroups[s]? = some sub → R m (m.setSubGroup s { sub with winner := winner })
  priced : ∀ {m e entry price}, m.exprs[e]? = some entry →
    R m { m with exprs := m.exprs.insert e { entry with price := price } }
  folded : ∀ {m m' kept s sub keptSub}, m.subGroups[s]? = some sub →
    markIf sub.required kept (m.retire kept s) = .ok m' → m'.subGroups[kept]? = some keptSub → R m m'
  handed : ∀ {m keep s sub}, m.subGroups[s]? = some sub → R m (m.handOver keep s sub)
  rewritten : ∀ {m e entry keep absorbed}, m.exprs[e]? = some entry →
    R m { m with exprs := m.exprs.insert e { entry with expr := entry.expr.redirect absorbed keep } }
  struck : ∀ m e twin entry x, R m (m.strike e twin entry x)

namespace Piecewise

theorem foldlM {σ β : Type} (hR : Piecewise R) (view : σ → Memo Op Q) {f : σ → β → Except Failure σ}
    (hf : ∀ a b a', f a b = .ok a' → R (view a) (view a')) (bs : List β) (a a' : σ) (h : bs.foldlM f a = .ok a') :
    R (view a) (view a') :=
  foldlM_invariant (fun _ a' => R (view a) (view a')) (fun b _ a₁ a₂ h₁ h₂ => hR.trans h₁ (hf a₁ b a₂ h₂)) bs a a'
    (hR.refl _) h

section Offers

variable [Quantity Q]

theorem offer (hR : Piecewise R) {s : SubGroupId} {e : ExprId} (h : offer s e m = .ok m') : R m m' := by
  obtain rfl | ⟨entry, price, sub, -, -, hs, rfl⟩ := offer_eq_ok h
  · exact hR.refl _
  · exact hR.trans (hR.crowned hs) (hR.noted rfl)

theorem offerAll (hR : Piecewise R) {s : SubGroupId} {es : List ExprId} (h : offerAll s es m = .ok m') : R m m' :=
  hR.foldlM id (fun _ _ _ hs => hR.offer hs) es m m' h

theorem offerMembers (hR : Piecewise R) {g : GroupId} (h : offerMembers g m = .ok m') : R m m' := by
  simp only [Memo.offerMembers] at h
  obtain ⟨group, -, h⟩ := bind_eq_ok h
  exact hR.foldlM id (fun _ _ _ => hR.offerAll) _ _ _ h

theorem recordPrice (hR : Piecewise R) {e : ExprId} {price : Price Q} (h : recordPrice e price m = .ok m') :
    R m m' := by
  obtain ⟨entry, group, hentry, -, h⟩ := recordPrice_eq_ok h
  exact hR.trans (hR.priced hentry) (hR.foldlM id (fun _ _ _ => hR.offer) _ _ _ h)

theorem foldInto (hR : Piecewise R) {kept s : SubGroupId} {sub : SubGroup Q} {hadReaders : Bool}
    (hs : m.subGroups[s]? = some sub) (h : foldInto kept s sub hadReaders m = .ok m') : R m m' := by
  obtain ⟨m₁, keptSub, hmark, hkept, rfl⟩ := foldInto_eq_ok h
  have hfolded := hR.folded hs hmark hkept
  split
  · exact hR.trans hfolded (hR.trans (hR.crowned hkept) (hR.noted rfl))
  · split
    · exact hR.trans hfolded (hR.noted rfl)
    · exact hfolded

theorem moveSubGroup (hR : Piecewise R) {keep : GroupId} {hadReaders : Bool} {s : SubGroupId}
    (h : moveSubGroup keep hadReaders s m = .ok m') : R m m' := by
  obtain ⟨sub, group, hs, -, ⟨kept, -, hfold⟩ | ⟨-, rfl⟩⟩ := moveSubGroup_eq_ok h
  · exact hR.foldInto hs hfold
  · exact hR.handed hs

end Offers

theorem renameWinner (hR : Piecewise R) {e twin : ExprId} {s : SubGroupId} (h : renameWinner e twin m s = .ok m') :
    R m m' := by
  obtain ⟨sub, hs, rfl⟩ := renameWinner_eq_ok h
  exact hR.crowned hs

theorem dropTwin (hR : Piecewise R) {e twin : ExprId} {entry : Entry Op Q} {x : Expr Op}
    (h : dropTwin e twin entry x m = .ok m') : R m m' := by
  obtain ⟨m₁, h₁, rfl⟩ := dropTwin_eq_ok h
  have hrenamed : R (m.strike e twin entry x) m₁ := hR.foldlM id (fun _ _ _ => hR.renameWinner) _ _ _ h₁
  exact hR.trans (hR.struck m e twin entry x) (hR.trans hrenamed (hR.noted rfl))

variable [DecidableEq Op]

theorem redirectReader (hR : Piecewise R) {keep absorbed : GroupId} {e : ExprId}
    {state state' : Memo Op Q × List (GroupId × GroupId)} (h : redirectReader keep absorbed state e = .ok state') :
    R state.1 state'.1 := by
  obtain ⟨m, pending⟩ := state
  simp only [Memo.redirectReader] at h
  split at h
  · cases h; exact hR.refl m
  · next entry hentry =>
    split at h
    · cases h; exact hR.refl m
    · split at h
      · cases h; exact hR.rewritten hentry
      · obtain ⟨m₁, h₁, h⟩ := bind_eq_ok h
        cases h
        exact hR.dropTwin h₁

variable [Quantity Q] {more ps : List (GroupId × GroupId)}

/-- What comes after a group was taken in. -/
theorem absorb (hR : Piecewise R) {keep absorbed : GroupId} {gone : Group}
    (h : absorb keep absorbed gone m = .ok (m', more)) : R (takeIn keep absorbed gone m) m' := by
  simp only [Memo.absorb] at h
  obtain ⟨m₁, h₁, h⟩ := bind_eq_ok h
  obtain ⟨m₂, h₂, h⟩ := bind_eq_ok h
  obtain ⟨group, -, h⟩ := bind_eq_ok h
  obtain ⟨⟨m₃, pending⟩, h₃, h⟩ := bind_eq_ok h
  cases h
  have hmoved : R _ m₁ := hR.foldlM id (fun _ _ _ => hR.moveSubGroup) _ _ _ h₁
  have hredirected : R m₂ m₃ := hR.foldlM Prod.fst (fun _ _ _ => hR.redirectReader) _ _ _ h₃
  exact hR.trans hmoved (hR.trans (hR.offerMembers h₂) (hR.trans hredirected (hR.noted rfl)))

theorem mergePair (hR : Piecewise R) (htaken : ∀ keep absorbed gone m, R m (takeIn keep absorbed gone m))
    {a b : GroupId} (h : mergePair a b m = .ok (m', more)) : R m m' := by
  obtain ⟨keep, absorbed, kept, gone, -, -, -, -, -, h⟩ := mergePair_eq_ok h
  exact hR.trans (htaken keep absorbed gone m) (hR.absorb h)

theorem mergeAll (hR : Piecewise R) (htaken : ∀ keep absorbed gone m, R m (takeIn keep absorbed gone m))
    (h : mergeAll m ps = .ok () m') : R m m' :=
  (mergeAll_run m ps).keeps hR.refl hR.trans (hR.mergePair htaken) (.inl h)

end Piecewise

end Memo

end PlanSearch
