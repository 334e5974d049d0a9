import PlanSearch.Partition.Classes
import PlanSearch.Proofs.Memo.Success
import PlanSearch.Proofs.Outline.Basic
import PlanSearch.Proofs.Tables

/-!
# What the steps on a memo do to its outline

Offers, prices and marks leave the outline alone. Every other step on the tables is one change of the
outline.

    offer s e m = .ok m' → m'.outline = m.outline                        (Memo.outline_offer)
    dropTwin e twin entry x m = .ok m' →
      m'.outline = m.outline.drop e twin x entry.group                   (Memo.outline_dropTwin)
-/

namespace PlanSearch

namespace Memo

variable {Op Q : Type}

/-! ## Steps that leave the outline alone -/

/-- A sub group may get another winner or mark. -/
theorem outline_setSubGroup {m : Memo Op Q} {s : SubGroupId} {sub sub' : SubGroup Q}
    (h : m.subGroups[s]? = some sub) (hg : sub'.group = sub.group) (ht : sub'.traits = sub.traits) :
    (m.setSubGroup s sub').outline = m.outline := by
  have hs : (m.setSubGroup s sub').outline.sub = m.outline.sub := by
    funext s'
    simp only [outline, setSubGroup, Tables.getElem?_insert_eq]
    split
    · next he => rw [he, h, Option.map_some, Option.map_some, SubGroup.ref, SubGroup.ref, hg, ht]
    · rfl
  exact Outline.ext rfl rfl hs rfl rfl rfl rfl rfl rfl

theorem outline_noteImproved (m : Memo Op Q) (s : SubGroupId) :
    (m.noteImproved s).outline = m.outline := rfl

theorem outline_markIf {require : Bool} {s : SubGroupId} {m m' : Memo Op Q}
    (h : markIf require s m = .ok m') : m'.outline = m.outline := by
  obtain ⟨rfl, -⟩ | ⟨-, sub, hs, -, rfl⟩ := markIf_eq_ok h
  · rfl
  · show (m.setSubGroup s { sub with required := true }).outline = m.outline
    exact outline_setSubGroup hs rfl rfl

theorem outline_renameWinner {e twin : ExprId} {s : SubGroupId} {m m' : Memo Op Q}
    (h : renameWinner e twin m s = .ok m') : m'.outline = m.outline := by
  obtain ⟨sub, hs, rfl⟩ := renameWinner_eq_ok h
  exact outline_setSubGroup hs rfl rfl

/-- A new price leaves the outline alone. -/
theorem outline_setPrice {m : Memo Op Q} {e : ExprId} {entry : Entry Op Q} {p : Option (Price Q)}
    (h : m.exprs[e]? = some entry) :
    ({ m with exprs := m.exprs.insert e { entry with price := p } } : Memo Op Q).outline
      = m.outline := by
  have he : ∀ e' : ExprId, ((m.exprs.insert e { entry with price := p })[e']?).map Entry.place
      = (m.exprs[e']?).map Entry.place := by
    intro e'
    rw [Tables.getElem?_insert_eq]
    split
    · next hk => rw [hk, h]; rfl
    · rfl
  exact Outline.ext rfl rfl rfl (funext he) rfl rfl rfl rfl rfl

section Offers

variable [Quantity Q]

theorem outline_offer {s : SubGroupId} {e : ExprId} {m m' : Memo Op Q}
    (h : offer s e m = .ok m') : m'.outline = m.outline := by
  obtain rfl | ⟨entry, price, sub, -, -, hs, rfl⟩ := offer_eq_ok h
  · rfl
  · rw [outline_noteImproved]
    exact outline_setSubGroup hs rfl rfl

theorem outline_offerAll {s : SubGroupId} {es : List ExprId} {m m' : Memo Op Q}
    (h : offerAll s es m = .ok m') : m'.outline = m.outline :=
  foldlM_keeps outline (fun _ _ _ hs => outline_offer hs) es m m' h

theorem outline_offerMembers {g : GroupId} {m m' : Memo Op Q} (h : offerMembers g m = .ok m') :
    m'.outline = m.outline := by
  simp only [offerMembers] at h
  obtain ⟨group, -, h⟩ := bind_eq_ok h
  exact foldlM_keeps outline (fun _ _ _ hs => outline_offerAll hs) _ _ _ h

theorem outline_recordPrice {e : ExprId} {price : Price Q} {m m' : Memo Op Q}
    (h : recordPrice e price m = .ok m') : m'.outline = m.outline := by
  obtain ⟨entry, group, hentry, -, h⟩ := recordPrice_eq_ok h
  rw [foldlM_keeps outline (fun _ _ _ hs => outline_offer hs) _ _ _ h]
  exact outline_setPrice hentry

end Offers

/-! ## Growth -/

/-- A new name is its own representative, and no other name is touched. -/
theorem find?_add_of_unknown {k : Named} {p : Partition (Ident k)} {i : Ident k}
    (h : p.find? i = none) : (p.add i).find? = fun j => if j = i then some i else p.find? j := by
  funext j
  rw [Partition.find?_add]
  simp only [(Partition.find?_eq_none_iff p i).1 h, not_false_eq_true, and_true]

theorem outline_openSubGroup {m : Memo Op Q} {g : GroupId} {traits : TraitSet}
    (h : m.outline.subRep ⟨m.next⟩ = none) :
    (m.openSubGroup g traits).1.outline = m.outline.openSub g traits := by
  have hg := Tables.map_getElem?_modify Group.cell
    (fun group => { group with subGroups := group.subGroups ++ [(traits, ⟨m.next⟩)] })
    (fun c => { c with subs := c.subs ++ [(traits, ⟨m.next⟩)] }) (fun _ => rfl) m.groups g
  have hs : ∀ s : SubGroupId,
      ((m.subGroups.insert ⟨m.next⟩ ⟨g, traits, none, false⟩)[s]?).map SubGroup.ref
      = if s = ⟨m.next⟩ then some ⟨g, traits⟩ else (m.subGroups[s]?).map SubGroup.ref := by
    intro s
    rw [Tables.getElem?_insert_eq]
    split <;> rfl
  exact Outline.ext rfl (funext hg) (funext hs) rfl rfl (find?_add_of_unknown h) rfl rfl rfl

/-- The groups after `e` was entered as a reader where `x` reads. -/
theorem cell_addParent (m : Memo Op Q) (e : ExprId) (x : Expr Op) (h : GroupId) :
    ((m.addParent e x).groups[h]?).map Group.cell
      = ((m.groups[h]?).map Group.cell).map fun c =>
          { c with parents := fun e' => c.parents e' ∨ e' = e ∧ x.reads h = true } := by
  have hf := Tables.map_getElem?_foldl_modify Group.cell
    (fun group => { group with parents := group.parents.insert e })
    (fun c => { c with parents := fun e' => c.parents e' ∨ e' = e })
    (fun b => by
      have hp : ∀ e', (e' ∈ b.parents.insert e) = (e' ∈ b.parents ∨ e' = e) := by
        intro e'; simp [Std.TreeSet.mem_insert, or_comm, @eq_comm _ e e']
      simp only [Group.cell, hp])
    (fun c => by
      have hp : ∀ e', ((c.parents e' ∨ e' = e) ∨ e' = e) = (c.parents e' ∨ e' = e) := by
        intro e'; simp only [or_assoc, or_self]
      simp only [hp])
    SubGroupRef.group x.inputs m.groups h
  show ((x.inputs.foldl _ m.groups)[h]?).map Group.cell = _
  rw [hf]
  have hr : (x.inputs.any fun r => decide (r.group = h)) = x.reads h := rfl
  rw [hr]
  split
  · next hx => simp only [hx, and_true]
  · next hx => simp [hx, Function.comp_def]

theorem outline_enterExpr {m : Memo Op Q} {e : ExprId} {x : Expr Op} {g : GroupId}
    (h : m.outline.exprRep e = none) : (m.enterExpr e x g).outline = m.outline.enter e x g := by
  have he : ∀ e', ((m.exprs.insert e ⟨x, g, none⟩)[e']?).map Entry.place
      = if e' = e then some (x, g) else (m.exprs[e']?).map Entry.place := by
    intro e'
    rw [Tables.getElem?_insert_eq]
    split <;> rfl
  exact Outline.ext rfl (funext (m.cell_addParent e x)) rfl (funext he) rfl rfl
    (find?_add_of_unknown h) rfl rfl

/-! ## Merging -/

/-- A join of two representatives in terms of `find?`. -/
theorem find?_unite_eq {k : Named} {p : Partition (Ident k)} {i j : Ident k}
    (hi : p.find? i = some i) (hj : p.find? j = some j) :
    (p.unite i j).1.find? = fun y => if p.find? y = some j then some i else p.find? y :=
  funext (Partition.find?_unite hi hj)

/-- The entries after every member of `gone` got a new home, where those are all that had the old. -/
theorem entry_rehomed {exprs : Std.TreeMap ExprId (Entry Op Q)} {keep absorbed : GroupId}
    {es : List ExprId} (h : ∀ e x, exprs[e]? = some x → (e ∈ es ↔ x.group = absorbed)) (e : ExprId) :
    ((es.foldl (fun t e => t.modify e fun x => { x with group := keep }) exprs)[e]?).map Entry.place
      = ((exprs[e]?).map Entry.place).map fun p => (p.1, if p.2 = absorbed then keep else p.2) := by
  rw [Tables.getElem?_foldl_modify_key (fun x : Entry Op Q => { x with group := keep })
    fun _ => rfl]
  cases hx : exprs[e]? with
  | none => simp
  | some x =>
    have hm := h e x hx
    split
    · next hmem => simp [Entry.place, hm.1 hmem]
    · next hmem => simp [Entry.place, mt hm.2 hmem]

theorem outline_takeIn {m : Memo Op Q} {keep absorbed : GroupId} {gone : Group}
    (hk : m.outline.groupRep keep = some keep) (ha : m.outline.groupRep absorbed = some absorbed)
    (hm : ∀ e x, m.exprs[e]? = some x → (e ∈ gone.members ↔ x.group = absorbed)) :
    (takeIn keep absorbed gone m).outline = m.outline.takeIn keep absorbed gone.cell := by
  have hg : ∀ h, (((m.groups.erase absorbed).modify keep fun group =>
        { group with members := group.members ++ gone.members,
                     parents := group.parents.insertMany gone.parents.toList })[h]?).map Group.cell
      = if h = absorbed then none
        else if h = keep then ((m.groups[h]?).map Group.cell).map fun c =>
          { c with members := c.members ++ gone.cell.members,
                   parents := fun e => c.parents e ∨ gone.cell.parents e }
        else (m.groups[h]?).map Group.cell := by
    intro h
    rw [Tables.getElem?_modify_eq, Tables.getElem?_erase_eq]
    by_cases hab : h = absorbed
    · simp [hab]
    · rw [if_neg hab, if_neg hab]
      split
      · cases m.groups[h]? with
        | none => rfl
        | some group =>
          simp only [Option.map_some, Group.cell, Option.some.injEq, Cell.mk.injEq, true_and]
          funext e
          simp [Std.TreeSet.mem_insertMany_list]
      · rfl
  exact Outline.ext rfl (funext hg) rfl (funext (entry_rehomed hm)) (find?_unite_eq hk ha) rfl rfl
    rfl rfl

theorem outline_retire {kept s : SubGroupId} {m : Memo Op Q} (hk : m.outline.subRep kept = some kept)
    (hs : m.outline.subRep s = some s) : (m.retire kept s).outline = m.outline.foldSub kept s := by
  have he : ∀ s' : SubGroupId, ((m.subGroups.erase s)[s']?).map SubGroup.ref
      = if s' = s then none else (m.subGroups[s']?).map SubGroup.ref := by
    intro s'
    rw [Tables.getElem?_erase_eq]
    split <;> rfl
  exact Outline.ext rfl rfl (funext he) rfl rfl (find?_unite_eq hk hs) rfl rfl rfl

/-- A sub group of the absorbed group is folded into another. -/
theorem outline_foldInto [Quantity Q] {kept s : SubGroupId} {sub : SubGroup Q} {hadReaders : Bool}
    {m m' : Memo Op Q} (hk : m.outline.subRep kept = some kept) (hs : m.outline.subRep s = some s)
    (h : foldInto kept s sub hadReaders m = .ok m') : m'.outline = m.outline.foldSub kept s := by
  obtain ⟨m₁, keptSub, hmark, hkept, rfl⟩ := foldInto_eq_ok h
  rw [← outline_retire hk hs, ← outline_markIf hmark]
  split
  · rw [outline_noteImproved]
    exact outline_setSubGroup hkept rfl rfl
  · split <;> rfl

/-- A sub group is handed over to another group. -/
theorem outline_handOver (m : Memo Op Q) (keep : GroupId) (s : SubGroupId) (sub : SubGroup Q) :
    (m.handOver keep s sub).outline = m.outline.handSub keep sub.traits s := by
  have hg := Tables.map_getElem?_modify Group.cell
    (fun group => { group with subGroups := group.subGroups ++ [(sub.traits, s)] })
    (fun c => { c with subs := c.subs ++ [(sub.traits, s)] }) (fun _ => rfl) m.groups keep
  have hs : ∀ s' : SubGroupId,
      ((m.subGroups.insert s { sub with group := keep })[s']?).map SubGroup.ref
      = if s' = s then some ⟨keep, sub.traits⟩ else (m.subGroups[s']?).map SubGroup.ref := by
    intro s'
    rw [Tables.getElem?_insert_eq]
    split <;> rfl
  exact Outline.ext rfl (funext hg) (funext hs) rfl rfl rfl rfl rfl rfl

/-- The live expression `e` is rewritten. -/
theorem outline_rewrite (m : Memo Op Q) (e : ExprId) (entry : Entry Op Q) (x : Expr Op) :
    ({ m with exprs := m.exprs.insert e { entry with expr := x } } : Memo Op Q).outline
      = m.outline.rewrite e x entry.group := by
  have he : ∀ e' : ExprId, ((m.exprs.insert e { entry with expr := x })[e']?).map Entry.place
      = if e' = e then some (x, entry.group) else (m.exprs[e']?).map Entry.place := by
    intro e'
    rw [Tables.getElem?_insert_eq]
    split <;> rfl
  exact Outline.ext rfl rfl rfl (funext he) rfl rfl rfl rfl rfl

/-- The groups after `e` was taken out as a reader where `x` reads. -/
theorem cell_eraseParent (groups : Std.TreeMap GroupId Group) (e : ExprId) (x : Expr Op)
    (h : GroupId) :
    ((x.inputs.foldl (fun t r =>
        t.modify r.group fun group => { group with parents := group.parents.erase e }) groups)[h]?).map
          Group.cell
      = ((groups[h]?).map Group.cell).map fun c =>
          { c with parents := fun e' => c.parents e' ∧ ¬ (e' = e ∧ x.reads h = true) } := by
  have hf := Tables.map_getElem?_foldl_modify Group.cell
    (fun group => { group with parents := group.parents.erase e })
    (fun c => { c with parents := fun e' => c.parents e' ∧ e' ≠ e })
    (fun b => by
      have hp : ∀ e', (e' ∈ b.parents.erase e) = (e' ∈ b.parents ∧ e' ≠ e) := by
        intro e'; simp [Std.TreeSet.mem_erase, and_comm, @eq_comm _ e e']
      simp only [Group.cell, hp])
    (fun c => by
      have hp : ∀ e', ((c.parents e' ∧ e' ≠ e) ∧ e' ≠ e) = (c.parents e' ∧ e' ≠ e) := by
        intro e'; simp only [and_assoc, and_self]
      simp only [hp])
    SubGroupRef.group x.inputs groups h
  have hr : (x.inputs.any fun r => decide (r.group = h)) = x.reads h := rfl
  rw [hr] at hf
  rw [hf]
  split
  · next hx => simp only [hx, and_true]
  · next hx => simp [hx, Function.comp_def]

theorem outline_strike {e twin : ExprId} {entry : Entry Op Q} {x : Expr Op} {m : Memo Op Q}
    (he : m.outline.exprRep e = some e) (ht : m.outline.exprRep twin = some twin) :
    (m.strike e twin entry x).outline
      = { m.outline.drop e twin x entry.group with news := m.outline.news } := by
  have hg : ∀ h : GroupId, (m.strike e twin entry x).outline.group h
      = (m.outline.drop e twin x entry.group).group h := by
    intro h
    simp only [outline, strike, Outline.drop]
    rw [Tables.map_getElem?_modify Group.cell _
      (fun c => { c with members := c.members.filter (· ≠ e) }) (fun _ => rfl), cell_eraseParent]
    split <;> simp [Function.comp_def]
  have hx : ∀ e' : ExprId, (m.strike e twin entry x).outline.entry e'
      = if e' = e then none else m.outline.entry e' := by
    intro e'
    simp only [outline, strike]
    rw [Tables.map_getElem?_modify Entry.place (fun t => { t with price := t.price <|> entry.price })
      id (fun _ => rfl), Tables.getElem?_erase_eq]
    split <;> split <;> simp
  exact Outline.ext rfl (funext hg) rfl (funext hx) rfl rfl (find?_unite_eq ht he) rfl rfl

theorem outline_dropTwin {e twin : ExprId} {entry : Entry Op Q} {x : Expr Op} {m m' : Memo Op Q}
    (he : m.outline.exprRep e = some e) (ht : m.outline.exprRep twin = some twin)
    (h : dropTwin e twin entry x m = .ok m') :
    m'.outline = m.outline.drop e twin x entry.group := by
  obtain ⟨m₁, h₁, rfl⟩ := dropTwin_eq_ok h
  have hm₁ : m₁.outline = (m.strike e twin entry x).outline :=
    foldlM_keeps outline (fun _ _ _ hs => outline_renameWinner hs) _ _ _ h₁
  rw [outline_strike he ht] at hm₁
  show { m₁.outline with news := m₁.outline.news.filter (· ≠ e) } = _
  rw [hm₁]
  rfl

/-! ## New expressions -/

theorem outline_addMember (m : Memo Op Q) (e : ExprId) (g : GroupId) :
    (m.addMember e g).outline = { m.outline with
      group := fun h =>
        if h = g then (m.outline.group h).map fun c => { c with members := c.members ++ [e] }
        else m.outline.group h } :=
  Outline.ext rfl (funext (Tables.map_getElem?_modify Group.cell _
    (fun c => { c with members := c.members ++ [e] }) (fun _ => rfl) m.groups g)) rfl rfl rfl rfl rfl
    rfl rfl

theorem outline_openGroup {m : Memo Op Q} {e : ExprId} {g : GroupId} {rowType : RowType}
    {facts : List Fact} (h : m.outline.groupRep g = none) :
    (m.openGroup e g rowType facts).outline = { m.outline with
      group := fun h =>
        if h = g then some ⟨[e], rowType, [], facts, fun _ => False⟩ else m.outline.group h
      groupRep := fun h => if h = g then some g else m.outline.groupRep h } := by
  have hg : ∀ h, (m.openGroup e g rowType facts).outline.group h
      = if h = g then some ⟨[e], rowType, [], facts, fun _ => False⟩ else m.outline.group h := by
    intro h
    simp only [outline, openGroup, Tables.getElem?_insert_eq]
    split
    · simp [Group.cell]
    · rfl
  exact Outline.ext rfl (funext hg) rfl rfl (find?_add_of_unknown h) rfl rfl rfl rfl

/-- A new member of the live group `g`. -/
theorem outline_attached {m : Memo Op Q} {x : Expr Op} {g : GroupId}
    (h : m.outline.exprRep ⟨m.next⟩ = none) :
    ((m.skip.enterExpr ⟨m.next⟩ x g).addMember ⟨m.next⟩ g).outline = m.outline.attach x g := by
  have hm : (m.skip.enterExpr ⟨m.next⟩ x g).outline = m.outline.skip.enter ⟨m.next⟩ x g :=
    outline_enterExpr h
  rw [outline_addMember, hm]
  rfl

/-- A new expression in a group of its own. -/
theorem outline_founded {m : Memo Op Q} {x : Expr Op} {rowType : RowType} {facts : List Fact}
    (he : m.outline.exprRep ⟨m.next⟩ = none) (hg : m.outline.groupRep ⟨m.next + 1⟩ = none) :
    ((m.skip.skip.enterExpr ⟨m.next⟩ x ⟨m.next + 1⟩).openGroup ⟨m.next⟩ ⟨m.next + 1⟩ rowType
      facts).outline = m.outline.found x rowType facts := by
  have hm : (m.skip.skip.enterExpr ⟨m.next⟩ x ⟨m.next + 1⟩).outline
      = m.outline.skip.skip.enter ⟨m.next⟩ x ⟨m.next + 1⟩ := outline_enterExpr he
  have hr : (m.skip.skip.enterExpr ⟨m.next⟩ x ⟨m.next + 1⟩).outline.groupRep ⟨m.next + 1⟩ = none := by
    rw [hm]; exact hg
  rw [outline_openGroup hr, hm]
  rfl

end Memo

end PlanSearch
