import PlanSearch.Proofs.Optimizer.Advance

/-!
# Nothing is missed

A match is wanted if it is a binding of an active rule. While the memo changes, every wanted match has
been seen or has an expression that the record of changes tells of; settling goes through the record
and finds those. So whenever the memo is settled, all wanted matches have been seen.

    o.Covered [] [] → settle fuel o = .ok () o' → o'.Complete        (Covered.settle)
    o.Complete → Dispatched fuel x o fires o' → o'.Complete          (Complete.dispatched)
-/

namespace PlanSearch

open Outline

namespace Outline

variable {Op : Type} {o o' : Outline Op} {e : ExprId}

/-- What the record tells of goes on to be told of. -/
theorem Tracks.touched_record (h : o.Tracks o') (he : (o'.entry e).isSome)
    (ht : o.Touched o.news o.merged e) : o'.Touched o'.news o'.merged e := by
  obtain ⟨⟨x', g'⟩, hx'⟩ := Option.isSome_iff_exists.1 he
  rcases h.touched hx' ht with hnew | hnew | ⟨x, g, hx, p, hp, hpg⟩
  · exact .inl hnew
  · exact .inl (h.news e hnew he)
  · exact .inr ⟨x, g, hx, p, h.merged p hp, hpg⟩

theorem not_touched_nil : ¬ o.Touched [] [] e := by
  rintro (hnone | ⟨_, _, _, p, hp, -⟩)
  · cases hnone
  · cases hp

end Outline

namespace Optimizer

variable {Op Q : Type} [Operator Op] [Quantity Q] {just : Just Op Q} {o o' : Optimizer Op Q}
  {news : List ExprId} {merged : List (GroupId × GroupId)}

/-! ## Wanted matches -/

omit [Quantity Q] in
/-- The match is a binding of an active rule whose root operand tests a kind. -/
def Wanted (o : Optimizer Op Q) (x : Match) : Prop :=
  ∃ rule root, o.rules[x.rule]? = some rule ∧ o.isActive x.rule = true ∧
    rule.pattern.isWildcard = false ∧ o.memo.outline.Binds rule.pattern root x.exprs

/-- All wanted matches have been seen. -/
def Complete (o : Optimizer Op Q) : Prop := ∀ x, o.Wanted x → x.key ∈ o.agenda.seen

/-- All wanted matches have been seen, or have an expression that the record of changes or the given
lists tell of. -/
def Covered (o : Optimizer Op Q) (news : List ExprId) (merged : List (GroupId × GroupId)) : Prop :=
  ∀ x, o.Wanted x → x.key ∈ o.agenda.seen ∨ ∃ e ∈ x.exprs,
    o.memo.outline.Touched o.memo.outline.news o.memo.outline.merged e ∨
      o.memo.outline.Touched news merged e

omit [Quantity Q] in
theorem Complete.covered (h : o.Complete) : o.Covered news merged := fun x hx => .inl (h x hx)

omit [Quantity Q] in
/-- Where memo and rules stay, the same matches are wanted. -/
theorem Wanted.of_frame {x : Match} (h : o'.Wanted x) (hm : o'.memo = o.memo)
    (hr : o'.rules = o.rules) (ha : o'.isActive x.rule = true → o.isActive x.rule = true) :
    o.Wanted x := by
  obtain ⟨rule, root, known, active, wild, binds⟩ := h
  exact ⟨rule, root, hr ▸ known, ha active, wild, hm ▸ binds⟩

omit [Quantity Q] in
/-- Where the memo stays and no more is asked for, it is enough to have seen as much. -/
theorem Complete.of_frame (h : o.Complete) (hm : o'.memo = o.memo) (hr : o'.rules = o.rules)
    (ha : ∀ id, o'.isActive id = true → o.isActive id = true)
    (hs : ∀ k ∈ o.agenda.seen, k ∈ o'.agenda.seen) : o'.Complete :=
  fun x hx => hs x.key (h x (hx.of_frame hm hr (ha x.rule)))

/-! ## Changes of the memo -/

theorem Change.tracks {m m' : Memo Op Q} (h : Change just m m') (hm : m.Orderly) :
    m.outline.Tracks m'.outline := by
  have ht := hm.ordered.tidy
  cases h with
  | add ok => exact (Memo.add_stands hm.ordered ok).1.tracks ht
  | request ok => exact (Memo.ensureSubGroup_grown hm.ordered ok).1.tracks ht
  | price ok =>
    rw [Memo.outline_recordPrice ok]
    exact ht.sound.tracks_refl
  | join _ ok => exact (Memo.addTo_joins hm.ordered ok).1.tracks ht
  | enforce _ ok => exact (Memo.addNodeTo_joins hm.ordered ok).1.tracks ht

/-- A match that the change of the memo makes possible is told of. -/
theorem Covered.change (h : o.Covered news merged) (hm : o.memo.Orderly) {m : Memo Op Q}
    (hc : Change just o.memo m) : ({ o with memo := m } : Optimizer Op Q).Covered news merged := by
  have ht := hc.tracks hm
  rintro x ⟨rule, root, known, active, wild, binds⟩
  by_cases htold : ∃ e ∈ x.exprs, m.outline.Touched m.outline.news m.outline.merged e
  · obtain ⟨e, he, htouched⟩ := htold
    exact .inr ⟨e, he, .inl htouched⟩
  · have hbefore := binds.earlier ht hm.ordered.tidy fun e he hte => htold ⟨e, he, hte⟩
    refine (h x ⟨rule, root, known, active, wild, hbefore⟩).imp id ?_
    rintro ⟨e, he, htouched⟩
    obtain ⟨y, g, hy⟩ := binds.live he
    rcases htouched with htouched | htouched
    · exact ⟨e, he, .inl (ht.touched_record (by rw [hy]; rfl) htouched)⟩
    · rcases ht.touched hy htouched with hnew | htouched
      · exact ⟨e, he, .inl (.inl hnew)⟩
      · exact ⟨e, he, .inr htouched⟩

omit [Quantity Q] in
theorem Covered.find (h : o.Covered news merged) (hf : o.Find o') : o'.Covered news merged := by
  intro x hx
  have hframe := hf.frame
  have hw : o.Wanted x := hx.of_frame hf.memo_eq hframe.rules fun ha => hframe.isActive _ ▸ ha
  rw [hf.memo_eq]
  exact (h x hw).imp (fun hseen => hf.seen hseen) id

theorem Covered.acts (h : o.Covered news merged) (ho : o.memo.Orderly) (ha : o.Acts just o') :
    o'.Covered news merged := by
  induction ha with
  | refl => exact h
  | tail hs hact ih =>
    cases hact with
    | find find => exact ih.find find
    | change change => exact ih.change (Acts.orderly hs ho) change

/-! ## Settling -/

omit [Quantity Q] in
/-- What the record told of is told of by the lists that it is taken into. -/
theorem Covered.taken (h : o.Covered [] []) (ho : o.memo.Orderly) :
    ({ o with memo := o.memo.forgetChanges } : Optimizer Op Q).Covered o.memo.changes.newExprs
      o.memo.changes.merged := by
  rintro x ⟨rule, root, known, active, wild, binds⟩
  have ht := ho.ordered.tidy
  have hback : o.memo.outline.forget.Evolves [] o.memo.outline [] :=
    .of_kept ht.forget.sound.names ht.sound.names (fun _ => rfl) (fun _ => rfl) fun _ _ => id
  have binds : o.memo.outline.forget.Binds rule.pattern root x.exprs := binds
  have hlive : x.exprs.map o.memo.outline.forget.reduceExpr = x.exprs :=
    binds.map_reduceExpr ht.forget.sound.names
  have hbefore : o.memo.outline.Binds rule.pattern _ (x.exprs.map o.memo.outline.forget.reduceExpr) :=
    binds.later hback ht.sound
  rw [hlive] at hbefore
  refine (h x ⟨rule, _, known, active, wild, hbefore⟩).imp id ?_
  rintro ⟨e, he, htouched | hnone⟩
  · exact ⟨e, he, .inr htouched⟩
  · exact absurd hnone not_touched_nil

/-- A round goes through all that is on record, and leaves on record what it has done itself. -/
theorem Covered.settleRound (h : o.Covered [] []) (ho : o.memo.Orderly) (hs : o.Synced)
    (ok : Optimizer.settleRound o.memo.changes { o with memo := o.memo.forgetChanges } = .ok () o') :
    o'.Covered [] [] ∧ o'.memo.Orderly ∧ o'.Synced := by
  have htaken := h.taken ho
  have hto : o.memo.forgetChanges.Orderly := Memo.Call.orderly .forgetChanges ho
  obtain ⟨o₁, hacts, hfind⟩ := settleRound_acts enforcing_freely hto ok
  have hround := htaken.acts hto hacts
  have horder := hacts.orderly hto
  have hsync : o₁.Synced := Synced.of_frame
    (show ({ o with memo := o.memo.forgetChanges } : Optimizer Op Q).Synced from hs) hacts.frame
  obtain ⟨hfinds, hseen⟩ := rediscover_finds horder.ordered.tidy.sound hfind
  refine ⟨fun x hx => ?_, hfinds.memo_eq ▸ horder, hsync.of_frame hfinds.frame⟩
  have hframe := hfinds.frame
  have hw : o₁.Wanted x := hx.of_frame hfinds.memo_eq hframe.rules fun ha => hframe.isActive _ ▸ ha
  rw [hfinds.memo_eq]
  rcases hround x hw with hseen' | ⟨e, he, htold | htold⟩
  · exact .inl (hfinds.seen hseen')
  · exact .inr ⟨e, he, .inl htold⟩
  · obtain ⟨rule, root, known, active, wild, binds⟩ := hw
    exact .inl (hseen hsync x.rule rule root x.exprs known active wild binds e he htold)

/-- Settling goes through the record until it is empty. -/
theorem Covered.settle (h : o.Covered [] []) (ho : o.memo.Orderly) (hs : o.Synced) {fuel : Nat}
    (ok : Optimizer.settle fuel o = .ok () o') : o'.Complete := by
  have hround : ∀ o o' : Optimizer Op Q, o.Covered [] [] ∧ o.memo.Orderly ∧ o.Synced → Optimizer.settleRound
      o.memo.changes { o with memo := o.memo.forgetChanges } = .ok () o' →
      o'.Covered [] [] ∧ o'.memo.Orderly ∧ o'.Synced := fun _ _ ⟨h, ho, hs⟩ ok => h.settleRound ho hs ok
  obtain ⟨o₁, ⟨h₁, ho₁, -⟩, hempty, rfl⟩ := settle_induct hround ⟨h, ho, hs⟩ ok
  have hnone : o₁.memo.changes.newExprs = [] ∧ o₁.memo.changes.merged = [] := by
    simp only [Changes.isEmpty, Bool.and_eq_true, List.isEmpty_iff] at hempty
    exact ⟨hempty.1.1.1, hempty.2⟩
  have htaken := h₁.taken ho₁
  rw [hnone.1, hnone.2] at htaken
  intro x hx
  rcases htaken x hx with hseen | ⟨e, -, htold | htold⟩
  · exact hseen
  · exact absurd htold not_touched_nil
  · exact absurd htold not_touched_nil

/-! ## Turns -/

/-- Whatever a match brings about, all matches that are then possible have been seen in the end. -/
theorem Complete.fire (h : o.Complete) (ho : o.memo.Orderly) (hs : o.Synced) {fuel : Nat} {x : Match}
    (ok : Optimizer.fire fuel x o = .ok () o') : o'.Complete := by
  obtain ⟨o₁, hacts, hsettle⟩ := fire_freely ho ok
  exact (h.covered.acts ho hacts).settle (hacts.orderly ho) (hs.of_frame hacts.frame) hsettle

theorem Complete.dispatched (h : o.Complete) (ho : o.memo.Orderly) (hs : o.Synced) {fuel : Nat}
    {x : Match} {fires : Bool} (hd : Dispatched fuel x o fires o') : o'.Complete := by
  cases hd with
  | dropped => exact h
  | forgotten removed disabled =>
    -- what is forgotten is a match of a disabled rule, so it is not wanted
    intro y hy
    have hne : y.key ≠ x.key := fun hkey => by
      obtain ⟨rule, root, known, active, wild, binds⟩ := hy
      rw [Agenda.key_injective hkey, isActive, disabled] at active
      cases active
    have hseen := h y hy
    refine Std.TreeSet.mem_erase.2 ⟨fun hcmp => hne ?_, hseen⟩
    exact (Std.LawfulEqOrd.compare_eq_iff_eq.1 hcmp).symm
  | full memo agenda frame =>
    exact h.of_frame memo frame.rules (fun id ha => frame.isActive id ▸ ha) fun k hk => agenda ▸ hk
  | fired _ ok => exact h.fire ho hs ok

end Optimizer

end PlanSearch
