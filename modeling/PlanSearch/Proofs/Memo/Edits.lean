import PlanSearch.Proofs.Memo.Standings
import PlanSearch.Proofs.Outline.Lineage

/-!
# Edits

Whatever is called on a memo, what happens to its outline and its standings is a series of edits. Each
edit is one change: a sub group is opened, an expression gets a price, an offer is made, a sub group is
folded into another. A work sheet has the outline and the standings with what is still to be done: the
stage of a merge under way, the offers owed, and the merges pending. So what every edit keeps, every call
keeps, whether it succeeds or fails.

    Edit terms w w' → w.Sound → w'.Sound                                              (Edit.sound)
    Edit terms w w' → w.Sound → w.outline.Evolves w.pending w'.outline w'.pending     (Edit.evolves)
    Edit terms w w' → w.Sound → w.outline.Lineage w'.outline                          (Edit.lineage)
-/

namespace PlanSearch

open Outline

/-- How far a merge has come. -/
inductive Stage where
  /-- There is none under way. -/
  | rest
  /-- The sub groups `strays` are still to be moved. -/
  | moving (keep absorbed : GroupId) (hadReaders : Bool) (strays : List SubGroupId)
  /-- The readers `todo` are still to be redirected. -/
  | redirecting (keep absorbed : GroupId) (todo : List ExprId)

/-- The outline and the standings of a memo, with what is still to be done. -/
structure Work (Op Q : Type) where
  registry : Registry Op
  tie : TieBreak
  outline : Outline Op
  standings : Standings Q
  stage : Stage
  /-- The offers that are still to be made. -/
  owed : List (SubGroupId × ExprId)
  /-- The pairs of groups that are still to be merged. -/
  pending : List (GroupId × GroupId)

/-- What may be recorded besides: which prices, and whether that the changes were taken. -/
structure Terms (Op Q : Type) where
  price : Outline Op → Standings Q → ExprId → Price Q → Prop
  taken : Prop

/-- Anything may be recorded. -/
def Terms.free {Op Q : Type} : Terms Op Q := ⟨fun _ _ _ _ => True, True⟩

/-- Neither may be recorded. -/
def Terms.strict {Op Q : Type} : Terms Op Q := ⟨fun _ _ _ _ => False, False⟩

namespace Work

variable {Op Q : Type}

/-- No merge is under way, and no offer is owed. -/
structure Idle (w : Work Op Q) : Prop where
  stage : w.stage = .rest
  owed : w.owed = []

/-- The offers of all members of a cell to all its sub groups. -/
def convened (c : Cell) : List (SubGroupId × ExprId) :=
  (c.subs.map Prod.snd).flatMap fun s => c.members.map fun e => (s, e)

end Work

section Edit

variable {Op Q : Type} [Quantity Q]

/-- One change of a work sheet. -/
inductive Edit (terms : Terms Op Q) (w : Work Op Q) : Work Op Q → Prop
  | skip (idle : w.Idle) : Edit terms w { w with outline := w.outline.skip }
  | forget (idle : w.Idle) (allowed : terms.taken) :
      Edit terms w { w with outline := w.outline.forget, standings := w.standings.forget }
  | openSub {g : GroupId} {traits : TraitSet} {c : Cell} (idle : w.Idle)
      (live : w.outline.group g = some c) (new : ∀ p ∈ c.subs, ¬ p.1.Same traits) :
      Edit terms w { w with
        outline := w.outline.openSub g traits
        owed := c.members.map fun e => (⟨w.outline.next⟩, e) }
  | price {e : ExprId} {x : Expr Op} {k : GroupId} {c : Cell} {p : Price Q} (idle : w.Idle)
      (known : w.outline.entry e = some (x, k)) (home : w.outline.group k = some c)
      (fair : terms.price w.outline w.standings e p) :
      Edit terms w { w with
        standings := w.standings.setPrice e p
        owed := c.subs.map fun q => (q.2, e) }
  | attach {x : Expr Op} {g : GroupId} (idle : w.Idle) (live : (w.outline.group g).isSome)
      (ready : w.outline.Ready x) (apart : w.outline.Apart x) :
      Edit terms w { w with outline := w.outline.attach x g }
  | found {x : Expr Op} {rowType : RowType} {facts : List Fact} (idle : w.Idle)
      (ready : w.outline.Ready x) (apart : w.outline.Apart x) :
      Edit terms w { w with outline := w.outline.found x rowType facts }
  | propose (p : GroupId × GroupId) (idle : w.Idle) :
      Edit terms w { w with pending := p :: w.pending }
  | same {p : GroupId × GroupId} {ps : List (GroupId × GroupId)} (idle : w.Idle)
      (next : w.pending = p :: ps) (same : w.outline.reduce p.1 = w.outline.reduce p.2) :
      Edit terms w { w with pending := ps }
  | takeIn {p : GroupId × GroupId} {ps : List (GroupId × GroupId)} {keep absorbed : GroupId}
      {kept gone : Cell} {hadReaders : Bool} (idle : w.Idle) (next : w.pending = p :: ps)
      (pair : (keep, absorbed) = (w.outline.reduce p.1, w.outline.reduce p.2) ∨
        (absorbed, keep) = (w.outline.reduce p.1, w.outline.reduce p.2))
      (ne : keep ≠ absorbed) (live : w.outline.group keep = some kept)
      (known : w.outline.group absorbed = some gone) (rowType : kept.rowType = gone.rowType)
      (readers : ∀ e, gone.parents e → hadReaders = true) :
      Edit terms w { w with
        outline := w.outline.takeIn keep absorbed gone
        stage := .moving keep absorbed hadReaders (gone.subs.map Prod.snd)
        pending := ps }
  | fold {keep absorbed : GroupId} {hadReaders : Bool} {s : SubGroupId} {strays : List SubGroupId}
      {t : TraitSet} {c : Cell} {q : TraitSet × SubGroupId} (calm : w.owed = [])
      (stage : w.stage = .moving keep absorbed hadReaders (s :: strays))
      (stray : w.outline.sub s = some ⟨absorbed, t⟩) (live : w.outline.group keep = some c)
      (listed : q ∈ c.subs) (same : q.1.Same t) :
      Edit terms w { w with
        outline := w.outline.foldSub q.2 s
        standings := w.standings.fold w.tie hadReaders q.2 s
        stage := .moving keep absorbed hadReaders strays }
  | hand {keep absorbed : GroupId} {hadReaders : Bool} {s : SubGroupId} {strays : List SubGroupId}
      {t : TraitSet} {c : Cell} (calm : w.owed = [])
      (stage : w.stage = .moving keep absorbed hadReaders (s :: strays))
      (stray : w.outline.sub s = some ⟨absorbed, t⟩) (live : w.outline.group keep = some c)
      (new : ∀ q ∈ c.subs, ¬ q.1.Same t) :
      Edit terms w { w with
        outline := w.outline.handSub keep t s
        stage := .moving keep absorbed hadReaders strays }
  | convene {keep absorbed : GroupId} {hadReaders : Bool} {c : Cell} {todo : List ExprId}
      (calm : w.owed = []) (stage : w.stage = .moving keep absorbed hadReaders [])
      (live : w.outline.group keep = some c) (readers : ∀ e, c.parents e → e ∈ todo) :
      Edit terms w { w with
        stage := .redirecting keep absorbed todo
        owed := Work.convened c }
  | offer {s : SubGroupId} {e : ExprId} {owed : List (SubGroupId × ExprId)}
      (next : w.owed = (s, e) :: owed) :
      Edit terms w { w with
        standings := w.standings.offer w.registry w.tie w.outline s e
        owed := owed }
  | pass {keep absorbed : GroupId} {e : ExprId} {todo : List ExprId} (calm : w.owed = [])
      (stage : w.stage = .redirecting keep absorbed (e :: todo))
      (unread : ∀ x g, w.outline.entry e = some (x, g) → x.reads absorbed = false) :
      Edit terms w { w with stage := .redirecting keep absorbed todo }
  | rewrite {keep absorbed : GroupId} {e : ExprId} {todo : List ExprId} {x : Expr Op} {k : GroupId}
      (calm : w.owed = []) (stage : w.stage = .redirecting keep absorbed (e :: todo))
      (known : w.outline.entry e = some (x, k))
      (apart : w.outline.Apart (x.redirect absorbed keep)) :
      Edit terms w { w with
        outline := w.outline.rewrite e (x.redirect absorbed keep) k
        stage := .redirecting keep absorbed todo }
  | drop {keep absorbed : GroupId} {e twin : ExprId} {todo : List ExprId} {x y : Expr Op}
      {k k' : GroupId} {c : Cell} (calm : w.owed = [])
      (stage : w.stage = .redirecting keep absorbed (e :: todo))
      (known : w.outline.entry e = some (x, k)) (ne : twin ≠ e)
      (other : w.outline.entry twin = some (y, k'))
      (congruent : y.Congruent (x.redirect absorbed keep)) (home : w.outline.group k = some c) :
      Edit terms w { w with
        outline := w.outline.drop e twin (x.redirect absorbed keep) k
        standings := w.standings.drop e twin (c.subs.map Prod.snd)
        stage := .redirecting keep absorbed todo
        pending := if k' = k then w.pending else w.pending ++ [(k', k)] }
  | finish {keep absorbed : GroupId} (calm : w.owed = [])
      (stage : w.stage = .redirecting keep absorbed []) :
      Edit terms w { w with outline := w.outline.noteMerge keep absorbed, stage := .rest }

/-- Any number of edits. -/
abbrev Edits (terms : Terms Op Q) : Work Op Q → Work Op Q → Prop :=
  Relation.ReflTransGen (Edit terms)

/-- What is allowed on some terms is allowed on weaker ones. -/
theorem Edit.mono {terms terms' : Terms Op Q} {w w' : Work Op Q}
    (hp : ∀ o st e p, terms.price o st e p → terms'.price o st e p) (ht : terms.taken → terms'.taken)
    (h : Edit terms w w') : Edit terms' w w' := by
  cases h with
  | price idle known home fair => exact .price idle known home (hp _ _ _ _ fair)
  | skip idle => exact .skip idle
  | forget idle allowed => exact .forget idle (ht allowed)
  | openSub idle live new => exact .openSub idle live new
  | attach idle live ready apart => exact .attach idle live ready apart
  | found idle ready apart => exact .found idle ready apart
  | propose p idle => exact .propose p idle
  | same idle next same => exact .same idle next same
  | takeIn idle next pair ne live known rowType readers =>
    exact .takeIn idle next pair ne live known rowType readers
  | fold calm stage stray live listed same => exact .fold calm stage stray live listed same
  | hand calm stage stray live new => exact .hand calm stage stray live new
  | convene calm stage live readers => exact .convene calm stage live readers
  | offer next => exact .offer next
  | pass calm stage unread => exact .pass calm stage unread
  | rewrite calm stage known apart => exact .rewrite calm stage known apart
  | drop calm stage known ne other congruent home =>
    exact .drop calm stage known ne other congruent home
  | finish calm stage => exact .finish calm stage

/-- What is allowed on strict terms is allowed on any. -/
theorem Edits.of_strict {terms : Terms Op Q} {w w' : Work Op Q} (h : Edits Terms.strict w w') :
    Edits terms w w' := by
  refine Relation.ReflTransGen.mono (fun a b hedit => ?_) w w' h
  exact hedit.mono (fun _ _ _ _ (hno : False) => hno.elim) fun (hno : False) => hno.elim

end Edit

/-! ## Stages -/

namespace Outline

variable {Op : Type} {o : Outline Op} {keep absorbed : GroupId} {hadReaders : Bool}
  {strays : List SubGroupId}

/-- The sub groups `strays` of the absorbed group are still to be moved, and all inputs on other groups
lead to their sub groups. Where the absorbed group had no readers, nothing reads it. -/
structure Gathering (o : Outline Op) (keep absorbed : GroupId) (hadReaders : Bool)
    (strays : List SubGroupId) : Prop where
  ne : keep ≠ absorbed
  moving : o.Moving keep absorbed strays
  readers : ∀ e x g, o.entry e = some (x, g) → x.reads absorbed = true → hadReaders = true
  elsewhere : ∀ e x g, o.entry e = some (x, g) → ∀ r ∈ x.inputs, r.group ≠ absorbed → o.Served r

theorem Tidy.gathering {gone : Cell} (h : o.Tidy) (hne : keep ≠ absorbed)
    (hk : (o.group keep).isSome) (ha : o.group absorbed = some gone)
    (hr : ∀ e, gone.parents e → hadReaders = true) :
    (o.takeIn keep absorbed gone).Gathering keep absorbed hadReaders (gone.subs.map Prod.snd) where
  ne := hne
  moving := h.takeIn hne hk ha
  readers e x g he hx := by
    obtain ⟨g₀, he₀, -⟩ := entry_takeIn.1 he
    obtain ⟨r, hrx, hrg⟩ := Expr.reads_iff.1 hx
    refine hr e ((h.sound.places.parents absorbed gone ha e).2 ⟨x, g₀, he₀, r, hrx, ?_⟩)
    rw [h.reduce_input he₀ hrx, hrg]
  elsewhere e x g he r hrx hg := by
    obtain ⟨g₀, he₀, -⟩ := entry_takeIn.1 he
    obtain ⟨c, hc, p, hp, ht⟩ := h.ready e x g₀ he₀ r hrx
    obtain ⟨c', hc'⟩ := Option.isSome_iff_exists.1
      (show ((o.takeIn keep absorbed gone).group r.group).isSome by
        rw [isSome_group_takeIn, hc]; simp [hg])
    obtain ⟨-, c₀, hc₀, hs, -⟩ := group_takeIn hc'
    rw [hc] at hc₀
    cases hc₀
    exact ⟨c', hc', p, hs ▸ hp, ht⟩

section Gathering

variable {s : SubGroupId} {t : TraitSet} {c : Cell}

theorem Gathering.foldSub (h : o.Gathering keep absorbed hadReaders (s :: strays))
    (hs : o.sub s = some ⟨absorbed, t⟩) (hc : o.group keep = some c) {p : TraitSet × SubGroupId}
    (hp : p ∈ c.subs) (ht : p.1.Same t) :
    (o.foldSub p.2 s).Gathering keep absorbed hadReaders strays :=
  ⟨h.ne, h.moving.foldSub hs hc hp ht, h.readers, h.elsewhere⟩

theorem Gathering.handSub (h : o.Gathering keep absorbed hadReaders (s :: strays))
    (hs : o.sub s = some ⟨absorbed, t⟩) (hc : o.group keep = some c)
    (hno : ∀ p ∈ c.subs, ¬ p.1.Same t) :
    (o.handSub keep t s).Gathering keep absorbed hadReaders strays where
  ne := h.ne
  moving := h.moving.handSub hs hc hno
  readers := h.readers
  elsewhere e x g he r hr hg :=
    (h.elsewhere e x g he r hr hg).later fun _ _ hc₀ => mem_subs_handSub keep s t hc₀

/-- The sub group that a stray is folded into is live, and another one in the group that stays. -/
theorem Gathering.listed (h : o.Gathering keep absorbed hadReaders (s :: strays))
    (hc : o.group keep = some c) {p : TraitSet × SubGroupId} (hp : p ∈ c.subs) :
    p.2 ≠ s ∧ o.sub p.2 = some ⟨keep, p.1⟩ :=
  ⟨h.moving.ne_stray List.mem_cons_self hc hp, h.moving.indexed.listed keep c hc p hp⟩

end Gathering

theorem Tidy.skip (h : o.Tidy) : o.skip.Tidy where
  sound := ⟨⟨h.sound.names.groups.mono (Nat.le_succ _), h.sound.names.subs.mono (Nat.le_succ _),
    h.sound.names.exprs.mono (Nat.le_succ _)⟩, ⟨h.sound.places.members, h.sound.places.nodup,
    h.sound.places.home, h.sound.places.parents, h.sound.places.inputs, h.sound.places.apart⟩⟩
  indexed := ⟨h.indexed.listed, h.indexed.apart, h.indexed.filed⟩
  ready := h.ready

end Outline

/-! ## Sound work sheets -/

section Sound

variable {Op Q : Type}

/-- What holds of the outline at a stage. -/
def Stage.Holds (o : Outline Op) : Stage → Prop
  | rest => o.Tidy
  | moving keep absorbed hadReaders strays => o.Gathering keep absorbed hadReaders strays
  | redirecting keep absorbed todo => o.Redirecting keep absorbed todo

/-- The outline is as it should be at its stage, only live names have winners or prices, and offers are
owed within a group. -/
structure Work.Sound (w : Work Op Q) : Prop where
  stage : w.stage.Holds w.outline
  wins : ∀ s, (w.standings.wins s).isSome → (w.outline.sub s).isSome
  price : ∀ e, (w.standings.price e).isSome → (w.outline.entry e).isSome
  owed : ∀ p ∈ w.owed, ∃ r x, w.outline.sub p.1 = some r ∧ w.outline.entry p.2 = some (x, r.group)

variable {w w' : Work Op Q}

theorem Work.Sound.tidy (h : w.Sound) (hs : w.stage = .rest) : w.outline.Tidy := by
  have hw := h.stage
  rw [hs] at hw
  exact hw

theorem Work.Sound.gathering (h : w.Sound) {keep absorbed : GroupId} {hadReaders : Bool}
    {strays : List SubGroupId} (hs : w.stage = .moving keep absorbed hadReaders strays) :
    w.outline.Gathering keep absorbed hadReaders strays := by
  have hw := h.stage
  rw [hs] at hw
  exact hw

theorem Work.Sound.redirecting (h : w.Sound) {keep absorbed : GroupId} {todo : List ExprId}
    (hs : w.stage = .redirecting keep absorbed todo) :
    w.outline.Redirecting keep absorbed todo := by
  have hw := h.stage
  rw [hs] at hw
  exact hw

theorem Work.Sound.outline (h : w.Sound) : w.outline.Sound := by
  have hw := h.stage
  cases hs : w.stage with
  | rest => exact (h.tidy hs).sound
  | moving => exact (h.gathering hs).moving.sound
  | redirecting => exact (h.redirecting hs).sound

/-! ### Standings of live names -/

namespace Standings

variable [Quantity Q] {st : Standings Q} {s t : SubGroupId} {e : ExprId}

/-- What an offer changes is the winner of the sub group, which is the expression at its price. -/
theorem offer_cases (registry : Registry Op) (tie : TieBreak) (o : Outline Op) (s : SubGroupId)
    (e : ExprId) (st : Standings Q) :
    st.offer registry tie o s e = st ∨
      ∃ x k r p, o.entry e = some (x, k) ∧ o.sub s = some r ∧ st.price e = some p ∧
        o.eligible registry x r = true ∧ Memo.beats tie ⟨e, p⟩ (st.wins s) = true ∧
        st.offer registry tie o s e = st.crown s ⟨e, p⟩ := by
  unfold offer
  split
  · next x k r p hx hr hp =>
    split
    · next hb =>
      rw [Bool.and_eq_true] at hb
      exact .inr ⟨x, k, r, p, hx, hr, hp, hb.1, hb.2, rfl⟩
    · exact .inl rfl
  · exact .inl rfl

@[simp] theorem price_offer (registry : Registry Op) (tie : TieBreak) (o : Outline Op) (s : SubGroupId)
    (e : ExprId) (st : Standings Q) : (st.offer registry tie o s e).price = st.price := by
  rcases st.offer_cases registry tie o s e with h | ⟨_, _, _, _, _, _, _, _, _, h⟩ <;> rw [h]
  rfl

@[simp] theorem price_fold (tie : TieBreak) (hadReaders : Bool) (kept s : SubGroupId)
    (st : Standings Q) : (st.fold tie hadReaders kept s).price = st.price := by
  unfold fold
  split
  · rfl
  · split <;> rfl

/-- After a sub group was folded into `kept`, that has the better of the two winners. -/
theorem wins_fold (tie : TieBreak) (hadReaders : Bool) {kept s : SubGroupId} (hne : kept ≠ s)
    (st : Standings Q) (t : SubGroupId) : (st.fold tie hadReaders kept s).wins t =
      if t = s then none
      else if t = kept then
        ((st.wins s).filter fun w => Memo.beats tie w (st.wins kept)) <|> st.wins kept
      else st.wins t := by
  unfold fold
  split
  · next w hw =>
    simp only [crown, vacate]
    by_cases hs : t = s
    · subst hs
      simp [hne.symm]
    · by_cases hk : t = kept <;> simp [hs, hk, hne, hw]
  · next hw =>
    have hv : (st.vacate s).wins t = if t = s then none
        else if t = kept then none <|> st.wins kept else st.wins t := by
      simp only [vacate]
      by_cases hk : t = kept <;> simp [hk]
    rw [hw, ← hv]
    split <;> rfl

omit [Quantity Q] in
theorem isSome_wins_drop (e twin : ExprId) (subs : List SubGroupId) (st : Standings Q)
    (t : SubGroupId) : ((st.drop e twin subs).wins t).isSome = (st.wins t).isSome := by
  simp only [drop, rename]
  split
  · rw [Option.isSome_map]
  · rfl

end Standings

/-! ### What every edit keeps -/

/-- Where no offers are owed, none is owed to anyone. -/
theorem Work.not_owed (calm : w.owed = []) {p : SubGroupId × ExprId} (hp : p ∈ w.owed) : False := by
  rw [calm] at hp
  cases hp

theorem Work.Idle.not_owed (h : w.Idle) {p : SubGroupId × ExprId} (hp : p ∈ w.owed) : False := Work.not_owed h.owed hp

/-- While no merge is under way, it is enough that an outline is tidy. -/
theorem Work.Idle.holds (h : w.Idle) {o : Outline Op} (tidy : o.Tidy) : w.stage.Holds o := by
  rw [h.stage]
  exact tidy

/-- What is live stays so where an expression is entered. -/
theorem Outline.isSome_enter {o o' : Outline Op} {e : ExprId} {q : Expr Op × GroupId}
    (entry : o'.entry = fun e' => if e' = e then some q else o.entry e') {e' : ExprId} (he : (o.entry e').isSome) :
    (o'.entry e').isSome := by
  rw [entry]
  dsimp only
  split
  · rfl
  · exact he

variable [Quantity Q] {terms : Terms Op Q}

/-- Folding a sub group into a live one leaves winners to live ones only. -/
theorem Work.Sound.isSome_sub_fold (hw : w.Sound) (tie : TieBreak) (hadReaders : Bool) {kept s t : SubGroupId}
    (hne : kept ≠ s) (hkept : (w.outline.sub kept).isSome)
    (ht : ((w.standings.fold tie hadReaders kept s).wins t).isSome) : ((w.outline.foldSub kept s).sub t).isSome := by
  rw [Standings.wins_fold _ _ hne] at ht
  simp only [Outline.foldSub]
  split at ht
  · cases ht
  · next hs =>
    rw [if_neg hs]
    split at ht
    · next hk => rw [hk]; exact hkept
    · exact hw.wins t ht

/-- Whoever takes an offer is live. -/
theorem Work.Sound.isSome_sub_offer (hw : w.Sound) {s t : SubGroupId} {e : ExprId}
    (ht : ((w.standings.offer w.registry w.tie w.outline s e).wins t).isSome) : (w.outline.sub t).isSome := by
  rcases w.standings.offer_cases w.registry w.tie w.outline s e with h | ⟨x, k, r, p, -, hr, -, -, -, h⟩
  · rw [h] at ht
    exact hw.wins t ht
  · simp only [h, Standings.crown] at ht
    split at ht
    · next hts => rw [hts, hr]; rfl
    · exact hw.wins t ht

omit [Quantity Q] in
/-- Where an expression is dropped for its twin, prices are left to live ones only. -/
theorem Work.Sound.isSome_entry_drop (hw : w.Sound) {e twin : ExprId} (ne : twin ≠ e)
    (other : (w.outline.entry twin).isSome) (x : Expr Op) (k : GroupId) (subs : List SubGroupId) {e' : ExprId}
    (he : ((w.standings.drop e twin subs).price e').isSome) : ((w.outline.drop e twin x k).entry e').isSome := by
  simp only [Standings.drop] at he
  simp only [Outline.drop]
  by_cases ht : e' = twin
  · rw [ht, if_neg ne]
    exact other
  · rw [if_neg ht] at he
    split at he
    · cases he
    · next hne => rw [if_neg hne]; exact hw.price e' he

/-- An edit leaves a work sheet as it should be. -/
theorem Edit.sound (h : Edit terms w w') (hw : w.Sound) : w'.Sound := by
  have hout := hw.outline
  cases h with
  | skip idle => exact ⟨idle.holds (hw.tidy idle.stage).skip, hw.wins, hw.price, hw.owed⟩
  | forget idle _ => exact ⟨idle.holds (hw.tidy idle.stage).forget, hw.wins, hw.price, hw.owed⟩
  | @openSub g traits c idle live new =>
    refine ⟨idle.holds ((hw.tidy idle.stage).openSub live new), fun s hs => ?_, hw.price, fun p hp => ?_⟩
    · simp only [Outline.openSub]
      split
      · rfl
      · exact hw.wins s hs
    · obtain ⟨e, he, rfl⟩ := List.mem_map.1 hp
      obtain ⟨x, hx⟩ := (hout.places.members g c live e).1 he
      exact ⟨⟨g, traits⟩, x, if_pos rfl, hx⟩
  | @price e x k c p idle known home fair =>
    refine ⟨hw.stage, hw.wins, fun e' he' => ?_, fun p hp => ?_⟩
    · simp only [Standings.setPrice] at he'
      split at he'
      · next h => rw [h, known]; rfl
      · exact hw.price e' he'
    · obtain ⟨q, hq, rfl⟩ := List.mem_map.1 hp
      exact ⟨⟨k, q.1⟩, x, (hw.tidy idle.stage).indexed.listed k c home q hq, known⟩
  | attach idle live ready apart =>
    exact ⟨idle.holds ((hw.tidy idle.stage).attach live ready apart), hw.wins,
      fun e he => Outline.isSome_enter rfl (hw.price e he), fun p hp => (idle.not_owed hp).elim⟩
  | @found x rowType facts idle ready apart =>
    exact ⟨idle.holds ((hw.tidy idle.stage).found rowType facts ready apart), hw.wins,
      fun e he => Outline.isSome_enter rfl (hw.price e he), fun p hp => (idle.not_owed hp).elim⟩
  | propose p idle => exact ⟨hw.stage, hw.wins, hw.price, hw.owed⟩
  | same idle next same => exact ⟨hw.stage, hw.wins, hw.price, hw.owed⟩
  | takeIn idle next pair ne live known rowType readers =>
    refine ⟨?_, hw.wins, fun e he => ?_, fun p hp => (idle.not_owed hp).elim⟩
    · exact (hw.tidy idle.stage).gathering ne (by rw [live]; rfl) known readers
    · simp only [Outline.takeIn, Option.isSome_map]
      exact hw.price e he
  | fold calm stage stray live listed same =>
    have hg := hw.gathering stage
    obtain ⟨hne, hsub⟩ := hg.listed live listed
    refine ⟨hg.foldSub stray live listed same, fun t ht => ?_, fun e he => ?_, fun p hp => (w.not_owed calm hp).elim⟩
    · exact hw.isSome_sub_fold _ _ hne (by rw [hsub]; rfl) ht
    · rw [Standings.price_fold] at he
      exact hw.price e he
  | hand calm stage stray live new =>
    refine ⟨(hw.gathering stage).handSub stray live new, fun t ht => ?_, hw.price,
      fun p hp => (w.not_owed calm hp).elim⟩
    simp only [Outline.handSub]
    split
    · rfl
    · exact hw.wins t ht
  | @convene keep absorbed hadReaders c todo calm stage live readers =>
    have hg := hw.gathering stage
    refine ⟨hg.moving.redirecting hg.ne live todo readers, hw.wins, hw.price, fun p hp => ?_⟩
    obtain ⟨s, hs, hp⟩ := List.mem_flatMap.1 hp
    obtain ⟨q, hq, rfl⟩ := List.mem_map.1 hs
    obtain ⟨e, he, rfl⟩ := List.mem_map.1 hp
    obtain ⟨x, hx⟩ := (hout.places.members keep c live e).1 he
    exact ⟨⟨keep, q.1⟩, x, hg.moving.indexed.listed keep c live q hq, hx⟩
  | @offer s e owed next =>
    refine ⟨hw.stage, fun t => hw.isSome_sub_offer, fun e' he' => ?_, fun p hp => ?_⟩
    · rw [Standings.price_offer] at he'
      exact hw.price e' he'
    · exact hw.owed p (by rw [next]; exact List.mem_cons_of_mem _ hp)
  | pass calm stage unread =>
    exact ⟨(hw.redirecting stage).pass unread, hw.wins, hw.price, hw.owed⟩
  | rewrite calm stage known apart =>
    exact ⟨(hw.redirecting stage).rewrite known apart, hw.wins,
      fun e he => Outline.isSome_enter rfl (hw.price e he), fun p hp => (w.not_owed calm hp).elim⟩
  | drop calm stage known ne other congruent home =>
    refine ⟨(hw.redirecting stage).drop known ne other, fun t ht => ?_, fun e' he' => ?_,
      fun p hp => (w.not_owed calm hp).elim⟩
    · rw [Standings.isSome_wins_drop] at ht
      exact hw.wins t ht
    · exact hw.isSome_entry_drop ne (by rw [other]; rfl) _ _ _ he'
  | finish calm stage =>
    exact ⟨(hw.redirecting stage).tidy.noteMerge _ _, hw.wins, hw.price, fun p hp => (w.not_owed calm hp).elim⟩

theorem Edits.sound (h : Edits terms w w') (hw : w.Sound) : w'.Sound := by
  induction h with
  | refl => exact hw
  | tail _ hs ih => exact hs.sound ih

/-- Old names of groups and expressions stand for what they stood for, up to what is pending. -/
theorem Edit.evolves (h : Edit terms w w') (hw : w.Sound) :
    w.outline.Evolves w.pending w'.outline w'.pending := by
  have hs := hw.outline
  cases h with
  | skip idle =>
    exact .of_kept hs.names (hw.tidy idle.stage).skip.sound.names (fun _ => rfl) (fun _ => rfl)
      fun _ _ h => h
  | forget idle _ =>
    exact .of_kept hs.names (hw.tidy idle.stage).forget.sound.names (fun _ => rfl) (fun _ => rfl)
      fun _ _ h => h
  | openSub idle live new => exact hs.evolves_openSub _ _
  | price => exact .refl hs.names
  | attach idle live ready apart => exact hs.evolves_attach live ready.reading apart
  | found idle ready apart => exact hs.evolves_found _ _ ready.reading apart
  | propose p idle =>
    have hrefl : w.outline.Evolves [] w.outline [] := .refl hs.names
    have he := hrefl.append w.pending
    rw [List.append_nil] at he
    exact ⟨he.group, he.expr, fun e x g hx => ⟨x, g, by rw [hs.names.reduceExpr_of_live
      (by rw [hx]; rfl), hx], .refl _ _, .refl _ _ _⟩, fun q hq => .of_mem (List.mem_cons_of_mem _ hq)⟩
  | same idle next same =>
    rw [next]
    exact (Evolves.refl hs.names).cons (.of_reduce_eq same)
  | @takeIn p ps keep absorbed kept gone hadReaders idle next pair ne live known rowType readers =>
    rw [next]
    refine (hs.evolves_takeIn ne (by rw [live]; rfl) known).cons (.of_reduce_eq ?_)
    rw [hs.names.reduce_takeIn (by rw [known]; rfl), hs.names.reduce_takeIn (by rw [known]; rfl)]
    rcases pair with hp | hp <;> (obtain ⟨h₁, h₂⟩ := Prod.mk.inj hp; rw [← h₁, ← h₂]; simp)
  | fold calm stage stray live listed same =>
    obtain ⟨hne, hsub⟩ := (hw.gathering stage).listed live listed
    exact hs.evolves_foldSub hne (by rw [hsub]; rfl)
  | hand calm stage stray live new => exact hs.evolves_handSub _ _ (by rw [stray]; rfl)
  | convene => exact .refl hs.names
  | offer => exact .refl hs.names
  | pass => exact .refl hs.names
  | rewrite calm stage known apart =>
    have hg := (hw.redirecting stage).gone
    exact hs.evolves_rewrite known (settled_redirect (reduce_kept hs hg) hg _) apart
  | @drop keep absorbed e twin todo x y k k' c calm stage known ne other congruent home =>
    have hg := (hw.redirecting stage).gone
    exact (Shift.drop hs hg known ne other congruent).evolves
  | finish => exact hs.evolves_noteMerge _ _

theorem Edits.evolves (h : Edits terms w w') (hw : w.Sound) :
    w.outline.Evolves w.pending w'.outline w'.pending := by
  induction h with
  | refl => exact .refl hw.outline.names
  | tail hr hs ih => exact ih.trans (hs.evolves (Edits.sound hr hw))

/-- Old names of sub groups stand for what they stood for. -/
theorem Edit.lineage (h : Edit terms w w') (hw : w.Sound) : w.outline.Lineage w'.outline := by
  have hs := hw.outline
  have hs' := (h.sound hw).outline
  have hg := (h.evolves hw).group
  cases h with
  | openSub idle live new => exact hs.lineage_openSub _ _
  | fold calm stage stray live listed same =>
    have hm := hw.gathering stage
    obtain ⟨hne, hsub⟩ := hm.listed live listed
    exact hs.lineage_foldSub hne stray hsub same
      ((reduce_kept hs hm.moving.gone).trans hm.moving.gone.symm)
  | hand calm stage stray live new =>
    have hm := (hw.gathering stage).moving
    exact hs.lineage_handSub stray ((reduce_kept hs hm.gone).trans hm.gone.symm)
  | skip | forget | price | attach | found | propose | same | takeIn | convene | offer | pass
  | rewrite | drop | finish => exact .of_kept hs.names hs'.names hg (fun _ => rfl) fun _ _ h => h

theorem Edits.lineage (h : Edits terms w w') (hw : w.Sound) : w.outline.Lineage w'.outline := by
  induction h with
  | refl => exact .refl hw.outline.names
  | tail hr hs ih => exact ih.trans (hs.lineage (Edits.sound hr hw))

end Sound

end PlanSearch
