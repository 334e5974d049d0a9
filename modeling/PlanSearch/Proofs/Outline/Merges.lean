import PlanSearch.Proofs.Outline.Shift

/-!
# Chains of merges

A merge of two groups may call for more merges, and those for more. Whatever the chain, every old name
still stands for a live thing that is alike in the end, and no group is left without members: a group
may lose its last member in the middle of the chain, but only to a group that it is then merged with.

    o.Merges ps o' → o.Evolves ps o' []              (Merges.evolves)
    o.Merges ps o' → o.Filled → o'.Filled            (Merges.filled)
-/

namespace PlanSearch

namespace Outline

variable {Op : Type}

/-- The group `keep` takes the group `absorbed` in; the pairs `more` are to be merged next. -/
inductive Absorbs (o : Outline Op) (keep absorbed : GroupId) :
    Outline Op → List (GroupId × GroupId) → Prop
  | intro {gone : Cell} {o' : Outline Op} {more : List (GroupId × GroupId)} (tidy : o.Tidy)
      (ne : keep ≠ absorbed) (live : (o.group keep).isSome) (known : o.group absorbed = some gone)
      (shifts : Shifts keep absorbed (o.takeIn keep absorbed gone, []) (o', more)) (tidy' : o'.Tidy) :
      Absorbs o keep absorbed (o'.noteMerge keep absorbed) more

/-- The pairs `ps` are merged one after the other, and then those that they call for. -/
inductive Merges : Outline Op → List (GroupId × GroupId) → Outline Op → Prop
  | done (o : Outline Op) : Merges o [] o
  | skip {o o' : Outline Op} {p : GroupId × GroupId} {ps : List (GroupId × GroupId)}
      (same : o.reduce p.1 = o.reduce p.2) (rest : Merges o ps o') : Merges o (p :: ps) o'
  | absorb {o o' o'' : Outline Op} {p : GroupId × GroupId} {ps more : List (GroupId × GroupId)}
      {keep absorbed : GroupId}
      (pair : (keep, absorbed) = (o.reduce p.1, o.reduce p.2) ∨
        (absorbed, keep) = (o.reduce p.1, o.reduce p.2))
      (first : o.Absorbs keep absorbed o' more) (rest : Merges o' (ps ++ more) o'') :
      Merges o (p :: ps) o''

section Absorbs

variable {o o' : Outline Op} {keep absorbed : GroupId} {more : List (GroupId × GroupId)}

/-- The names of the absorbed group stand for the other from now on. -/
theorem Absorbs.reduce_eq (h : o.Absorbs keep absorbed o' more) (g : GroupId) :
    o'.reduce g = if o.reduce g = absorbed then keep else o.reduce g := by
  cases h with
  | @intro gone o₁ _ tidy ne live known shifts tidy' =>
    have hr : (o₁.noteMerge keep absorbed).reduce = (o.takeIn keep absorbed gone).reduce := by
      funext a
      exact congrArg (fun f => (f a).getD a) shifts.frame.1
    rw [hr, tidy.sound.names.reduce_takeIn (by rw [known]; rfl)]

theorem Absorbs.isSome_group (h : o.Absorbs keep absorbed o' more) (g : GroupId) :
    (o'.group g).isSome = (decide (g ≠ absorbed) && (o.group g).isSome) := by
  cases h with
  | intro tidy ne live known shifts tidy' =>
    exact (shifts.frame.2.2.2 g).trans (isSome_group_takeIn g)

/-- What is pending besides stays pending. -/
theorem Evolves.append {o o' : Outline Op} {ps ps' : List (GroupId × GroupId)}
    (h : o.Evolves ps o' ps') (rest : List (GroupId × GroupId)) :
    o.Evolves (rest ++ ps) o' (rest ++ ps') where
  group := h.group
  expr := h.expr
  entry e x g he := by
    obtain ⟨x', g', he', ha, hl⟩ := h.entry e x g he
    exact ⟨x', g', he', ha, hl.mono fun p hp => List.mem_append_right _ hp⟩
  pairs p hp := by
    rcases List.mem_append.1 hp with hp | hp
    · exact .of_mem (List.mem_append_left _ hp)
    · exact (h.pairs p hp).mono fun p hp => List.mem_append_right _ hp

theorem Absorbs.tidy (h : o.Absorbs keep absorbed o' more) : o'.Tidy := by
  cases h with
  | intro _ _ _ _ _ tidy' => exact tidy'.noteMerge keep absorbed

theorem Absorbs.evolves (h : o.Absorbs keep absorbed o' more) : o.Evolves [] o' more := by
  cases h with
  | intro tidy ne live known shifts tidy' =>
    have h₂ := shifts.evolves (tidy.sound.takeIn ne live known).names
    exact (tidy.sound.evolves_takeIn ne live known).trans (h₂.trans (tidy'.sound.evolves_noteMerge keep absorbed))

/-- The two groups of the pair are one afterwards. -/
theorem Absorbs.evolves_cons (h : o.Absorbs keep absorbed o' more) {p : GroupId × GroupId}
    (hp : (keep, absorbed) = (o.reduce p.1, o.reduce p.2) ∨
      (absorbed, keep) = (o.reduce p.1, o.reduce p.2)) (ps : List (GroupId × GroupId)) :
    o.Evolves (p :: ps) o' (ps ++ more) := by
  have he := h.evolves.append ps
  rw [List.append_nil] at he
  refine he.cons (.of_reduce_eq ?_)
  rw [h.reduce_eq, h.reduce_eq]
  rcases hp with hp | hp <;> (obtain ⟨h₁, h₂⟩ := Prod.mk.inj hp; rw [← h₁, ← h₂]; simp)

end Absorbs

/-! ## Chains -/

section Merges

variable {o o' : Outline Op} {ps : List (GroupId × GroupId)}

theorem Merges.tidy (h : o.Merges ps o') (ho : o.Tidy) : o'.Tidy := by
  induction h with
  | done => exact ho
  | skip _ _ ih => exact ih ho
  | absorb _ first _ ih => exact ih first.tidy

theorem Merges.evolves (h : o.Merges ps o') (ho : o.Tidy) : o.Evolves ps o' [] := by
  induction h with
  | done => exact .refl ho.sound.names
  | skip same _ ih =>
    have hi := ih ho
    exact hi.cons (hi.linked (.of_reduce_eq same))
  | absorb pair first _ ih => exact (first.evolves_cons pair _).trans (ih first.tidy)

/-- Merging makes no new groups. -/
theorem Merges.live_of_live (h : o.Merges ps o') {g : GroupId} (hg : (o'.group g).isSome) :
    (o.group g).isSome := by
  induction h with
  | done => exact hg
  | skip _ _ ih => exact ih hg
  | absorb _ first _ ih =>
    have hi := ih hg
    rw [first.isSome_group, Bool.and_eq_true] at hi
    exact hi.2

/-- Every live group has members. -/
def Filled (o : Outline Op) : Prop := ∀ g c, o.group g = some c → c.members ≠ []

/-- An expression that stands for an old member of a group is a member of what became of the group. -/
theorem Evolves.entry_settled (h : o.Evolves ps o' []) (ho' : o'.Sound) {e : ExprId} {x : Expr Op}
    {g : GroupId} (he : o.entry e = some (x, g)) :
    ∃ x', o'.entry (o'.reduceExpr e) = some (x', o'.reduce g) ∧ o'.Alike x x' := by
  obtain ⟨x', g', he', ha, hl⟩ := h.entry e x g he
  have hg := ho'.names.linked_nil_iff.1 hl
  rw [ho'.reduce_home he'] at hg
  exact ⟨x', by rw [he', hg], ha⟩

theorem Merges.filled (h : o.Merges ps o') (ho : o.Tidy) (hf : o.Filled) : o'.Filled := by
  intro g c hc hnil
  have hs := (h.tidy ho).sound
  have hlive : (o'.group g).isSome := by rw [hc]; rfl
  obtain ⟨c₀, hc₀⟩ := Option.isSome_iff_exists.1 (h.live_of_live hlive)
  obtain ⟨e, he⟩ := List.exists_mem_of_ne_nil _ (hf g c₀ hc₀)
  obtain ⟨x, hx⟩ := (ho.sound.places.members g c₀ hc₀ e).1 he
  obtain ⟨x', hx', -⟩ := (h.evolves ho).entry_settled hs hx
  rw [hs.names.reduce_of_live hlive] at hx'
  have hm := (hs.places.members g c hc _).2 ⟨x', hx'⟩
  rw [hnil] at hm
  cases hm

end Merges

end Outline

end PlanSearch
