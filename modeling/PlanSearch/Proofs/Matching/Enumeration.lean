import PlanSearch.Proofs.Matching.Depicts
import PlanSearch.Proofs.Memo.Integrity

/-!
# In which order bindings are found

A binding is chosen by positions: for every operand below the root that tests a kind, in pre-order, the position of a
member in the group that the expression bound above reads at that place. The enumeration goes through all choices in
lexicographic order of these positions. No binding has two choices, for its expressions tell where the members of one
operand end and which members they are, so it is found once.

    Picks m p e ks es → Picks m p e ks' es → ks = ks'                                            (Picks.unique)
    bindInputs m ps rs picks extends every pick by the choices for ps, in order                  (bindInputs_choices)
    p.bindings m e lists the choices for p, in order                                             (bindings_in_order)
-/

namespace PlanSearch

namespace Pattern

variable {Op Q : Type} [Operator Op] {m : Memo Op Q}

/-! ## Choices -/

mutual

/-- The live expression `e` and the members at the positions `ks` bind the operand and those below it, and are `es`
in pre-order. -/
inductive Picks (m : Memo Op Q) : Pattern Op → ExprId → List Nat → List ExprId → Prop
  | node {test : KindTest Op} {ps : List (Pattern Op)} {e : ExprId} {entry : Entry Op Q} {ks : List Nat}
      {es : List ExprId} (live : m.exprs[e]? = some entry) (accepts : test.accepts entry.expr.op = true)
      (below : PicksAll m ps entry.expr.inputs ks es) : Picks m (.node test ps) e ks (e :: es)

/-- The operands are bound from the left, each against one input, and one for all that remain against these. There are
neither operands nor inputs left over. -/
inductive PicksAll (m : Memo Op Q) : List (Pattern Op) → List SubGroupRef → List Nat → List ExprId → Prop
  | nil : PicksAll m [] [] [] []
  | many {rs : List SubGroupRef} : PicksAll m [.anyMany] rs [] []
  | any {ps : List (Pattern Op)} {r : SubGroupRef} {rs : List SubGroupRef} {ks : List Nat} {es : List ExprId}
      (rest : PicksAll m ps rs ks es) : PicksAll m (.any :: ps) (r :: rs) ks es
  | node {test : KindTest Op} {qs ps : List (Pattern Op)} {r : SubGroupRef} {rs : List SubGroupRef} {k : Nat}
      {e : ExprId} {ks ks' : List Nat} {es es' : List ExprId} (member : (m.members r.group)[k]? = some e)
      (first : Picks m (.node test qs) e ks es) (rest : PicksAll m ps rs ks' es') :
      PicksAll m (.node test qs :: ps) (r :: rs) (k :: ks ++ ks') (es ++ es')

end

mutual

/-- A choice has a position for every operand that tests a kind, apart from the root. -/
theorem Picks.length {p : Pattern Op} {e : ExprId} {ks : List Nat} {es : List ExprId} (d : Nat) :
    Picks m p e ks es → es.length = (p.operandsFrom d).length ∧ ks.length + 1 = es.length
  | .node _ _ below => by
    obtain ⟨hes, hks⟩ := below.length (d + 1)
    rw [operandsFrom, List.length_cons, List.length_cons, hes, hks, hes]
    exact ⟨rfl, rfl⟩

theorem PicksAll.length {ps : List (Pattern Op)} {rs : List SubGroupRef} {ks : List Nat} {es : List ExprId} (d : Nat) :
    PicksAll m ps rs ks es → es.length = (operandsFromAll d ps).length ∧ ks.length = es.length
  | .nil => ⟨rfl, rfl⟩
  | .many => ⟨rfl, rfl⟩
  | .any rest => by
    obtain ⟨hes, hks⟩ := rest.length d
    exact ⟨by simp only [hes, operandsFromAll, operandsFrom, List.nil_append], hks⟩
  | .node _ first rest => by
    obtain ⟨hes, hks⟩ := first.length d
    obtain ⟨hes', hks'⟩ := rest.length d
    refine ⟨by rw [List.length_append, hes, hes', operandsFromAll, List.length_append], ?_⟩
    rw [List.length_append, List.length_append, List.length_cons, hks, hks']

end

theorem Picks.head {p : Pattern Op} {e : ExprId} {ks : List Nat} {es : List ExprId} (h : Picks m p e ks es) :
    ∃ more, es = e :: more := by
  cases h with
  | node => exact ⟨_, rfl⟩

end Pattern

theorem Memo.nodup_members {Op Q : Type} {m : Memo Op Q} (hs : m.outline.Sound) (g : GroupId) :
    (m.members g).Nodup := by
  unfold Memo.members
  cases hg : m.group? g with
  | none => exact List.nodup_nil
  | some group => exact hs.places.nodup _ _ (Memo.outline_group_of hg)

namespace Pattern

variable {Op Q : Type} [Operator Op] {m : Memo Op Q}

mutual

/-- The expressions of a binding tell by which choice it comes about. -/
theorem Picks.unique (hs : m.outline.Sound) {p : Pattern Op} {e : ExprId} {ks ks' : List Nat} {es : List ExprId} :
    Picks m p e ks es → Picks m p e ks' es → ks = ks'
  | .node live _ below, .node live' _ below' => by
    cases live.symm.trans live'
    exact below.unique hs below' rfl

theorem PicksAll.unique (hs : m.outline.Sound) {ps : List (Pattern Op)} {rs : List SubGroupRef} {ks ks' : List Nat}
    {es es' : List ExprId} : PicksAll m ps rs ks es → PicksAll m ps rs ks' es' → es = es' → ks = ks'
  | .nil, .nil, _ => rfl
  | .many, .many, _ => rfl
  | .any rest, .any rest', h => rest.unique hs rest' h
  | .node member first rest, .node member' first' rest', h => by
    -- all bindings of one operand have the same length
    have hlen := (first.length 0).1.trans (first'.length 0).1.symm
    obtain ⟨rfl, rfl⟩ := List.append_inj h hlen
    obtain ⟨more, rfl⟩ := first.head
    obtain ⟨more', hmore⟩ := first'.head
    cases (List.cons.inj hmore).1
    obtain ⟨hk, he⟩ := List.getElem?_eq_some_iff.1 member
    obtain ⟨hk', he'⟩ := List.getElem?_eq_some_iff.1 member'
    have hkk := (Memo.nodup_members hs _).getElem_inj_iff.1 (he.trans he'.symm)
    rw [hkk, first.unique hs first', rest.unique hs rest' rfl]

end

/-! ## Choices in order -/

/-- The list has the pairs in the relation, and no others, in lexicographic order of their positions. -/
structure Lists (cs : List (List Nat × List ExprId)) (R : List Nat → List ExprId → Prop) : Prop where
  ordered : cs.Pairwise fun c c' => List.Lex (· < ·) c.1 c'.1
  mem_iff : ∀ ks es, (ks, es) ∈ cs ↔ R ks es

variable {R S : List Nat → List ExprId → Prop} {cs cs' : List (List Nat × List ExprId)}

theorem lists_nil (h : ∀ ks es, ¬ R ks es) : Lists [] R where
  ordered := .nil
  mem_iff ks es := iff_of_false List.not_mem_nil (h ks es)

theorem lists_singleton (h : ∀ ks es, R ks es ↔ ks = [] ∧ es = []) : Lists [([], [])] R where
  ordered := List.pairwise_singleton _ _
  mem_iff ks es := by rw [List.mem_singleton, h, Prod.mk.injEq]

theorem Lists.congr (h : Lists cs R) (hR : ∀ ks es, R ks es ↔ S ks es) : Lists cs S where
  ordered := h.ordered
  mem_iff ks es := (h.mem_iff ks es).trans (hR ks es)

/-- The same positions with other expressions. -/
theorem Lists.map (h : Lists cs R) {f : List ExprId → List ExprId}
    (hS : ∀ ks es, S ks es ↔ ∃ es', R ks es' ∧ f es' = es) : Lists (cs.map fun c => (c.1, f c.2)) S where
  ordered := List.pairwise_map.2 h.ordered
  mem_iff ks es := by
    rw [hS, List.mem_map]
    constructor
    · rintro ⟨c, hc, heq⟩
      cases heq
      exact ⟨c.2, (h.mem_iff _ _).1 hc, rfl⟩
    · rintro ⟨es', hR, rfl⟩
      exact ⟨(ks, es'), (h.mem_iff _ _).2 hR, rfl⟩

/-- Lists of the same length compare as they do before anything is added. -/
theorem lex_append {l l' : List Nat} (h : List.Lex (· < ·) l l') (hlen : l.length = l'.length) (t t' : List Nat) :
    List.Lex (· < ·) (l ++ t) (l' ++ t') := by
  induction h with
  | nil => cases hlen
  | cons _ ih => exact .cons (ih (Nat.succ.inj hlen))
  | rel hlt => exact .rel hlt

/-- Every choice of `cs` followed by every one of `cs'`. -/
def extendChoices (cs cs' : List (List Nat × List ExprId)) : List (List Nat × List ExprId) :=
  cs.flatMap fun c => cs'.map fun c' => (c.1 ++ c'.1, c.2 ++ c'.2)

omit [Operator Op] in
theorem map_snd_extendChoices : (extendChoices cs cs').map Prod.snd =
    extendPicks (cs.map Prod.snd) (cs'.map Prod.snd) := by
  simp only [extendChoices, extendPicks, List.map_flatMap, List.flatMap_map, List.map_map]
  rfl

/-- Of two choices the first decides the order, where all first ones have as many positions. -/
theorem Lists.extend (h : Lists cs R) (h' : Lists cs' S) {n : Nat} (hlen : ∀ ks es, R ks es → ks.length = n) :
    Lists (extendChoices cs cs') fun ks es =>
      ∃ ks₁ es₁ ks₂ es₂, R ks₁ es₁ ∧ S ks₂ es₂ ∧ ks = ks₁ ++ ks₂ ∧ es = es₁ ++ es₂ where
  ordered := by
    refine List.pairwise_flatMap.2 ⟨fun c _ => ?_, ?_⟩
    · exact List.pairwise_map.2 (h'.ordered.imp fun hlt => hlt.append_left _ _)
    · refine h.ordered.imp_of_mem fun {c d} hc hd hlt => ?_
      have heq : c.1.length = d.1.length :=
        (hlen _ _ ((h.mem_iff _ _).1 hc)).trans (hlen _ _ ((h.mem_iff _ _).1 hd)).symm
      rintro _ ha _ hb
      obtain ⟨a, -, rfl⟩ := List.mem_map.1 ha
      obtain ⟨b, -, rfl⟩ := List.mem_map.1 hb
      exact lex_append hlt heq _ _
  mem_iff ks es := by
    simp only [extendChoices, List.mem_flatMap, List.mem_map]
    constructor
    · rintro ⟨c, hc, c', hc', heq⟩
      cases heq
      exact ⟨_, _, _, _, (h.mem_iff _ _).1 hc, (h'.mem_iff _ _).1 hc', rfl, rfl⟩
    · rintro ⟨ks₁, es₁, ks₂, es₂, h₁, h₂, rfl, rfl⟩
      exact ⟨(ks₁, es₁), (h.mem_iff _ _).2 h₁, (ks₂, es₂), (h'.mem_iff _ _).2 h₂, rfl⟩

theorem extendPicks_singleton (picks : List (List ExprId)) : extendPicks picks [[]] = picks := by
  simp only [extendPicks, List.map_singleton, List.append_nil, List.flatMap_singleton']

theorem extendPicks_nil (picks : List (List ExprId)) : extendPicks picks [] = [] :=
  List.flatMap_eq_nil_iff.2 fun _ _ => rfl

theorem extendPicks_assoc (l₁ l₂ l₃ : List (List ExprId)) :
    extendPicks (extendPicks l₁ l₂) l₃ = extendPicks l₁ (extendPicks l₂ l₃) := by
  simp only [extendPicks, List.flatMap_assoc, List.map_flatMap, List.flatMap_map, List.map_map, List.append_assoc]
  rfl

/-- Where the choices of each member are listed, so are those of the group, by the position of the member. -/
theorem exists_alternatives {p : Pattern Op} (members : List ExprId) (n : Nat)
    (h : ∀ e ∈ members, ∃ cs, p.bindings m e = .ok (cs.map Prod.snd) ∧ Lists cs (Picks m p e)) :
    ∃ found cs, (members.mapM fun e => p.bindings m e) = .ok found ∧ found.flatten = cs.map Prod.snd ∧
      Lists cs fun ks es => ∃ i e ks', members[i]? = some e ∧ ks = (n + i) :: ks' ∧ Picks m p e ks' es := by
  induction members generalizing n with
  | nil => exact ⟨[], [], rfl, rfl, lists_nil fun _ _ ⟨_, _, _, hi, _⟩ => by cases hi⟩
  | cons e members ih =>
    obtain ⟨first, hfirst, hlists⟩ := h e List.mem_cons_self
    obtain ⟨found, rest, hfound, hflatten, hrest⟩ := ih (n + 1) fun e' he' => h e' (List.mem_cons_of_mem _ he')
    refine ⟨first.map Prod.snd :: found, (first.map fun c => (n :: c.1, c.2)) ++ rest, ?_, ?_, ?_, fun ks es => ?_⟩
    · rw [List.mapM_cons, hfirst, hfound]
      rfl
    · rw [List.flatten_cons, hflatten, List.map_append, List.map_map]
      rfl
    · refine List.pairwise_append.2 ⟨List.pairwise_map.2 (hlists.ordered.imp .cons), hrest.ordered, fun c hc d hd => ?_⟩
      -- the first member stands before those of the rest
      obtain ⟨c, -, rfl⟩ := List.mem_map.1 hc
      obtain ⟨i, -, ks', -, hks', -⟩ := (hrest.mem_iff d.1 d.2).1 hd
      rw [hks']
      exact .rel (by omega)
    · rw [List.mem_append, List.mem_map, hrest.mem_iff]
      constructor
      · rintro (⟨c, hc, heq⟩ | ⟨i, e', ks', hi, rfl, hpick⟩)
        · cases heq
          exact ⟨0, e, c.1, rfl, rfl, (hlists.mem_iff _ _).1 hc⟩
        · exact ⟨i + 1, e', ks', hi, by rw [Nat.add_right_comm, Nat.add_assoc], hpick⟩
      · rintro ⟨_ | i, e', ks', hi, rfl, hpick⟩
        · cases hi
          exact .inl ⟨(ks', es), (hlists.mem_iff _ _).2 hpick, rfl⟩
        · exact .inr ⟨i, e', ks', hi, by rw [Nat.add_right_comm, Nat.add_assoc], hpick⟩

/-- Operands that are bound are as many as the inputs, as far as the last does not take the rest. -/
theorem PicksAll.fitsArity (test : KindTest Op) {ps : List (Pattern Op)} {rs : List SubGroupRef} {ks : List Nat}
    {es : List ExprId} (h : PicksAll m ps rs ks es) (hp : manyLastAll ps = true) :
    (Pattern.node test ps).fitsArity rs.length = true := by
  induction ps generalizing rs ks es with
  | nil =>
    cases h
    rfl
  | cons p ps ih =>
    cases h with
    | many => exact decide_eq_true (Nat.le_add_left 1 rs.length)
    | any rest | node _ _ rest =>
      obtain ⟨hps, hfits⟩ := fitsArity_cons test _ hp (by rintro ⟨⟩)
      exact hfits.trans (ih rest hps)

mutual

/-- The bindings of an expression come in the order of their choices. -/
theorem bindings_choices (hs : m.outline.Sound) (test : KindTest Op) (ps : List (Pattern Op))
    (hp : manyLastAll ps = true) {e : ExprId} {entry : Entry Op Q} (he : m.exprs[e]? = some entry) :
    ∃ cs, (node test ps).bindings m e = .ok (cs.map Prod.snd) ∧ Lists cs (Picks m (.node test ps) e) := by
  have hx : m.getExpr e = .ok entry.expr := Memo.getExpr_of_entry hs.names (Memo.outline_entry_of he)
  have hbindings : (node test ps).bindings m e =
      if test.accepts entry.expr.op && (node test ps).fitsArity entry.expr.inputs.length then
        bindInputs m ps entry.expr.inputs [[e]]
      else .ok [] := by
    rw [bindings, hx]
    rfl
  rw [hbindings]
  by_cases hfit : (test.accepts entry.expr.op && (node test ps).fitsArity entry.expr.inputs.length) = true
  · obtain ⟨haccepts, harity⟩ := Bool.and_eq_true_iff.1 hfit
    obtain ⟨cs, hcs, hlists⟩ := bindInputs_choices hs test ps entry.expr.inputs hp harity
    refine ⟨cs.map fun c => (c.1, e :: c.2), ?_, hlists.map fun ks es => ?_⟩
    · rw [if_pos hfit, hcs, extendPicks, List.flatMap_singleton, List.map_map, List.map_map]
      rfl
    · constructor
      · rintro ⟨live, -, below⟩
        cases he.symm.trans live
        exact ⟨_, below, rfl⟩
      · rintro ⟨es, below, rfl⟩
        exact .node he haccepts below
  · refine ⟨[], by rw [if_neg hfit]; rfl, lists_nil fun ks es hpick => hfit ?_⟩
    cases hpick with
    | node live accepts below =>
      cases he.symm.trans live
      exact Bool.and_eq_true_iff.2 ⟨accepts, below.fitsArity test hp⟩

/-- What is bound so far is extended in the order of the choices for the operands that remain. -/
theorem bindInputs_choices (hs : m.outline.Sound) (test : KindTest Op) (ps : List (Pattern Op))
    (rs : List SubGroupRef) (hp : manyLastAll ps = true) (hfit : (node test ps).fitsArity rs.length = true) :
    ∃ cs, (∀ picks, bindInputs m ps rs picks = .ok (extendPicks picks (cs.map Prod.snd))) ∧
      Lists cs (PicksAll m ps rs) := by
  match ps, rs with
  | [], rs =>
    cases List.length_eq_zero_iff.1 (of_decide_eq_true hfit)
    refine ⟨[([], [])], fun picks => ?_, lists_singleton fun ks es => ⟨?_, ?_⟩⟩
    · rw [bindInputs, List.map_singleton, extendPicks_singleton]
    · rintro ⟨⟩
      exact ⟨rfl, rfl⟩
    · rintro ⟨rfl, rfl⟩
      exact .nil
  | .anyMany :: ps, rs =>
    cases List.isEmpty_iff.1 hp
    refine ⟨[([], [])], fun picks => ?_, lists_singleton fun ks es => ⟨?_, ?_⟩⟩
    · rw [bindInputs, List.map_singleton, extendPicks_singleton]
    · rintro ⟨⟩
      exact ⟨rfl, rfl⟩
    · rintro ⟨rfl, rfl⟩
      exact .many
  | .any :: ps, [] | .node test' qs :: ps, [] => cases eq_anyMany_of_fitsArity hfit
  | .any :: ps, r :: rs =>
    obtain ⟨hps, hfits⟩ := fitsArity_cons test rs.length hp (by rintro ⟨⟩)
    obtain ⟨cs, hcs, hlists⟩ := bindInputs_choices hs test ps rs hps (hfits.symm.trans hfit)
    refine ⟨cs, fun picks => ?_, hlists.congr fun ks es => ⟨.any, ?_⟩⟩
    · rw [bindInputs]
      exact hcs picks
    · rintro ⟨⟩
      assumption
  | .node test' qs :: ps, r :: rs =>
    obtain ⟨hps, hfits⟩ := fitsArity_cons test rs.length hp (by rintro ⟨⟩)
    have hqs : manyLastAll qs = true := (Bool.and_eq_true_iff.1 hp).1
    obtain ⟨found, alts, hfound, hflatten, halts⟩ := exists_alternatives (m.members r.group) 0 fun e he => by
      obtain ⟨x, hx⟩ := (Memo.mem_members hs).1 he
      obtain ⟨entry, hentry, -⟩ := Memo.exists_entry hx
      exact bindings_choices hs test' qs hqs hentry
    obtain ⟨cs, hcs, hlists⟩ := bindInputs_choices hs test ps rs hps (hfits.symm.trans hfit)
    have hlen : ∀ ks es, (∃ i e ks', (m.members r.group)[i]? = some e ∧ ks = (0 + i) :: ks' ∧
        Picks m (.node test' qs) e ks' es) → ks.length = ((node test' qs).operandsFrom 0).length := by
      rintro _ _ ⟨i, e, ks, -, rfl, hpick⟩
      obtain ⟨hes, hks⟩ := hpick.length 0
      rw [List.length_cons, hks, hes]
    refine ⟨extendChoices alts cs, fun picks => ?_, (halts.extend hlists hlen).congr fun ks es => ⟨?_, ?_⟩⟩
    · rw [bindInputs, hfound, map_snd_extendChoices, ← extendPicks_assoc, ← hcs, ← hflatten]
      show (if found.flatten.isEmpty = true then _ else _) = _
      split
      · next hempty =>
        rw [List.isEmpty_iff.1 hempty, hcs, extendPicks_nil]
        rfl
      · rfl
    · rintro ⟨_, _, ks', es', ⟨i, e, ks, hi, rfl, hpick⟩, hrest, rfl, rfl⟩
      rw [Nat.zero_add]
      exact .node hi hpick hrest
    · rintro (_ | _ | _ | ⟨member, first, rest⟩)
      exact ⟨_, _, _, _, ⟨_, _, _, member, by rw [Nat.zero_add], first⟩, rest, rfl, rfl⟩

end

/-- The bindings of an expression are found each once, in the lexicographic order of the positions by which they are
chosen, and there are no others. -/
theorem bindings_in_order [Quantity Q] (hm : Memo.Attempted m) {p : Pattern Op} (hkind : p.isWildcard = false)
    (hp : p.manyLast = true) {e : ExprId} {entry : Entry Op Q} (he : m.exprs[e]? = some entry) :
    ∃ cs : List (List Nat × List ExprId), p.bindings m e = .ok (cs.map Prod.snd) ∧ (cs.map Prod.snd).Nodup ∧
      cs.Pairwise (fun c c' => List.Lex (· < ·) c.1 c'.1) ∧ ∀ ks es, (ks, es) ∈ cs ↔ Picks m p e ks es := by
  cases p with
  | any | anyMany => cases hkind
  | node test ps =>
    obtain ⟨cs, hcs, hlists⟩ := bindings_choices hm.tidy.sound test ps hp he
    refine ⟨cs, hcs, List.pairwise_map.2 ?_, hlists.ordered, hlists.mem_iff⟩
    refine hlists.ordered.imp_of_mem fun {c c'} hc hc' hlt heq => ?_
    have hpick := (hlists.mem_iff _ _).1 hc
    rw [heq] at hpick
    have hks := hpick.unique hm.tidy.sound ((hlists.mem_iff _ _).1 hc')
    rw [hks] at hlt
    exact List.lex_irrefl Nat.lt_irrefl _ hlt

section SmallHost

open SmallHost Relational Memo

/-- A physical filter over a logical one over a table. -/
def filteredTable : Pattern Kind :=
  .node (.exactly .physicalFilter) [.node (.exactly .filter) [.node (.exactly .scan) []]]

set_option maxRecDepth 100000 in
theorem filteredTable_bindings : (drifted.exprs[(⟨20⟩ : ExprId)]?.isSome, filteredTable.bindings drifted ⟨20⟩) =
    (true, .ok [[⟨20⟩, ⟨5⟩, ⟨0⟩], [⟨20⟩, ⟨5⟩, ⟨2⟩], [⟨20⟩, ⟨7⟩, ⟨0⟩], [⟨20⟩, ⟨7⟩, ⟨2⟩]]) := by
  cbv

/-- Two filters over two tables, each with the other in one group, are bound in four ways, the tables in turn under each
filter. -/
theorem filteredTable_in_order : Attempted drifted ∧ filteredTable.isWildcard = false ∧ filteredTable.manyLast = true ∧
    ∃ (entry : Entry Kind Nat) (cs : List (List Nat × List ExprId)), drifted.exprs[(⟨20⟩ : ExprId)]? = some entry ∧
      cs.map Prod.snd = [[⟨20⟩, ⟨5⟩, ⟨0⟩], [⟨20⟩, ⟨5⟩, ⟨2⟩], [⟨20⟩, ⟨7⟩, ⟨0⟩], [⟨20⟩, ⟨7⟩, ⟨2⟩]] ∧
      cs.Pairwise (fun c c' => List.Lex (· < ·) c.1 c'.1) ∧
      ∀ ks es, (ks, es) ∈ cs ↔ Picks drifted filteredTable ⟨20⟩ ks es := by
  obtain ⟨hlive, hbindings⟩ := Prod.mk.inj filteredTable_bindings
  obtain ⟨entry, hentry⟩ := Option.isSome_iff_exists.1 hlive
  obtain ⟨cs, hcs, -, hordered, hmem⟩ : ∃ cs : List (List Nat × List ExprId), filteredTable.bindings drifted ⟨20⟩ =
      .ok (cs.map Prod.snd) ∧ _ := bindings_in_order drifted_reached.attempted rfl rfl hentry
  have hfound := Except.ok.inj (hcs.symm.trans hbindings)
  exact ⟨drifted_reached.attempted, rfl, rfl, entry, cs, hentry, hfound, hordered, hmem⟩

end SmallHost

end Pattern

end PlanSearch
