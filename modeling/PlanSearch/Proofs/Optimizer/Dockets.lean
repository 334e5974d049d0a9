import PlanSearch.Proofs.Optimizer.Advance
import PlanSearch.Proofs.Optimizer.Plain

/-!
# What an optimizer works without looking at

How many matches may fire, how many have fired, and what is required of the root: seeding, firing and settling look at
none of these, nor at how much fuel there is, as long as it lasts. So whatever succeeds under one docket is done in the
same way under every other, and leaves the docket alone but for the match that fires. Only the search itself looks at
its docket, between one match and the next.

    x.Blind → x o = .ok a o' → o'.docket = o.docket                                           (Action.Blind.docket)
    fuel ≤ fuel' → (settle fuel).Repeats (settle fuel')                                                (repeats_settle)
    a match is dealt with under two dockets → both go on in the same way                              (dispatch_agree)
-/

namespace PlanSearch

variable {Op Q α β : Type}

theorem run_modify_bind {ε σ β : Type} (g : σ → σ) (f : PUnit → EStateM ε σ β) (s : σ) :
    ((modify g : EStateM ε σ PUnit) >>= f) s = f ⟨⟩ (g s) := rfl

/-- How many matches may fire, how many have fired, and what the search is for. -/
structure Docket where
  limit : Option Nat
  fired : Nat
  root : Option SubGroupRef

/-- One more match has fired, or as many as before. -/
def Docket.after (d : Docket) (fires : Bool) : Docket := if fires then { d with fired := d.fired + 1 } else d

/-- The docket with another limit. -/
def Docket.upTo (d : Docket) (n : Nat) : Docket := { d with limit := some n }

theorem Docket.upTo_after (d : Docket) (n : Nat) (fires : Bool) : (d.upTo n).after fires = (d.after fires).upTo n := by
  cases fires <;> rfl

namespace Optimizer

/-- The docket that an optimizer goes by. -/
def docket (o : Optimizer Op Q) : Docket := ⟨o.options.iterationBudget, o.steps, o.root⟩

/-- The same optimizer with another docket. -/
def under (o : Optimizer Op Q) (d : Docket) : Optimizer Op Q :=
  { o with options := { o.options with iterationBudget := d.limit }, steps := d.fired, root := d.root }

theorem under_docket (o : Optimizer Op Q) : o.under o.docket = o := rfl

theorem alike_under (o : Optimizer Op Q) (d : Docket) : o.Alike (o.under d) :=
  .intro o.removed o.disabled d.limit d.fired d.root (fun _ => rfl) fun _ => rfl

theorem withEvent_under (o : Optimizer Op Q) (e : Event Q) (d : Docket) :
    (o.under d).withEvent e = (o.withEvent e).under d := by
  unfold withEvent
  show (if o.options.tracing = true then _ else _) = _
  split <;> rfl

end Optimizer

namespace Action

/-- Where the first action succeeds, the second does the same, under every docket. -/
def Repeats (x x' : Action Op Q α) : Prop :=
  ∀ ⦃o a o'⦄, x o = .ok a o' → ∀ d, x' (o.under d) = .ok a (o'.under d)

/-- The action does not look at its docket. -/
abbrev Blind (x : Action Op Q α) : Prop := x.Repeats x

/-- What does not look at its docket leaves it as it is. -/
theorem Blind.docket {x : Action Op Q α} (h : x.Blind) {o o' : Optimizer Op Q} {a : α} (ok : x o = .ok a o') :
    o'.docket = o.docket := by
  have hown := h ok o.docket
  rw [o.under_docket, ok] at hown
  obtain ⟨-, hself⟩ := EStateM.Result.ok.inj hown
  rw [hself]
  rfl

theorem read_of_ok {f : Optimizer Op Q → Except Failure α} {o : Optimizer Op Q} {a : α} (h : f o = .ok a) :
    Action.read f o = .ok a o := by
  unfold Action.read
  rw [h]

theorem Repeats.bind {x x' : Action Op Q α} {f f' : α → Action Op Q β} (hx : x.Repeats x')
    (hf : ∀ a, (f a).Repeats (f' a)) : (x >>= f).Repeats (x' >>= f') := by
  intro o b o' h d
  obtain ⟨a, o₁, h₁, h₂⟩ := run_bind_eq_ok h
  rw [run_bind_of_ok (hx h₁ d)]
  exact hf a h₂ d

theorem Repeats.get_bind {f f' : Optimizer Op Q → Action Op Q β} (blind : ∀ o d, f' (o.under d) = f' o)
    (rest : ∀ o, (f o).Repeats (f' o)) : (get >>= f : Action Op Q β).Repeats (get >>= f') := by
  intro o b o' h d
  rw [run_get_bind, blind]
  exact rest o (run_get_bind_eq_ok h) d

theorem blind_pure (a : α) : (pure a : Action Op Q α).Blind := by
  intro o b o' h d
  cases h
  rfl

theorem repeats_throw (e : Stop) (x : Action Op Q α) : (throw e : Action Op Q α).Repeats x :=
  fun _ _ _ h => by cases h

theorem blind_modify {f : Optimizer Op Q → Optimizer Op Q} (same : ∀ o d, f (o.under d) = (f o).under d) :
    (modify f : Action Op Q PUnit).Blind := by
  intro o u o' h d
  cases h
  show EStateM.Result.ok _ (f (o.under d)) = _
  rw [same]

theorem blind_read {f : Optimizer Op Q → Except Failure α} (blind : ∀ o d, f (o.under d) = f o) :
    (Action.read f).Blind := by
  rw [Action.read_eq_get_bind]
  refine .get_bind (fun o d => by rw [blind]) fun o => ?_
  split
  · exact blind_pure _
  · exact repeats_throw _ _

theorem blind_onMemoAt (site : Option RuleSite) (u : Update Op Q α) : (Action.onMemoAt site u).Blind := by
  intro o a o' h d
  obtain ⟨m, hm, rfl⟩ := Action.onMemoAt_eq_ok h
  have hm' : u (o.under d).memo = .ok a m := hm
  unfold Action.onMemoAt
  rw [hm']
  rfl

theorem Noting.under {f : Optimizer Op Q → Optimizer Op Q} (h : Noting f) (o : Optimizer Op Q) (d : Docket) :
    f (o.under d) = (f o).under d := by
  cases h with
  | record e => exact o.withEvent_under e d
  | _ => rfl

variable [Operator Op] [Quantity Q]

/-- What is routine does not look at the docket. -/
theorem Routine.blind {x : Action Op Q α} (h : x.Routine) : x.Blind := by
  induction h with
  | pure a => exact blind_pure a
  | throw _ => exact repeats_throw _ _
  | bind _ _ first rest => exact first.bind rest
  | look blind _ rest => exact .get_bind (fun o d => blind o _ (o.alike_under d)) rest
  | note noting => exact blind_modify noting.under
  | call site _ => exact blind_onMemoAt site _

end Action

namespace Optimizer

open PlanSearch.Action

variable [Operator Op] [Quantity Q]

/-! ## Settling -/

/-- Settling does not look at what fuel there is, as long as it lasts. -/
theorem repeats_settle : ∀ {fuel fuel' : Nat}, fuel ≤ fuel' →
    (settle fuel : Action Op Q Unit).Repeats (settle fuel')
  | 0, _, _ => repeats_throw _ _
  | fuel + 1, fuel', h => by
    obtain ⟨fuel', rfl⟩ := Nat.exists_eq_add_of_le' (Nat.le_of_add_left_le h)
    refine routine_takeChanges.blind.bind fun c => ?_
    split
    · exact blind_read fun _ _ => rfl
    · exact (routine_settleRound c).blind.bind fun _ => repeats_settle (Nat.le_of_add_le_add_right h)

/-! ## Firing -/

/-- Firing counts one match, and does all else under every docket alike. -/
theorem fire_under {fuel fuel' : Nat} (hfuel : fuel ≤ fuel') {x : Match} {o o' : Optimizer Op Q}
    (ok : fire fuel x o = .ok () o') (d : Docket) : fire fuel' x (o.under d) = .ok () (o'.under (d.after true)) := by
  obtain ⟨rule, hrule, ok⟩ := Action.read_bind_eq_ok ok
  rw [fire, run_bind_of_ok (Action.read_of_ok (show (o.under d).getRule x.rule = .ok rule from hrule))]
  cases hx : x.exprs with
  | nil =>
    rw [hx] at ok
    cases ok
  | cons root es =>
    simp only [hx] at ok ⊢
    obtain ⟨g, hg, ok⟩ := Action.read_bind_eq_ok ok
    obtain ⟨n, hn, ok⟩ := Action.read_bind_eq_ok ok
    rw [run_bind_of_ok (Action.read_of_ok (show (o.under d).memo.groupOf root = .ok g from hg)),
      run_bind_of_ok (Action.read_of_ok
        (show rule.pattern.planOfBinding (o.under d).memo (root :: es) = .ok n from hn))]
    -- what comes after the match is counted is blind
    obtain ⟨_, o₁, hcount, ok⟩ := run_bind_eq_ok (run_modify_bind_eq_ok ok)
    have ok := run_get_bind_eq_ok ok
    rw [run_modify_bind]
    refine (run_bind_of_ok ((routine_count _).blind hcount (d.after true))).trans ?_
    rw [run_get_bind, show (o₁.under (d.after true)).memo = o₁.memo from rfl]
    cases happly : rule.apply o₁.memo n with
    | error f =>
      rw [happly] at ok
      cases ok
    | ok outputs =>
      simp only [happly] at ok ⊢
      exact Repeats.bind (routine_mapM fun p => routine_produce rule n g p).blind (fun _ =>
        (routine_record _).blind.bind fun _ => repeats_settle hfuel) ok (d.after true)

/-! ## Turns -/

theorem blind_exhaust (b : Budget) : (exhaust b : Action Op Q Unit).Blind := by
  refine (blind_modify fun _ _ => rfl).bind fun _ => (routine_record _).blind.bind fun _ => ?_
  refine .get_bind (fun _ _ => rfl) fun o => ?_
  split
  · exact repeats_throw _ _
  · exact blind_pure _

/-- A match is dealt with under every docket alike. -/
theorem dispatchLogged_under {fuel fuel' : Nat} (hfuel : fuel ≤ fuel') {x : Match} {fires : Bool}
    {o o' : Optimizer Op Q} (ok : dispatchLogged fuel x o = .ok fires o') (d : Docket) :
    dispatchLogged fuel' x (o.under d) = .ok fires (o'.under (d.after fires)) := by
  have ok := run_get_bind_eq_ok ok
  rw [dispatchLogged, run_get_bind]
  show (if o.removed.contains x.rule = true then _ else _ : Action Op Q Bool) _ = _
  split at ok
  · next hremoved =>
    obtain ⟨rfl, rfl⟩ := run_pure_eq_ok ok
    rw [if_pos hremoved]
    rfl
  · next hremoved =>
    rw [if_neg hremoved]
    show (if o.disabled.contains x.rule = true then _ else _ : Action Op Q Bool) _ = _
    split at ok
    · next hdisabled =>
      have ok := Action.set_bind_eq_ok ok
      obtain ⟨rfl, rfl⟩ := run_pure_eq_ok ok
      rw [if_pos hdisabled]
      rfl
    · next hdisabled =>
      obtain ⟨rule, hrule, ok⟩ := Action.read_bind_eq_ok ok
      rw [if_neg hdisabled, run_bind_of_ok (Action.read_of_ok (show (o.under d).getRule x.rule = .ok rule from hrule))]
      show (if (!rule.isImplementation && o.isPlanSpaceSpent) = true then _ else _ : Action Op Q Bool) _ = _
      split at ok
      · next hfull =>
        rw [if_pos hfull]
        show (if (!o.budgetExhausted) = true then _ else _ : Action Op Q Bool) _ = _
        split at ok
        · next hfirst =>
          obtain ⟨_, o₁, h₁, ok⟩ := run_bind_eq_ok ok
          obtain ⟨rfl, rfl⟩ := run_pure_eq_ok ok
          rw [if_pos hfirst, run_bind_of_ok (blind_exhaust _ h₁ d)]
          rfl
        · next hfirst =>
          obtain ⟨rfl, rfl⟩ := run_pure_eq_ok ok
          rw [if_neg hfirst]
          rfl
      · next hfull =>
        obtain ⟨_, o₁, h₁, ok⟩ := run_bind_eq_ok ok
        obtain ⟨rfl, rfl⟩ := run_pure_eq_ok ok
        rw [if_neg hfull, run_bind_of_ok (fire_under hfuel h₁ d)]
        rfl

/-! ## Seeding -/

/-- A plan is entered under every docket alike, and it is entered as what the search is for. -/
theorem seed_under {fuel fuel' : Nat} (hfuel : fuel ≤ fuel') {plan : PlanNode Op} {required : TraitSet} {g : GroupId}
    {o o' : Optimizer Op Q} (ok : seed fuel plan required o = .ok g o') (d : Docket) :
    seed fuel' plan required (o.under d) = .ok g (o'.under { d with root := o'.root }) := by
  have ok := run_get_bind_eq_ok ok
  rw [seed, run_get_bind]
  show (if o.phase ≠ .idle then _ else _ : Action Op Q GroupId) _ = _
  split at ok
  · cases ok
  · next hidle =>
    rw [if_neg hidle]
    obtain ⟨_, hcheck, ok⟩ := Action.read_bind_eq_ok ok
    obtain ⟨⟨g₀, e⟩, o₁, hadd, ok⟩ := run_bind_eq_ok (run_modify_bind_eq_ok ok)
    obtain ⟨s, o₂, hensure, ok⟩ := run_bind_eq_ok ok
    obtain ⟨_, o₃, hsettle, ok⟩ := run_bind_eq_ok (run_modify_bind_eq_ok ok)
    have ok := run_get_bind_eq_ok (run_modify_bind_eq_ok ok)
    obtain ⟨rfl, rfl⟩ := run_pure_eq_ok ok
    have hroot : o₃.root = some ⟨g₀, required⟩ :=
      congrArg Docket.root (Action.Blind.docket (repeats_settle le_rfl) hsettle)
    rw [run_bind_of_ok (Action.read_of_ok (show (o.under d).memo.checkTraits required = .ok _ from hcheck)),
      run_modify_bind]
    refine (run_bind_of_ok (blind_onMemoAt none _ hadd d)).trans ?_
    refine (run_bind_of_ok (blind_onMemoAt none _ hensure d)).trans ?_
    refine (run_bind_of_ok (repeats_settle hfuel hsettle { d with root := some ⟨g₀, required⟩ })).trans ?_
    rw [← hroot]
    rfl

/-! ## Two dockets -/

omit [Operator Op] [Quantity Q] in
/-- What does the same under every docket, and whatever the fuel is, ends in the same way under two dockets, if it
succeeds under both. -/
theorem agree_of_under (x : Nat → Action Op Q α) (next : Docket → α → Option SubGroupRef → Docket)
    (hx : ∀ {fuel fuel' : Nat}, fuel ≤ fuel' → ∀ {o o' : Optimizer Op Q} {a : α}, x fuel o = .ok a o' → ∀ d,
      x fuel' (o.under d) = .ok a (o'.under (next d a o'.root)))
    {fuel fuel' : Nat} {o o₁ o₂ : Optimizer Op Q} {d e : Docket} {a a' : α}
    (ok : x fuel (o.under d) = .ok a o₁) (ok' : x fuel' (o.under e) = .ok a' o₂) :
    a' = a ∧ ∃ (o' : Optimizer Op Q) (root : Option SubGroupRef),
      o₁ = o'.under (next d a root) ∧ o₂ = o'.under (next e a root) := by
  rcases le_total fuel fuel' with h | h
  · obtain ⟨rfl, h₂⟩ := EStateM.Result.ok.inj (ok'.symm.trans (hx h ok e))
    obtain ⟨-, h₁⟩ := EStateM.Result.ok.inj (ok.symm.trans (hx le_rfl ok d))
    exact ⟨rfl, o₁, o₁.root, h₁, h₂⟩
  · obtain ⟨rfl, h₁⟩ := EStateM.Result.ok.inj (ok.symm.trans (hx h ok' d))
    obtain ⟨-, h₂⟩ := EStateM.Result.ok.inj (ok'.symm.trans (hx le_rfl ok' e))
    exact ⟨rfl, o₂, o₂.root, h₁, h₂⟩

/-- Matches that are dealt with under two dockets both fire or neither does. -/
theorem dispatch_agree {fuel fuel' : Nat} {x : Match} {o o₁ o₂ : Optimizer Op Q} {d e : Docket} {fires fires' : Bool}
    (ok : dispatchLogged fuel x (o.under d) = .ok fires o₁)
    (ok' : dispatchLogged fuel' x (o.under e) = .ok fires' o₂) :
    fires' = fires ∧ ∃ o' : Optimizer Op Q, o₁ = o'.under (d.after fires) ∧ o₂ = o'.under (e.after fires) := by
  obtain ⟨rfl, o', -, h₁, h₂⟩ := agree_of_under (fun fuel => dispatchLogged fuel x)
    (fun d fires _ => d.after fires) (fun h _ _ _ ok => dispatchLogged_under h ok) ok ok'
  exact ⟨rfl, o', h₁, h₂⟩

theorem seed_agree {fuel fuel' : Nat} {plan : PlanNode Op} {required : TraitSet} {g g' : GroupId}
    {o o₁ o₂ : Optimizer Op Q} {d e : Docket} (ok : seed fuel plan required (o.under d) = .ok g o₁)
    (ok' : seed fuel' plan required (o.under e) = .ok g' o₂) :
    g' = g ∧ ∃ (o' : Optimizer Op Q) (root : Option SubGroupRef),
      o₁ = o'.under { d with root := root } ∧ o₂ = o'.under { e with root := root } :=
  agree_of_under (fun fuel => seed fuel plan required) (fun d _ root => { d with root := root })
    (fun h _ _ _ ok => seed_under h ok) ok ok'

end Optimizer

end PlanSearch
