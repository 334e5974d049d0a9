import Mathlib.Data.Set.List
import PlanSearch.Relational.Kind
import PlanSearch.Trait.Kind

/-!
# What enforcers carry

A sort carries the order that it produces as its parameter, and an exchange the distribution. Nothing is lost on the way:
what is written is read back, and nothing is read but what is written, down to every key of an order and every field of
a key. Values that are the same are read alike, so that enforcers of different requirements are never congruent.

    Lossless Collation.toValue Collation.ofValue? IsOrder                            (Collation.lossless)
    Lossless Distribution.toValue Distribution.ofValue? IsSpread                     (Distribution.lossless)
    k.enforce e = some n → what n carries is read as the requirement of e            (TraitKind.parameters_lossless)
-/

namespace PlanSearch

namespace Value

/-! ## Forms -/

/-- A list of column, whether descending, and whether nulls come first. -/
def IsSortKey (v : Value) : Prop := ∃ column desc nullsFirst, v = .list [.u64 column, .bool desc, .bool nullsFirst]

/-- A list of sort keys. -/
def IsOrder (v : Value) : Prop := ∃ keys, v = .list keys ∧ ∀ key ∈ keys, key.IsSortKey

/-- The name of a distribution without columns, or a list of columns. -/
def IsSpread (v : Value) : Prop :=
  (∃ name ∈ ["any", "singleton", "broadcast", "round_robin"], v = .string name) ∨
    ∃ columns, v = .list columns ∧ ∀ column ∈ columns, ∃ n, column = .u64 n

/-! ## Canonical forms without floating point numbers -/

theorem canonAll_eq_map (vs : List Value) : canonAll vs = vs.map canon := by
  induction vs with
  | nil => rfl
  | cons v vs ih => rw [canonAll, ih, List.map_cons]

theorem canon_eq_u64 {v : Value} {n : UInt64} : v.canon = .u64 n ↔ v = .u64 n := by
  cases v <;> simp [canon]

theorem canon_eq_bool {v : Value} {b : Bool} : v.canon = .bool b ↔ v = .bool b := by
  cases v <;> simp [canon]

theorem canon_eq_string {v : Value} {s : String} : v.canon = .string s ↔ v = .string s := by
  cases v <;> simp [canon]

theorem canon_eq_list {v : Value} {ws : List Value} : v.canon = .list ws ↔ ∃ vs, v = .list vs ∧ vs.map canon = ws := by
  cases v <;> simp [canon, canonAll_eq_map]

/-- A list is in canonical form if its elements can be no other values than those of their canonical form. -/
theorem eq_map_of_map_canon {β : Type} {write : β → Value} (h : ∀ v b, v.canon = write b → v = write b) :
    ∀ {vs : List Value} {bs : List β}, vs.map canon = bs.map write → vs = bs.map write
  | [], bs, heq => heq
  | v :: vs, [], heq => by cases heq
  | v :: vs, b :: bs, heq => by
    obtain ⟨hv, hvs⟩ := List.cons.inj heq
    rw [List.map_cons, h v b hv, eq_map_of_map_canon h hvs]

end Value

open Value

/-! ## Reading what was written -/

/-- What is written is read back, and nothing else is read, which are the values of one form. -/
structure Lossless {β : Type} (write : β → Value) (read? : Value → Option β) (form : Value → Prop) : Prop where
  read_write : ∀ b, read? (write b) = some b
  write_read : ∀ v b, read? v = some b → write b = v
  reads : ∀ v, (read? v).isSome ↔ form v
  same : ∀ v w, v.Same w → read? v = read? w

theorem Lossless.of {β : Type} {write : β → Value} {read? : Value → Option β} {form : Value → Prop}
    (h : ∀ v b, read? v = some b ↔ write b = v) (hform : ∀ v, form v ↔ ∃ b, write b = v)
    (hexact : ∀ v b, v.canon = (write b).canon → v = write b) : Lossless write read? form where
  read_write b := (h _ b).2 rfl
  write_read v b := (h v b).1
  reads v := by
    rw [hform, Option.isSome_iff_exists]
    exact exists_congr fun b => h v b
  same v w hsame := by
    have hread : ∀ {v w : Value}, v.Same w → ∀ b, read? v = some b → read? w = some b := by
      intro v w hsame b hb
      have hw : w.canon = (write b).canon := hsame.symm.trans (congrArg canon ((h v b).1 hb).symm)
      exact (h w b).2 (hexact w b hw).symm
    exact Option.ext fun b => ⟨hread hsame b, hread hsame.symm b⟩

/-- A list has elements of one form if these were written one by one. -/
theorem forall_mem_iff_exists_map {β : Type} {write : β → Value} {form : Value → Prop}
    (h : ∀ v, form v ↔ ∃ b, write b = v) (vs : List Value) : (∀ v ∈ vs, form v) ↔ ∃ bs : List β, bs.map write = vs := by
  rw [← Set.mem_range, Set.range_list_map, Set.mem_ofPred_eq]
  exact forall₂_congr fun v _ => h v

namespace SortKey

theorem isSortKey_iff (v : Value) : v.IsSortKey ↔ ∃ k : SortKey, k.toValue = v := by
  constructor
  · rintro ⟨column, desc, nullsFirst, rfl⟩
    refine ⟨⟨column, if desc then .desc else .asc, nullsFirst⟩, ?_⟩
    cases desc <;> rfl
  · rintro ⟨k, rfl⟩
    exact ⟨_, _, _, rfl⟩

theorem canon_toValue (k : SortKey) : k.toValue.canon = k.toValue := rfl

theorem eq_toValue_of_canon (v : Value) (k : SortKey) (h : v.canon = k.toValue) : v = k.toValue := by
  obtain ⟨fields, rfl, hfields⟩ := canon_eq_list.1 h
  simp only [List.map_eq_cons_iff, List.map_eq_nil_iff, canon_eq_u64, canon_eq_bool] at hfields
  obtain ⟨_, _, rfl, rfl, _, _, rfl, rfl, _, _, rfl, rfl, rfl⟩ := hfields
  rfl

end SortKey

/-- Orders are read as they were written, from lists of sort keys. -/
theorem Collation.lossless : Lossless toValue ofValue? IsOrder := by
  refine .of (fun v c => ofValue?_eq_some_iff) (fun v => ?_) fun v c h => ?_
  · constructor
    · rintro ⟨keys, rfl, hkeys⟩
      obtain ⟨ks, rfl⟩ := (forall_mem_iff_exists_map SortKey.isSortKey_iff keys).1 hkeys
      exact ⟨⟨ks⟩, rfl⟩
    · rintro ⟨c, rfl⟩
      exact ⟨_, rfl, (forall_mem_iff_exists_map SortKey.isSortKey_iff _).2 ⟨c.keys, rfl⟩⟩
  · have hcanon : c.toValue.canon = c.toValue := by
      simp only [toValue, canon, canonAll_eq_map, List.map_map, Function.comp_def, SortKey.canon_toValue]
    obtain ⟨keys, rfl, hkeys⟩ := canon_eq_list.1 (h.trans hcanon)
    exact congrArg Value.list (eq_map_of_map_canon SortKey.eq_toValue_of_canon hkeys)

/-- Distributions are read as they were written, from their names and from lists of columns. -/
theorem Distribution.lossless : Lossless toValue ofValue? IsSpread := by
  have hcolumn : ∀ v, (∃ n, v = .u64 n) ↔ ∃ n, Value.u64 n = v := fun v => exists_congr fun n => eq_comm
  refine .of (fun v d => ofValue?_eq_some_iff) (fun v => ?_) fun v d h => ?_
  · constructor
    · rintro (⟨name, hname, rfl⟩ | ⟨columns, rfl, hcolumns⟩)
      · simp only [List.mem_cons, List.not_mem_nil, or_false] at hname
        rcases hname with rfl | rfl | rfl | rfl
        · exact ⟨.any, rfl⟩
        · exact ⟨.singleton, rfl⟩
        · exact ⟨.broadcast, rfl⟩
        · exact ⟨.roundRobin, rfl⟩
      · obtain ⟨ns, rfl⟩ := (forall_mem_iff_exists_map hcolumn columns).1 hcolumns
        exact ⟨.hash ns, rfl⟩
    · rintro ⟨d, rfl⟩
      cases d with
      | hash ns => exact .inr ⟨_, rfl, (forall_mem_iff_exists_map hcolumn _).2 ⟨ns, rfl⟩⟩
      | _ => exact .inl ⟨_, by simp, rfl⟩
  · cases d with
    | hash ns =>
      have hcanon : (hash ns).toValue.canon = (hash ns).toValue := by
        simp only [toValue, canon, canonAll_eq_map, List.map_map, Function.comp_def]
      obtain ⟨columns, rfl, hcolumns⟩ := canon_eq_list.1 (h.trans hcanon)
      exact congrArg Value.list (eq_map_of_map_canon (fun _ _ => canon_eq_u64.1) hcolumns)
    | _ => exact canon_eq_string.1 h

/-! ## Enforcers -/

namespace TraitKind

variable {Op : Type}

/-- What a node carries is read as the requirement. -/
def Carries (n : PlanNode Op) : Trait → Prop
  | .collation c => n.head.data.bind Collation.ofValue? = some c
  | .distribution d => n.head.data.bind Distribution.ofValue? = some d
  | _ => True

/-- Whatever kind builds an enforcer of an order or of a distribution, the enforcer carries it. -/
theorem enforce_carries {k : TraitKind Op} {e : Enforcement} {n : PlanNode Op} (h : k.enforce e = some n) :
    Carries n e.required := by
  obtain ⟨input, rowType, output, actual, required⟩ := e
  cases required with
  | collation c =>
    cases k with
    | collation sort =>
      obtain ⟨op, -, rfl⟩ := Option.map_eq_some_iff.1 h
      exact Collation.lossless.read_write c
    | convention converters => cases actual with
      | convention a => cases a <;> cases h
      | _ => cases h
    | _ => cases h
  | distribution d =>
    cases k with
    | distribution exchange =>
      obtain ⟨op, -, rfl⟩ := Option.map_eq_some_iff.1 h
      exact Distribution.lossless.read_write d
    | convention converters => cases actual with
      | convention a => cases a <;> cases h
      | _ => cases h
    | _ => cases h
  | _ => trivial

/-- Orders and distributions are written without loss, and read back from what was written only. So an enforcer that
delivers one tells which. -/
theorem parameters_lossless : Lossless Collation.toValue Collation.ofValue? IsOrder ∧
    Lossless Distribution.toValue Distribution.ofValue? IsSpread ∧
    ∀ (k : TraitKind Op) (e : Enforcement) (n : PlanNode Op), k.enforce e = some n → Carries n e.required :=
  ⟨Collation.lossless, Distribution.lossless, fun _ _ _ => enforce_carries⟩

/-- By the fourth column, falling and with nulls first, then by the first one. -/
def falling : Collation := ⟨[⟨3, .desc, true⟩, ⟨0, .asc, false⟩]⟩

/-- Rows without an order are to be sorted. -/
def byFalling : Enforcement where
  input := ⟨⟨1⟩, ⟨[.collation ⟨[]⟩]⟩⟩
  rowType := ⟨[]⟩
  output := ⟨[.collation falling]⟩
  actual := .collation ⟨[]⟩
  required := .collation falling

/-- Both keys are read back, nothing is read from a key with a signed column or one with a field less, and a sort by them
carries them. -/
theorem falling_lossless : Collation.ofValue? falling.toValue = some falling ∧
    Collation.ofValue? (.list [.list [.i64 0, .bool false, .bool false]]) = none ∧
    Collation.ofValue? (.list [.list [.u64 0, .bool false]]) = none ∧
    ∃ n, (collation (some Relational.Kind.sort)).enforce byFalling = some n ∧ Carries n (.collation falling) := by
  obtain ⟨horder, -, hcarries⟩ := @parameters_lossless Relational.Kind
  have hmalformed : ∀ v : Value, ¬ v.IsOrder → Collation.ofValue? v = none := fun v hv =>
    Option.not_isSome_iff_eq_none.1 (mt (horder.reads v).1 hv)
  refine ⟨horder.read_write falling, hmalformed _ ?_, hmalformed _ ?_, _, rfl,
    hcarries (collation (some .sort)) byFalling _ rfl⟩
  all_goals
    rintro ⟨keys, h, hkeys⟩
    cases h
    obtain ⟨_, _, _, hkey⟩ := hkeys _ List.mem_cons_self
    cases hkey

end TraitKind

end PlanSearch
