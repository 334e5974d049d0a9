import PlanSearch.Trait.Basic

/-!
# Traits as operator parameters

A sort node carries the order that it produces as its parameter, and an exchange node the
distribution. Reading accepts exactly what writing produces.

    Collation.ofValue? v = some c ↔ c.toValue = v           (Collation.ofValue?_eq_some_iff)
    Distribution.ofValue? v = some d ↔ d.toValue = v        (Distribution.ofValue?_eq_some_iff)
-/

namespace PlanSearch

/-! ## Sort keys -/

namespace SortKey

/-- A list of column, whether descending, whether nulls come first. -/
def toValue (k : SortKey) : Value :=
  .list [.u64 k.column, .bool (k.direction == .desc), .bool k.nullsFirst]

/-- The key that a list of the right form stands for. -/
def ofValue? : Value → Option SortKey
  | .list [.u64 column, .bool desc, .bool nullsFirst] =>
    some ⟨column, if desc then .desc else .asc, nullsFirst⟩
  | _ => none

theorem ofValue?_eq_some_iff {v : Value} {k : SortKey} : ofValue? v = some k ↔ k.toValue = v := by
  constructor
  · intro h
    unfold ofValue? at h
    split at h
    · next column desc nullsFirst =>
      cases h
      cases desc <;> rfl
    · cases h
  · rintro rfl
    obtain ⟨column, direction, nullsFirst⟩ := k
    cases direction <;> rfl

end SortKey

/-! ## Lists that are read element by element -/

theorem mapM_eq_some_iff {α β : Type} {read : α → Option β} {write : β → α}
    (h : ∀ a b, read a = some b ↔ write b = a) :
    ∀ (as : List α) (bs : List β), as.mapM read = some bs ↔ bs.map write = as
  | [], bs => by cases bs <;> simp
  | a :: as, bs => by
    cases bs with
    | nil => simp [Option.bind_eq_some_iff]
    | cons b bs =>
      have ih := mapM_eq_some_iff h as bs
      simp [Option.bind_eq_some_iff, ih, h]

/-! ## Collations and distributions -/

namespace Collation

/-- The list of the keys. -/
def toValue (c : Collation) : Value := .list (c.keys.map SortKey.toValue)

/-- The order that a list of keys stands for. -/
def ofValue? : Value → Option Collation
  | .list vs => (vs.mapM SortKey.ofValue?).map Collation.mk
  | _ => none

theorem ofValue?_eq_some_iff {v : Value} {c : Collation} : ofValue? v = some c ↔ c.toValue = v := by
  cases v with
  | list vs =>
    have key := mapM_eq_some_iff (fun _ _ => SortKey.ofValue?_eq_some_iff) vs c.keys
    simp only [ofValue?, toValue, Value.list.injEq, ← key, Option.map_eq_some_iff]
    constructor
    · rintro ⟨ks, h, rfl⟩; exact h
    · intro h; exact ⟨c.keys, h, rfl⟩
  | _ => simp [ofValue?, toValue]

end Collation

namespace Distribution

/-- A hash distribution is the list of its columns, any other one is its name. -/
def toValue : Distribution → Value
  | any => .string "any"
  | singleton => .string "singleton"
  | broadcast => .string "broadcast"
  | roundRobin => .string "round_robin"
  | hash columns => .list (columns.map Value.u64)

/-- A column number. -/
def column? : Value → Option UInt64
  | .u64 n => some n
  | _ => none

/-- The distribution that a name or a list of columns stands for. -/
def ofValue? : Value → Option Distribution
  | .list vs => (vs.mapM column?).map hash
  | .string name =>
    if name = "any" then some any
    else if name = "singleton" then some singleton
    else if name = "broadcast" then some broadcast
    else if name = "round_robin" then some roundRobin
    else none
  | _ => none

theorem column?_eq_some_iff {v : Value} {n : UInt64} : column? v = some n ↔ Value.u64 n = v := by
  cases v <;> simp [column?, eq_comm]

theorem ofValue?_eq_some_iff {v : Value} {d : Distribution} :
    ofValue? v = some d ↔ d.toValue = v := by
  cases v with
  | list vs =>
    simp only [ofValue?, Option.map_eq_some_iff]
    constructor
    · rintro ⟨ns, h, rfl⟩
      exact congrArg Value.list ((mapM_eq_some_iff (fun _ _ => column?_eq_some_iff) vs ns).1 h)
    · intro h
      cases d <;> simp only [toValue, reduceCtorEq, Value.list.injEq] at h
      next ns => exact ⟨ns, (mapM_eq_some_iff (fun _ _ => column?_eq_some_iff) vs ns).2 h, rfl⟩
  | string name =>
    simp only [ofValue?]
    constructor
    · intro h
      split at h
      · cases h; simp_all [toValue]
      · split at h
        · cases h; simp_all [toValue]
        · split at h
          · cases h; simp_all [toValue]
          · split at h
            · cases h; simp_all [toValue]
            · cases h
    · intro h
      cases d <;> simp only [toValue, reduceCtorEq, Value.string.injEq] at h <;> subst h <;> decide
  | _ => cases d <;> simp [ofValue?, toValue]

end Distribution

end PlanSearch
