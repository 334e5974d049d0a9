import PlanSearch.Decimal

/-!
# Values

The parameters of an operator: numbers, text, truth values, lists and opaque bytes. Two values are
the same when they agree after the floating point numbers in them have been brought to their
canonical form, so a zero is the same with either sign but is still shown with its own.

    Value.Same v w ↔ v.canon = w.canon       (by definition; decidable)
-/

namespace PlanSearch

/-- A parameter of an operator. -/
inductive Value where
  | u64 (n : UInt64)
  | i64 (n : Int64)
  | float (x : Binary64)
  | string (s : String)
  | bool (b : Bool)
  | list (vs : List Value)
  | bytes (bs : List UInt8)

namespace Value

/-! ## Equality -/

mutual

/-- Structural equality; the two zeros differ. -/
def beq : Value → Value → Bool
  | u64 a, u64 b => a == b
  | i64 a, i64 b => a == b
  | float a, float b => a == b
  | string a, string b => a == b
  | bool a, bool b => a == b
  | list a, list b => beqAll a b
  | bytes a, bytes b => a == b
  | _, _ => false

/-- Structural equality of lists. -/
def beqAll : List Value → List Value → Bool
  | [], [] => true
  | v :: vs, w :: ws => v.beq w && beqAll vs ws
  | _, _ => false

end

mutual

theorem eq_of_beq : ∀ {v w : Value}, v.beq w = true → v = w
  | u64 _, w, h | i64 _, w, h | float _, w, h | string _, w, h | bool _, w, h | bytes _, w, h => by
    cases w <;> simp_all [beq]
  | list vs, w, h => by
    cases w <;> simp only [beq, Bool.false_eq_true] at h
    exact congrArg list (eq_of_beqAll h)

theorem eq_of_beqAll : ∀ {vs ws : List Value}, beqAll vs ws = true → vs = ws
  | [], [], _ => rfl
  | [], _ :: _, h | _ :: _, [], h => by simp [beqAll] at h
  | v :: vs, w :: ws, h => by
    simp only [beqAll, Bool.and_eq_true] at h
    rw [eq_of_beq h.1, eq_of_beqAll h.2]

end

mutual

theorem beq_refl : ∀ v : Value, v.beq v = true
  | u64 _ | i64 _ | float _ | string _ | bool _ | bytes _ => by simp [beq]
  | list vs => by simp only [beq]; exact beqAll_refl vs

theorem beqAll_refl : ∀ vs : List Value, beqAll vs vs = true
  | [] => rfl
  | v :: vs => by simp only [beqAll, beq_refl v, beqAll_refl vs, Bool.and_self]

end

instance : DecidableEq Value := fun v w =>
  if h : v.beq w = true then .isTrue (eq_of_beq h)
  else .isFalse fun e => h (e ▸ beq_refl v)

mutual

/-- The value with every floating point number in canonical form. -/
def canon : Value → Value
  | float x => float x.canon
  | list vs => list (canonAll vs)
  | v => v

/-- Every value in canonical form. -/
def canonAll : List Value → List Value
  | [] => []
  | v :: vs => v.canon :: canonAll vs

end

/-- Agreement up to the sign of zeros and the bits of what is not a number. -/
def Same (v w : Value) : Prop := v.canon = w.canon

instance (v w : Value) : Decidable (Same v w) := inferInstanceAs (Decidable (v.canon = w.canon))

/-! ## Text -/

mutual

/-- Numbers name their type, text is quoted as it stands, bytes show their count only. -/
def text : Value → String
  | u64 n => toString n ++ "(u64)"
  | i64 n => toString n ++ "(i64)"
  | float x => x.text ++ "(float)"
  | string s => "\"" ++ s ++ "\""
  | bool b => toString b
  | list vs => "[" ++ ", ".intercalate (textAll vs) ++ "]"
  | bytes bs => "<len:" ++ toString bs.length ++ ">"

/-- The texts of several values. -/
def textAll : List Value → List String
  | [] => []
  | v :: vs => v.text :: textAll vs

end

/-! ## Reading a value as one kind -/

/-- The kinds that a value can be read as. -/
inductive Kind where
  | u64
  | i64
  | f64
  | bool
  | string
  | list
deriving DecidableEq

/-- What is said of a value that is not of the kind it was read as. -/
def Kind.complaint : Kind → String
  | u64 => "Value is not an u64"
  | i64 => "Value is not an i64"
  | f64 => "Value is not an f64"
  | bool => "Value is not a bool"
  | string => "Value is not a string"
  | list => "Value is not a list"

/-- The value as an unsigned number. -/
def asU64 : Value → Except Kind UInt64
  | u64 n => .ok n
  | _ => .error .u64

/-- The value as a signed number. -/
def asI64 : Value → Except Kind Int64
  | i64 n => .ok n
  | _ => .error .i64

/-- The value as a floating point number. -/
def asFloat : Value → Except Kind Binary64
  | float x => .ok x
  | _ => .error .f64

/-- The value as a truth value. -/
def asBool : Value → Except Kind Bool
  | bool b => .ok b
  | _ => .error .bool

/-- The value as text. -/
def asString : Value → Except Kind String
  | string s => .ok s
  | _ => .error .string

/-- The value as a list. -/
def asList : Value → Except Kind (List Value)
  | list vs => .ok vs
  | _ => .error .list

/-! ## Lemmas -/

mutual

theorem canon_canon : ∀ v : Value, v.canon.canon = v.canon
  | u64 _ | i64 _ | string _ | bool _ | bytes _ => rfl
  | float x => by simp only [canon, Binary64.canon_canon]
  | list vs => by simp only [canon, canonAll_canonAll vs]

theorem canonAll_canonAll : ∀ vs : List Value, canonAll (canonAll vs) = canonAll vs
  | [] => rfl
  | v :: vs => by simp only [canonAll, canon_canon v, canonAll_canonAll vs]

end

theorem same_refl (v : Value) : Same v v := rfl

theorem Same.symm {v w : Value} (h : Same v w) : Same w v := Eq.symm h

theorem Same.trans {u v w : Value} (h : Same u v) (k : Same v w) : Same u w := Eq.trans h k

theorem same_canon (v : Value) : Same v.canon v := canon_canon v

end Value

/-- Agreement of optional parameters: both absent, or both present and the same. -/
def Value.SameOption (v w : Option Value) : Prop := v.map Value.canon = w.map Value.canon

instance (v w : Option Value) : Decidable (Value.SameOption v w) :=
  inferInstanceAs (Decidable (v.map Value.canon = w.map Value.canon))

end PlanSearch
