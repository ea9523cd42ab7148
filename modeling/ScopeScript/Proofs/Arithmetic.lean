import Mathlib
import ScopeScript.Eval.Basic
import ScopeScript.Proofs.Exactness

/-!
# Operators on values

What an operator accepts, how it fails, of which class its result is and which value it is can be
told without the conversions and checks by which the operators find it out. Here the two are
brought together.

* `ArithOp.onInts_modular`: arithmetic on integers is exact modulo `2^64`.
* `Value.isNumeric` and `Value.zeros` say what a number is and which of them are zeros;
  `truthOperand_eq` and `checkOperand_eq` put the checks of operands in these terms.
* `Value.StandsForInt` and `Value.StandsForFloat` say to which numbers operands are widened.
* `ArithOp.Computes` says for each operator what it makes of the widened operands, and
  `ArithOp.reduced` what the result is made of that; `ArithOp.agrees` says when arithmetic comes
  to this.
* `LogicalOp.yieldsTruth`, `Relation.yieldsTruth`, `negateValue_eq`: operators with truth values
  for results.
* `Eval.byNegation`: conditions are decided as negation decides.

Main statement: `operators_agree_with_classes`.
-/

namespace ScopeScript

/-! ### Integers -/

/-- A power of words is the residue of the power of integers. -/
theorem toInt_pow (a : Int64) (k : Nat) : (Int64.pow a k).toInt = (a.toInt ^ k).bmod (2 ^ 64) := by
  induction k with
  | zero =>
    rw [pow_zero_word, pow_zero]
    rfl
  | succ k ih => rw [pow_succ_word, Int64.toInt_mul, ih, Int.bmod_mul_bmod, Int.pow_succ]

/-- A quotient and a remainder of words belong together, also where the quotient is too large for a
word. -/
theorem toInt_modEq_div (a b : Int64) : a.toInt ≡ (a / b).toInt * b.toInt + (a % b).toInt
    [ZMOD 2 ^ 64] := by
  have hquotient : (a / b).toInt ≡ a.toInt.tdiv b.toInt [ZMOD 2 ^ 64] := by
    rw [Int64.toInt_div]
    exact Int.bmod_emod
  have hsum := (hquotient.mul_right b.toInt).add_right (a % b).toInt
  rw [Int64.toInt_mod, Int.tdiv_mul_add_tmod] at hsum
  rw [Int64.toInt_mod]
  exact hsum.symm

theorem natAbs_toInt_mod_lt (a : Int64) {b : Int64} (hb : b ≠ 0) :
    (a % b).toInt.natAbs < b.toInt.natAbs := by
  have hne : b.toInt ≠ 0 := fun hzero => hb (Int64.toInt_inj.mp hzero)
  rw [Int64.toInt_mod, Int.natAbs_tmod]
  exact Nat.mod_lt _ (Int.natAbs_pos.mpr hne)

/-- A remainder has the sign of the dividend. -/
theorem sign_toInt_mod (a b : Int64) : (a % b).toInt = 0 ∨ (a % b).toInt.sign = a.toInt.sign := by
  rw [Int64.toInt_mod]
  by_cases hdvd : b.toInt ∣ a.toInt
  · exact .inl (Int.tmod_eq_zero_of_dvd hdvd)
  · exact .inr (by rw [Int.sign_tmod, if_neg hdvd])

/-- **Arithmetic on integers is exact modulo `2^64`**: sums, differences, products and powers are
the signed residues of the exact results, and the quotient is that of truncating division. It and
the remainder give the dividend back; the remainder is smaller than the divisor and has the sign of
the dividend. Only a division by zero fails. -/
theorem ArithOp.onInts_modular (a b : Int64) :
    (∃ n, add.onInts a b = .ok n ∧ n.toInt = (a.toInt + b.toInt).bmod (2 ^ 64)) ∧
      (∃ n, sub.onInts a b = .ok n ∧ n.toInt = (a.toInt - b.toInt).bmod (2 ^ 64)) ∧
      (∃ n, mul.onInts a b = .ok n ∧ n.toInt = (a.toInt * b.toInt).bmod (2 ^ 64)) ∧
      (0 ≤ b.toInt → b.toInt < 2 ^ 32 →
        ∃ n, pow.onInts a b = .ok n ∧ n.toInt = (a.toInt ^ b.toInt.toNat).bmod (2 ^ 64)) ∧
      (b = 0 → div.onInts a b = divisionByZero ∧ mod.onInts a b = divisionByZero) ∧
      (b ≠ 0 → ∃ q r, div.onInts a b = .ok q ∧ mod.onInts a b = .ok r ∧
        q.toInt = (a.toInt.tdiv b.toInt).bmod (2 ^ 64) ∧
        a.toInt ≡ q.toInt * b.toInt + r.toInt [ZMOD 2 ^ 64] ∧
        r.toInt.natAbs < b.toInt.natAbs ∧ (r.toInt = 0 ∨ r.toInt.sign = a.toInt.sign)) := by
  refine ⟨⟨a + b, rfl, Int64.toInt_add a b⟩, ⟨a - b, rfl, Int64.toInt_sub a b⟩,
    ⟨a * b, rfl, Int64.toInt_mul a b⟩,
    fun hnonneg hlt => ?pow, fun hb => ⟨if_pos hb, if_pos hb⟩, fun hb => ?div⟩
  case pow =>
    refine ⟨power a b.toInt.toNat, if_pos ⟨hnonneg, hlt⟩, ?_⟩
    have hsmall : b.toInt.toNat < twoPow 32 := (Int.toNat_lt hnonneg).mpr hlt
    rw [power_eq_pow a _ hsmall, toInt_pow]
  case div =>
    exact ⟨a / b, a % b, if_neg hb, if_neg hb, Int64.toInt_div a b, toInt_modEq_div a b,
      natAbs_toInt_mod_lt a hb, sign_toInt_mod a b⟩

/-- The least integer divided by `-1` is the residue of its negative, itself. -/
theorem ArithOp.onInts_modular_least : ∃ q r, div.onInts Int64.minValue (-1) = .ok q ∧
    mod.onInts Int64.minValue (-1) = .ok r ∧ q = Int64.minValue ∧ r = 0 := by
  obtain ⟨-, -, -, -, -, hdiv⟩ := ArithOp.onInts_modular Int64.minValue (-1)
  obtain ⟨q, r, hq, hr, hquotient, -, hsmall, -⟩ := hdiv (by decide)
  refine ⟨q, r, hq, hr, Int64.toInt_inj.mp (hquotient.trans (by decide)), Int64.toInt_inj.mp ?_⟩
  have hone : ((-1 : Int64)).toInt.natAbs = 1 := by decide
  rw [hone, Nat.lt_one_iff, Int.natAbs_eq_zero] at hsmall
  exact hsmall

/-! ### Numbers among the values -/

/-- Whether a value is an integer, a floating-point number or a truth value. -/
def Value.isNumeric : Value → Bool
  | .int _ | .float _ | .bool _ => true
  | _ => false

/-- The values that stand for zero. -/
def Value.zeros : List Value := [.int 0, .bool false, .float 0.0, .float (-0.0)]

namespace Value

theorem isInvalidOperand_typeClass (v : Value) : v.typeClass.isInvalidOperand = !v.isNumeric := by
  cases v <;> rfl

theorem int_mem_zeros_iff (n : Int64) : int n ∈ zeros ↔ n = 0 := by
  simp [zeros]

theorem bool_mem_zeros_iff (b : Bool) : bool b ∈ zeros ↔ b = false := by
  simp [zeros]

/-- What compares as equal to zero is a zero, of either sign. -/
theorem isZeroFloat_iff (x : Float) : isZeroFloat x = true ↔ x = 0.0 ∨ x = -0.0 := by
  have hzero : Float.ofScientific 0 false 0 = 0 := by decide +kernel
  have hliteral : (0.0 : Float) = 0 := hzero
  have hpositive : (0 : Float) ≠ Float.nan := by decide +kernel
  have hnegative : (-0 : Float) ≠ Float.nan := by decide +kernel
  rw [isZeroFloat, Float.beq_iff_ne_nan_and_eq, hzero, hliteral]
  constructor
  · rintro ⟨-, -, hx | ⟨hx, -⟩ | ⟨hx, -⟩⟩
    · exact .inl hx
    · exact .inl hx
    · exact .inr hx
  · rintro (rfl | rfl)
    · exact ⟨hpositive, hpositive, .inl rfl⟩
    · exact ⟨hnegative, hpositive, .inr (.inr ⟨rfl, rfl⟩)⟩

theorem float_mem_zeros_iff (x : Float) : float x ∈ zeros ↔ isZeroFloat x = true := by
  rw [isZeroFloat_iff]
  simp [zeros]

/-- **A number counts as false exactly if it is a zero**, and other values do not count. -/
theorem truth?_eq (v : Value) :
    v.truth? = if v.isNumeric then some (decide (v ∉ zeros)) else none := by
  cases v with
  | int n =>
    have hne : (n != 0) = !decide (n = 0) := rfl
    simp [truth?, isNumeric, int_mem_zeros_iff, hne]
  | float x => simp [truth?, isNumeric, float_mem_zeros_iff]
  | bool b => simp [truth?, isNumeric, bool_mem_zeros_iff]
  | _ => rfl

theorem isZero_eq {v : Value} (hv : v.isNumeric = true) : v.isZero = decide (v ∈ zeros) := by
  rw [isZero, truth?_eq, if_pos hv]
  simp

/-- An integer or truth value is a zero if the integer that it stands for is. -/
theorem mem_zeros_iff_of_toInt? {v : Value} {n : Int64} (hn : v.toInt? = some n) :
    v ∈ zeros ↔ n = 0 := by
  cases v with
  | int m =>
    cases hn
    exact int_mem_zeros_iff _
  | bool b =>
    cases hn
    rw [bool_mem_zeros_iff]
    cases b <;> decide
  | _ => cases hn

/-! ### Widening -/

/-- The integer that an integer or a truth value stands for. -/
inductive StandsForInt : Value → ℤ → Prop where
  | int (n : Int64) : StandsForInt (.int n) n.toInt
  | bool (b : Bool) : StandsForInt (.bool b) (if b then 1 else 0)

/-- The floating-point number that a number or a truth value stands for. -/
inductive StandsForFloat : Value → Float → Prop where
  | float (x : Float) : StandsForFloat (.float x) x
  | int (n : Int64) : StandsForFloat (.int n) (Float.ofInt n.toInt)
  | bool (b : Bool) : StandsForFloat (.bool b) (if b then 1.0 else 0.0)

theorem widen_boolInt (b : Bool) : widen (boolInt b) = if b then 1.0 else 0.0 := by
  cases b <;> decide +kernel

theorem standsForInt_iff {v : Value} {a : ℤ} :
    v.StandsForInt a ↔ ∃ n, v.toInt? = some n ∧ n.toInt = a := by
  constructor
  · rintro (n | b)
    · exact ⟨n, rfl, rfl⟩
    · exact ⟨boolInt b, rfl, by cases b <;> decide⟩
  · rintro ⟨n, hn, rfl⟩
    cases v with
    | int => cases hn; exact .int n
    | bool b =>
      cases hn
      have hbool : (boolInt b).toInt = if b then 1 else 0 := by cases b <;> decide
      exact hbool ▸ .bool b
    | _ => cases hn

theorem standsForFloat_iff {v : Value} {x : Float} : v.StandsForFloat x ↔ v.toFloat? = some x := by
  constructor
  · rintro (_ | n | b)
    · rfl
    · rfl
    · exact congrArg some (widen_boolInt b)
  · intro hx
    cases v with
    | float => cases hx; exact .float x
    | int n => cases hx; exact .int n
    | bool b =>
      cases hx
      exact (widen_boolInt b).symm ▸ .bool b
    | _ => cases hx

/-- Whether a value is a floating-point number. -/
def isFloat : Value → Bool
  | .float _ => true
  | _ => false

theorem float_typeClass (v : Value) : v.typeClass.float = v.isFloat := by
  cases v <;> rfl

theorem StandsForInt.isFloat {v : Value} {a : ℤ} (h : v.StandsForInt a) : v.isFloat = false := by
  cases h <;> rfl

/-- A number that is no floating-point number stands for an integer. -/
theorem exists_toInt? {v : Value} (hv : v.isNumeric = true) (hfloat : v.isFloat = false) :
    ∃ n, v.toInt? = some n := by
  cases v with
  | int n => exact ⟨n, rfl⟩
  | bool b => exact ⟨boolInt b, rfl⟩
  | float => cases hfloat
  | _ => cases hv

/-- Every number is widened to a floating-point number. -/
theorem exists_toFloat? {v : Value} (hv : v.isNumeric = true) : ∃ x, v.toFloat? = some x := by
  cases v with
  | int n => exact ⟨widen n, rfl⟩
  | bool b => exact ⟨widen (boolInt b), rfl⟩
  | float x => exact ⟨x, rfl⟩
  | _ => cases hv

/-- Two numbers are widened alike: to floating-point numbers if one of them is one, and else to
integers. -/
theorem widened_cases {left right : Value} (hleft : left.isNumeric = true)
    (hright : right.isNumeric = true) :
    ((left.isFloat || right.isFloat) = true ∧
        ∃ x y, left.toFloat? = some x ∧ right.toFloat? = some y) ∨
      ((left.isFloat || right.isFloat) = false ∧
        ∃ a b, left.toInt? = some a ∧ right.toInt? = some b) := by
  cases hfloat : left.isFloat || right.isFloat with
  | true =>
    obtain ⟨x, hx⟩ := exists_toFloat? hleft
    obtain ⟨y, hy⟩ := exists_toFloat? hright
    exact .inl ⟨rfl, x, y, hx, hy⟩
  | false =>
    obtain ⟨hl, hr⟩ := Bool.or_eq_false_iff.mp hfloat
    obtain ⟨a, ha⟩ := exists_toInt? hleft hl
    obtain ⟨b, hb⟩ := exists_toInt? hright hr
    exact .inr ⟨rfl, a, b, ha, hb⟩

end Value

theorem checkOperand_eq (v : Value) (arg : Nat) :
    checkOperand v arg = if v.isNumeric then .ok () else badOperand arg := by
  rw [checkOperand, v.isInvalidOperand_typeClass]
  cases v.isNumeric <;> rfl

theorem truthOperand_eq (v : Value) (arg : Nat) :
    truthOperand v arg = if v.isNumeric then .ok (decide (v ∉ Value.zeros))
      else badOperand arg := by
  rw [truthOperand, checkOperand_eq, v.truth?_eq]
  cases v.isNumeric <;> rfl

/-! ### Arithmetic on values -/

/-- The integer that an operator makes of two integers: the residue of the exact result, the
quotient and the remainder of truncating division, and for an exponent that is negative or has
more than thirty-two bits the power among the floating-point numbers, cut back to an integer. -/
def ArithOp.MakesInt (op : ArithOp) (a b : ℤ) (n : Int64) : Prop :=
  match op with
  | add => n.toInt = (a + b).bmod (2 ^ 64)
  | sub => n.toInt = (a - b).bmod (2 ^ 64)
  | mul => n.toInt = (a * b).bmod (2 ^ 64)
  | div => b ≠ 0 ∧ n.toInt = (a.tdiv b).bmod (2 ^ 64)
  | mod => b ≠ 0 ∧ n.toInt = a.tmod b
  | pow =>
    if 0 ≤ b ∧ b < 2 ^ 32 then n.toInt = (a ^ b.toNat).bmod (2 ^ 64)
    else n = (Float.pow (Float.ofInt a) (Float.ofInt b)).toInt64

/-- The floating-point number that an operator makes of two. -/
def ArithOp.MakesFloat (op : ArithOp) (x y z : Float) : Prop :=
  match op with
  | add => z = x + y
  | sub => z = x - y
  | mul => z = x * y
  | div => z = x / y
  | mod => IsRemainder x y z
  | pow => z = Float.pow x y

/-- The computation of an operator on two numbers: on integers, or on floating-point numbers if
one of the operands is one. -/
inductive ArithOp.Computes (op : ArithOp) (left right : Value) : Value → Prop where
  | ints {a b : ℤ} {n : Int64} (hleft : left.StandsForInt a) (hright : right.StandsForInt b)
      (hn : op.MakesInt a b n) : Computes op left right (.int n)
  | floats {x y z : Float} (hfloat : (left.isFloat || right.isFloat) = true)
      (hleft : left.StandsForFloat x) (hright : right.StandsForFloat y)
      (hz : op.MakesFloat x y z) : Computes op left right (.float z)

namespace ArithOp

variable {op : ArithOp} {left right : Value}

theorem Computes.isNumeric {n : Value} (hn : op.Computes left right n) : n.isNumeric = true := by
  cases hn <;> rfl

/-- What is computed is a floating-point number if an operand is one, and else an integer. -/
theorem Computes.typeClass {n : Value} (hn : op.Computes left right n) :
    n.typeClass = if left.isFloat || right.isFloat then .ofFloat else .ofInt := by
  cases hn with
  | ints hleft hright => rw [hleft.isFloat, hright.isFloat]; rfl
  | floats hfloat => rw [if_pos hfloat]; rfl

theorem divides_iff (op : ArithOp) : op.divides = true ↔ op = div ∨ op = mod := by
  cases op <;> decide

theorem makesFloat_onFloats (op : ArithOp) (x y : Float) : op.MakesFloat x y (op.onFloats x y) := by
  cases op with
  | mod => exact isRemainder_remainder x y
  | _ => rfl

/-- Integers fail to be computed with only where zero is divided by. -/
theorem onInts_cases (op : ArithOp) (a b : Int64) :
    (∃ n, op.onInts a b = .ok n ∧ op.MakesInt a.toInt b.toInt n ∧
        ¬ (op.divides = true ∧ b = 0)) ∨
      (op.onInts a b = divisionByZero ∧ op.divides = true ∧ b = 0) := by
  have hne : b ≠ 0 → b.toInt ≠ 0 := fun hb hzero => hb (Int64.toInt_inj.mp hzero)
  cases op with
  | add => exact .inl ⟨a + b, rfl, Int64.toInt_add a b, by simp [divides]⟩
  | sub => exact .inl ⟨a - b, rfl, Int64.toInt_sub a b, by simp [divides]⟩
  | mul => exact .inl ⟨a * b, rfl, Int64.toInt_mul a b, by simp [divides]⟩
  | pow =>
    by_cases hsmall : 0 ≤ b.toInt ∧ b.toInt < 2 ^ 32
    · refine .inl ⟨power a b.toInt.toNat, if_pos hsmall, ?_, by simp [divides]⟩
      have hexponent : b.toInt.toNat < twoPow 32 := (Int.toNat_lt hsmall.1).mpr hsmall.2
      rw [MakesInt, if_pos hsmall, power_eq_pow a _ hexponent, toInt_pow]
    · refine .inl ⟨floatPower a b, if_neg hsmall, ?_, by simp [divides]⟩
      rw [MakesInt, if_neg hsmall]
      rfl
  | div =>
    by_cases hb : b = 0
    · exact .inr ⟨if_pos hb, rfl, hb⟩
    · exact .inl ⟨a / b, if_neg hb, ⟨hne hb, Int64.toInt_div a b⟩, fun h => hb h.2⟩
  | mod =>
    by_cases hb : b = 0
    · exact .inr ⟨if_pos hb, rfl, hb⟩
    · exact .inl ⟨a % b, if_neg hb, ⟨hne hb, Int64.toInt_mod a b⟩, fun h => hb h.2⟩

/-- **What arithmetic does on numbers**: it computes, unless it is to divide by a zero. -/
theorem numeric_cases (op : ArithOp) (hleft : left.isNumeric = true)
    (hright : right.isNumeric = true) :
    (∃ n, op.numeric left right = .ok n ∧ op.Computes left right n ∧
        ¬ (op.divides = true ∧ right ∈ Value.zeros)) ∨
      (op.numeric left right = divisionByZero ∧ op.divides = true ∧ right ∈ Value.zeros) := by
  rw [numeric, left.float_typeClass, right.float_typeClass]
  rcases Value.widened_cases hleft hright with ⟨hfloat, x, y, hx, hy⟩ | ⟨hfloat, a, b, ha, hb⟩
  · rw [if_pos hfloat, floatOperand, floatOperand, hx, hy, Value.isZero_eq hright]
    by_cases hzero : op.divides = true ∧ right ∈ Value.zeros
    · exact .inr ⟨if_pos (by simpa using hzero), hzero⟩
    · exact .inl ⟨.float (op.onFloats x y), if_neg (by simpa using hzero),
        .floats hfloat (Value.standsForFloat_iff.mpr hx) (Value.standsForFloat_iff.mpr hy)
          (op.makesFloat_onFloats x y), hzero⟩
  · have hzero := Value.mem_zeros_iff_of_toInt? hb
    have hints : (do
        let a ← intOperand left 1
        let b ← intOperand right 2
        return Value.int (← op.onInts a b)) = (op.onInts a b).map .int := by
      rw [intOperand, intOperand, ha, hb]
      show (op.onInts a b >>= fun n => .ok (Value.int n)) = _
      cases op.onInts a b <;> rfl
    rw [if_neg (by simp [hfloat]), hints]
    rcases op.onInts_cases a b with ⟨n, hn, hmakes, hnot⟩ | ⟨hdiv, hdivides, hb⟩
    · exact .inl ⟨.int n, by rw [hn, Except.map],
        .ints (Value.standsForInt_iff.mpr ⟨a, ha, rfl⟩) (Value.standsForInt_iff.mpr ⟨b, hb, rfl⟩)
          hmakes, by rwa [hzero]⟩
    · exact .inr ⟨by rw [hdiv]; rfl, hdivides, hzero.mpr hb⟩

/-- A number computed from two operands, reduced to whether it is a zero if an operand is a truth
value. -/
def reduced (left right n : Value) : Value :=
  match left, right with
  | .bool _, _ | _, .bool _ => .bool (decide (n ∉ Value.zeros))
  | _, _ => n

/-- Results are reduced where the class of the result is that of truth values. -/
theorem reduced_eq (left right n : Value) : reduced left right n =
    if TypeClass.arithmeticResult left.typeClass right.typeClass = .ofBool then
      .bool (decide (n ∉ Value.zeros))
    else n := by
  cases left <;> cases right <;> rfl

/-- The class of the result of a computation. -/
theorem Computes.typeClass_reduced {n : Value} (hn : op.Computes left right n)
    (hleft : left.isNumeric = true) (hright : right.isNumeric = true) :
    (reduced left right n).typeClass =
      TypeClass.arithmeticResult left.typeClass right.typeClass := by
  have hclass := hn.typeClass
  cases left with
  | bool => cases right <;> rfl
  | int | float =>
    cases right with
    | bool => rfl
    | int | float => exact hclass
    | _ => cases hright
  | _ => cases hleft

theorem apply_of_badLeft (op : ArithOp) (right : Value) (hleft : left.isNumeric = false) :
    op.apply left right = badOperand 1 := by
  rw [apply, checkOperand_eq, hleft]
  rfl

theorem apply_of_badRight (op : ArithOp) (hleft : left.isNumeric = true)
    (hright : right.isNumeric = false) : op.apply left right = badOperand 2 := by
  rw [apply, checkOperand_eq, checkOperand_eq, hleft, hright]
  rfl

theorem apply_of_numeric_error {error : SemanticError} (hleft : left.isNumeric = true)
    (hright : right.isNumeric = true) (herror : op.numeric left right = .error error) :
    op.apply left right = .error error := by
  rw [apply, checkOperand_eq, checkOperand_eq, hleft, hright, herror]
  rfl

theorem apply_of_numeric_ok {n : Value} (hleft : left.isNumeric = true)
    (hright : right.isNumeric = true) (hn : op.numeric left right = .ok n)
    (hnumeric : n.isNumeric = true) : op.apply left right = .ok (reduced left right n) := by
  rw [apply, checkOperand_eq, checkOperand_eq, hleft, hright, hn, reduced_eq]
  show (if _ then (do return Value.bool (← truthOperand n 1)) else (return n : Checked Value)) = _
  rw [truthOperand_eq, if_pos hnumeric]
  split <;> rfl

/-- How an arithmetic operator agrees with the classes of its operands: who is to blame for an
error, of which class the result is, and which value it is. -/
structure Agrees (op : ArithOp) (left right : Value) : Prop where
  badLeft : op.apply left right = .error ⟨.mustBeIntFloatOrBool, some 1⟩ ↔ left.isNumeric = false
  badRight : op.apply left right = .error ⟨.mustBeIntFloatOrBool, some 2⟩ ↔
    left.isNumeric = true ∧ right.isNumeric = false
  byZero : op.apply left right = .error ⟨.attemptedDivByZero, none⟩ ↔
    left.isNumeric = true ∧ right.isNumeric = true ∧ (op = div ∨ op = mod) ∧ right ∈ Value.zeros
  ok : (∃ v, op.apply left right = .ok v) ↔ left.isNumeric = true ∧ right.isNumeric = true ∧
    ¬ ((op = div ∨ op = mod) ∧ right ∈ Value.zeros)
  result : ∀ v, op.apply left right = .ok v →
    v.typeClass = TypeClass.arithmeticResult left.typeClass right.typeClass ∧
      ∃ n, op.Computes left right n ∧ v = reduced left right n

theorem agrees (op : ArithOp) (left right : Value) : op.Agrees left right := by
  cases hleft : left.isNumeric with
  | false =>
    have happly := op.apply_of_badLeft right hleft
    constructor <;> simp [happly, hleft, badOperand]
  | true =>
    cases hright : right.isNumeric with
    | false =>
      have happly := op.apply_of_badRight hleft hright
      constructor <;> simp [happly, hleft, hright, badOperand]
    | true =>
      rcases op.numeric_cases hleft hright with ⟨n, hn, hcomputes, hzero⟩ | ⟨hn, hzero⟩
      · have happly := apply_of_numeric_ok hleft hright hn hcomputes.isNumeric
        rw [divides_iff] at hzero
        constructor
        case result =>
          intro v hv
          cases happly.symm.trans hv
          exact ⟨hcomputes.typeClass_reduced hleft hright, n, hcomputes, rfl⟩
        all_goals simp [happly, hleft, hright, hzero]
      · have happly := apply_of_numeric_error hleft hright hn
        rw [divides_iff] at hzero
        constructor <;> simp [happly, hleft, hright, hzero]

end ArithOp

/-! ### Connectives, comparisons and negation -/

/-- How an operator for truth values agrees with the classes of its operands: it refuses the left
one first, then the right one, and else says whether something holds. -/
structure YieldsTruth (left right : Value) (holds : Prop) (result : Checked Value) : Prop where
  badLeft : result = .error ⟨.mustBeIntFloatOrBool, some 1⟩ ↔ left.isNumeric = false
  badRight : result = .error ⟨.mustBeIntFloatOrBool, some 2⟩ ↔
    left.isNumeric = true ∧ right.isNumeric = false
  ok : (∃ b, result = .ok (.bool b)) ↔ left.isNumeric = true ∧ right.isNumeric = true
  result : ∀ v, result = .ok v → ∃ b, v = .bool b ∧ (b = true ↔ holds)

/-- What a connective says of two conditions. -/
def LogicalOp.Joins (op : LogicalOp) (p q : Prop) : Prop :=
  match op with
  | and => p ∧ q
  | or => p ∨ q

namespace Relation

/-- What a comparison says of two integers. -/
def HoldsOfInts (op : Relation) (a b : ℤ) : Prop :=
  match op with
  | lt => a < b
  | le => a ≤ b
  | gt => a > b
  | ge => a ≥ b
  | eq => a = b
  | ne => a ≠ b

/-- What a comparison says of two floating-point numbers. -/
def HoldsOfFloats (op : Relation) (x y : Float) : Prop :=
  match op with
  | lt => x < y
  | le => x ≤ y
  | gt => x > y
  | ge => x ≥ y
  | eq => (x == y) = true
  | ne => (x == y) = false

/-- What a comparison says of two numbers, which are widened first. -/
inductive HoldsOf (op : Relation) (left right : Value) : Prop where
  | ints {a b : ℤ} (hleft : left.StandsForInt a) (hright : right.StandsForInt b)
      (h : op.HoldsOfInts a b)
  | floats {x y : Float} (hfloat : (left.isFloat || right.isFloat) = true)
      (hleft : left.StandsForFloat x) (hright : right.StandsForFloat y) (h : op.HoldsOfFloats x y)

theorem onInts_iff (op : Relation) (a b : Int64) :
    op.onInts a b = true ↔ op.HoldsOfInts a.toInt b.toInt := by
  cases op <;>
    simp [onInts, HoldsOfInts, Int64.lt_iff_toInt_lt, Int64.le_iff_toInt_le, Int64.toInt_inj]

theorem onFloats_iff (op : Relation) (x y : Float) :
    op.onFloats x y = true ↔ op.HoldsOfFloats x y := by
  cases op <;> simp [onFloats, HoldsOfFloats, bne]

variable {left right : Value}

theorem holdsOf_iff_of_ints (op : Relation) {a b : Int64} (ha : left.toInt? = some a)
    (hb : right.toInt? = some b) : op.HoldsOf left right ↔ op.onInts a b = true := by
  rw [onInts_iff]
  constructor
  · rintro (⟨hleft, hright, h⟩ | ⟨hfloat, -, -, -⟩)
    · obtain ⟨a', ha', rfl⟩ := Value.standsForInt_iff.mp hleft
      obtain ⟨b', hb', rfl⟩ := Value.standsForInt_iff.mp hright
      cases ha.symm.trans ha'
      cases hb.symm.trans hb'
      exact h
    · rw [(Value.standsForInt_iff.mpr ⟨a, ha, rfl⟩).isFloat,
        (Value.standsForInt_iff.mpr ⟨b, hb, rfl⟩).isFloat] at hfloat
      cases hfloat
  · exact .ints (Value.standsForInt_iff.mpr ⟨a, ha, rfl⟩) (Value.standsForInt_iff.mpr ⟨b, hb, rfl⟩)

theorem holdsOf_iff_of_floats (op : Relation) (hfloat : (left.isFloat || right.isFloat) = true)
    {x y : Float} (hx : left.toFloat? = some x) (hy : right.toFloat? = some y) :
    op.HoldsOf left right ↔ op.onFloats x y = true := by
  rw [onFloats_iff]
  constructor
  · rintro (⟨hleft, hright, -⟩ | ⟨-, hleft, hright, h⟩)
    · rw [hleft.isFloat, hright.isFloat] at hfloat
      cases hfloat
    · cases hx.symm.trans (Value.standsForFloat_iff.mp hleft)
      cases hy.symm.trans (Value.standsForFloat_iff.mp hright)
      exact h
  · exact .floats hfloat (Value.standsForFloat_iff.mpr hx) (Value.standsForFloat_iff.mpr hy)

end Relation

section

variable {left right : Value} {holds : Prop} {result : Checked Value}

/-- What an operator for truth values does in each case tells the cases apart. -/
theorem YieldsTruth.of_cases (hbadLeft : left.isNumeric = false → result = badOperand 1)
    (hbadRight : left.isNumeric = true → right.isNumeric = false → result = badOperand 2)
    (hok : left.isNumeric = true → right.isNumeric = true →
      ∃ b, result = .ok (.bool b) ∧ (b = true ↔ holds)) :
    YieldsTruth left right holds result := by
  cases hleft : left.isNumeric with
  | false => constructor <;> simp [hbadLeft hleft, hleft, badOperand]
  | true =>
    cases hright : right.isNumeric with
    | false => constructor <;> simp [hbadRight hleft hright, hleft, hright, badOperand]
    | true =>
      obtain ⟨b, rfl, hb⟩ := hok hleft hright
      constructor
      case result =>
        rintro v ⟨⟩
        exact ⟨b, rfl, hb⟩
      all_goals simp [hleft, hright]

theorem LogicalOp.yieldsTruth (op : LogicalOp) (left right : Value) :
    YieldsTruth left right (op.Joins (left ∉ Value.zeros) (right ∉ Value.zeros))
      (op.apply left right) := by
  refine .of_cases (fun hleft => ?_) (fun hleft hright => ?_) fun hleft hright => ?_
  · rw [apply, truthOperand_eq, hleft]
    rfl
  · rw [apply, truthOperand_eq, truthOperand_eq, hleft, hright]
    rfl
  · rw [apply, truthOperand_eq, truthOperand_eq, if_pos hleft, if_pos hright]
    exact ⟨_, rfl, by cases op <;> simp [Joins]⟩

theorem Relation.yieldsTruth (op : Relation) (left right : Value) :
    YieldsTruth left right (op.HoldsOf left right) (op.apply left right) := by
  refine .of_cases (fun hleft => ?_) (fun hleft hright => ?_) fun hleft hright => ?_
  · rw [apply, checkOperand_eq, hleft]
    rfl
  · rw [apply, checkOperand_eq, checkOperand_eq, hleft, hright]
    rfl
  · rw [apply, checkOperand_eq, checkOperand_eq, if_pos hleft, if_pos hright,
      left.float_typeClass, right.float_typeClass]
    rcases Value.widened_cases hleft hright with ⟨hfloat, x, y, hx, hy⟩ | ⟨hfloat, a, b, ha, hb⟩
    · rw [if_pos hfloat, floatOperand, floatOperand, hx, hy]
      exact ⟨_, rfl, (op.holdsOf_iff_of_floats hfloat hx hy).symm⟩
    · rw [if_neg (by simp [hfloat]), intOperand, intOperand, ha, hb]
      exact ⟨_, rfl, (op.holdsOf_iff_of_ints ha hb).symm⟩

end

theorem negateValue_eq (v : Value) : negateValue v =
    if v.isNumeric then .ok (.bool (decide (v ∈ Value.zeros))) else badOperand 1 := by
  rw [negateValue, truthOperand_eq]
  cases v.isNumeric with
  | false => rfl
  | true => simp [bind, Except.bind, pure, Except.pure]

/-! ### Conditions -/

namespace Eval

/-- Goes on by what negation says of the value of a condition: it is accepted if the value can be
negated, and taken if that gives the truth value "false". -/
def byNegation {α : Type} (e : Expr) (taken other : Eval α) (v : Value) : Eval α :=
  match negateValue v with
  | .ok (.bool false) => taken
  | .ok _ => other
  | .error _ => failAt e 1 .cannotBeFunctNullListOrStr

/-- **A condition goes by what negation says of its value.** -/
theorem evalCondition_bind {α : Type} (recur : Recur) (e cond : Expr) (f : Bool → Eval α) :
    (evalCondition recur e cond >>= f) = recur cond >>= byNegation e (f true) (f false) := by
  rw [evalCondition, bind_assoc]
  congr 1
  funext v
  rw [byNegation, negateValue_eq, v.truth?_eq]
  cases v.isNumeric with
  | false => rfl
  | true =>
    by_cases hzero : v ∈ Value.zeros
    · simp [hzero]
    · simp [hzero]

end Eval

/-- **Operators agree with the classes of values.**

* Arithmetic refuses a left operand that is no number, then a right one, then a zero to divide by,
  and no other operands; the class of a result is known beforehand, and the result is what the
  operator makes of the widened operands, or whether that is a zero if one of them is a truth
  value.
* Connectives and comparisons refuse the same operands and yield truth values, and so does
  negation.
* Conditionals and every round of a loop go by what negation says of the value of their
  condition. -/
theorem operators_agree_with_classes :
    (∀ (op : ArithOp) (left right : Value), op.Agrees left right) ∧
      (∀ (op : LogicalOp) (left right : Value),
        YieldsTruth left right (op.Joins (left ∉ Value.zeros) (right ∉ Value.zeros))
          (op.apply left right)) ∧
      (∀ (op : Relation) (left right : Value),
        YieldsTruth left right (op.HoldsOf left right) (op.apply left right)) ∧
      (∀ v, (negateValue v = .error ⟨.mustBeIntFloatOrBool, some 1⟩ ↔ v.isNumeric = false) ∧
        ((∃ b, negateValue v = .ok (.bool b)) ↔ v.isNumeric = true) ∧
        ∀ w, negateValue v = .ok w → ∃ b, w = .bool b ∧ (b = true ↔ v ∈ Value.zeros)) ∧
      ∀ (lim : Limits) (recur : Recur) (s : Span) (cond yes : Expr),
        (Eval.node lim recur (.ifThen s cond yes) = recur cond >>=
          Eval.byNegation (.ifThen s cond yes)
            (Eval.evalBranch recur (.ifThen s cond yes) 2 yes) (pure .null)) ∧
        (∀ no, Eval.node lim recur (.ifElse s cond yes no) = recur cond >>=
          Eval.byNegation (.ifElse s cond yes no)
            (Eval.evalBranch recur (.ifElse s cond yes no) 2 yes)
            (Eval.evalBranch recur (.ifElse s cond yes no) 3 no)) ∧
        ∀ body left result,
          Eval.whileRounds lim recur (.whileDo s cond body) cond body left result =
            recur cond >>= Eval.byNegation (.whileDo s cond body)
              (match left with
                | 0 => throw (lim.exhausted (.whileDo s cond body))
                | left + 1 => Eval.round (recur body) result
                    (Eval.whileRounds lim recur (.whileDo s cond body) cond body left))
              (pure result) := by
  refine ⟨ArithOp.agrees, LogicalOp.yieldsTruth, Relation.yieldsTruth, fun v => ?negation,
    fun lim recur s cond yes => ⟨?ifThen, fun no => ?ifElse, fun body left result => ?whileDo⟩⟩
  case negation =>
    rw [negateValue_eq]
    cases v.isNumeric with
    | false => simp [badOperand]
    | true =>
      refine ⟨by simp, by simp, ?_⟩
      rintro w ⟨⟩
      exact ⟨_, rfl, decide_eq_true_iff⟩
  case ifThen => exact Eval.evalCondition_bind recur _ cond _
  case ifElse => exact Eval.evalCondition_bind recur _ cond _
  case whileDo =>
    rw [Eval.whileRounds.eq_def]
    exact Eval.evalCondition_bind recur _ cond _

end ScopeScript
