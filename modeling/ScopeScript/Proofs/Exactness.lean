import Mathlib
import ScopeScript.Number.Fixed
import ScopeScript.Number.Reading

/-!
# Exact values of floating-point numbers

A finite floating-point number is a sign and a multiple of a power of two, and as such it has an
exact value, a rational number (`exactValue?`). Taking a number apart and putting it together are
about the bits; here they are tied to values.

* `Binary.ofFloat_eq`: the parts of a number, as they are read off its bits, are its parts as a
  floating-point number.
* `Binary.ofFloat_toFloat`: a number that is put together has the sign and the value of its parts.
* `isRemainder_remainder`: remainders are exact.
* `fixedText_nearest`: a number is written as the nearest decimal with so many places.
-/

namespace ScopeScript

open Float.Model Float.Model.UnpackedFloat

theorem twoPow_eq_pow (n : ℕ) : twoPow n = 2 ^ n := rfl

theorem tenPow_eq_pow (n : ℕ) : tenPow n = 10 ^ n := rfl

theorem cast_twoPow (n : ℕ) : (twoPow n : ℚ) = 2 ^ (n : ℤ) := by
  rw [twoPow_eq_pow, Nat.cast_pow, Nat.cast_ofNat, zpow_natCast]

/-- Whether a number has a minus sign; zeros and infinities can have one too. -/
def hasMinus (x : Float) : Bool :=
  match x.toModel.unpack with
  | .finite s .. | .zero s | .infinity s => s == .negative
  | .notANumber => false

/-- The exact value of a finite number. -/
def exactValue? (x : Float) : Option ℚ :=
  match x.toModel.unpack with
  | .finite s m q _ => some (s.apply m * 2 ^ q)
  | .zero _ => some 0
  | .infinity _ | .notANumber => none

/-! ### Reading bits -/

section Bits

variable (b : BitVec 64)

theorem toNat_unpackMantissa : (@unpackMantissa .binary64 b).toNat = b.toNat % 2 ^ 52 := by
  rw [unpackMantissa_def, BitVec.extractLsb'_toNat, Nat.shiftRight_zero]

theorem toNat_unpackExponent :
    (@unpackExponent .binary64 b).toNat = b.toNat / 2 ^ 52 % 2 ^ 11 := by
  rw [unpackExponent_def, BitVec.extractLsb'_toNat, Nat.shiftRight_eq_div_pow]

theorem ofBitVec_unpackSign :
    (Sign.ofBitVec (@unpackSign .binary64 b) == .negative) =
      decide (b.toNat / 2 ^ 63 % 2 = 1) := by
  have hbit : (@unpackSign .binary64 b).toNat = b.toNat / 2 ^ 63 % 2 := by
    rw [unpackSign_def, BitVec.extractLsb'_toNat, Nat.shiftRight_eq_div_pow, Nat.pow_one]
    rfl
  rw [← hbit]
  generalize @unpackSign .binary64 b = s
  revert s
  decide

/-- The bit that is not stored comes in front of the fraction. -/
theorem toNat_one_append (fraction : BitVec 52) :
    (1#1 ++ fraction).toNat = 2 ^ 52 + fraction.toNat := by
  have hor := Nat.two_pow_add_eq_or_of_lt fraction.isLt (a := 1)
  rw [BitVec.toNat_append, Nat.shiftLeft_eq, BitVec.toNat_ofNat]
  simpa using hor.symm

end Bits

namespace Binary

/-- A floating-point number taken apart. -/
def ofUnpacked : UnpackedFloat → Binary
  | .finite s m q _ => ⟨s == .negative, .finite m q⟩
  | .zero s => ⟨s == .negative, .finite 0 minExponent⟩
  | .infinity s => ⟨s == .negative, .infinite⟩
  | .notANumber => ⟨false, .notANumber⟩

/-- **The parts of a number** are read off its bits. -/
theorem ofFloat_eq (x : Float) : ofFloat x = ofUnpacked x.toModel.unpack := by
  have hvalid := x.toModel.valid.eq_packedNaN
  have hbits : ofFloat x =
      let b := x.toModel.toBits.toBitVec
      ⟨Sign.ofBitVec (@unpackSign .binary64 b) == .negative,
        if (@unpackExponent .binary64 b).toNat = 2047 then
          if (@unpackMantissa .binary64 b).toNat = 0 then .infinite else .notANumber
        else if (@unpackExponent .binary64 b).toNat = 0 then
          .finite (@unpackMantissa .binary64 b).toNat (-1074)
        else .finite (2 ^ 52 + (@unpackMantissa .binary64 b).toNat)
          ((@unpackExponent .binary64 b).toNat - 1074 - 1)⟩ := by
    simp only [ofBitVec_unpackSign, toNat_unpackExponent, toNat_unpackMantissa]
    rfl
  rw [hbits]
  unfold Float.Model.unpack UnpackedFloat.unpack
  generalize x.toModel.toBits.toBitVec = b at hvalid
  dsimp only
  have hones : @unpackExponent .binary64 b = -1#_ ↔ (@unpackExponent .binary64 b).toNat = 2047 := by
    rw [← BitVec.toNat_inj]
    rfl
  have hnone : @unpackExponent .binary64 b = 0#_ ↔ (@unpackExponent .binary64 b).toNat = 0 := by
    rw [← BitVec.toNat_inj]
    rfl
  have hzero : @unpackMantissa .binary64 b = 0#_ ↔ (@unpackMantissa .binary64 b).toNat = 0 := by
    rw [← BitVec.toNat_inj]
    rfl
  by_cases hall : @unpackExponent .binary64 b = -1#_
  · rw [if_pos hall, if_pos (hones.mp hall)]
    by_cases hm : @unpackMantissa .binary64 b = 0#_
    · rw [if_pos hm, if_pos (hzero.mp hm), ofUnpacked]
    · rw [if_neg hm, if_neg (mt hzero.mpr hm), ofUnpacked, hvalid hall hm]
      rfl
  rw [if_neg hall, if_neg (mt hones.mpr hall)]
  by_cases hsubnormal : @unpackExponent .binary64 b = 0#_
  · rw [if_pos hsubnormal, if_pos (hnone.mp hsubnormal)]
    by_cases hm : @unpackMantissa .binary64 b = 0#_
    · rw [dif_pos hm, ofUnpacked, hzero.mp hm, minExponent]
    · rw [dif_neg hm, ofUnpacked, hnone.mp hsubnormal]
      rfl
  · rw [if_neg hsubnormal, if_neg (mt hnone.mpr hsubnormal), ofUnpacked,
      toNat_one_append (@unpackMantissa .binary64 b), Int.sub_sub]
    rfl

variable {x y : Float} {m n : Nat} {q r : Int}

/-! ### Signs and values -/

/-- A magnitude with a sign. -/
def signed (s : Bool) (a : ℚ) : ℚ := if s then -a else a

theorem abs_signed (s : Bool) {a : ℚ} (ha : 0 ≤ a) : |signed s a| = a := by
  cases s with
  | false => exact abs_of_nonneg ha
  | true => exact (abs_neg a).trans (abs_of_nonneg ha)

theorem hasMinus_eq (x : Float) : hasMinus x = (ofFloat x).negative := by
  rw [ofFloat_eq, hasMinus]
  cases x.toModel.unpack <;> rfl

/-- The value of a finite number from its parts. -/
theorem exactValue?_of_finite (h : (ofFloat x).magnitude = .finite m q) :
    exactValue? x = some (signed (hasMinus x) (m * 2 ^ q)) := by
  rw [ofFloat_eq] at h
  rw [exactValue?, hasMinus]
  cases hx : x.toModel.unpack with
  | infinity | notANumber =>
    rw [hx] at h
    cases h
  | zero s =>
    rw [hx] at h
    cases h
    cases s <;> simp [signed]
  | finite s =>
    rw [hx] at h
    cases h
    cases s <;> simp [signed, Sign.apply]

theorem exactValue?_eq_none (h : ∀ m q, (ofFloat x).magnitude ≠ .finite m q) :
    exactValue? x = none := by
  rw [ofFloat_eq] at h
  rw [exactValue?]
  cases hx : x.toModel.unpack with
  | infinity | notANumber => rfl
  | zero | finite =>
    rw [hx] at h
    exact absurd rfl (h _ _)

theorem isInf_eq (x : Float) : x.isInf = decide ((ofFloat x).magnitude = .infinite) := by
  change x.toModel.unpack.isInf = _
  rw [ofFloat_eq]
  cases x.toModel.unpack <;> rfl

theorem isNaN_eq (x : Float) : x.isNaN = decide ((ofFloat x).magnitude = .notANumber) := by
  change x.toModel.unpack.isNaN = _
  rw [ofFloat_eq]
  cases x.toModel.unpack <;> rfl

/-- The parts of a number are within the bounds of the format. -/
theorem bounds_of_finite (h : (ofFloat x).magnitude = .finite m q) :
    m < 2 ^ 53 ∧ minExponent ≤ q ∧ q ≤ 971 := by
  have hfraction : x.toBits.toNat % twoPow 52 < 2 ^ 52 := Nat.mod_lt _ (twoPow_pos 52)
  have hexponent : x.toBits.toNat / twoPow 52 % twoPow 11 < 2 ^ 11 := Nat.mod_lt _ (twoPow_pos 11)
  have hone : twoPow 52 = 2 ^ 52 := rfl
  have hall : twoPow 11 = 2 ^ 11 := rfl
  unfold ofFloat at h
  dsimp only at h
  rw [minExponent] at h ⊢
  split at h
  · split at h <;> cases h
  split at h
  all_goals
    cases h
    omega

/-! ### Writing bits -/

/-- Bits are kept as they are unless all bits of the exponent are set. -/
theorem toNat_toBits_ofBits {bits : Nat} (hbits : bits < 2 ^ 64)
    (hexponent : bits / 2 ^ 52 % 2 ^ 11 ≠ 2047) :
    (Float.ofBits (.ofNat bits)).toBits.toNat = bits := by
  have hb : (UInt64.ofNat bits).toBitVec.toNat = bits := Nat.mod_eq_of_lt hbits
  have hnumber : @isNaNBits .binary64 (UInt64.ofNat bits).toBitVec = false := by
    refine decide_eq_false fun h => hexponent ?_
    have hfield := toNat_unpackExponent (UInt64.ofNat bits).toBitVec
    rw [h.1, hb] at hfield
    exact hfield.symm
  change (UnpackedFloat.pack .binary64
    (UnpackedFloat.unpack .binary64 (UInt64.ofNat bits).toBitVec)).toNat = bits
  rw [@pack_unpack .binary64 (UInt64.ofNat bits).toBitVec (by decide), hnumber]
  exact hb

/-- What is read off the bits of a magnitude with a sign in front of them. -/
theorem ofFloat_ofBits {bits : Nat} (hbits : bits / 2 ^ 52 < 2047) (s : Bool) :
    ofFloat (Float.ofBits (.ofNat ((if s then twoPow 63 else 0) + bits))) =
      ⟨s, if bits / 2 ^ 52 = 0 then .finite (bits % 2 ^ 52) minExponent
        else .finite (2 ^ 52 + bits % 2 ^ 52) ((bits / 2 ^ 52 : ℕ) + minExponent - 1)⟩ := by
  obtain ⟨k, hk, hsign, hs⟩ :
      ∃ k < 2, (if s then twoPow 63 else 0) = k * 2 ^ 63 ∧ decide (k = 1) = s := by
    cases s with
    | false => exact ⟨0, by decide, rfl, rfl⟩
    | true => exact ⟨1, by decide, rfl, rfl⟩
  have hkept : (Float.ofBits (.ofNat (k * 2 ^ 63 + bits))).toBits.toNat = k * 2 ^ 63 + bits :=
    toNat_toBits_ofBits (by omega) (by omega)
  have hfraction : (k * 2 ^ 63 + bits) % twoPow 52 = bits % 2 ^ 52 := by
    rw [twoPow_eq_pow]
    omega
  have hexponent : (k * 2 ^ 63 + bits) / twoPow 52 % twoPow 11 = bits / 2 ^ 52 := by
    rw [twoPow_eq_pow, twoPow_eq_pow]
    omega
  have hbit : (k * 2 ^ 63 + bits) / twoPow 63 % 2 = k := by
    rw [twoPow_eq_pow]
    omega
  have hnumber : bits / 2 ^ 52 ≠ twoPow 11 - 1 := ne_of_lt hbits
  rw [hsign, ofFloat, hkept, ← hs, hfraction, hexponent, hbit, if_neg hnumber]
  rfl

/-- A magnitude in units of a smaller power of two. -/
theorem scaled_eq {unit : Int} (hunit : unit ≤ q) :
    ((m * twoPow (q - unit).toNat : ℕ) : ℚ) * 2 ^ unit = m * 2 ^ q := by
  rw [Nat.cast_mul, cast_twoPow, mul_assoc, ← zpow_add₀ two_ne_zero]
  congr 2
  omega

/-- A significand that is moved until it has fifty-three binary digits, or less far, is no longer
than that. -/
theorem mul_twoPow_lt (hm : m < 2 ^ 53) (hzero : m ≠ 0) {shift : Nat}
    (hshift : shift ≤ 52 - m.log2) : m * twoPow shift < 2 ^ 53 := by
  have hlog : m.log2 < 53 := (Nat.log2_lt hzero).mpr hm
  calc m * twoPow shift < 2 ^ (m.log2 + 1) * 2 ^ shift :=
        Nat.mul_lt_mul_of_pos_right Nat.lt_log2_self (twoPow_pos shift)
    _ = 2 ^ (m.log2 + 1 + shift) := (pow_add _ _ _).symm
    _ ≤ 2 ^ 53 := Nat.pow_le_pow_right two_pos (by omega)

/-- A significand that is moved that far has fifty-three binary digits. -/
theorem le_mul_twoPow (hm : m < 2 ^ 53) (hzero : m ≠ 0) :
    2 ^ 52 ≤ m * twoPow (52 - m.log2) := by
  have hlog : m.log2 ≤ 52 := Nat.le_of_lt_succ ((Nat.log2_lt hzero).mpr hm)
  calc 2 ^ 52 = 2 ^ m.log2 * 2 ^ (52 - m.log2) := by rw [← pow_add, Nat.add_sub_cancel' hlog]
    _ ≤ m * twoPow (52 - m.log2) := Nat.mul_le_mul_right _ (Nat.log2_self_le hzero)

/-- A magnitude is written as a fraction below the least exponent, or with an exponent above. -/
theorem magnitudeBits_cases (hm : m < 2 ^ 53) (hq : minExponent ≤ q) :
    ∃ f < 2 ^ 52,
      (magnitudeBits m q = f ∧ (f : ℚ) * 2 ^ minExponent = m * 2 ^ q) ∨
        ∃ e : Nat, 0 < e ∧ (e : ℤ) + minExponent ≤ q + 1 ∧ magnitudeBits m q = e * 2 ^ 52 + f ∧
          ((2 ^ 52 + f : ℕ) : ℚ) * 2 ^ ((e : ℤ) + minExponent - 1) = m * 2 ^ q := by
  by_cases hzero : m = 0
  · exact ⟨0, by decide, .inl ⟨if_pos hzero, by simp [hzero]⟩⟩
  rw [magnitudeBits, if_neg hzero]
  dsimp only
  generalize hshift : min (52 - m.log2) (q - minExponent).toNat = shift
  have hvalue : ((m * twoPow shift : ℕ) : ℚ) * 2 ^ (q - shift) = m * 2 ^ q := by
    have hunit := scaled_eq (m := m) (show q - shift ≤ q by omega)
    rwa [sub_sub_cancel, Int.toNat_natCast] at hunit
  have hless : m * twoPow shift < 2 ^ 53 := mul_twoPow_lt hm hzero (by omega)
  by_cases hsmall : m * twoPow shift < 2 ^ 52
  · refine ⟨m * twoPow shift, hsmall, .inl ⟨if_pos hsmall, ?_⟩⟩
    -- the significand has been moved as far as the least exponent allows
    have hall : q - shift = minExponent := by
      by_contra hne
      have hfull : shift = 52 - m.log2 := by omega
      exact absurd hsmall (Nat.not_lt.mpr (hfull ▸ le_mul_twoPow hm hzero))
    rw [← hvalue, hall]
  · obtain ⟨f, hf⟩ := Nat.exists_eq_add_of_le (Nat.not_lt.mp hsmall)
    have hexponent : ((q - shift - minExponent + 1).toNat : ℤ) + minExponent - 1 = q - shift := by
      omega
    refine ⟨f, by omega, .inr ⟨(q - shift - minExponent + 1).toNat, by omega, by omega, ?_, ?_⟩⟩
    · rw [hf, twoPow_eq_pow, if_neg (Nat.not_lt.mpr (Nat.le_add_right _ _)),
        Nat.add_sub_cancel_left]
    · rw [← hf, hexponent, hvalue]

theorem toFloat_finite (s : Bool) (m : Nat) (q : Int) : toFloat ⟨s, .finite m q⟩ =
    Float.ofBits (.ofNat ((if s then twoPow 63 else 0) + magnitudeBits m q)) := rfl

/-- **A number that is put together** has the sign and the value of its parts. -/
theorem ofFloat_toFloat (hm : m < 2 ^ 53) (hq : minExponent ≤ q) (hq' : q ≤ 971) (s : Bool) :
    ∃ m' q', ofFloat (toFloat ⟨s, .finite m q⟩) = ⟨s, .finite m' q'⟩ ∧
      (m' : ℚ) * 2 ^ q' = m * 2 ^ q := by
  obtain ⟨f, hf, ⟨hbits, hvalue⟩ | ⟨e, hpos, hmost, hbits, hvalue⟩⟩ := magnitudeBits_cases hm hq
  · have hexponent : f / 2 ^ 52 = 0 := Nat.div_eq_of_lt hf
    refine ⟨f, minExponent, ?_, hvalue⟩
    rw [toFloat_finite, hbits, ofFloat_ofBits (by omega), if_pos hexponent, Nat.mod_eq_of_lt hf]
  · have hexponent : (e * 2 ^ 52 + f) / 2 ^ 52 = e := by omega
    have hfraction : (e * 2 ^ 52 + f) % 2 ^ 52 = f := by omega
    have hfinite : e < 2047 := by
      rw [minExponent] at hmost
      omega
    refine ⟨2 ^ 52 + f, e + minExponent - 1, ?_, hvalue⟩
    rw [toFloat_finite, hbits, ofFloat_ofBits (by omega), hexponent, hfraction,
      if_neg (Nat.ne_of_gt hpos)]

theorem isNaN_notANumber : (toFloat ⟨false, .notANumber⟩).isNaN = true := by decide +kernel

end Binary

/-! ### Remainders -/

/-- What is left of a number when another one is taken from it as often as it goes into it. The
remainder is exact: it makes the dividend together with a multiple of the divisor, is smaller than
the divisor, and has the sign of the dividend, also if it is zero. -/
inductive IsRemainder (x y : Float) : Float → Prop where
  | exact {z : Float} {a b c : ℚ} {k : ℤ} (hx : exactValue? x = some a)
      (hy : exactValue? y = some b) (hz : exactValue? z = some c) (hsplit : a = b * k + c)
      (hsmall : |c| < |b|) (hsign : hasMinus z = hasMinus x) : IsRemainder x y z
  | whole {a : ℚ} (hx : exactValue? x = some a) (hy : y.isInf = true) : IsRemainder x y x
  | undefined {z : Float}
      (h : exactValue? x = none ∨ exactValue? y = some 0 ∨ y.isNaN = true)
      (hz : z.isNaN = true) : IsRemainder x y z

namespace Binary

variable {x y : Float} {m n : Nat} {q r : Int}

/-- **The remainder of two magnitudes**: with a multiple of the divisor it makes the dividend, it
is smaller than the divisor, and it is no longer than the shorter one of the two significands. -/
theorem exists_remainderParts (hm : m < 2 ^ 53) (hn : n < 2 ^ 53) (hpos : 0 < n) :
    ∃ k c : ℕ, remainderParts m q n r = (c, min q r) ∧ c < 2 ^ 53 ∧
      (m : ℚ) * 2 ^ q = n * 2 ^ r * k + c * 2 ^ min q r ∧
      (c : ℚ) * 2 ^ min q r < n * 2 ^ r := by
  have hdividend := scaled_eq (m := m) (min_le_left q r)
  have hdivisor := scaled_eq (m := n) (min_le_right q r)
  have hless := remainderParts_lt m q n r hpos
  have hparts : remainderParts m q n r =
    (m * twoPow (q - min q r).toNat % (n * twoPow (r - min q r).toNat), min q r) := rfl
  rw [hparts] at hless ⊢
  dsimp only at hless
  refine ⟨m * twoPow (q - min q r).toNat / (n * twoPow (r - min q r).toNat), _, rfl, ?_, ?_, ?_⟩
  · rcases Int.le_total q r with hle | hle
    · refine lt_of_le_of_lt (Nat.mod_le _ _) ?_
      rwa [min_eq_left hle, Int.sub_self, Int.toNat_zero, twoPow_zero, Nat.mul_one]
    · refine hless.trans ?_
      rwa [min_eq_right hle, Int.sub_self, Int.toNat_zero, twoPow_zero, Nat.mul_one]
  · have hdiv := Nat.div_add_mod (m * twoPow (q - min q r).toNat) (n * twoPow (r - min q r).toNat)
    rw [← hdividend, ← hdivisor]
    conv_lhs => rw [← hdiv]
    push_cast
    ring
  · rw [← hdivisor]
    exact mul_lt_mul_of_pos_right (Nat.cast_lt.mpr hless) (by positivity)

/-- The remainder of two finite numbers has the value that it should have: it fits the format. -/
theorem exact_remainder (hx : (ofFloat x).magnitude = .finite m q)
    (hy : (ofFloat y).magnitude = .finite n r) (hn : n ≠ 0) : IsRemainder x y (remainder x y) := by
  obtain ⟨hm, hq, hq'⟩ := bounds_of_finite hx
  obtain ⟨hn', hr, -⟩ := bounds_of_finite hy
  obtain ⟨k, c, hparts, hc, hsplit, hless⟩ :=
    exists_remainderParts (q := q) (r := r) hm hn' (Nat.pos_of_ne_zero hn)
  have hremainder : remainder x y = toFloat ⟨(ofFloat x).negative, .finite c (min q r)⟩ := by
    simp only [remainder, hx, hy, if_neg hn, hparts]
  obtain ⟨c', low, htaken, hvalue⟩ :=
    ofFloat_toFloat hc (le_min hq hr) (min_le_iff.mpr (.inl hq')) (ofFloat x).negative
  rw [← hremainder] at htaken
  have hsign : hasMinus (remainder x y) = hasMinus x := by
    rw [hasMinus_eq, hasMinus_eq, htaken]
  have hz := exactValue?_of_finite (congrArg magnitude htaken)
  rw [hvalue, hsign] at hz
  refine .exact (k := if hasMinus x = hasMinus y then k else -k) (exactValue?_of_finite hx)
    (exactValue?_of_finite hy) hz ?_ ?_ hsign
  · rw [hsplit]
    cases hasMinus x <;> cases hasMinus y <;> simp [signed] <;> ring
  · rwa [abs_signed _ (by positivity), abs_signed _ (by positivity)]

end Binary

/-- **Remainders are exact**, and there is none if the dividend is not finite or the divisor is
zero or not a number. -/
theorem isRemainder_remainder (x y : Float) : IsRemainder x y (remainder x y) := by
  cases hx : (Binary.ofFloat x).magnitude with
  | infinite | notANumber =>
    refine .undefined (.inl (Binary.exactValue?_eq_none (by simp [hx]))) ?_
    simp only [remainder, hx]
    exact Binary.isNaN_notANumber
  | finite m q =>
    cases hy : (Binary.ofFloat y).magnitude with
    | infinite =>
      have hkept : remainder x y = x := by simp only [remainder, hx, hy]
      rw [hkept]
      exact .whole (Binary.exactValue?_of_finite hx)
        (by rw [Binary.isInf_eq, hy, decide_eq_true rfl])
    | notANumber =>
      refine .undefined (.inr (.inr (by rw [Binary.isNaN_eq, hy, decide_eq_true rfl]))) ?_
      simp only [remainder, hx, hy]
      exact Binary.isNaN_notANumber
    | finite n r =>
      by_cases hn : n = 0
      · subst hn
        refine .undefined (.inr (.inl ?_)) ?_
        · rw [Binary.exactValue?_of_finite hy]
          simp [Binary.signed]
        · simp only [remainder, hx, hy, if_pos]
          exact Binary.isNaN_notANumber
      · exact Binary.exact_remainder hx hy hn

/-! ### Decimal places -/

/-- The number of units of the last place is off by half a unit at most. -/
theorem abs_scaledRound_sub_le (places m : Nat) (q : Int) :
    |(scaledRound places m q : ℚ) - m * 2 ^ q * 10 ^ places| ≤ 1 / 2 := by
  rw [scaledRound]
  by_cases hq : 0 ≤ q
  · have hpower : (twoPow q.toNat : ℚ) = 2 ^ q := by
      rw [cast_twoPow, Int.toNat_of_nonneg hq]
    have hexact :
        ((m * tenPow places * twoPow q.toNat : ℕ) : ℚ) - m * 2 ^ q * 10 ^ places = 0 := by
      rw [tenPow_eq_pow, Nat.cast_mul, hpower]
      push_cast
      ring
    rw [if_pos hq, hexact, abs_zero]
    exact one_half_pos.le
  · have hunit : (0 : ℚ) < twoPow (-q).toNat := Nat.cast_pos.mpr (twoPow_pos _)
    have hpower : (twoPow (-q).toNat : ℚ) * 2 ^ q = 1 := by
      rw [cast_twoPow, Int.toNat_of_nonneg (by omega), ← zpow_add₀ two_ne_zero, neg_add_cancel,
        zpow_zero]
    have hmost := two_mul_roundDiv_le (m * tenPow places) (twoPow (-q).toNat)
    have hleast := le_two_mul_roundDiv (m * tenPow places) (twoPow (-q).toNat) (twoPow_pos _)
    rw [if_neg hq]
    generalize roundDiv (m * tenPow places) (twoPow (-q).toNat) = units at hmost hleast
    generalize twoPow (-q).toNat = unit at hmost hleast hunit hpower
    have hvalue : (unit : ℚ) * (m * 2 ^ q * 10 ^ places) = (m * tenPow places : ℕ) := by
      rw [tenPow_eq_pow, mul_assoc, mul_left_comm, ← mul_assoc (unit : ℚ), hpower, one_mul]
      push_cast
      ring
    have hmost' : 2 * ((unit : ℚ) * units) ≤ 2 * (m * tenPow places : ℕ) + unit := by
      exact_mod_cast hmost
    have hleast' : 2 * ((m * tenPow places : ℕ) : ℚ) ≤ 2 * (unit * units) + unit := by
      exact_mod_cast hleast
    rw [← hvalue] at hmost' hleast'
    rw [abs_le]
    constructor <;> nlinarith

section Padded

variable {width n : Nat}

theorem length_paddedDigits (hwidth : 0 < width) (hn : n < tenPow width) :
    (paddedDigits width n).length = width := by
  have hlength := (Nat.length_toDigits_le_iff (by decide : 1 < 10) hwidth).mpr hn
  rw [paddedDigits, List.length_append, List.length_replicate, Nat.sub_add_cancel hlength]

theorem digitsValue_append_paddedDigits (hwidth : 0 < width) (hn : n < tenPow width)
    (whole : List Char) :
    digitsValue (whole ++ paddedDigits width n) = tenPow width * digitsValue whole + n := by
  have hvalue : digitsValue (paddedDigits width n) = n := by
    rw [digitsValue, paddedDigits, Nat.ofDigitChars_append, Nat.ofDigitChars_replicate_zero,
      Nat.mul_zero]
    exact digitsValue_toDigits n
  rw [digitsValue, Nat.ofDigitChars_append, Nat.ofDigitChars_eq_ofDigitChars_zero,
    length_paddedDigits hwidth hn]
  exact congrArg _ hvalue

theorem isNumeral_paddedDigits (width n : Nat) : isNumeral (paddedDigits width n) = true := by
  obtain ⟨-, hdigits⟩ := Bool.and_eq_true_iff.mp (isNumeral_toDigits n)
  simp [isNumeral, paddedDigits, Nat.toDigits_ne_nil, hdigits]

end Padded

/-- **A finite number is written as the nearest decimal** that has so many places. -/
theorem fixedText_nearest {places : Nat} (hplaces : 0 < places) {x : Float} {a : ℚ}
    (hx : exactValue? x = some a) :
    ∃ whole parts : List Char,
      fixedText places x = (if hasMinus x then ['-'] else []) ++ whole ++ '.' :: parts ∧
        isNumeral whole = true ∧ isNumeral parts = true ∧ parts.length = places ∧
        |(digitsValue (whole ++ parts) : ℚ) - |a| * 10 ^ places| ≤ 1 / 2 := by
  obtain ⟨m, q, hparts⟩ : ∃ m q, (Binary.ofFloat x).magnitude = .finite m q := by
    by_contra hnot
    push Not at hnot
    rw [Binary.exactValue?_eq_none hnot] at hx
    cases hx
  rw [Binary.exactValue?_of_finite hparts] at hx
  cases hx
  have hsmall : scaledRound places m q % tenPow places < tenPow places :=
    Nat.mod_lt _ (tenPow_pos places)
  refine ⟨_, _, by rw [fixedText, hparts, Binary.hasMinus_eq], isNumeral_toDigits _,
    isNumeral_paddedDigits _ _, length_paddedDigits hplaces hsmall, ?_⟩
  rw [digitsValue_append_paddedDigits hplaces hsmall, digitsValue_toDigits, Nat.div_add_mod,
    Binary.abs_signed _ (by positivity)]
  exact abs_scaledRound_sub_le places m q

end ScopeScript
