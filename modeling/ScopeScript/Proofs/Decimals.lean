import ScopeScript.Proofs.Lexemes

/-!
# Decimals are numbers

A text of the rule for numbers with a point never reads as "not a number" (`IsFloatText.isNaN`).
Rounding yields a zero or a finite number (`isNaN_roundWithAccuracy`), and so do products and
quotients by a power of ten, up to an infinity on the left (`isNaN_mul`, `isNaN_div`). Packing a
number into bits does not lose this (`isNaN_pack`).
-/

namespace ScopeScript

open Float.Model Float.Model.UnpackedFloat

/-! ### Packing -/

/-- The exponent of bits that are packed has all bits set only for an infinity, which has no
fraction. -/
theorem unpackMantissa_pack {x : UnpackedFloat} (h : x.isNaN = false)
    (hexponent : unpackExponent (UnpackedFloat.pack .binary64 x) = -1#_) :
    unpackMantissa (UnpackedFloat.pack .binary64 x) = 0#_ := by
  cases x with
  | notANumber => cases h
  | infinity s =>
    show unpackMantissa (packedInfinity .binary64 s) = 0#_
    simp [packedInfinity]
  | zero s =>
    show unpackMantissa (packedZero .binary64 s) = 0#_
    simp [packedZero]
  | finite s m e hm =>
    delta UnpackedFloat.pack at hexponent ⊢
    dsimp only at hexponent ⊢
    split
    · simp [packedInfinity]
    · rename_i hsmall
      rw [if_neg hsmall] at hexponent
      split at hexponent
      · rw [unpackExponent_packComponents] at hexponent
        have hvalue := congrArg BitVec.toNat hexponent
        rw [BitVec.toNat_ofNat] at hvalue
        simp at hvalue hsmall
        omega
      · rw [unpackExponent_packComponents] at hexponent
        cases hexponent

theorem isNaN_unpack (b : BitVec Format.binary64.numBits)
    (h : unpackExponent b = -1#_ → unpackMantissa b = 0#_) :
    (UnpackedFloat.unpack .binary64 b).isNaN = false := by
  unfold UnpackedFloat.unpack
  dsimp only
  by_cases hexponent : unpackExponent b = -1#_
  · rw [if_pos hexponent, if_pos (h hexponent)]
    rfl
  rw [if_neg hexponent]
  by_cases hsubnormal : unpackExponent b = 0#_
  · rw [if_pos hsubnormal]
    by_cases hzero : unpackMantissa b = 0#_
    · rw [dif_pos hzero]
      rfl
    · rw [dif_neg hzero]
      rfl
  · rw [if_neg hsubnormal]
    rfl

theorem isNaN_pack {x : UnpackedFloat} (h : x.isNaN = false) : (Float.Model.pack x).isNaN = false :=
  isNaN_unpack _ (unpackMantissa_pack h)

/-! ### Arithmetic -/

theorem isNaN_roundWithAccuracy (s : Sign) (m : Nat) (e : Int) (accuracy : Accuracy) :
    (roundWithAccuracy .binary64 s m e accuracy).isNaN = false := by
  unfold roundWithAccuracy
  dsimp only
  generalize shiftToTargetExponent _ _ _ Accuracy.exact = final
  by_cases hzero : final.1.mantissa = 0
  · rw [dif_pos hzero]
    rfl
  · rw [dif_neg hzero]
    rfl

/-- Whether the number is finite and not zero. -/
def isRegular : UnpackedFloat → Bool
  | .finite .. => true
  | _ => false

theorem isNaN_mul {x y : UnpackedFloat} (hx : x.isNaN = false) (hy : isRegular y = true) :
    (UnpackedFloat.mul .binary64 x y).isNaN = false := by
  cases y with
  | finite =>
    cases x with
    | notANumber => cases hx
    | finite => exact isNaN_roundWithAccuracy _ _ _ _
    | _ => rfl
  | _ => cases hy

theorem isNaN_div {x y : UnpackedFloat} (hx : x.isNaN = false) (hy : isRegular y = true) :
    (UnpackedFloat.div .binary64 x y).isNaN = false := by
  cases y with
  | finite =>
    cases x with
    | notANumber => cases hx
    | finite => exact isNaN_roundWithAccuracy _ _ _ _
    | _ => rfl
  | _ => cases hy

theorem isNaN_ofNat (n : Nat) : (UnpackedFloat.ofNat .binary64 n).isNaN = false := by
  simp only [UnpackedFloat.ofNat, UnpackedFloat.ofInt, UnpackedFloat.normalize]
  split
  · exact isNaN_roundWithAccuracy _ _ _ _
  · rfl
  · exact isNaN_roundWithAccuracy _ _ _ _

theorem isNaN_neg {x : Float} (h : x.isNaN = false) : (-x).isNaN = false := by
  refine isNaN_pack ?_
  change x.toModel.unpack.isNaN = false at h
  cases hx : x.toModel.unpack with
  | notANumber =>
    rw [hx] at h
    cases h
  | _ => rfl

/-! ### Powers of ten -/

theorem isRegular_powerOfTen :
    ∀ i : Fin 23, isRegular (Float.exactlyRepresentablePowersOfTen[i]).toModel.unpack = true := by
  decide +kernel

theorem isNaN_scaled (m : Nat) (e : Int) :
    (UnpackedFloat.ofScientific .binary64 m e).isNaN = false := by
  unfold UnpackedFloat.ofScientific
  by_cases hm : m = 0
  · rw [dif_pos hm]
    rfl
  rw [dif_neg hm]
  by_cases hlarge : e > 2 ^ Format.binary64.exponentBits
  · rw [if_pos hlarge]
    rfl
  rw [if_neg hlarge]
  by_cases hsmall : e < -((2 ^ Format.binary64.exponentBits : Int) + m.log2)
  · rw [if_pos hsmall]
    rfl
  rw [if_neg hsmall]
  by_cases hsign : 0 ≤ e
  · rw [if_pos hsign]
    exact isNaN_roundWithAccuracy _ _ _ _
  · rw [if_neg hsign]
    exact isNaN_roundWithAccuracy _ _ _ _

/-- **A decimal is a number**, whether it is computed exactly or by rounding. -/
theorem isNaN_ofScientific (m : Nat) (s : Bool) (e : Nat) :
    (Float.ofScientific m s e).isNaN = false := by
  unfold Float.ofScientific
  by_cases hexact : m < 2 ^ 53 ∧ e ≤ 22
  · rw [dif_pos hexact]
    have hten := isRegular_powerOfTen ⟨e, by omega⟩
    have hm : (Float.Model.pack (UnpackedFloat.ofNat .binary64 m.toUInt64.toNat)).isNaN = false :=
      isNaN_pack (isNaN_ofNat _)
    cases s with
    | true => exact isNaN_pack (isNaN_div hm hten)
    | false => exact isNaN_pack (isNaN_mul hm hten)
  · rw [dif_neg hexact]
    exact isNaN_pack (isNaN_scaled m _)

theorem isNaN_infinite : (Binary.toFloat ⟨false, .infinite⟩).isNaN = false := by decide +kernel

theorem Decimal.isNaN_toFloat (d : Decimal) : d.toFloat.isNaN = false := by
  unfold Decimal.toFloat
  simp only
  split
  · exact isNaN_ofScientific _ _ _
  · split
    · exact isNaN_infinite
    · exact isNaN_ofScientific _ _ _

/-! ### Texts -/

/-- A text that begins with a digit or a point is no word. -/
theorem isNaN_of_readMagnitude? {cs : List Char}
    (hhead : ∀ c ∈ cs.head?, c.isDigit = true ∨ c = '.') {x : Float}
    (h : readMagnitude? cs = some x) : x.isNaN = false := by
  have hword : ∀ word : List Char, word.head? = some 'n' → cs.map Char.toLower ≠ word := by
    rintro word hword rfl
    rw [List.head?_map] at hword
    obtain ⟨c, hc, hlower⟩ := Option.map_eq_some_iff.mp hword
    rcases hhead c hc with hdigit | rfl
    · have hnotUpper : ¬(c.val ≥ 'A'.val ∧ c.val ≤ 'Z'.val) := by
        simp only [Char.isDigit, Bool.and_eq_true, decide_eq_true_eq,
          UInt32.le_iff_toNat_le] at hdigit
        have hle : c.val.toNat ≤ 57 := hdigit.2
        rintro ⟨hge, -⟩
        have hge' : 65 ≤ c.val.toNat := UInt32.le_iff_toNat_le.mp hge
        omega
      have hkept : c.toLower = c := dif_neg hnotUpper
      rw [hkept] at hlower
      subst hlower
      cases hdigit
    · revert hlower
      decide
  unfold readMagnitude? at h
  simp only at h
  split at h
  · cases h
    exact isNaN_infinite
  · split at h
    · rename_i hnan
      exact absurd hnan (hword _ rfl)
    · obtain ⟨d, -, rfl⟩ := Option.map_eq_some_iff.mp h
      exact d.isNaN_toFloat

/-- **What a number with a point reads as is a number.** -/
theorem IsFloatText.isNaN {cs : List Char} (hcs : IsFloatText cs) {x : Float}
    (h : ScopeScript.readFloat? cs = some x) : x.isNaN = false := by
  obtain ⟨sign, hsign, whole, hwhole, places, hplaces, rfl⟩ := hcs
  have hhead : ∀ c ∈ (whole ++ '.' :: places).head?, c.isDigit = true ∨ c = '.' := by
    intro c hc
    cases whole with
    | nil =>
      cases hc
      exact .inr rfl
    | cons d whole =>
      cases hc
      exact .inl (List.all_eq_true.mp hwhole c List.mem_cons_self)
  have hsplit := splitSign_append hsign fun c hc => by
    rcases hhead c hc with hdigit | rfl
    · constructor <;> rintro rfl <;> cases hdigit
    · decide
  simp only [ScopeScript.readFloat?, hsplit] at h
  obtain ⟨y, hy, rfl⟩ := Option.map_eq_some_iff.mp h
  have hnumber := isNaN_of_readMagnitude? hhead hy
  split
  · exact isNaN_neg hnumber
  · exact hnumber

end ScopeScript
