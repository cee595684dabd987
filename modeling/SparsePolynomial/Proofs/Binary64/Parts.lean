import Mathlib
import SparsePolynomial.Binary64.Basic

/-!
Contract: a binary64 number is its sign and its rank.

Owns:
- `unpacked`, what the arithmetic of `Float` sees of a sign and a rank;
- `ofParts`, the number of a sign and a rank, with `ofParts_sign_rank`: every number is made of its
  own two parts, and NaN of any rank past infinity;
- negation, absolute value and `ofRank` said through the parts.

Does not own: comparison (`Proofs.Binary64.Order`) and arithmetic (`Proofs.Binary64.Exact`).
-/

set_option autoImplicit false

namespace SparsePolynomial.Binary64

open Float.Model (UnpackedFloat Format)
open Float.Model.UnpackedFloat (Sign packComponents unpackMantissa unpackExponent unpackSign)

theorem halvings_eq : halvings = 1074 := by
  unfold halvings
  rfl

theorem binade_eq : binade = 4503599627370496 := rfl

theorem infinityRank_eq : infinityRank = 9218868437227405312 := rfl

theorem signBit_eq : signBit = 9223372036854775808 := rfl

theorem significand_pos {r : Nat} (positive : 0 < r) : 0 < significand r := by
  unfold significand
  split
  · exact positive
  · exact Nat.add_pos_left (by decide) _

theorem significand_lt (r : Nat) : significand r < 2 * binade := by
  have below : r % binade < binade := Nat.mod_lt _ (by decide)
  unfold significand
  split <;> omega

/-- What a sign and a rank unpack to. -/
def unpacked (sign : Sign) (r : Nat) : UnpackedFloat :=
  if r < infinityRank then
    if positive : 0 < r then
      .finite sign (significand r) (scale r - halvings) (significand_pos positive)
    else .zero sign
  else if r = infinityRank then .infinity sign
  else .notANumber

/-- The sign bit of a number. -/
def sign (x : Float) : Sign := if IsNegative x then .negative else .positive

/-- The number of a sign and a rank. -/
def ofParts (sign : Sign) (r : Nat) : Float :=
  Float.ofModel (Float.Model.pack (unpacked sign r))

theorem zero_eq_ofParts : (0.0 : Float) = ofParts .positive 0 := by decide

theorem unpacked_zero (s : Sign) : unpacked s 0 = .zero s := rfl

theorem unpacked_infinityRank (s : Sign) : unpacked s infinityRank = .infinity s := rfl

theorem unpacked_of_finite (s : Sign) {r : Nat} (positive : 0 < r) (finite : r < infinityRank) :
    unpacked s r =
      .finite s (significand r) (scale r - halvings) (significand_pos positive) := by
  rw [unpacked, if_pos finite, dif_pos positive]

theorem unpacked_of_nan (s : Sign) {r : Nat} (nan : infinityRank < r) :
    unpacked s r = .notANumber := by
  rw [unpacked, if_neg (by omega), if_neg (by omega)]

/-! ## Unpacking -/

private theorem toNat_unpackMantissa (bits : BitVec 64) :
    (@unpackMantissa .binary64 bits).toNat = bits.toNat % signBit % binade := by
  have mantissa : (@unpackMantissa .binary64 bits).toNat = bits.toNat % binade := by
    simp [unpackMantissa, binade_eq]
  rw [mantissa, signBit_eq, binade_eq]
  omega

private theorem toNat_unpackExponent (bits : BitVec 64) :
    (@unpackExponent .binary64 bits).toNat = bits.toNat % signBit / binade := by
  have exponent : (@unpackExponent .binary64 bits).toNat = bits.toNat / binade % 2048 := by
    simp [unpackExponent, Nat.shiftRight_eq_div_pow, binade_eq]
  rw [exponent, signBit_eq, binade_eq]
  omega

private theorem toNat_unpackSign (bits : BitVec 64) :
    (@unpackSign .binary64 bits).toNat = bits.toNat / signBit := by
  have bound : bits.toNat < 18446744073709551616 := bits.isLt
  simp only [unpackSign, BitVec.extractLsb, BitVec.extractLsb', Nat.shiftRight_eq_div_pow,
    BitVec.toNat_cast, BitVec.toNat_ofNat, signBit_eq]
  change bits.toNat / 9223372036854775808 % 2 = bits.toNat / 9223372036854775808
  omega

private theorem ofBitVec_unpackSign (bits : BitVec 64) :
    Sign.ofBitVec (@unpackSign .binary64 bits) =
      if signBit ≤ bits.toNat then .negative else .positive := by
  have bound : bits.toNat < 18446744073709551616 := bits.isLt
  have bit : @unpackSign .binary64 bits = 0#1 ↔ ¬ signBit ≤ bits.toNat := by
    rw [← BitVec.toNat_inj, toNat_unpackSign, signBit_eq]
    change bits.toNat / 9223372036854775808 = 0 ↔ _
    omega
  unfold Sign.ofBitVec
  by_cases negative : signBit ≤ bits.toNat
  · rw [if_neg (fun zero => bit.mp zero negative), if_pos negative]
  · rw [if_pos (bit.mpr negative), if_neg negative]

private theorem toNat_leadingOne (fraction : BitVec 52) :
    (1#1 ++ fraction).toNat = binade + fraction.toNat := by
  rw [BitVec.toNat_append, ← Nat.shiftLeft_add_eq_or_of_lt fraction.isLt]
  rfl

private theorem finite_congr {s : Sign} {m m' : Nat} {e e' : Int} {positive : 0 < m}
    {positive' : 0 < m'} (mantissas : m = m') (exponents : e = e') :
    UnpackedFloat.finite s m e positive = .finite s m' e' positive' := by
  subst mantissas exponents
  rfl

/-- All bits of the exponent are set from infinity on. -/
private theorem unpackExponent_eq_ones (bits : BitVec 64) :
    @unpackExponent .binary64 bits = -1#_ ↔ infinityRank ≤ bits.toNat % signBit := by
  rw [← BitVec.toNat_inj, toNat_unpackExponent, binade_eq, infinityRank_eq, signBit_eq]
  change _ = 2047 ↔ _
  omega

private theorem unpackExponent_eq_zero (bits : BitVec 64) :
    @unpackExponent .binary64 bits = 0#_ ↔ bits.toNat % signBit < binade := by
  rw [← BitVec.toNat_inj, toNat_unpackExponent, binade_eq]
  change _ = 0 ↔ _
  omega

private theorem unpackMantissa_eq_zero (bits : BitVec 64) :
    @unpackMantissa .binary64 bits = 0#_ ↔ bits.toNat % signBit % binade = 0 := by
  rw [← BitVec.toNat_inj, toNat_unpackMantissa]
  rfl

private theorem mod_binade_eq_zero {r : Nat} (least : infinityRank ≤ r) (bound : r < signBit) :
    r % binade = 0 ↔ r = infinityRank := by
  rw [signBit_eq] at bound
  rw [infinityRank_eq] at least ⊢
  rw [binade_eq]
  omega

private theorem unpack_word (bits : BitVec 64) :
    UnpackedFloat.unpack .binary64 bits =
      unpacked (if signBit ≤ bits.toNat then .negative else .positive) (bits.toNat % signBit) := by
  have mantissa := toNat_unpackMantissa bits
  have exponent := toNat_unpackExponent bits
  have exponentOnes := unpackExponent_eq_ones bits
  have exponentZero := unpackExponent_eq_zero bits
  have mantissaZero := unpackMantissa_eq_zero bits
  have bound : bits.toNat % signBit < signBit := Nat.mod_lt _ (by decide)
  have bias : (Format.binary64.exponentBias : Int) = 1023 := rfl
  generalize bits.toNat % signBit = r at *
  unfold UnpackedFloat.unpack unpacked
  simp only [ofBitVec_unpackSign, exponentOnes, exponentZero, mantissaZero]
  rcases Nat.lt_or_ge r infinityRank with finite | notFinite
  · rw [if_neg (Nat.not_le.mpr finite), if_pos finite]
    rcases Nat.lt_or_ge r binade with subnormal | normal
    · rw [if_pos subnormal]
      have remainder : r % binade = r := Nat.mod_eq_of_lt subnormal
      by_cases zero : r = 0
      · rw [dif_pos (by rw [remainder, zero]), dif_neg (by omega)]
      · rw [dif_neg (by rw [remainder]; exact zero), dif_pos (by omega)]
        apply finite_congr
        · rw [mantissa, significand, if_pos subnormal, remainder]
        · rw [exponent, scale, Nat.div_eq_of_lt subnormal, halvings_eq, bias]
          omega
    · have nonzero : 0 < r := Nat.lt_of_lt_of_le (by decide) normal
      rw [if_neg (Nat.not_lt.mpr normal), dif_pos nonzero]
      apply finite_congr
      · rw [toNat_leadingOne, mantissa, significand, if_neg (Nat.not_lt.mpr normal)]
      · rw [exponent, scale, halvings_eq, bias]
        rw [binade_eq] at normal ⊢
        omega
  · rw [if_pos notFinite, if_neg (Nat.not_lt.mpr notFinite)]
    simp only [mod_binade_eq_zero notFinite bound]

/-- A number unpacks to what its sign and its rank say. -/
theorem unpack_toModel (x : Float) : x.toModel.unpack = unpacked (sign x) (rank x) :=
  unpack_word x.toBits.toBitVec

/-! ## Packing -/

/-- The bits of a sign. -/
def signBits : Sign → Nat
  | .negative => signBit
  | .positive => 0

private theorem toNat_packComponents (s : Sign) (exponent : BitVec 11) (mantissa : BitVec 52) :
    (packComponents .binary64 s exponent mantissa).toNat =
      signBits s + exponent.toNat * binade + mantissa.toNat := by
  change (s.toBitVec ++ exponent ++ mantissa).toNat = _
  rw [BitVec.toNat_append, ← Nat.shiftLeft_add_eq_or_of_lt mantissa.isLt, BitVec.toNat_append,
    ← Nat.shiftLeft_add_eq_or_of_lt exponent.isLt]
  cases s with
  | negative =>
      change (1 <<< 11 + exponent.toNat) <<< 52 + mantissa.toNat = _
      rw [signBits, signBit_eq, binade_eq, Nat.shiftLeft_eq]
      omega
  | positive =>
      change (0 <<< 11 + exponent.toNat) <<< 52 + mantissa.toNat = _
      rw [signBits, binade_eq, Nat.shiftLeft_eq]
      omega

theorem log2_significand_of_normal {r : Nat} (normal : binade ≤ r) :
    (significand r).log2 = 52 := by
  have low : binade ≤ significand r := by
    unfold significand
    split <;> omega
  have nonzero : significand r ≠ 0 := by
    have : 0 < binade := by decide
    omega
  exact (Nat.log2_eq_iff nonzero).mpr ⟨low, significand_lt r⟩

theorem log2_significand_of_subnormal {r : Nat} (positive : 0 < r) (subnormal : r < binade) :
    (significand r).log2 < 52 := by
  rw [significand, if_pos subnormal]
  exact (Nat.log2_lt (Nat.ne_of_gt positive)).mpr subnormal

private theorem toNat_pack_unpacked (s : Sign) {r : Nat} (atMost : r ≤ infinityRank) :
    (UnpackedFloat.pack .binary64 (unpacked s r)).toNat = signBits s + r := by
  unfold unpacked
  rcases Nat.lt_or_ge r infinityRank with finite | notFinite
  · rw [if_pos finite]
    by_cases zero : r = 0
    · rw [dif_neg (by omega), zero]
      exact toNat_packComponents s 0 0
    · rw [dif_pos (by omega)]
      have biased : ((scale r : Int) - halvings + (Format.binary64.exponentBias : Int) +
          (Format.binary64.mantissaBitsWithoutImplicit : Int)).toNat = scale r + 1 := by
        change ((scale r : Int) - halvings + (1023 : Int) + (52 : Int)).toNat = scale r + 1
        rw [halvings_eq]
        omega
      have small : scale r + 2 < 2048 := by
        rw [infinityRank_eq] at finite
        rw [scale, binade_eq]
        omega
      simp only [UnpackedFloat.pack, biased]
      rw [if_neg (by change ¬ 2048 ≤ scale r + 1 + 1; omega)]
      rcases Nat.lt_or_ge r binade with subnormal | normal
      · have short := log2_significand_of_subnormal (by omega) subnormal
        rw [if_neg (by change ¬ (significand r).log2 + 1 = 53; omega), toNat_packComponents,
          BitVec.toNat_ofNat, BitVec.toNat_ofNat, significand, if_pos subnormal]
        rw [binade_eq] at *
        omega
      · rw [if_pos (by rw [log2_significand_of_normal normal]; rfl), toNat_packComponents,
          BitVec.toNat_ofNat, BitVec.toNat_ofNat, significand, if_neg (Nat.not_lt.mpr normal),
          scale]
        rw [scale] at small
        rw [binade_eq] at *
        omega
  · have infinite : r = infinityRank := Nat.le_antisymm atMost notFinite
    rw [if_neg (Nat.not_lt.mpr notFinite), if_pos infinite, infinite]
    exact toNat_packComponents s _ _

private theorem toNat_toBits_ofParts (s : Sign) {r : Nat} (atMost : r ≤ infinityRank) :
    (ofParts s r).toBits.toNat = signBits s + r :=
  toNat_pack_unpacked s atMost

theorem rank_ofParts (s : Sign) {r : Nat} (atMost : r ≤ infinityRank) :
    rank (ofParts s r) = r := by
  rw [rank, toNat_toBits_ofParts s atMost]
  rw [infinityRank_eq] at atMost
  cases s <;> rw [signBits, signBit_eq] <;> omega

theorem sign_ofParts (s : Sign) {r : Nat} (atMost : r ≤ infinityRank) :
    sign (ofParts s r) = s := by
  have bits := toNat_toBits_ofParts s atMost
  rw [infinityRank_eq] at atMost
  cases s with
  | negative => exact if_pos (by rw [IsNegative, bits]; exact Nat.le_add_right _ _)
  | positive => exact if_neg (by rw [IsNegative, bits, signBits, signBit_eq]; omega)

/-! ## A number is its parts -/

theorem eq_of_toBits {x y : Float} (bits : x.toBits = y.toBits) : x = y := by
  rcases x with ⟨⟨word, valid⟩⟩
  rcases y with ⟨⟨other, otherValid⟩⟩
  change word = other at bits
  subst bits
  rfl

theorem toNat_toBits (x : Float) : x.toBits.toNat = signBits (sign x) + rank x := by
  have bound : x.toBits.toNat < 18446744073709551616 := x.toBits.toNat_lt
  unfold rank sign
  by_cases negative : IsNegative x
  · rw [if_pos negative, signBits]
    unfold IsNegative at negative
    rw [signBit_eq] at negative ⊢
    omega
  · rw [if_neg negative, signBits]
    unfold IsNegative at negative
    rw [signBit_eq] at negative ⊢
    omega

theorem eq_of_sign_of_rank {x y : Float} (signs : sign x = sign y) (ranks : rank x = rank y) :
    x = y := by
  apply eq_of_toBits
  rw [← UInt64.toNat_inj, toNat_toBits, toNat_toBits, signs, ranks]

theorem eq_ofParts {x : Float} {s : Sign} {r : Nat} (atMost : r ≤ infinityRank)
    (bits : x.toBits.toNat = signBits s + r) : x = ofParts s r := by
  apply eq_of_toBits
  rw [← UInt64.toNat_inj, bits, toNat_toBits_ofParts s atMost]

/-- A finite number that is packed has a rank which does not depend on its sign. -/
private theorem exists_pack_finite (m : Nat) (e : Int) (positive : 0 < m) :
    ∃ r ≤ infinityRank, ∀ s,
      Float.ofModel (Float.Model.pack (.finite s m e positive)) = ofParts s r := by
  obtain ⟨biased, isBiased⟩ : ∃ biased, biased = (e + (Format.binary64.exponentBias : Int) +
      (Format.binary64.mantissaBitsWithoutImplicit : Int)).toNat := ⟨_, rfl⟩
  rcases Nat.lt_or_ge (biased + 1) (2 ^ Format.binary64.exponentBits) with small | large
  · have exponent : biased + 1 < 2048 := small
    have packed : ∃ (digits : BitVec 11) (mantissa : BitVec 52), digits.toNat ≤ 2046 ∧ ∀ s,
        UnpackedFloat.pack .binary64 (.finite s m e positive) =
          packComponents .binary64 s digits mantissa := by
      simp only [UnpackedFloat.pack, ← isBiased, if_neg (Nat.not_le.mpr small)]
      by_cases normal : m.log2 + 1 = Format.binary64.mantissaBits
      · refine ⟨BitVec.ofNat 11 biased, BitVec.ofNat 52 m, ?_, fun s => if_pos normal⟩
        rw [BitVec.toNat_ofNat]
        omega
      · exact ⟨0, BitVec.ofNat 52 m, Nat.zero_le _, fun s => if_neg normal⟩
    obtain ⟨digits, mantissa, finite, same⟩ := packed
    have atMost : digits.toNat * binade + mantissa.toNat ≤ infinityRank := by
      have below := mantissa.isLt
      rw [binade_eq, infinityRank_eq]
      omega
    refine ⟨_, atMost, fun s => eq_ofParts atMost ?_⟩
    change (UnpackedFloat.pack .binary64 (.finite s m e positive)).toNat = _
    rw [same, toNat_packComponents, Nat.add_assoc]
  · refine ⟨infinityRank, Nat.le_refl _, fun s => eq_ofParts (Nat.le_refl _) ?_⟩
    change (UnpackedFloat.pack .binary64 (.finite s m e positive)).toNat = _
    simp only [UnpackedFloat.pack, ← isBiased, if_pos large]
    exact toNat_packComponents s _ _

private theorem ofParts_of_nan (s : Sign) {x : Float} (nan : IsNaN x) :
    ofParts s (rank x) = x := by
  have past : infinityRank < rank x := nan
  have bound : rank x < signBit := Nat.mod_lt _ (by decide)
  have ones : @unpackExponent .binary64 x.toBits.toBitVec = -1#_ :=
    (unpackExponent_eq_ones _).mpr (Nat.le_of_lt past)
  have nonzero : @unpackMantissa .binary64 x.toBits.toBitVec ≠ 0#_ := by
    intro zero
    have remainder : rank x % binade = 0 := (unpackMantissa_eq_zero _).mp zero
    exact Nat.ne_of_gt past ((mod_binade_eq_zero (Nat.le_of_lt past) bound).mp remainder)
  apply eq_of_toBits
  change UInt64.ofBitVec (UnpackedFloat.pack .binary64 (unpacked s (rank x))) = x.toBits
  rw [unpacked_of_nan s nan]
  exact UInt64.toBitVec_inj.mp (x.toModel.valid.eq_packedNaN ones nonzero).symm

/-- Every number is made of its own sign and rank; for NaN any sign does. -/
theorem ofParts_sign_rank (x : Float) : ofParts (sign x) (rank x) = x := by
  rcases Nat.lt_or_ge infinityRank (rank x) with nan | atMost
  · exact ofParts_of_nan _ nan
  · exact eq_of_sign_of_rank (sign_ofParts _ atMost) (rank_ofParts _ atMost)

/-! ## Operations on the sign -/

theorem neg_unpacked (s : Sign) (r : Nat) : (unpacked s r).neg = unpacked (-s) r := by
  unfold unpacked
  split
  · split <;> rfl
  · split <;> rfl

private theorem abs_unpacked (s : Sign) (r : Nat) :
    (unpacked s r).abs = unpacked .positive r := by
  unfold unpacked
  split
  · split <;> rfl
  · split <;> rfl

theorem neg_eq_ofParts (x : Float) : -x = ofParts (-sign x) (rank x) := by
  change Float.ofModel (Float.Model.pack x.toModel.unpack.neg) = _
  rw [unpack_toModel, neg_unpacked]
  rfl

theorem neg_ofParts (s : Sign) {r : Nat} (atMost : r ≤ infinityRank) :
    -ofParts s r = ofParts (-s) r := by
  rw [neg_eq_ofParts, sign_ofParts s atMost, rank_ofParts s atMost]

/-- Negation and packing can be exchanged, also where packing gives an infinity. -/
theorem neg_pack (u : UnpackedFloat) :
    -Float.ofModel (Float.Model.pack u) = Float.ofModel (Float.Model.pack u.neg) := by
  cases u with
  | notANumber => decide
  | infinity s => cases s <;> decide
  | zero s => cases s <;> decide
  | finite s m e positive =>
      obtain ⟨r, atMost, packed⟩ := exists_pack_finite m e positive
      rw [packed, neg_ofParts s atMost]
      exact (packed (-s)).symm

theorem abs_eq_ofParts (x : Float) : x.abs = ofParts .positive (rank x) := by
  change Float.ofModel (Float.Model.pack x.toModel.unpack.abs) = _
  rw [unpack_toModel, abs_unpacked]
  rfl

theorem ofRank_eq_ofParts {r : Nat} (atMost : r ≤ infinityRank) :
    ofRank r = ofParts .positive r := by
  have small : r < 9223372036854775808 := by
    rw [infinityRank_eq] at atMost
    omega
  have word : (UInt64.ofNat r).toBitVec.toNat = r := by
    change r % 18446744073709551616 = r
    omega
  rw [ofRank_of_le atMost]
  change Float.ofModel
    (Float.Model.pack (UnpackedFloat.unpack .binary64 (UInt64.ofNat r).toBitVec)) = _
  rw [unpack_word, word, signBit_eq, Nat.mod_eq_of_lt small, if_neg (by omega)]
  rfl

theorem neg_of_nan {x : Float} (nan : IsNaN x) : -x = x := by
  rw [neg_eq_ofParts, ofParts_of_nan _ nan]

private theorem ofParts_of_lt {r : Nat} (nan : infinityRank < r) (s t : Sign) :
    ofParts s r = ofParts t r := by
  unfold ofParts
  rw [unpacked_of_nan s nan, unpacked_of_nan t nan]

theorem rank_neg (x : Float) : rank (-x) = rank x := by
  rw [neg_eq_ofParts]
  rcases Nat.lt_or_ge infinityRank (rank x) with nan | atMost
  · rw [ofParts_of_lt nan _ (sign x), ofParts_sign_rank]
  · exact rank_ofParts _ atMost

theorem rank_abs (x : Float) : rank x.abs = rank x := by
  rw [abs_eq_ofParts]
  rcases Nat.lt_or_ge infinityRank (rank x) with nan | atMost
  · rw [ofParts_of_lt nan _ (sign x), ofParts_sign_rank]
  · exact rank_ofParts _ atMost

end SparsePolynomial.Binary64
