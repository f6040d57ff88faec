import Mathlib
import ViewBinding.Document

/-! Integers as floating-point numbers. Below `2 ^ 53` every integer is the number that it is
exported as, so a number that was exported is exported the same again. -/

namespace ViewBinding.Decimal

open Float.Model
open Float.Model.UnpackedFloat

variable {s : Sign} {m n : Nat} {e : Int}

structure Normal (m : Nat) (e : Int) : Prop where
  le : 2 ^ 52 ≤ m
  lt : m < 2 ^ 53
  low : -1074 ≤ e
  high : e ≤ 971

namespace Normal

theorem pos (h : Normal m e) : 0 < m := Nat.lt_of_lt_of_le (by decide) h.le

theorem log2_mul (h : Normal m e) (j : Nat) : (m * 2 ^ j).log2 = 52 + j := by
  have hpos : m * 2 ^ j ≠ 0 := Nat.mul_ne_zero (Nat.ne_of_gt h.pos) (by simp)
  have hpow : 0 < 2 ^ j := Nat.two_pow_pos j
  rw [Nat.log2_eq_iff hpos, Nat.pow_add, Nat.add_right_comm, Nat.pow_add]
  exact ⟨Nat.mul_le_mul_right _ h.le, Nat.mul_lt_mul_of_pos_right h.lt hpow⟩

end Normal

theorem sign_pack (s : Sign) (x : BitVec 11) (y : BitVec 52) :
    Sign.ofBitVec (unpackSign (packComponents Format.binary64 s x y)) = s := by
  have hbit : unpackSign (packComponents Format.binary64 s x y) = s.toBitVec := by
    show (s.toBitVec ++ x ++ y).extractLsb' 63 1 = _
    rw [BitVec.extractLsb'_append_eq_of_le (by decide),
      BitVec.extractLsb'_append_eq_of_le (by decide)]
    simp
  rw [hbit]
  cases s <;> rfl

/-- Packing loses nothing of a number with a significand of full length. -/
theorem unpack_pack (h : Normal m e) : (Float.Model.pack (.finite s m e h.pos)).unpack =
    .finite s m e h.pos := by
  have hlog : m.log2 = 52 := by simpa using h.log2_mul 0
  obtain ⟨hle, hlt, hlow, hhigh⟩ := h
  -- The biased exponent is neither that of the smallest numbers nor that of infinity.
  have hbias : (e + Format.binary64.exponentBias +
      Format.binary64.mantissaBitsWithoutImplicit).toNat = (e + 1075).toNat := by
    have hb : (Format.binary64.exponentBias : Int) = 1023 := rfl
    rw [hb]
    congr 1
    show e + 1023 + 52 = _
    omega
  have hexp : (BitVec.ofNat 11 (e + 1075).toNat).toNat = (e + 1075).toNat := by
    rw [BitVec.toNat_ofNat, Nat.mod_eq_of_lt (by omega)]
  have hone : BitVec.ofNat 11 (e + 1075).toNat ≠ -1#11 := by
    intro he
    have he := congrArg BitVec.toNat he
    rw [hexp] at he
    simp at he
    omega
  have hzero : BitVec.ofNat 11 (e + 1075).toNat ≠ 0#11 := by
    intro he
    have he := congrArg BitVec.toNat he
    rw [hexp] at he
    simp at he
    omega
  have hm : (1#1 ++ BitVec.ofNat 52 m).toNat = m := by
    rw [BitVec.toNat_append, ← Nat.shiftLeft_add_eq_or_of_lt (BitVec.ofNat 52 m).isLt,
      BitVec.toNat_ofNat, Nat.shiftLeft_eq]
    simp
    omega
  have hpack : UnpackedFloat.pack Format.binary64 (.finite s m e (by omega)) =
      packComponents Format.binary64 s (BitVec.ofNat 11 (e + 1075).toNat) (BitVec.ofNat 52 m) := by
    rw [UnpackedFloat.pack]
    simp only [hlog, hbias]
    rw [if_neg (by omega), if_pos (by decide)]
  show UnpackedFloat.unpack Format.binary64 (UnpackedFloat.pack Format.binary64 _) = _
  rw [hpack, UnpackedFloat.unpack]
  simp only [unpackMantissa_packComponents, unpackExponent_packComponents, sign_pack, hone, hzero,
    if_false, hm, hexp]
  congr 1
  show ((e + 1075).toNat : Int) - (1023 + 52) = e
  omega

theorem shiftRight_exact (m j : Nat) : (⟨m * 2 ^ j, false, false⟩ : ExtendedMantissa) >>> j =
    ⟨m, false, false⟩ := by
  show j.repeat ExtendedMantissa.shiftRightOne _ = _
  induction j generalizing m with
  | zero => simp [Nat.repeat]
  | succ j ih =>
    have hdouble : m * 2 ^ (j + 1) = m * 2 * 2 ^ j := by
      rw [Nat.pow_succ, Nat.mul_assoc, Nat.mul_comm 2]
    rw [Nat.repeat, hdouble, ih, ExtendedMantissa.shiftRightOne]
    simp

theorem shiftToTargetExponent_exact (h : Normal m e) (j : Nat) :
    shiftToTargetExponent Format.binary64 (m * 2 ^ j) (e - j) .exact = (⟨m, false, false⟩, e) := by
  have htarget : Format.binary64.targetExponent (totalExponent (m * 2 ^ j) (e - j)) = e := by
    rw [totalExponent, h.log2_mul j, Format.targetExponent]
    show max (((52 + j : Nat) : Int) + 1 + (e - j) - 53) (-1074) = e
    have := h.low
    omega
  have hshift : (e - (e - j)).toNat = j := by omega
  rw [shiftToTargetExponent, htarget, shiftToExponent, hshift]
  refine Prod.ext ?_ ?_
  · exact shiftRight_exact m j
  · show e - j + j = e
    omega

theorem roundWithAccuracy_exact (h : Normal m e) (j : Nat) :
    roundWithAccuracy Format.binary64 s (m * 2 ^ j) (e - j) .exact = .finite s m e h.pos := by
  have hagain : shiftToTargetExponent Format.binary64 m e .exact = (⟨m, false, false⟩, e) := by
    simpa using shiftToTargetExponent_exact h 0
  have hrounded : (⟨m, false, false⟩ : ExtendedMantissa).roundedMantissa = m := rfl
  simp only [roundWithAccuracy, shiftToTargetExponent_exact h j, hrounded, hagain]
  exact dif_neg (Nat.ne_of_gt h.pos)

theorem normal_integer (hpos : 0 < n) (hlt : n < 2 ^ 53) :
    Normal (n * 2 ^ (52 - n.log2)) (n.log2 - 52) := by
  have hlog : n.log2 < 53 := (Nat.log2_lt (Nat.ne_of_gt hpos)).2 hlt
  have hsum : n.log2 + (52 - n.log2) = 52 := by omega
  refine ⟨?_, ?_, by omega, by omega⟩
  · rw [← hsum, Nat.pow_add]
    simp only [hsum]
    exact Nat.mul_le_mul_right _ (Nat.log2_self_le (Nat.ne_of_gt hpos))
  · have hself : n < 2 ^ (n.log2 + 1) := Nat.lt_log2_self
    calc n * 2 ^ (52 - n.log2) < 2 ^ (n.log2 + 1) * 2 ^ (52 - n.log2) :=
          Nat.mul_lt_mul_of_pos_right hself (Nat.two_pow_pos _)
      _ = 2 ^ 53 := by rw [← Nat.pow_add, Nat.add_right_comm, hsum]

theorem unpack_ofUInt64 (hpos : 0 < n) (hlt : n < 2 ^ 53) :
    (Float.Model.ofUInt64 n.toUInt64).unpack =
      .finite .positive (n * 2 ^ (52 - n.log2)) (n.log2 - 52) (normal_integer hpos hlt).pos := by
  have hn := normal_integer hpos hlt
  have hlog : n.log2 < 53 := (Nat.log2_lt (Nat.ne_of_gt hpos)).2 hlt
  have hnat : n.toUInt64.toNat = n := by
    show n % 2 ^ 64 = n
    omega
  have hcompare : compare (n : Int) 0 = .gt := Int.compare_eq_gt.2 (by omega)
  have htarget : Format.binary64.targetExponent (totalExponent n 0) = n.log2 - 52 := by
    rw [totalExponent, Format.targetExponent]
    show max ((n.log2 : Int) + 1 + 0 - 53) (-1074) = _
    omega
  have hshift : (0 - ((n.log2 : Int) - 52)).toNat = 52 - n.log2 := by omega
  have hround : UnpackedFloat.ofUInt64 Format.binary64 n.toUInt64 =
      .finite .positive (n * 2 ^ (52 - n.log2)) (n.log2 - 52) hn.pos := by
    rw [UnpackedFloat.ofUInt64, hnat, UnpackedFloat.ofNat, UnpackedFloat.ofInt,
      UnpackedFloat.normalize, hcompare]
    show UnpackedFloat.round Format.binary64 .positive n 0 = _
    rw [UnpackedFloat.round, htarget, decreaseExponent, hshift, Nat.shiftLeft_eq]
    have he : (0 : Int) - ((52 - n.log2 : Nat) : Int) = n.log2 - 52 := by omega
    simpa [he] using roundWithAccuracy_exact (s := .positive) hn 0
  rw [Float.Model.ofUInt64, hround]
  exact unpack_pack hn

theorem ofNat_eq_mul (hlt : n < 2 ^ 53) :
    Float.ofNat n = n.toUInt64.toFloat * Float.ofBits 0x3FF0000000000000 := by
  show Float.ofScientific n false 0 = _
  rw [Float.ofScientific, dif_pos ⟨hlt, by decide⟩]
  rfl

theorem unpack_ofNat (hpos : 0 < n) (hlt : n < 2 ^ 53) : (Float.ofNat n).toModel.unpack =
    .finite .positive (n * 2 ^ (52 - n.log2)) (n.log2 - 52) (normal_integer hpos hlt).pos := by
  have hn := normal_integer hpos hlt
  have hone : (Float.Model.ofBits 0x3FF0000000000000).unpack =
      .finite .positive (2 ^ 52) (-52) (by decide) := rfl
  have hmul : UnpackedFloat.mul Format.binary64 (Float.Model.ofUInt64 n.toUInt64).unpack
      (Float.Model.ofBits 0x3FF0000000000000).unpack =
        .finite .positive (n * 2 ^ (52 - n.log2)) (n.log2 - 52) hn.pos := by
    rw [unpack_ofUInt64 hpos hlt, hone]
    exact roundWithAccuracy_exact hn 52
  rw [ofNat_eq_mul hlt]
  show (Float.Model.pack (UnpackedFloat.mul Format.binary64
    (Float.Model.ofUInt64 n.toUInt64).unpack
    (Float.Model.ofBits 0x3FF0000000000000).unpack)).unpack = _
  rw [hmul, unpack_pack hn]

theorem unpack_neg_ofNat (hpos : 0 < n) (hlt : n < 2 ^ 53) :
    (Float.neg (Float.ofNat n)).toModel.unpack =
      .finite .negative (n * 2 ^ (52 - n.log2)) (n.log2 - 52) (normal_integer hpos hlt).pos := by
  show (Float.Model.pack (Float.ofNat n).toModel.unpack.neg).unpack = _
  rw [unpack_ofNat hpos hlt]
  exact unpack_pack (normal_integer hpos hlt)

theorem toInt?_of_unpack {x : Float} {h : 0 < n * 2 ^ (52 - n.log2)} (hlt : n < 2 ^ 53)
    (hpos : 0 < n)
    (hx : x.toModel.unpack = .finite s (n * 2 ^ (52 - n.log2)) (n.log2 - 52) h) :
    toInt? x = some (s.apply n) := by
  have hlog : n.log2 < 53 := (Nat.log2_lt (Nat.ne_of_gt hpos)).2 hlt
  have hup : Nat.pow 2 ((n.log2 : Int) - 52).toNat = 1 := by
    rw [show ((n.log2 : Int) - 52).toNat = 0 by omega]
  have hdown : (-((n.log2 : Int) - 52)).toNat = 52 - n.log2 := by omega
  have hpow : Nat.pow 2 (52 - n.log2) = 2 ^ (52 - n.log2) := rfl
  simp only [toInt?, hx, hup, hdown, hpow, Nat.mul_one, Nat.mul_mod_left, if_true]
  rw [← Int.natCast_ediv, Nat.mul_div_cancel _ (Nat.two_pow_pos _)]
  cases s <;> rfl

theorem toInt?_ofNat (hlt : n < 2 ^ 53) : toInt? (Float.ofNat n) = some n := by
  rcases Nat.eq_zero_or_pos n with rfl | hpos
  · rfl
  · exact toInt?_of_unpack hlt hpos (unpack_ofNat hpos hlt)

theorem toInt?_ofInt {i : Int} (h : i.natAbs < 2 ^ 53) : toInt? (Float.ofInt i) = some i := by
  cases i with
  | ofNat n => exact toInt?_ofNat h
  | negSucc n => exact toInt?_of_unpack h (Nat.succ_pos n) (unpack_neg_ofNat (Nat.succ_pos n) h)

end ViewBinding.Decimal

namespace ViewBinding.Document

/-- A number that was exported is exported the same again. -/
theorem ofFloat_exported {x : Float} {n : Numeral} (h : ofFloat x = .number n) :
    ofFloat n.toFloat = .number n := by
  rw [ofFloat] at h
  split at h
  · rename_i i hi
    split at h
    · rename_i hlt
      cases h
      have hlt' : i.natAbs < 2 ^ 53 := hlt
      rw [Numeral.toFloat, ofFloat, Decimal.toInt?_ofInt hlt']
      exact if_pos hlt
    · rename_i hlt
      cases h
      rw [Numeral.toFloat, ofFloat, hi]
      exact if_neg hlt
  · rename_i hi
    split at h
    · rename_i hf
      cases h
      rw [Numeral.toFloat, ofFloat, hi]
      exact if_pos hf
    · cases h

theorem ofFloat_number {x : Float} (h : x.isFinite = true) : ∃ n, ofFloat x = .number n := by
  rw [ofFloat]
  split
  · split <;> exact ⟨_, rfl⟩
  · exact ⟨_, if_pos h⟩

theorem ofFloat_cases (x : Float) : (∃ n, ofFloat x = .number n) ∨ ofFloat x = .null := by
  rcases Bool.eq_false_or_eq_true x.isFinite with hf | hf
  · exact .inl (ofFloat_number hf)
  · rw [ofFloat]
    split
    · split <;> exact .inl ⟨_, rfl⟩
    · exact .inr (if_neg (by simp [hf]))

end ViewBinding.Document
