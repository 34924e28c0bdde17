import Mathlib
import Scriptlet.Number.Real

/-!
Which real an integer becomes. The machine divides by a power of two one bit at a time and
keeps two bits of what it drops; the result is the nearest quotient, halves to the even one.
Counted among all reals from zero up, the real of a natural number therefore has an index that
never falls as the number grows.
-/
namespace Scriptlet.Real

open Float.Model Float.Model.UnpackedFloat

/-- `n / 2 ^ k` to the nearest integer, halves to the even one. -/
def nearest (n k : Nat) : Nat :=
  if 2 * (n % 2 ^ k) < 2 ^ k then n / 2 ^ k
  else if 2 * (n % 2 ^ k) = 2 ^ k then n / 2 ^ k + n / 2 ^ k % 2
  else n / 2 ^ k + 1

theorem div_le_nearest (n k : Nat) : n / 2 ^ k ≤ nearest n k := by
  unfold nearest
  split_ifs <;> omega

theorem nearest_le_div (n k : Nat) : nearest n k ≤ n / 2 ^ k + 1 := by
  unfold nearest
  split_ifs <;> omega

@[simp] theorem nearest_mul_two_pow (n k : Nat) : nearest (n * 2 ^ k) k = n := by
  simp [nearest]

@[simp] theorem nearest_zero (n : Nat) : nearest n 0 = n := by
  simp [nearest, Nat.mod_one]

/-- Rounding keeps the order. -/
theorem nearest_mono {n m : Nat} (h : n ≤ m) (k : Nat) : nearest n k ≤ nearest m k := by
  rcases (Nat.div_le_div_right h : n / 2 ^ k ≤ m / 2 ^ k).lt_or_eq with hlt | heq
  · calc nearest n k ≤ n / 2 ^ k + 1 := nearest_le_div n k
      _ ≤ m / 2 ^ k := hlt
      _ ≤ nearest m k := div_le_nearest m k
  · have hmod : n % 2 ^ k ≤ m % 2 ^ k := by
      have hn := Nat.div_add_mod n (2 ^ k)
      have hm := Nat.div_add_mod m (2 ^ k)
      rw [heq] at hn
      omega
    unfold nearest
    rw [heq]
    split_ifs <;> omega

/-- A number of more than 52 bits is brought to one of 53 bits, or to the first of 54. -/
theorem nearest_log2 {m : Nat} (h : 52 ≤ m.log2) :
    2 ^ 52 ≤ nearest m (m.log2 - 52) ∧ nearest m (m.log2 - 52) ≤ 2 ^ 53 := by
  have hm : m ≠ 0 := by
    rintro rfl
    simp at h
  have hlow : 2 ^ 52 * 2 ^ (m.log2 - 52) ≤ m := by
    rw [← pow_add, Nat.add_sub_cancel' h]
    exact Nat.log2_self_le hm
  have hhigh : m < 2 ^ 53 * 2 ^ (m.log2 - 52) := by
    rw [← pow_add, show 53 + (m.log2 - 52) = m.log2 + 1 by omega]
    exact Nat.lt_log2_self
  constructor
  · exact ((Nat.le_div_iff_mul_le (Nat.two_pow_pos _)).mpr hlow).trans (div_le_nearest ..)
  · exact (nearest_le_div ..).trans (Nat.div_lt_of_lt_mul (by rwa [mul_comm] at hhigh))

/-- What is left of `n` when `k` of its bits are dropped: the quotient, whether the rest is half
of the divisor or more, and whether it is neither nothing nor a half. -/
structure Shifted (n k : Nat) (m : ExtendedMantissa) : Prop where
  quotient : m.mantissa = n / 2 ^ k
  half : m.roundBit = true ↔ 2 ^ k ≤ 2 * (n % 2 ^ k)
  between : m.stickyBit = true ↔ n % 2 ^ k ≠ 0 ∧ 2 * (n % 2 ^ k) ≠ 2 ^ k

/-- A further shift halves what is kept, and remembers what fell off. -/
theorem Shifted.step {n k : Nat} {m : ExtendedMantissa} (h : Shifted n k m) :
    Shifted n (k + 1) m.shiftRightOne := by
  have hmod : n % 2 ^ (k + 1) = n % 2 ^ k + 2 ^ k * (n / 2 ^ k % 2) := by
    rw [pow_succ, Nat.mod_mul]
  have hlt : n % 2 ^ k < 2 ^ k := Nat.mod_lt _ (Nat.two_pow_pos k)
  have hpow : 2 ^ (k + 1) = 2 * 2 ^ k := pow_succ' 2 k
  constructor
  · simp only [ExtendedMantissa.shiftRightOne, h.quotient, Nat.div_div_eq_div_mul, pow_succ]
  · have hround : m.shiftRightOne.roundBit = true ↔ n / 2 ^ k % 2 = 1 := by
      simp [ExtendedMantissa.shiftRightOne, h.quotient]
    rw [hround, hmod, hpow]
    rcases Nat.mod_two_eq_zero_or_one (n / 2 ^ k) with hbit | hbit <;> rw [hbit] <;> omega
  · have hsticky : m.shiftRightOne.stickyBit = true ↔ n % 2 ^ k ≠ 0 := by
      simp only [ExtendedMantissa.shiftRightOne, Bool.or_eq_true, h.half, h.between]
      omega
    rw [hsticky, hmod, hpow]
    rcases Nat.mod_two_eq_zero_or_one (n / 2 ^ k) with hbit | hbit <;> rw [hbit] <;> omega

theorem shifted_zero (n : Nat) : Shifted n 0 ⟨n, false, false⟩ := by
  constructor <;> simp [Nat.mod_one]

/-- A mantissa that is shifted keeps its upper bits, with the rest summed up in two. -/
theorem shifted (n k : Nat) :
    Shifted n k (ExtendedMantissa.ofMantissaAndAccuracy n .exact >>> k) := by
  induction k with
  | zero => exact shifted_zero n
  | succ k ih => exact ih.step

/-- A shifted mantissa rounds to the nearest multiple, ties to even. -/
theorem Shifted.roundedMantissa_eq {n k : Nat} {m : ExtendedMantissa} (h : Shifted n k m) :
    m.roundedMantissa = nearest n k := by
  obtain ⟨q, half, between⟩ := m
  have hquotient : q = n / 2 ^ k := h.quotient
  have hhalf : half = true ↔ _ := h.half
  have hbetween : between = true ↔ _ := h.between
  unfold nearest ExtendedMantissa.roundedMantissa
  rw [← hquotient]
  cases half <;> cases between <;>
    simp only [ExtendedMantissa.accuracy, Accuracy.roundToNearestEven] <;>
    simp at hhalf hbetween <;> split_ifs <;> omega

/-- The exponent that leaves 53 bits of a number, unless that is too small. -/
theorem targetExponent_eq {m : Nat} {e : Int} (he : -1074 ≤ m.log2 - 52 + e) :
    Format.binary64.targetExponent (totalExponent m e) = m.log2 - 52 + e := by
  have hbits : Format.binary64.mantissaBits = 53 := rfl
  have hmin : Format.binary64.minExponent = -1074 := by decide
  rw [Format.targetExponent, totalExponent, hbits, hmin]
  omega

/-- A mantissa with more bits than the format has is shifted to its width. -/
theorem shiftToTargetExponent_eq {m : Nat} {e : Int} (hm : 52 ≤ m.log2)
    (he : -1074 ≤ m.log2 - 52 + e) :
    shiftToTargetExponent .binary64 m e .exact =
      (ExtendedMantissa.ofMantissaAndAccuracy m .exact >>> (m.log2 - 52), m.log2 - 52 + e) := by
  have hshift : (m.log2 - 52 + e - e).toNat = m.log2 - 52 := by omega
  have hexponent : e + ((m.log2 - 52 : Nat) : Int) = m.log2 - 52 + e := by omega
  rw [shiftToTargetExponent, targetExponent_eq he, shiftToExponent, hshift]
  simp only [hexponent]

/-- Rounding up may carry into one bit more. Dropping it again changes neither the number nor
its place, as all bits below are then zero. -/
theorem carry_keeps {q : Nat} {e : Int} (hlow : 2 ^ 52 ≤ q) (hhigh : q ≤ 2 ^ 53) (he : -1074 ≤ e) :
    let r := shiftToTargetExponent .binary64 q e .exact
    2 ^ 52 ≤ r.1.mantissa ∧ r.1.mantissa < 2 ^ 53 ∧
      r.1.mantissa + 2 ^ 52 * r.2 = q + 2 ^ 52 * e := by
  intro r
  have hlog : q.log2 = 52 ∧ q < 2 ^ 53 ∨ q.log2 = 53 ∧ q = 2 ^ 53 := by
    rcases hhigh.lt_or_eq with hlt | rfl
    · exact .inl ⟨(Nat.log2_eq_iff (by omega)).mpr ⟨hlow, hlt⟩, hlt⟩
    · exact .inr ⟨Nat.log2_two_pow, rfl⟩
  have hr := shiftToTargetExponent_eq (m := q) (e := e) (by omega) (by omega)
  have hmantissa : r.1.mantissa = q / 2 ^ (q.log2 - 52) := by
    simp only [r, hr, (shifted q _).quotient]
  have hexponent : r.2 = q.log2 - 52 + e := by
    simp only [r, hr]
  rw [hmantissa, hexponent]
  rcases hlog with ⟨hlog, hq⟩ | ⟨hlog, hq⟩
  · rw [hlog, Nat.sub_self, pow_zero, Nat.div_one]
    omega
  · rw [hlog, show 53 - 52 = 1 from rfl, pow_one]
    omega

/-- A float with a mantissa of 53 bits whose magnitude stands at place `i`, counting the floats
from zero up. -/
def IsNormal (x : UnpackedFloat) (s : Sign) (i : Int) : Prop :=
  ∃ q e h, x = .finite s q e h ∧ 2 ^ 52 ≤ q ∧ q < 2 ^ 53 ∧ i = q + 2 ^ 52 * (e + 1074)

/-- A mantissa of enough bits rounds to a normal number. -/
theorem roundWithAccuracy_isNormal (s : Sign) {m : Nat} {e : Int} (hm : 52 ≤ m.log2)
    (he : -1074 ≤ m.log2 - 52 + e) :
    IsNormal (roundWithAccuracy .binary64 s m e .exact) s
      (nearest m (m.log2 - 52) + 2 ^ 52 * (m.log2 + e + 1022)) := by
  obtain ⟨hlow, hhigh⟩ := nearest_log2 hm
  obtain ⟨hlow', hhigh', hplace⟩ := carry_keeps hlow hhigh he
  rw [roundWithAccuracy, shiftToTargetExponent_eq hm he]
  simp only [(shifted m (m.log2 - 52)).roundedMantissa_eq]
  rw [dif_neg (by omega)]
  exact ⟨_, _, _, rfl, hlow', hhigh', by omega⟩

/-- The first of the 53 bits is not stored. -/
theorem toNat_leadingOne (v : BitVec 52) : (1#1 ++ v).toNat = 2 ^ 52 + v.toNat := by
  rw [BitVec.toNat_append, ← Nat.shiftLeft_add_eq_or_of_lt v.isLt]
  rfl

theorem exponentBias_eq : (Format.binary64.exponentBias : Int) = 1023 := by
  decide

/-- A float of 53 bits survives being stored in 64, unless its exponent is out of range. -/
theorem unpack_pack_normal {s : Sign} {q : Nat} {e : Int} (h : 0 < q) (hlow : 2 ^ 52 ≤ q)
    (hhigh : q < 2 ^ 53) (he : -1074 ≤ e) (he' : e ≤ 971) :
    (pack (.finite s q e h)).unpack = .finite s q e h := by
  have hlog : q.log2 + 1 = Format.binary64.mantissaBits :=
    congrArg (· + 1) ((Nat.log2_eq_iff (by omega)).mpr ⟨hlow, hhigh⟩)
  have hbias := exponentBias_eq
  have hbits : (Format.binary64.mantissaBitsWithoutImplicit : Int) = 52 := rfl
  obtain ⟨b, hb⟩ : ∃ b : Nat, (b : Int) = e + 1075 := ⟨(e + 1075).toNat, by omega⟩
  have hbiased : (e + Format.binary64.exponentBias +
      Format.binary64.mantissaBitsWithoutImplicit).toNat = b := by
    omega
  have hexponent : (BitVec.ofNat 11 b).toNat = b := by
    rw [BitVec.toNat_ofNat, Nat.mod_eq_of_lt (by omega)]
  have hfull : BitVec.ofNat 11 b ≠ -1#11 := by
    intro heq
    have hb' : (BitVec.ofNat 11 b).toNat = 2047 := congrArg BitVec.toNat heq
    omega
  have hempty : BitVec.ofNat 11 b ≠ 0#11 := by
    intro heq
    have hb' : (BitVec.ofNat 11 b).toNat = 0 := congrArg BitVec.toNat heq
    omega
  have hmantissa : (1#1 ++ BitVec.ofNat 52 q).toNat = q := by
    rw [toNat_leadingOne, BitVec.toNat_ofNat]
    omega
  have hpack : UnpackedFloat.pack .binary64 (.finite s q e h) =
      packComponents .binary64 s (BitVec.ofNat 11 b) (BitVec.ofNat 52 q) := by
    simp only [UnpackedFloat.pack, hbiased]
    rw [if_neg (by omega), if_pos hlog]
  have hunpack : (pack (.finite s q e h)).unpack =
      UnpackedFloat.unpack .binary64 (UnpackedFloat.pack .binary64 (.finite s q e h)) := rfl
  rw [hunpack, hpack, UnpackedFloat.unpack]
  simp only [unpackExponent_packComponents, unpackMantissa_packComponents,
    unpackSign_packComponents, Sign.ofBitVec_toBitVec, hexponent, hmantissa]
  rw [if_neg hfull, if_neg hempty]
  congr 1
  omega

/-- A normal number in the range of the format survives its packing. -/
theorem IsNormal.unpack_pack {x : UnpackedFloat} {s : Sign} {i : Int} (h : IsNormal x s i)
    (hlow : 2 ^ 52 ≤ i) (hhigh : i < 2047 * 2 ^ 52) : (pack x).unpack = x := by
  obtain ⟨q, e, hq, rfl, hq', hq'', rfl⟩ := h
  exact unpack_pack_normal hq hq' hq'' (by omega) (by omega)

theorem IsNormal.neg {x : UnpackedFloat} {s : Sign} {i : Int} (h : IsNormal x s i) :
    IsNormal x.neg (-s) i := by
  obtain ⟨q, e, hq, rfl, hrest⟩ := h
  exact ⟨q, e, hq, rfl, hrest⟩

theorem log2_mul_two_pow {n : Nat} (hn : n ≠ 0) (k : Nat) : (n * 2 ^ k).log2 = n.log2 + k := by
  rw [Nat.log2_eq_iff (by positivity), pow_add, add_right_comm, pow_add]
  exact ⟨Nat.mul_le_mul_right _ (Nat.log2_self_le hn),
    Nat.mul_lt_mul_of_pos_right Nat.lt_log2_self (Nat.two_pow_pos k)⟩

/-- Nothing is lost when a float of 53 bits is multiplied by one. -/
theorem IsNormal.mul_one {x : UnpackedFloat} {s : Sign} {i : Int} (h : IsNormal x s i)
    (hlow : 2 ^ 52 ≤ i) (hone : 0 < 2 ^ 52) :
    IsNormal (UnpackedFloat.mul .binary64 x (.finite .positive (2 ^ 52) (-52) hone)) s i := by
  obtain ⟨q, e, hq, rfl, hq', hq'', rfl⟩ := h
  have hlog : (q * 2 ^ 52).log2 = 104 := by
    rw [log2_mul_two_pow (by omega), (Nat.log2_eq_iff (by omega)).mpr ⟨hq', hq''⟩]
  have hsign : s * .positive = s := by cases s <;> rfl
  have hround : IsNormal (roundWithAccuracy .binary64 s (q * 2 ^ 52) (e + -52) .exact) s _ :=
    roundWithAccuracy_isNormal s (by omega) (by omega)
  rw [hlog, nearest_mul_two_pow] at hround
  rw [UnpackedFloat.mul, hsign]
  convert hround using 1
  push_cast
  ring

def indexOf (n : Nat) : Int :=
  nearest (n * 2 ^ 53) (n.log2 + 1) + 2 ^ 52 * (n.log2 + 1022)

/-- Any positive integer has a mantissa of the full width, or the next power of two. -/
theorem nearest_bounds {n : Nat} (hn : n ≠ 0) :
    2 ^ 52 ≤ nearest (n * 2 ^ 53) (n.log2 + 1) ∧ nearest (n * 2 ^ 53) (n.log2 + 1) ≤ 2 ^ 53 := by
  have hlog := log2_mul_two_pow hn 53
  have hbounds := nearest_log2 (m := n * 2 ^ 53) (by omega)
  rwa [hlog, Nat.add_sub_assoc (by decide)] at hbounds

/-- The index of a positive word is that of a normal number. -/
theorem indexOf_bounds {n : Nat} (hn : n ≠ 0) (hsmall : n < 2 ^ 64) :
    2 ^ 52 ≤ indexOf n ∧ indexOf n < 2047 * 2 ^ 52 := by
  obtain ⟨hlow, hhigh⟩ := nearest_bounds hn
  have hlog : n.log2 < 64 := (Nat.log2_lt hn).mpr hsmall
  unfold indexOf
  omega

/-- Indices are ordered as the integers they come from. -/
theorem indexOf_mono {n m : Nat} (hn : n ≠ 0) (h : n ≤ m) : indexOf n ≤ indexOf m := by
  have hm : m ≠ 0 := by omega
  have hlog : n.log2 ≤ m.log2 := (Nat.le_log2 hm).mpr ((Nat.log2_self_le hn).trans h)
  unfold indexOf
  rcases hlog.lt_or_eq with hlt | heq
  · obtain ⟨_, hhigh⟩ := nearest_bounds hn
    obtain ⟨hlow, _⟩ := nearest_bounds hm
    omega
  · have hnearest := nearest_mono (Nat.mul_le_mul_right (2 ^ 53) h) (n.log2 + 1)
    rw [heq] at hnearest ⊢
    omega

/-- A number of at most 53 bits is first brought to 53 by adding zeros. -/
theorem ofNat_eq_round {n : Nat} (hn : n ≠ 0) (hlog : n.log2 ≤ 52) :
    UnpackedFloat.ofNat .binary64 n =
      roundWithAccuracy .binary64 .positive (n * 2 ^ (52 - n.log2)) (n.log2 - 52) .exact := by
  have hpos : compare (n : Int) 0 = .gt := compare_gt_iff_gt.mpr (by omega)
  have htarget : Format.binary64.targetExponent (totalExponent n 0) = n.log2 - 52 := by
    rw [targetExponent_eq (by omega)]
    omega
  have hamount : (0 - ((n.log2 : Int) - 52)).toNat = 52 - n.log2 := by omega
  simp only [UnpackedFloat.ofNat, UnpackedFloat.ofInt, UnpackedFloat.normalize, hpos,
    UnpackedFloat.round, decreaseExponent, Int.toNat_natCast, htarget, hamount, Nat.shiftLeft_eq]
  congr 1
  omega

theorem ofNat_isNormal {n : Nat} (hn : n ≠ 0) (hsmall : n < 2 ^ 53) :
    IsNormal (UnpackedFloat.ofNat .binary64 n) .positive (indexOf n) := by
  have hbits : n.log2 < 53 := (Nat.log2_lt hn).mpr hsmall
  have hshift : n * 2 ^ 53 = n * 2 ^ (52 - n.log2) * 2 ^ (n.log2 + 1) := by
    rw [mul_assoc, ← pow_add, show 52 - n.log2 + (n.log2 + 1) = 53 by omega]
  have hindex : indexOf n = (n * 2 ^ (52 - n.log2) : Nat) + 2 ^ 52 * (n.log2 + 1022) := by
    rw [indexOf, hshift, nearest_mul_two_pow]
  have hlog : (n * 2 ^ (52 - n.log2)).log2 = 52 := by
    rw [log2_mul_two_pow hn]
    omega
  have hnormal := roundWithAccuracy_isNormal .positive (m := n * 2 ^ (52 - n.log2))
    (e := n.log2 - 52) (by omega) (by omega)
  rw [hlog, Nat.sub_self, nearest_zero] at hnormal
  rw [ofNat_eq_round hn (by omega), hindex]
  convert hnormal using 1
  push_cast
  ring

/-- A larger number is scaled up by 53 bits, so that only those are dropped that must be. -/
theorem ofScientific_eq_round {n : Nat} (hn : n ≠ 0) :
    UnpackedFloat.ofScientific .binary64 n 0 =
      roundWithAccuracy .binary64 .positive (n * 2 ^ 53) (-53) .exact := by
  have hlimit : (2 ^ Format.binary64.exponentBits : Int) = 2048 := by decide
  rw [UnpackedFloat.ofScientific, dif_neg hn, hlimit, if_neg (by decide), if_neg (by omega),
    if_pos (by decide), UnpackedFloat.mul, Nat.shiftLeft_eq]
  show roundWithAccuracy .binary64 .positive (n * 2 ^ 53 * 1) (-53 + 0) .exact = _
  rw [Nat.mul_one, Int.add_zero]

/-- A positive integer read as a decimal is a normal number. -/
theorem ofScientific_isNormal {n : Nat} (hn : n ≠ 0) :
    IsNormal (UnpackedFloat.ofScientific .binary64 n 0) .positive (indexOf n) := by
  have hlog := log2_mul_two_pow hn 53
  have hnormal := roundWithAccuracy_isNormal .positive (m := n * 2 ^ 53) (e := -53) (by omega)
    (by omega)
  have hindex : indexOf n = nearest (n * 2 ^ 53) ((n * 2 ^ 53).log2 - 52) +
      2 ^ 52 * ((n * 2 ^ 53).log2 + -53 + 1022) := by
    rw [indexOf, hlog, show n.log2 + 53 - 52 = n.log2 + 1 from rfl]
    omega
  rw [ofScientific_eq_round hn, hindex]
  exact hnormal

/-- The real of a natural number: up to 53 bits it is converted and then multiplied by one, and
above that it is rounded. -/
theorem unpack_ofNat {n : Nat} (hn : n ≠ 0) (hsmall : n < 2 ^ 64) :
    IsNormal (Float.ofNat n).toModel.unpack .positive (indexOf n) := by
  obtain ⟨hlow, hhigh⟩ := indexOf_bounds hn hsmall
  by_cases h : n < 2 ^ 53
  · have hofNat : Float.ofNat n = n.toUInt64.toFloat * Float.ofBits 0x3FF0000000000000 :=
      dif_pos ⟨h, by decide⟩
    have hone : (Float.ofBits 0x3FF0000000000000).toModel.unpack =
        .finite .positive (2 ^ 52) (-52) (by decide) := rfl
    have hexact := ofNat_isNormal hn h
    have hword : n.toUInt64.toNat = n := Nat.mod_eq_of_lt hsmall
    have hfactor : n.toUInt64.toFloat.toModel.unpack = UnpackedFloat.ofNat .binary64 n := by
      rw [← hexact.unpack_pack hlow hhigh]
      show (pack (UnpackedFloat.ofNat .binary64 n.toUInt64.toNat)).unpack = _
      rw [hword]
    have hmul := hexact.mul_one hlow (by decide)
    rw [hofNat]
    show IsNormal (pack (UnpackedFloat.mul .binary64 n.toUInt64.toFloat.toModel.unpack
      (Float.ofBits 0x3FF0000000000000).toModel.unpack)).unpack _ _
    rw [hfactor, hone, hmul.unpack_pack hlow hhigh]
    exact hmul
  · have hofNat : Float.ofNat n = .ofModel (Float.Model.ofScientific n 0) :=
      dif_neg fun hfits => h hfits.1
    have hround := ofScientific_isNormal hn
    rw [hofNat]
    show IsNormal (pack (UnpackedFloat.ofScientific .binary64 n 0)).unpack _ _
    rw [hround.unpack_pack hlow hhigh]
    exact hround

end Scriptlet.Real
