import Scriptlet.Proofs.Number.Nearest
import Scriptlet.Value.Arithmetic

/-!
Comparison of values. Every real but the one that is no number has a place among the others, and
comparing reals is comparing places. An integer that becomes a real may take the place of its
neighbour but never passes it, so comparisons that are exact and comparisons that are rounded
make one strict order.
-/
namespace Scriptlet.Real

open Float.Model Float.Model.UnpackedFloat

def InFormat : UnpackedFloat → Prop
  | .finite _ q e _ => q < 2 ^ 53 ∧ -1074 ≤ e ∧ e ≤ 971 ∧ (2 ^ 52 ≤ q ∨ e = -1074)
  | _ => True

/-- What is unpacked is in the format. -/
theorem unpack_inFormat (x : Float.Model) : InFormat x.unpack := by
  rw [Float.Model.unpack, UnpackedFloat.unpack]
  have hbits : (Format.binary64.mantissaBitsWithoutImplicit : Int) = 52 := rfl
  have hq : (@unpackMantissa .binary64 x.toBits.toBitVec).toNat < 2 ^ 52 := BitVec.isLt _
  have he : (@unpackExponent .binary64 x.toBits.toBitVec).toNat < 2 ^ 11 := BitVec.isLt _
  simp only [exponentBias_eq, hbits]
  split_ifs with hfull hzero hempty hzero
  · trivial
  · trivial
  · trivial
  · simp only [InFormat, hempty]
    exact ⟨by omega, by decide, by decide, .inr (by decide)⟩
  · have hempty' : (@unpackExponent .binary64 x.toBits.toBitVec).toNat ≠ 0 :=
      fun h => hempty (BitVec.eq_of_toNat_eq h)
    have hfull' : (@unpackExponent .binary64 x.toBits.toBitVec).toNat ≠ 2047 :=
      fun h => hfull (BitVec.eq_of_toNat_eq h)
    have hlead := toNat_leadingOne (@unpackMantissa .binary64 x.toBits.toBitVec)
    simp only [InFormat, hlead]
    omega

/-- Where a float stands among all of them, from the least upward, with both zeros at zero. -/
def index? : UnpackedFloat → Option Int
  | .notANumber => none
  | .infinity s => some (s.apply (2047 * 2 ^ 52))
  | .zero _ => some 0
  | .finite s q e _ => some (s.apply (q + 2 ^ 52 * (e + 1074)))

/-- The index of a finite number is positive, and below that of infinity. -/
theorem index_bounds {s : Sign} {q : Nat} {e : Int} {h : 0 < q}
    (hx : InFormat (.finite s q e h)) :
    0 < q + 2 ^ 52 * (e + 1074) ∧ q + 2 ^ 52 * (e + 1074) < 2047 * 2 ^ 52 := by
  obtain ⟨hq, he, he', _⟩ := hx
  omega

section Compare

variable {i j : Int}

theorem lt_eq_compare (h : i < j) : some .lt = some (compare i j) := by
  rw [compare_lt_iff_lt.mpr h]

theorem gt_eq_compare (h : j < i) : some .gt = some (compare i j) := by
  rw [compare_gt_iff_gt.mpr h]

theorem compare_neg_neg : compare (-i) (-j) = (compare i j).swap := by
  rw [Int.compare_swap]
  simp [compare, compareOfLessAndEq, eq_comm]

end Compare

/-- Of two magnitudes the one with the greater exponent is greater, as only the least exponent has
mantissas of fewer than 53 bits. -/
theorem compare_magnitude {s s' : Sign} {q r : Nat} {e f : Int} {hq : 0 < q} {hr : 0 < r}
    (hx : InFormat (.finite s q e hq)) (hy : InFormat (.finite s' r f hr)) :
    (compare e f).then (compare q r) =
      compare (q + 2 ^ 52 * (e + 1074)) (r + 2 ^ 52 * (f + 1074)) := by
  obtain ⟨hq, he, _, hqe⟩ := hx
  obtain ⟨hr, hf, _, hrf⟩ := hy
  rcases lt_trichotomy e f with h | rfl | h
  · have hindex : q + 2 ^ 52 * (e + 1074) < r + 2 ^ 52 * (f + 1074) := by omega
    rw [compare_lt_iff_lt.mpr h, compare_lt_iff_lt.mpr hindex]
    rfl
  · rw [compare_eq_iff_eq.mpr rfl, Ordering.eq_then]
    rcases lt_trichotomy q r with h | rfl | h
    · have hindex : q + 2 ^ 52 * (e + 1074) < r + 2 ^ 52 * (e + 1074) := by omega
      rw [compare_lt_iff_lt.mpr h, compare_lt_iff_lt.mpr hindex]
    · rw [compare_eq_iff_eq.mpr rfl, compare_eq_iff_eq.mpr rfl]
    · have hindex : r + 2 ^ 52 * (e + 1074) < q + 2 ^ 52 * (e + 1074) := by omega
      rw [compare_gt_iff_gt.mpr h, compare_gt_iff_gt.mpr hindex]
  · have hindex : r + 2 ^ 52 * (f + 1074) < q + 2 ^ 52 * (e + 1074) := by omega
    rw [compare_gt_iff_gt.mpr h, compare_gt_iff_gt.mpr hindex]
    rfl

/-- Floats are compared by where they stand. -/
theorem compare_eq {x y : UnpackedFloat} (hx : InFormat x) (hy : InFormat y) :
    x.compare y = (index? x).bind fun i => (index? y).map fun j => compare i j := by
  cases x with
  | notANumber => cases y <;> rfl
  | infinity s =>
    cases y with
    | notANumber => cases s <;> rfl
    | infinity s' => cases s <;> cases s' <;> rfl
    | zero s' => cases s <;> rfl
    | finite s' r f hr =>
      obtain ⟨hlow, hhigh⟩ := index_bounds hy
      cases s with
      | negative => exact lt_eq_compare (by cases s' <;> simp only [Sign.apply] <;> omega)
      | positive => exact gt_eq_compare (by cases s' <;> simp only [Sign.apply] <;> omega)
  | zero s =>
    cases y with
    | notANumber => rfl
    | infinity s' => cases s' <;> rfl
    | zero s' => rfl
    | finite s' r f hr =>
      obtain ⟨hlow, _⟩ := index_bounds hy
      cases s' with
      | negative => exact gt_eq_compare (neg_lt_zero.mpr hlow)
      | positive => exact lt_eq_compare hlow
  | finite s q e hq =>
    obtain ⟨hlow, hhigh⟩ := index_bounds hx
    cases y with
    | notANumber => cases s <;> rfl
    | infinity s' =>
      cases s' with
      | negative => exact gt_eq_compare (by cases s <;> simp only [Sign.apply] <;> omega)
      | positive => exact lt_eq_compare (by cases s <;> simp only [Sign.apply] <;> omega)
    | zero s' =>
      cases s with
      | negative => exact lt_eq_compare (neg_lt_zero.mpr hlow)
      | positive => exact gt_eq_compare hlow
    | finite s' r f hr =>
      obtain ⟨hlow', _⟩ := index_bounds hy
      have hmagnitude := compare_magnitude hx hy
      cases s with
      | negative =>
        cases s' with
        | negative =>
          have hswap := (congrArg Ordering.swap hmagnitude).trans compare_neg_neg.symm
          exact congrArg some hswap
        | positive => exact lt_eq_compare ((neg_lt_zero.mpr hlow).trans hlow')
      | positive =>
        cases s' with
        | negative => exact gt_eq_compare ((neg_lt_zero.mpr hlow').trans hlow)
        | positive => exact congrArg some hmagnitude

/-- Reals are ordered as their indices, and only where both have one. -/
theorem lt_iff (x y : Float) : x < y ↔ ∃ i j, index? x.toModel.unpack = some i ∧
    index? y.toModel.unpack = some j ∧ i < j := by
  have h : x < y ↔ (x.toModel.unpack.compare y.toModel.unpack == some .lt) = true :=
    decide_eq_true_iff
  rw [h, compare_eq (unpack_inFormat _) (unpack_inFormat _), beq_iff_eq]
  simp [Option.bind_eq_some_iff, compare_lt_iff_lt]

theorem lt_irrefl (x : Float) : ¬x < x := by
  rw [lt_iff]
  rintro ⟨i, j, hi, hj, hlt⟩
  obtain rfl : i = j := Option.some.inj (hi.symm.trans hj)
  exact hlt.false

theorem lt_trans {x y z : Float} (hxy : x < y) (hyz : y < z) : x < z := by
  rw [lt_iff] at hxy hyz ⊢
  obtain ⟨i, j, hi, hj, hij⟩ := hxy
  obtain ⟨j', k, hj', hk, hjk⟩ := hyz
  obtain rfl : j = j' := Option.some.inj (hj.symm.trans hj')
  exact ⟨i, k, hi, hk, hij.trans hjk⟩

def integerIndex (z : Int) : Int :=
  z.sign * indexOf z.natAbs

theorem indexOf_nonneg (n : Nat) : 0 ≤ indexOf n := by
  unfold indexOf
  omega

/-- Integers keep their order as reals, where they may come to be equal. -/
theorem integerIndex_mono : Monotone integerIndex := by
  refine monotone_of_odd_of_monotoneOn_nonneg (fun z => by simp [integerIndex]) ?_
  intro a ha b hb h
  rcases (show 0 ≤ a from ha).eq_or_lt with rfl | hpos
  · have hsign : 0 ≤ b.sign := Int.sign_nonneg_iff.mpr h
    simpa [integerIndex] using mul_nonneg hsign (indexOf_nonneg _)
  · rw [integerIndex, integerIndex, Int.sign_eq_one_of_pos hpos,
      Int.sign_eq_one_of_pos (hpos.trans_le h), one_mul, one_mul]
    exact indexOf_mono (by omega) (by omega)

theorem IsNormal.index?_eq {x : UnpackedFloat} {s : Sign} {i : Int} (h : IsNormal x s i) :
    index? x = some (s.apply i) := by
  obtain ⟨q, e, _, rfl, _, _, rfl⟩ := h
  rfl

/-- An integer has as a real the index of its nearest. -/
theorem index?_ofInteger (n : Int64) :
    index? (ofInteger n).toModel.unpack = some (integerIndex n.toInt) := by
  have hlow := n.le_toInt
  have hhigh := n.toInt_lt
  rw [ofInteger]
  generalize n.toInt = z at hlow hhigh
  cases z with
  | ofNat n =>
    cases n with
    | zero => rfl
    | succ n =>
      have hsmall : ((n + 1 : Nat) : Int) < 2 ^ 63 := hhigh
      have hnormal := unpack_ofNat (Nat.succ_ne_zero n) (by omega)
      have hindex : integerIndex (Int.ofNat (n + 1)) = indexOf (n + 1) := one_mul _
      rw [hindex]
      exact hnormal.index?_eq
  | negSucc n =>
    have hsmall : n + 1 < 2 ^ 64 := by omega
    obtain ⟨hlow, hhigh⟩ := indexOf_bounds (Nat.succ_ne_zero n) hsmall
    have hindex : integerIndex (Int.negSucc n) = -indexOf (n + 1) := neg_one_mul _
    have hnormal := (unpack_ofNat (Nat.succ_ne_zero n) hsmall).neg
    have hneg : (Float.ofInt (Int.negSucc n)).toModel.unpack =
        (pack (Float.ofNat (n + 1)).toModel.unpack.neg).unpack := rfl
    rw [hneg, hnormal.unpack_pack hlow hhigh, hindex]
    exact hnormal.index?_eq

/-- An integer that is not above another does not become a greater real. -/
theorem lt_ofInteger_of_le {a b : Int64} (h : a ≤ b) {x : Float} (hx : x < ofInteger a) :
    x < ofInteger b := by
  rw [lt_iff, index?_ofInteger] at hx ⊢
  obtain ⟨i, j, hi, hj, hij⟩ := hx
  cases hj
  exact ⟨i, _, hi, rfl, hij.trans_le (integerIndex_mono (Int64.le_iff_toInt_le.mp h))⟩

/-- What is above an integer as a real is above every smaller one. -/
theorem ofInteger_lt_of_le {a b : Int64} (h : a ≤ b) {x : Float} (hx : ofInteger b < x) :
    ofInteger a < x := by
  rw [lt_iff, index?_ofInteger] at hx ⊢
  obtain ⟨i, j, hi, hj, hij⟩ := hx
  cases hi
  exact ⟨_, j, rfl, hj, (integerIndex_mono (Int64.le_iff_toInt_le.mp h)).trans_lt hij⟩

/-- An integer that becomes a lesser real was less. -/
theorem lt_of_ofInteger_lt {a b : Int64} (h : ofInteger a < ofInteger b) : a < b := by
  by_contra hnot
  exact lt_irrefl _ (lt_ofInteger_of_le (Int64.not_lt.mp hnot) h)

-- Not conversely: beyond 53 bits neighbours may become one real.
example : ¬ofInteger 9007199254740992 < ofInteger 9007199254740993 := by decide

end Scriptlet.Real

namespace Scriptlet

theorem Value.toReal_of_integer? {v : Value} {n : Int64} (h : v.integer? = some n) :
    v.toReal = Real.ofInteger n := by
  cases v with
  | integer m =>
    cases h
    rfl
  | real x => cases h
  | truth b =>
    cases h
    cases b <;> rfl

namespace CompareOp

/-- Two integers are compared as integers, and anything else as reals. -/
theorem less_apply_iff (x y : Value) : less.apply x y = true ↔
    (∃ a b, x.integer? = some a ∧ y.integer? = some b ∧ a < b) ∨
    ((x.integer? = none ∨ y.integer? = none) ∧ x.toReal < y.toReal) := by
  rw [apply]
  cases x.integer? <;> cases y.integer? <;> simp [onIntegers, onReals]

theorem less_irrefl (x : Value) : less.apply x x = false := by
  rw [← Bool.not_eq_true, less_apply_iff]
  rintro (⟨a, b, ha, hb, hlt⟩ | ⟨_, hlt⟩)
  · obtain rfl : a = b := Option.some.inj (ha.symm.trans hb)
    exact Int64.lt_irrefl hlt
  · exact Real.lt_irrefl _ hlt

/-- Less than is transitive, integers and reals mixed. -/
theorem less_trans {x y z : Value} (hxy : less.apply x y = true) (hyz : less.apply y z = true) :
    less.apply x z = true := by
  rw [less_apply_iff] at hxy hyz ⊢
  rcases hxy with ⟨a, b, hx, hy, hab⟩ | ⟨hreal, hxy⟩
  · rcases hyz with ⟨b', c, hy', hz, hbc⟩ | ⟨hreal, hyz⟩
    · obtain rfl : b = b' := Option.some.inj (hy.symm.trans hy')
      exact .inl ⟨a, c, hx, hz, Int64.lt_trans hab hbc⟩
    · have hz : z.integer? = none := hreal.resolve_left (by simp [hy])
      rw [Value.toReal_of_integer? hy] at hyz
      rw [Value.toReal_of_integer? hx]
      exact .inr ⟨.inr hz, Real.ofInteger_lt_of_le (Int64.le_of_lt hab) hyz⟩
  · rcases hyz with ⟨b, c, hy, hz, hbc⟩ | ⟨_, hyz⟩
    · have hx : x.integer? = none := hreal.resolve_right (by simp [hy])
      rw [Value.toReal_of_integer? hy] at hxy
      rw [Value.toReal_of_integer? hz]
      exact .inr ⟨.inl hx, Real.lt_ofInteger_of_le (Int64.le_of_lt hbc) hxy⟩
    · have hxz := Real.lt_trans hxy hyz
      cases hx : x.integer? with
      | none => exact .inr ⟨.inl rfl, hxz⟩
      | some a =>
        cases hz : z.integer? with
        | none => exact .inr ⟨.inr rfl, hxz⟩
        | some c =>
          rw [Value.toReal_of_integer? hx, Value.toReal_of_integer? hz] at hxz
          exact .inl ⟨a, c, rfl, rfl, Real.lt_of_ofInteger_lt hxz⟩

theorem greater_apply (x y : Value) : greater.apply x y = less.apply y x := by
  rw [apply, apply]
  cases x.integer? <;> cases y.integer? <;> rfl

/-- Comparison is a strict order on integers, reals and truth values together: nothing is less
than itself, less than what is less is less, and greater is less the other way round. -/
theorem less_strictOrder :
    (∀ x, less.apply x x = false) ∧
    (∀ x y z, less.apply x y = true → less.apply y z = true → less.apply x z = true) ∧
    ∀ x y, greater.apply x y = less.apply y x :=
  ⟨less_irrefl, fun _ _ _ => less_trans, greater_apply⟩

/-- Between two integers, a real that stands for a third one it is not equal to. -/
theorem less_strictOrder_rounded :
    less.apply (.integer 9007199254740991) (.real (Real.ofInteger 9007199254740993)) = true ∧
    less.apply (.real (Real.ofInteger 9007199254740993)) (.integer 9007199254740994) = true ∧
    less.apply (.integer 9007199254740991) (.integer 9007199254740994) = true :=
  ⟨by decide, by decide, less_strictOrder.2.1 _ (.real (Real.ofInteger 9007199254740993)) _
    (by decide) (by decide)⟩

end CompareOp

end Scriptlet
