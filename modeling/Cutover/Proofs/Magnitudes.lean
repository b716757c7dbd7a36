import Cutover.Json.Numeral
import Mathlib

/-!
# Floats of whole numbers

`Decimal.nearest n` is a number rounded to 53 binary digits, and to the even one of two that are
equally near. A float that is a whole number (`Decimal.StandsFor`) comes from a number of 64 bits,
from a power of ten, and from the product of two such floats, each time by rounding once, and the
product is an infinity if it is rounded to `2 ^ 1024` or more. Main statement: which numbers of 64
bits times which powers of ten are not too large (`Decimal.isSome_scale_iff`).
-/

namespace Cutover.Decimal

open Float.Model Float.Model.UnpackedFloat

/-! ## Rounding -/

/-- The quotient by `2 ^ k`, rounded to the nearest number, and to the even one of two. -/
def roundShift (n k : Nat) : Nat :=
  n / 2 ^ k + if 2 ^ k < 2 * (n % 2 ^ k) ∨ 2 * (n % 2 ^ k) = 2 ^ k ∧ n / 2 ^ k % 2 = 1 then 1 else 0

/-- A number rounded to 53 binary digits. -/
def nearest (n : Nat) : Nat := roundShift n (n.log2 - 52) * 2 ^ (n.log2 - 52)

theorem roundShift_bounds (n k : Nat) :
    n / 2 ^ k ≤ roundShift n k ∧ roundShift n k ≤ n / 2 ^ k + 1 := by
  unfold roundShift
  split <;> omega

theorem roundShift_mono {m n : Nat} (k : Nat) (h : m ≤ n) : roundShift m k ≤ roundShift n k := by
  have hdiv : m / 2 ^ k ≤ n / 2 ^ k := Nat.div_le_div_right h
  by_cases heq : m / 2 ^ k = n / 2 ^ k
  · have hmod : m % 2 ^ k ≤ n % 2 ^ k := by
      have hm := Nat.div_add_mod m (2 ^ k)
      have hn := Nat.div_add_mod n (2 ^ k)
      rw [heq] at hm
      omega
    unfold roundShift
    rw [heq]
    split <;> split <;> omega
  · calc roundShift m k ≤ m / 2 ^ k + 1 := (roundShift_bounds m k).2
      _ ≤ n / 2 ^ k := Nat.lt_of_le_of_ne hdiv heq
      _ ≤ roundShift n k := (roundShift_bounds n k).1

/-- The digits that a rounded number keeps. -/
theorem roundShift_log2_le (n : Nat) : roundShift n (n.log2 - 52) ≤ 2 ^ 53 := by
  have hlt : n < 2 ^ 53 * 2 ^ (n.log2 - 52) := by
    rw [← Nat.pow_add]
    exact Nat.lt_of_lt_of_le Nat.lt_log2_self (Nat.pow_le_pow_right (by decide) (by omega))
  have hdiv : n / 2 ^ (n.log2 - 52) < 2 ^ 53 := (Nat.div_lt_iff_lt_mul (Nat.two_pow_pos _)).mpr hlt
  exact Nat.le_trans (roundShift_bounds ..).2 hdiv

theorem le_roundShift_log2 {n : Nat} (h : 2 ^ 52 ≤ n) : 2 ^ 52 ≤ roundShift n (n.log2 - 52) := by
  have hn : n ≠ 0 := Nat.ne_of_gt (Nat.lt_of_lt_of_le (Nat.two_pow_pos 52) h)
  have hlog : 52 ≤ n.log2 := (Nat.le_log2 hn).mpr h
  have hle : 2 ^ 52 * 2 ^ (n.log2 - 52) ≤ n := by
    rw [← Nat.pow_add, Nat.add_sub_cancel' hlog]
    exact Nat.log2_self_le hn
  exact Nat.le_trans ((Nat.le_div_iff_mul_le (Nat.two_pow_pos _)).mpr hle) (roundShift_bounds ..).1

theorem nearest_mono {m n : Nat} (h : m ≤ n) : nearest m ≤ nearest n := by
  by_cases hm : m = 0
  · subst hm
    exact Nat.zero_le _
  have hlog : m.log2 ≤ n.log2 := (Nat.le_log2 (by omega)).mpr (Nat.le_trans (Nat.log2_self_le hm) h)
  by_cases heq : m.log2 - 52 = n.log2 - 52
  · rw [nearest, nearest, heq]
    exact Nat.mul_le_mul_right _ (roundShift_mono _ h)
  · -- between the two there is a power of two
    have hn : 2 ^ 52 ≤ n := (Nat.le_log2 (by omega)).mp (by omega)
    calc nearest m ≤ 2 ^ 53 * 2 ^ (m.log2 - 52) := Nat.mul_le_mul_right _ (roundShift_log2_le m)
      _ ≤ 2 ^ 52 * 2 ^ (n.log2 - 52) := by
        rw [← Nat.pow_add, ← Nat.pow_add]
        exact Nat.pow_le_pow_right (by decide) (by omega)
      _ ≤ nearest n := Nat.mul_le_mul_right _ (le_roundShift_log2 hn)

/-- A number with few digits is not changed. -/
theorem roundShift_of_dvd {n k : Nat} (h : 2 ^ k ∣ n) : roundShift n k = n / 2 ^ k := by
  have hpos := Nat.two_pow_pos k
  rw [roundShift, Nat.mod_eq_zero_of_dvd h, if_neg (by omega), Nat.add_zero]

/-- Doubling a number does not change how it is rounded. -/
theorem nearest_mul_two_pow (n j : Nat) : nearest (n * 2 ^ j) = nearest n * 2 ^ j := by
  by_cases hn : n = 0
  · subst hn
    simp [nearest, roundShift]
  have hlog : (n * 2 ^ j).log2 = n.log2 + j := by
    rw [Nat.log2_eq_iff (by positivity)]
    have h := (Nat.log2_eq_iff hn).mp rfl
    constructor
    · rw [Nat.pow_add]
      exact Nat.mul_le_mul_right _ h.1
    · rw [Nat.add_right_comm, Nat.pow_add]
      exact Nat.mul_lt_mul_of_pos_right h.2 (Nat.two_pow_pos j)
  by_cases hbig : 52 ≤ n.log2
  · have hshift : n.log2 + j - 52 = (n.log2 - 52) + j := by omega
    have hround : roundShift (n * 2 ^ j) (n.log2 - 52 + j) = roundShift n (n.log2 - 52) := by
      have hmod : n * 2 ^ j % 2 ^ (n.log2 - 52 + j) = n % 2 ^ (n.log2 - 52) * 2 ^ j := by
        rw [Nat.pow_add, Nat.mul_mod_mul_right]
      have hdiv : n * 2 ^ j / 2 ^ (n.log2 - 52 + j) = n / 2 ^ (n.log2 - 52) := by
        rw [Nat.pow_add, Nat.mul_div_mul_right _ _ (Nat.two_pow_pos j)]
      have hlt {a b : Nat} : a * 2 ^ j < b * 2 ^ j ↔ a < b :=
        Nat.mul_lt_mul_right (Nat.two_pow_pos j)
      have heq {a b : Nat} : a * 2 ^ j = b * 2 ^ j ↔ a = b :=
        Nat.mul_left_inj (Nat.two_pow_pos j).ne'
      rw [roundShift, roundShift, hmod, hdiv, ← Nat.mul_assoc, Nat.pow_add]
      simp only [hlt, heq]
    rw [nearest, nearest, hlog, hshift, hround, Nat.pow_add, Nat.mul_assoc]
  · have hsmall : n.log2 - 52 = 0 := by omega
    have hdvd : 2 ^ (n.log2 + j - 52) ∣ n * 2 ^ j :=
      Dvd.dvd.mul_left (Nat.pow_dvd_pow 2 (by omega)) n
    rw [nearest, nearest, hlog, hsmall, roundShift_of_dvd hdvd, Nat.div_mul_cancel hdvd,
      roundShift_of_dvd (by simp)]
    simp

/-! ## Rounding in floats -/

/-- Bits that are shifted out are kept as the last of them and as whether there are others. -/
theorem shiftRight_exact (n k : Nat) :
    (⟨n, false, false⟩ : ExtendedMantissa) >>> (k + 1) =
      ⟨n / 2 ^ (k + 1), n / 2 ^ k % 2 != 0, n % 2 ^ k != 0⟩ := by
  induction k with
  | zero =>
    change (⟨n / 2, n % 2 != 0, false || false⟩ : ExtendedMantissa) = _
    simp [Nat.mod_one]
  | succ k ih =>
    change ((⟨n, false, false⟩ : ExtendedMantissa) >>> (k + 1)).shiftRightOne = _
    rw [ih, ExtendedMantissa.shiftRightOne]
    have hdiv : n / 2 ^ (k + 1) / 2 = n / 2 ^ (k + 1 + 1) := by
      rw [Nat.div_div_eq_div_mul, ← Nat.pow_succ]
    have hmod : n % 2 ^ (k + 1) = n % 2 ^ k + 2 ^ k * (n / 2 ^ k % 2) := by
      rw [Nat.pow_succ, Nat.mod_mul]
    have hsticky : (n / 2 ^ k % 2 != 0 || n % 2 ^ k != 0) = (n % 2 ^ (k + 1) != 0) := by
      have hpos := Nat.two_pow_pos k
      rw [hmod]
      rcases Nat.mod_two_eq_zero_or_one (n / 2 ^ k) with h | h <;> rw [h]
      · simp
      · simp
    rw [hdiv, hsticky]

theorem roundedMantissa_mk (q : Nat) (round sticky : Bool) :
    (⟨q, round, sticky⟩ : ExtendedMantissa).roundedMantissa =
      q + if round = true ∧ (sticky = true ∨ q % 2 = 1) then 1 else 0 := by
  cases round <;> cases sticky
  · rfl
  · rfl
  · change q + q % 2 = _
    rcases Nat.mod_two_eq_zero_or_one q with h | h <;> simp [h]
  · simp [ExtendedMantissa.roundedMantissa, ExtendedMantissa.accuracy, Accuracy.roundToNearestEven]

theorem roundedMantissa_shiftRight (n k : Nat) :
    ((⟨n, false, false⟩ : ExtendedMantissa) >>> k).roundedMantissa = roundShift n k := by
  cases k with
  | zero =>
    change n = _
    simp [roundShift, Nat.mod_one]
  | succ k =>
    have hmod : n % 2 ^ (k + 1) = n % 2 ^ k + 2 ^ k * (n / 2 ^ k % 2) := by
      rw [Nat.pow_succ, Nat.mod_mul]
    have hlt : n % 2 ^ k < 2 ^ k := Nat.mod_lt _ (Nat.two_pow_pos k)
    -- the bits that are dropped are more than half of a unit, or half of it
    have hhalf : (n / 2 ^ k % 2 != 0) = true ∧ ((n % 2 ^ k != 0) = true ∨ n / 2 ^ (k + 1) % 2 = 1) ↔
        2 ^ (k + 1) < 2 * (n % 2 ^ (k + 1)) ∨
          2 * (n % 2 ^ (k + 1)) = 2 ^ (k + 1) ∧ n / 2 ^ (k + 1) % 2 = 1 := by
      rw [hmod]
      simp only [bne_iff_ne, ne_eq]
      generalize n / 2 ^ (k + 1) % 2 = odd
      generalize n % 2 ^ k = low at hlt
      rw [Nat.pow_succ]
      rcases Nat.mod_two_eq_zero_or_one (n / 2 ^ k) with h | h <;> rw [h] <;> omega
    rw [shiftRight_exact, roundedMantissa_mk, roundShift]
    simp only [hhalf]

theorem shiftToTargetExponent_exact {n k : Nat} {e : Int} (hn : n.log2 ≤ 52 + k)
    (hk : k = 0 ∨ n.log2 = 52 + k) (he : -1074 ≤ e + k) :
    shiftToTargetExponent .binary64 n e .exact =
      ((⟨n, false, false⟩ : ExtendedMantissa) >>> k, e + k) := by
  have htarget : (Format.binary64.targetExponent (totalExponent n e) - e).toNat = k := by
    simp only [Format.targetExponent, totalExponent, Format.mantissaBits, Format.minExponent]
    norm_num
    omega
  rw [shiftToTargetExponent, shiftToExponent, htarget]
  rfl

/-- A carry leaves one digit less. -/
theorem shiftToTargetExponent_carry {q : Nat} {e : Int} (hlo : 2 ^ 52 ≤ q) (hhi : q ≤ 2 ^ 53)
    (he : -1074 ≤ e) :
    ∃ m j, (shiftToTargetExponent .binary64 q e .exact).1.mantissa = m ∧
      (shiftToTargetExponent .binary64 q e .exact).2 = e + (j : Nat) ∧ 2 ^ 52 ≤ m ∧ m < 2 ^ 53 ∧
      m * 2 ^ j = q := by
  by_cases hq : q < 2 ^ 53
  · have hlog : q.log2 = 52 := (Nat.log2_eq_iff (by omega)).mpr ⟨hlo, hq⟩
    rw [shiftToTargetExponent_exact (k := 0) (by omega) (.inl rfl) (by omega)]
    exact ⟨q, 0, rfl, rfl, hlo, hq, Nat.mul_one q⟩
  · obtain rfl : q = 2 ^ 53 := by omega
    rw [shiftToTargetExponent_exact (k := 1) (by decide) (.inr (by decide)) (by omega)]
    exact ⟨2 ^ 52, 1, rfl, rfl, Nat.le_refl _, by decide, rfl⟩

/-- A number with 53 digits or more is rounded to 53 digits. -/
theorem roundWithAccuracy_exact {n : Nat} {e : Int} (hn : 2 ^ 52 ≤ n)
    (he : -1074 ≤ e + (n.log2 - 52 : Nat)) :
    ∃ m j h, roundWithAccuracy .binary64 .positive n e .exact =
        .finite .positive m (e + (j : Nat)) h ∧
      2 ^ 52 ≤ m ∧ m < 2 ^ 53 ∧ -1074 ≤ e + j ∧ m * 2 ^ j = nearest n := by
  have hlog : 52 ≤ n.log2 := (Nat.le_log2 (by omega)).mpr hn
  have hfirst := shiftToTargetExponent_exact (n := n) (k := n.log2 - 52) (by omega)
      (.inr (by omega)) he
  obtain ⟨m, j, hm, hj, hlo, hhi, hmul⟩ :=
    shiftToTargetExponent_carry (le_roundShift_log2 hn) (roundShift_log2_le n) he
  have hpos : 0 < m := Nat.lt_of_lt_of_le (by decide) hlo
  refine ⟨m, n.log2 - 52 + j, hpos, ?_, hlo, hhi, by omega, ?_⟩
  · rw [roundWithAccuracy, hfirst]
    simp only [roundedMantissa_shiftRight, hm, hj, dif_neg (Nat.ne_of_gt hpos), Nat.cast_add,
      Int.add_assoc]
  · rw [nearest, ← hmul, Nat.pow_add]
    ring

/-! ## Packing -/

/-- A float of 53 digits is packed as it is, unless its exponent is too large. -/
theorem unpack_pack {m : Nat} {x : Int} {h : 0 < m} (hlo : 2 ^ 52 ≤ m) (hhi : m < 2 ^ 53)
    (hx : -1074 ≤ x) :
    (Float.Model.pack (.finite .positive m x h)).unpack =
      if x ≤ 971 then .finite .positive m x h else .infinity .positive := by
  have hlog : m.log2 = 52 := (Nat.log2_eq_iff (by omega)).mpr ⟨hlo, hhi⟩
  have hbias : (x + Format.binary64.exponentBias +
      Format.binary64.mantissaBitsWithoutImplicit).toNat =
      (x + 1075).toNat := by
    change (x + (2 ^ (11 - 1) - 1 : Nat) + (52 : Nat)).toNat = _
    omega
  change UnpackedFloat.unpack .binary64 (UnpackedFloat.pack .binary64 (.finite .positive m x h)) = _
  rw [UnpackedFloat.pack]
  simp only [hlog, hbias]
  by_cases hx' : x ≤ 971
  · have hne (n : Nat) (hn : n < 2048) (hne : (x + 1075).toNat ≠ n) :
        BitVec.ofNat 11 (x + 1075).toNat ≠ BitVec.ofNat 11 n := fun heq => by
      have := congrArg BitVec.toNat heq
      rw [BitVec.toNat_ofNat, BitVec.toNat_ofNat, Nat.mod_eq_of_lt hn, Nat.mod_eq_of_lt (by omega)]
        at this
      exact hne this
    have hinf : BitVec.ofNat 11 (x + 1075).toNat ≠ -1#11 := hne 2047 (by decide) (by omega)
    have hsub : BitVec.ofNat 11 (x + 1075).toNat ≠ 0#11 := hne 0 (by decide) (by omega)
    have hmantissa : (1#1 ++ BitVec.ofNat 52 m).toNat = m := by
      rw [BitVec.toNat_append, ← Nat.shiftLeft_add_eq_or_of_lt (BitVec.ofNat 52 m).isLt,
        BitVec.toNat_ofNat, Nat.shiftLeft_eq]
      change 1 * 2 ^ 52 + m % 2 ^ 52 = m
      omega
    have hexponent : ((BitVec.ofNat 11 (x + 1075).toNat).toNat : Int) -
        ((Format.binary64.exponentBias : Nat) +
          (Format.binary64.mantissaBitsWithoutImplicit : Nat)) = x := by
      change ((BitVec.ofNat 11 (x + 1075).toNat).toNat : Int) -
        ((2 ^ (11 - 1) - 1 : Nat) + (52 : Nat)) = x
      rw [BitVec.toNat_ofNat, Nat.mod_eq_of_lt (by omega)]
      omega
    have hbits : 52 + 1 = Format.binary64.mantissaBits := rfl
    rw [if_neg (by omega), if_pos hbits, if_pos hx', UnpackedFloat.unpack]
    simp only [unpackMantissa_packComponents, unpackExponent_packComponents,
      unpackSign_packComponents, Sign.ofBitVec_toBitVec]
    rw [if_neg hinf, if_neg hsub]
    simp only [hmantissa, hexponent]
  · rw [if_pos (by omega), if_neg hx']
    rfl

/-! ## Floats that are whole numbers -/

/-- A float with 53 digits that is a whole number. -/
def StandsFor (f : Float) (n : Nat) : Prop :=
  ∃ m x h, f.toModel.unpack = .finite .positive m x h ∧ 2 ^ 52 ≤ m ∧ m < 2 ^ 53 ∧ -1074 ≤ x ∧
    x ≤ 971 ∧ (m : ℚ) * 2 ^ x = n

theorem StandsFor.not_isInf {f : Float} {n : Nat} (h : StandsFor f n) : f.isInf = false := by
  obtain ⟨m, x, hpos, hf, -⟩ := h
  change f.toModel.unpack.isInf = false
  rw [hf]
  rfl

/-- A number is rounded as its multiples by powers of two are. -/
theorem nearest_zpow {n v : Nat} {e : Int} (h : (n : ℚ) * 2 ^ e = v) :
    (nearest n : ℚ) * 2 ^ e = nearest v := by
  obtain ⟨k, rfl | rfl⟩ := e.eq_nat_or_neg
  · rw [zpow_natCast] at h ⊢
    have hv : v = n * 2 ^ k := by exact_mod_cast h.symm
    rw [hv, nearest_mul_two_pow]
    push_cast
    rfl
  · rw [zpow_neg, zpow_natCast] at h ⊢
    have hn : n = v * 2 ^ k := by
      rw [← div_eq_mul_inv, div_eq_iff (by positivity)] at h
      exact_mod_cast h
    rw [hn, nearest_mul_two_pow, ← div_eq_mul_inv, div_eq_iff (by positivity)]
    push_cast
    rfl

/-- What a number has digits enough for. -/
theorem log2_add_nonneg {n v : Nat} {e : Int} (h : (n : ℚ) * 2 ^ e = v) (hv : 0 < v) :
    0 ≤ n.log2 + e := by
  have hlt : (n : ℚ) < 2 ^ ((n.log2 : Int) + 1) := by
    have := Nat.lt_log2_self (n := n)
    exact_mod_cast this
  have hone : (1 : ℚ) < 2 ^ ((n.log2 : Int) + 1 + e) := by
    rw [zpow_add₀ (by norm_num)]
    calc (1 : ℚ) ≤ v := by exact_mod_cast hv
      _ = n * 2 ^ e := h.symm
      _ < 2 ^ ((n.log2 : Int) + 1) * 2 ^ e := mul_lt_mul_of_pos_right hlt (by positivity)
  have := (one_lt_zpow_iff_right₀ (by norm_num)).mp hone
  omega

/-- The exponent of a float is too large if its value is. -/
theorem exponent_le_iff {m v : Nat} {x : Int} (hlo : 2 ^ 52 ≤ m) (hhi : m < 2 ^ 53)
    (h : (m : ℚ) * 2 ^ x = v) :
    x ≤ 971 ↔ v < 2 ^ 1024 := by
  have htwo : (1 : ℚ) ≤ 2 := by norm_num
  have hpow (a : Nat) (b : Int) : (2 : ℚ) ^ a * 2 ^ b = 2 ^ ((a : Int) + b) := by
    rw [zpow_add₀ (by norm_num), zpow_natCast]
  constructor
  · intro hx
    have hlt : (v : ℚ) < 2 ^ (1024 : Int) := by
      calc (v : ℚ) = m * 2 ^ x := h.symm
        _ < 2 ^ 53 * 2 ^ x := mul_lt_mul_of_pos_right (by exact_mod_cast hhi) (by positivity)
        _ = 2 ^ ((53 : Nat) + x : Int) := hpow 53 x
        _ ≤ 2 ^ (1024 : Int) := zpow_le_zpow_right₀ htwo (by omega)
    exact_mod_cast hlt
  · intro hv
    by_contra hx
    have hle : (2 : ℚ) ^ (1024 : Int) ≤ v := by
      calc (2 : ℚ) ^ (1024 : Int) ≤ 2 ^ ((52 : Nat) + x : Int) :=
          zpow_le_zpow_right₀ htwo (by omega)
        _ = 2 ^ 52 * 2 ^ x := (hpow 52 x).symm
        _ ≤ m * 2 ^ x := mul_le_mul_of_nonneg_right (by exact_mod_cast hlo) (by positivity)
        _ = v := h
    have hle : 2 ^ 1024 ≤ v := by exact_mod_cast hle
    exact absurd hv (Nat.not_lt.mpr hle)

/-- Rounding gives the nearest float, or an infinity. -/
theorem standsFor_round {n v : Nat} {e : Int} (hn : 2 ^ 52 ≤ n) (h : (n : ℚ) * 2 ^ e = v)
    (hv : 0 < v) :
    (nearest v < 2 ^ 1024 →
      StandsFor ⟨Float.Model.pack (roundWithAccuracy .binary64 .positive n e .exact)⟩ (nearest v)) ∧
    (2 ^ 1024 ≤ nearest v →
      Float.isInf ⟨Float.Model.pack (roundWithAccuracy .binary64 .positive n e .exact)⟩ =
        true) := by
  have hlog := log2_add_nonneg h hv
  have hlog' : 52 ≤ n.log2 := (Nat.le_log2 (by omega)).mpr hn
  obtain ⟨m, j, hpos, hround, hlo, hhi, hx, hmul⟩ := roundWithAccuracy_exact (e := e) hn (by omega)
  have hvalue : (m : ℚ) * 2 ^ (e + (j : Nat)) = nearest v := by
    rw [← nearest_zpow h, ← hmul, add_comm, zpow_add₀ (by norm_num), zpow_natCast]
    push_cast
    ring
  have hpack := unpack_pack (h := hpos) hlo hhi hx
  rw [hround]
  constructor
  · intro hlt
    have hx' := (exponent_le_iff hlo hhi hvalue).mpr hlt
    exact ⟨m, _, hpos, hpack.trans (if_pos hx'), hlo, hhi, hx, hx', hvalue⟩
  · intro hle
    have hx' : ¬ e + (j : Nat) ≤ 971 := mt (exponent_le_iff hlo hhi hvalue).mp (Nat.not_lt.mpr hle)
    change (Float.Model.pack _).unpack.isInf = true
    rw [hpack, if_neg hx']
    rfl

/-- A number of 64 bits is rounded. -/
theorem standsFor_toFloat {n : Nat} (hn : 0 < n) (hn' : n < UInt64.size) :
    StandsFor (UInt64.ofNat n).toFloat (nearest n) := by
  have htarget : (-Format.binary64.targetExponent (totalExponent n 0)).toNat = 52 - n.log2 := by
    simp only [Format.targetExponent, totalExponent, Format.mantissaBits, Format.minExponent]
    norm_num
    omega
  have hround : (UInt64.ofNat n).toFloat = ⟨Float.Model.pack
      (roundWithAccuracy .binary64 .positive (n * 2 ^ (52 - n.log2))
        (-(52 - n.log2 : Nat)) .exact)⟩ := by
    have htoNat : (UInt64.ofNat n).toNat = n := UInt64.toNat_ofNat_of_lt' hn'
    have hcompare : compare (n : Int) 0 = .gt := by
      rw [compare_gt_iff_gt]
      exact_mod_cast hn
    change (⟨Float.Model.pack (UnpackedFloat.normalize .binary64
      ((UInt64.ofNat n).toNat : Int) 0 .positive)⟩ :
      Float) = _
    rw [htoNat, UnpackedFloat.normalize, hcompare]
    simp only [Int.toNat_natCast, UnpackedFloat.round, decreaseExponent, Nat.shiftLeft_eq,
      Int.zero_sub, htarget]
  have hlarge : 2 ^ 52 ≤ n * 2 ^ (52 - n.log2) := by
    calc 2 ^ 52 ≤ 2 ^ n.log2 * 2 ^ (52 - n.log2) := by
          rw [← Nat.pow_add]
          exact Nat.pow_le_pow_right (by decide) (by omega)
      _ ≤ n * 2 ^ (52 - n.log2) := Nat.mul_le_mul_right _ (Nat.log2_self_le (by omega))
  have hvalue : ((n * 2 ^ (52 - n.log2) : Nat) : ℚ) * 2 ^ (-(52 - n.log2 : Nat) : Int) = n := by
    rw [zpow_neg, zpow_natCast]
    push_cast
    rw [mul_assoc, mul_inv_cancel₀ (by positivity), mul_one]
  have hfits : nearest n < 2 ^ 1024 := by
    calc nearest n ≤ nearest (2 ^ 64) := nearest_mono (Nat.le_of_lt hn')
      _ < 2 ^ 1024 := by decide +kernel
  rw [hround]
  exact (standsFor_round hlarge hvalue hn).1 hfits

/-- Whether a float has 53 digits and is a number. -/
private def isExactly (f : Float) (v : Nat) : Bool :=
  match f.toModel.unpack with
  | .finite .positive m x _ =>
    2 ^ 52 ≤ m && m < 2 ^ 53 && -1074 ≤ x && x ≤ 971 && m * 2 ^ x.toNat = v * 2 ^ (-x).toNat
  | _ => false

private theorem standsFor_of_isExactly {f : Float} {v : Nat} (h : isExactly f v = true) :
    StandsFor f v := by
  unfold isExactly at h
  split at h
  · next m x hpos hf =>
    simp only [Bool.and_eq_true, decide_eq_true_eq] at h
    obtain ⟨⟨⟨⟨hlo, hhi⟩, hx⟩, hx'⟩, hmul⟩ := h
    refine ⟨m, x, hpos, hf, hlo, hhi, hx, hx', ?_⟩
    obtain ⟨k, rfl | rfl⟩ := x.eq_nat_or_neg
    · rw [zpow_natCast]
      simp only [Int.toNat_natCast, Int.toNat_neg_natCast, pow_zero, mul_one] at hmul
      exact_mod_cast hmul
    · rw [zpow_neg, zpow_natCast, ← div_eq_mul_inv, div_eq_iff (by positivity)]
      simp only [neg_neg, Int.toNat_natCast, Int.toNat_neg_natCast, pow_zero, mul_one] at hmul
      exact_mod_cast hmul
  · cases h

/-- A power of ten up to the largest that is a float is rounded. -/
theorem standsFor_powTen {k : Nat} (hk : k ≤ 308) : StandsFor (powTen k) (nearest (10 ^ k)) := by
  by_cases hsmall : k ≤ 22
  · have all : ∀ k ≤ 22, isExactly (powTen k) (nearest (10 ^ k)) = true := by decide +kernel
    exact standsFor_of_isExactly (all k hsmall)
  · have hround : powTen k = ⟨Float.Model.pack
        (roundWithAccuracy .binary64 .positive ((1 <<< 53) * 10 ^ k) (-53) .exact)⟩ := by
      have hlarge : ¬ ((k : Int) > 2 ^ 11) := by norm_num; omega
      have hsmall' : ¬ ((k : Int) < -((2 ^ 11 : Int) + (1 : Nat).log2)) := by omega
      rw [powTen, Float.ofScientific, dif_neg (fun h => hsmall h.2)]
      change (⟨Float.Model.pack (UnpackedFloat.ofScientific .binary64 1 (k : Int))⟩ : Float) = _
      rw [UnpackedFloat.ofScientific, dif_neg (by decide), if_neg hlarge, if_neg hsmall',
        if_pos (by omega)]
      rfl
    have hlarge : 2 ^ 52 ≤ (1 <<< 53) * 10 ^ k :=
      Nat.le_trans (by decide) (Nat.le_mul_of_pos_right (1 <<< 53) (by positivity))
    have hvalue : (((1 <<< 53) * 10 ^ k : Nat) : ℚ) * 2 ^ (-53 : Int) = (10 ^ k : Nat) := by
      rw [zpow_neg, ← div_eq_mul_inv, div_eq_iff (by positivity), mul_comm]
      norm_num [Nat.shiftLeft_eq]
    have hfits : nearest (10 ^ k) < 2 ^ 1024 := by
      calc nearest (10 ^ k) ≤ nearest (10 ^ 308) :=
          nearest_mono (Nat.pow_le_pow_right (by decide) hk)
        _ < 2 ^ 1024 := by decide +kernel
    rw [hround]
    exact (standsFor_round hlarge hvalue (by positivity)).1 hfits

/-- A product is rounded, or it is an infinity. -/
theorem standsFor_mul {f g : Float} {u v : Nat} (hf : StandsFor f u) (hg : StandsFor g v) :
    (nearest (u * v) < 2 ^ 1024 → StandsFor (f * g) (nearest (u * v))) ∧
    (2 ^ 1024 ≤ nearest (u * v) → (f * g).isInf = true) := by
  obtain ⟨m, x, hm, hf, hmlo, -, -, -, hu⟩ := hf
  obtain ⟨n, y, hn, hg, hnlo, -, -, -, hv⟩ := hg
  have hvalue : ((m * n : Nat) : ℚ) * 2 ^ (x + y) = (u * v : Nat) := by
    rw [zpow_add₀ (by norm_num)]
    push_cast
    rw [← hu, ← hv]
    ring
  have hlarge : 2 ^ 52 ≤ m * n := Nat.le_trans hmlo (Nat.le_mul_of_pos_right m hn)
  have hpos : 0 < u * v := by
    have : (0 : ℚ) < (u * v : Nat) := by
      rw [← hvalue]
      positivity
    exact_mod_cast this
  have hmul : f * g = ⟨Float.Model.pack
      (roundWithAccuracy .binary64 .positive (m * n) (x + y) .exact)⟩ := by
    change (⟨Float.Model.pack (UnpackedFloat.mul .binary64 f.toModel.unpack g.toModel.unpack)⟩ :
      Float) = _
    rw [hf, hg]
    rfl
  rw [hmul]
  exact standsFor_round hlarge hvalue hpos

/-! ## Numbers that are too large -/

/-- The least number from which on leading digits and zeros make no float. -/
def bound : Nat := 17976931348623156225 * 10 ^ 289

theorem StandsFor.ne_zero {f : Float} {n : Nat} (h : StandsFor f n) : (f == 0) = false := by
  obtain ⟨m, x, hpos, hf, -⟩ := h
  have hzero : (0 : Float).toModel.unpack = .zero .positive := rfl
  change UnpackedFloat.beq f.toModel.unpack (0 : Float).toModel.unpack = false
  rw [hf, hzero]
  rfl

private theorem product_lt_iff {s k : Nat} (hlo : 1844674407370955161 ≤ s) (hhi : s < UInt64.size)
    (hk : k ≤ 308) :
    nearest (nearest s * nearest (10 ^ k)) < 2 ^ 1024 ↔ s * 10 ^ k < bound := by
  have hmono {s s' k k' : Nat} (hs : s ≤ s') (hk : k ≤ k') :
      nearest (nearest s * nearest (10 ^ k)) ≤ nearest (nearest s' * nearest (10 ^ k')) :=
    nearest_mono (Nat.mul_le_mul (nearest_mono hs)
      (nearest_mono (Nat.pow_le_pow_right (by decide) hk)))
  have hmul {a b k k' : Nat} (h : a ≤ b) (hk : k ≤ k') : a * 10 ^ k ≤ b * 10 ^ k' :=
    Nat.mul_le_mul h (Nat.pow_le_pow_right (by decide) hk)
  rcases Nat.lt_trichotomy k 289 with hk289 | rfl | hk289
  · have hs : s ≤ 2 ^ 64 - 1 := Nat.le_sub_one_of_lt hhi
    have hk288 : k ≤ 288 := Nat.le_of_lt_succ hk289
    have hfinite : nearest (nearest (2 ^ 64 - 1) * nearest (10 ^ 288)) < 2 ^ 1024 := by
      decide +kernel
    have hbelow : (2 ^ 64 - 1) * 10 ^ 288 < bound := by decide +kernel
    exact iff_of_true (Nat.lt_of_le_of_lt (hmono hs hk288) hfinite)
      (Nat.lt_of_le_of_lt (hmul hs hk288) hbelow)
  · by_cases hs : s ≤ 17976931348623156224
    · have hfinite : nearest (nearest 17976931348623156224 * nearest (10 ^ 289)) < 2 ^ 1024 := by
        decide +kernel
      have hbelow : 17976931348623156224 * 10 ^ 289 < bound := by decide +kernel
      exact iff_of_true (Nat.lt_of_le_of_lt (hmono hs (Nat.le_refl _)) hfinite)
        (Nat.lt_of_le_of_lt (hmul hs (Nat.le_refl _)) hbelow)
    · have hs : 17976931348623156225 ≤ s := Nat.lt_of_not_le hs
      have hinf : 2 ^ 1024 ≤ nearest (nearest 17976931348623156225 * nearest (10 ^ 289)) := by
        decide +kernel
      exact iff_of_false (Nat.not_lt.mpr (Nat.le_trans hinf (hmono hs (Nat.le_refl _))))
        (Nat.not_lt.mpr (hmul hs (Nat.le_refl _)))
  · have hinf : 2 ^ 1024 ≤ nearest (nearest 1844674407370955161 * nearest (10 ^ 290)) := by
      decide +kernel
    have habove : bound ≤ 1844674407370955161 * 10 ^ 290 := by decide +kernel
    exact iff_of_false (Nat.not_lt.mpr (Nat.le_trans hinf (hmono hlo hk289)))
      (Nat.not_lt.mpr (Nat.le_trans habove (hmul hlo hk289)))

/-- Which numbers of 64 bits that do not take another digit have a float with zeros behind them. -/
theorem isSome_scale_iff {s k : Nat} (hlo : 1844674407370955161 ≤ s) (hhi : s < UInt64.size) :
    (scale s k).isSome ↔ s * 10 ^ k < bound := by
  have hs := standsFor_toFloat (Nat.lt_of_lt_of_le (by decide) hlo) hhi
  by_cases hk : k ≤ 308
  · rw [← product_lt_iff hlo hhi hk, scale, scaleFloat, if_pos (by simpa using hk),
      if_pos (Int.natCast_nonneg k)]
    obtain ⟨hfinite, hinf⟩ := standsFor_mul hs (standsFor_powTen hk)
    by_cases hlt : nearest (nearest s * nearest (10 ^ k)) < 2 ^ 1024
    · have hnot : ((UInt64.ofNat s).toFloat * powTen (k : Int).toNat).isInf = false :=
        (hfinite hlt).not_isInf
      simp only [hnot, Bool.false_eq_true, if_false, Option.isSome_some, hlt]
    · have his : ((UInt64.ofNat s).toFloat * powTen (k : Int).toNat).isInf = true :=
        hinf (Nat.not_lt.mp hlt)
      simp only [his, if_true, Option.isSome_none, Bool.false_eq_true, hlt]
  · have hlarge : bound ≤ s * 10 ^ k := by
      calc bound ≤ 1844674407370955161 * 10 ^ 309 := by decide +kernel
        _ ≤ s * 10 ^ k := Nat.mul_le_mul hlo (Nat.pow_le_pow_right (by decide) (by omega))
    have hzero : ((UInt64.ofNat s).toFloat == 0) = false := hs.ne_zero
    rw [scale, scaleFloat, if_neg (by simpa using hk), if_neg (by simp [hzero]),
      dif_pos (Int.natCast_nonneg k)]
    simp [Nat.not_lt.mpr hlarge]

/-! ## Leading digits -/

theorem foldl_digits_bounds {ds : List Nat} (hds : ∀ d ∈ ds, d < 10) (n : Nat) :
    n * 10 ^ ds.length ≤ ds.foldl (fun n d => 10 * n + d) n ∧
      ds.foldl (fun n d => 10 * n + d) n < (n + 1) * 10 ^ ds.length := by
  induction ds generalizing n with
  | nil => simp
  | cons d ds ih =>
    obtain ⟨hd, hds⟩ := List.forall_mem_cons.mp hds
    obtain ⟨hlo, hhi⟩ := ih hds (10 * n + d)
    rw [List.length_cons, List.foldl_cons, Nat.pow_succ]
    constructor
    · calc n * (10 ^ ds.length * 10) = 10 * n * 10 ^ ds.length := by ring
        _ ≤ (10 * n + d) * 10 ^ ds.length := Nat.mul_le_mul_right _ (Nat.le_add_right ..)
        _ ≤ _ := hlo
    · calc _ < (10 * n + d + 1) * 10 ^ ds.length := hhi
        _ ≤ 10 * (n + 1) * 10 ^ ds.length := Nat.mul_le_mul_right _ (by omega)
        _ = (n + 1) * (10 ^ ds.length * 10) := by ring

/-- What the leading digits tell of a number, and why no more of them were taken. -/
theorem leading_spec {ds : List Nat} (hds : ∀ d ∈ ds, d < 10) {n : Nat} (hn : n < UInt64.size) :
    (leading n ds).1 < UInt64.size ∧
    (leading n ds).1 * 10 ^ (leading n ds).2 ≤ ds.foldl (fun n d => 10 * n + d) n ∧
    ds.foldl (fun n d => 10 * n + d) n < ((leading n ds).1 + 1) * 10 ^ (leading n ds).2 ∧
    ((leading n ds).2 = 0 ∨ UInt64.size ≤ 10 * (leading n ds).1 + 9) := by
  induction ds generalizing n with
  | nil => simpa [leading] using hn
  | cons d ds ih =>
    obtain ⟨hd, hds'⟩ := List.forall_mem_cons.mp hds
    rw [leading]
    split
    · next h => exact ih hds' h
    · obtain ⟨hlo, hhi⟩ := foldl_digits_bounds hds n
      exact ⟨hn, hlo, hhi, .inr (by omega)⟩

end Cutover.Decimal

namespace Cutover.Json.Numeral

open Decimal

/-- Whole digits have a float if their number is below the bound. -/
theorem isSome_toFloat?_iff (negative : Bool) {ds : List Nat} (hds : ∀ d ∈ ds, d < 10)
    (hn : UInt64.size / 2 ≤ ofDigits ds) :
    (toFloat? ⟨negative, ds, none, none⟩).isSome ↔ ofDigits ds < bound := by
  have hspec := leading_spec hds (n := 0) (by decide)
  have hfloat : toFloat? ⟨negative, ds, none, none⟩ =
      (scale (leading 0 ds).1 (leading 0 ds).2).map fun f => if negative then -f else f := by
    simp only [toFloat?, following, Option.getD_none, Int.natCast_zero, Int.sub_zero, Int.add_zero]
    cases scale (leading 0 ds).1 (leading 0 ds).2 <;> rfl
  rw [← ofDigits] at hspec
  rw [hfloat, Option.isSome_map]
  generalize leading 0 ds = r at *
  obtain ⟨s, k⟩ := r
  obtain ⟨hs, hlo, hhi, hk⟩ := hspec
  have hsize : UInt64.size = 18446744073709551616 := rfl
  have hlarge : 1844674407370955161 ≤ s := by
    obtain hk | hk := hk
    · obtain rfl : k = 0 := hk
      simp only [pow_zero, Nat.mul_one] at hhi
      omega
    · dsimp only at hk
      omega
  rw [isSome_scale_iff hlarge hs]
  constructor
  · intro hlt
    have hk289 : k ≤ 289 := by
      by_contra hk290
      have habove : bound ≤ s * 10 ^ k := by
        calc bound ≤ 1844674407370955161 * 10 ^ 290 := by decide +kernel
          _ ≤ s * 10 ^ k := Nat.mul_le_mul hlarge (Nat.pow_le_pow_right (by decide) (by omega))
      exact absurd hlt (Nat.not_lt.mpr habove)
    -- the bound has as many zeros
    have hsplit : bound = 17976931348623156225 * 10 ^ (289 - k) * 10 ^ k := by
      rw [Nat.mul_assoc, ← Nat.pow_add, Nat.sub_add_cancel hk289, bound]
    rw [hsplit] at hlt ⊢
    have hnext := Nat.lt_of_mul_lt_mul_right hlt
    exact Nat.lt_of_lt_of_le hhi (Nat.mul_le_mul_right _ hnext)
  · exact Nat.lt_of_le_of_lt hlo

end Cutover.Json.Numeral
