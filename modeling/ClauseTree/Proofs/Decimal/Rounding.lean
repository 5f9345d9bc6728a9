import ClauseTree.Decimal.Nearest
import ClauseTree.Decimal.Shortest
import Mathlib.Algebra.Order.Field.Power
import Mathlib.Data.Rat.Cast.Order
import Mathlib.Tactic.FieldSimp
import Mathlib.Tactic.Linarith
import Mathlib.Tactic.Positivity
import Mathlib.Tactic.Ring

/-!
# The reals that round to a double

`Binary.Covers b v` says that the real `v` lies in the interval of those that round to `b`. Its ends
belong to it if the significand is even. `nearestBits?_of_covers` is what makes this the right
interval: rounding any quotient in it gives the bits of the double.

A quotient in the interval is almost always rounded in steps of the last place of the double. Only
below a power of two, where doubles get denser, it is rounded in steps of half of that.
-/

namespace ClauseTree.Decimal

/-- The lower end of the interval of a double, in quarters of its last place. -/
def Binary.low (b : Binary) : Nat := 4 * b.m - if b.narrow then 1 else 2

/-- The upper end of the interval of a double, in quarters of its last place. -/
def Binary.high (b : Binary) : Nat := 4 * b.m + 2

/-- The real `v` rounds to the double. -/
def Binary.Covers (b : Binary) (v : ℚ) : Prop :=
  if b.m % 2 = 0 then b.low * 2 ^ (b.q - 2) ≤ v ∧ v ≤ b.high * 2 ^ (b.q - 2)
  else b.low * 2 ^ (b.q - 2) < v ∧ v < b.high * 2 ^ (b.q - 2)

/-! ## Powers with an integer exponent -/

theorem zpow_eq_div (a : ℚ) (z : ℤ) : a ^ z = a ^ z.toNat / a ^ (-z).toNat := by
  obtain ⟨n, rfl | rfl⟩ := z.eq_nat_or_neg
  · simp
  · simp

theorem scaleDown_eq (num den : Nat) (q : Int) :
    ((scaleDown num den q).1 : ℚ) / (scaleDown num den q).2 = num / den / 2 ^ q := by
  rw [scaleDown, Nat.pow_eq, Nat.pow_eq, zpow_eq_div]
  push_cast
  field_simp

/-! ## Rounding to a natural number -/

section Quotients

variable {n d : Nat}

/-- A quotient consists of its whole part and a part below one. -/
theorem div_eq_whole_add_part (hd : 0 < d) :
    (n : ℚ) / d = (n / d : ℕ) + (n % d : ℕ) / d ∧ 0 ≤ ((n % d : ℕ) : ℚ) / d ∧
      ((n % d : ℕ) : ℚ) / d < 1 := by
  have hd' : (0 : ℚ) < d := Nat.cast_pos.2 hd
  have hdiv : (n : ℚ) = d * (n / d : ℕ) + (n % d : ℕ) := by
    exact_mod_cast (Nat.div_add_mod n d).symm
  refine ⟨?_, by positivity, ?_⟩
  · rw [div_eq_iff hd'.ne', add_mul, div_mul_cancel₀ _ hd'.ne', mul_comm ((n / d : ℕ) : ℚ)]
    exact hdiv
  · rw [div_lt_one hd', Nat.cast_lt]
    exact Nat.mod_lt n hd

theorem two_mul_lt_iff (hd : 0 < d) : 2 * n < d ↔ (n : ℚ) / d < 1 / 2 := by
  rw [div_lt_div_iff₀ (Nat.cast_pos.2 hd) two_pos, one_mul, mul_comm]
  exact_mod_cast Iff.rfl

theorem lt_two_mul_iff (hd : 0 < d) : d < 2 * n ↔ 1 / 2 < (n : ℚ) / d := by
  rw [div_lt_div_iff₀ two_pos (Nat.cast_pos.2 hd), one_mul, mul_comm]
  exact_mod_cast Iff.rfl

/-- A quotient is rounded to the number it is within a half of, and a half to the even one. -/
theorem roundHalfEven_eq {m : Nat} (hd : 0 < d) (hlow : (m : ℚ) - 1 / 2 ≤ n / d)
    (hhigh : (n : ℚ) / d ≤ m + 1 / 2)
    (htie : (n : ℚ) / d = m - 1 / 2 ∨ (n : ℚ) / d = m + 1 / 2 → m % 2 = 0) :
    roundHalfEven n d = m := by
  obtain ⟨hquot, hpos, hlt⟩ := div_eq_whole_add_part (n := n) hd
  rw [roundHalfEven]
  simp only [two_mul_lt_iff hd, lt_two_mul_iff hd]
  rw [hquot] at hlow hhigh htie
  generalize n / d = w at *
  generalize ((n % d : ℕ) : ℚ) / d = t at *
  have hle : m ≤ w + 1 := by
    have hcast : (m : ℚ) < (w + 2 : ℕ) := by
      push_cast
      linarith
    have := Nat.cast_lt.1 hcast
    omega
  have hge : w ≤ m := by
    have hcast : (w : ℚ) < (m + 1 : ℕ) := by
      push_cast
      linarith
    have := Nat.cast_lt.1 hcast
    omega
  rcases (by omega : m = w ∨ m = w + 1) with rfl | rfl
  · rcases lt_or_eq_of_le (by linarith : t ≤ 1 / 2) with hhalf | hhalf
    · rw [if_pos hhalf]
    · have heven : m % 2 = 0 := htie (Or.inr (by rw [hhalf]))
      rw [if_neg (by linarith), if_neg (by linarith), if_pos heven]
  · push_cast at hlow htie
    rcases lt_or_eq_of_le (by linarith : 1 / 2 ≤ t) with hhalf | hhalf
    · rw [if_neg (by linarith), if_pos hhalf]
    · have heven : (w + 1) % 2 = 0 := htie (Or.inl (by linarith))
      rw [if_neg (by linarith), if_neg (by linarith), if_neg (by omega)]

end Quotients

/-! ## The step of rounding -/

theorem log2_bounds {n : Nat} (hn : 0 < n) :
    (2 : ℚ) ^ (Nat.log2 n : ℤ) ≤ n ∧ (n : ℚ) < 2 ^ ((Nat.log2 n : ℤ) + 1) := by
  constructor
  · rw [zpow_natCast]
    exact_mod_cast Nat.log2_self_le hn.ne'
  · have hlt : n < 2 ^ (Nat.log2 n + 1) := Nat.lt_log2_self
    exact_mod_cast hlt

theorem scaleDown_pos (num : Nat) {den : Nat} (hden : 0 < den) (q : Int) :
    0 < (scaleDown num den q).2 :=
  Nat.mul_pos hden (Nat.two_pow_pos _)

/-- Quotients are rounded in the steps in which they have 53 binary digits, but never in steps
below the least double. -/
theorem stepExponent_spec {num den : Nat} (hnum : 0 < num) (hden : 0 < den) :
    ∃ e : ℤ, stepExponent num den = max e (-1074) ∧ (2 : ℚ) ^ (e + 52) ≤ num / den ∧
      (num : ℚ) / den < 2 ^ (e + 53) := by
  have hden' : (0 : ℚ) < den := Nat.cast_pos.2 hden
  obtain ⟨hnumLow, hnumHigh⟩ := log2_bounds hnum
  obtain ⟨hdenLow, hdenHigh⟩ := log2_bounds hden
  obtain ⟨q, hq⟩ : ∃ q : ℤ, q = (Nat.log2 num : ℤ) - Nat.log2 den - 52 := ⟨_, rfl⟩
  have hlow : (2 : ℚ) ^ (q + 51) < num / den := by
    rw [lt_div_iff₀ hden']
    calc (2 : ℚ) ^ (q + 51) * den < 2 ^ (q + 51) * 2 ^ ((Nat.log2 den : ℤ) + 1) := by gcongr
      _ = 2 ^ (Nat.log2 num : ℤ) := by
        rw [← zpow_add₀ two_ne_zero]
        congr 1
        omega
      _ ≤ num := hnumLow
  have hhigh : (num : ℚ) / den < 2 ^ (q + 53) := by
    rw [div_lt_iff₀ hden']
    calc (num : ℚ) < 2 ^ ((Nat.log2 num : ℤ) + 1) := hnumHigh
      _ = 2 ^ (q + 53) * 2 ^ (Nat.log2 den : ℤ) := by
        rw [← zpow_add₀ two_ne_zero]
        congr 1
        omega
      _ ≤ 2 ^ (q + 53) * den := by gcongr
  have hstep : (scaleDown num den q).1 < 2 ^ 52 * (scaleDown num den q).2 ↔
      (num : ℚ) / den < 2 ^ (q + 52) := by
    have hpos : (0 : ℚ) < (scaleDown num den q).2 := Nat.cast_pos.2 (scaleDown_pos num hden q)
    have hpow : (0 : ℚ) < 2 ^ q := by positivity
    rw [zpow_add₀ two_ne_zero, mul_comm ((2 : ℚ) ^ q), ← div_lt_iff₀ hpow, ← scaleDown_eq,
      div_lt_iff₀ hpos]
    exact_mod_cast Iff.rfl
  have hread : stepExponent num den =
      max (if (scaleDown num den q).1 < 2 ^ 52 * (scaleDown num den q).2 then q - 1 else q)
        (-1074) := by
    rw [stepExponent, ← hq]
    rfl
  rw [hread]
  by_cases hlt : (num : ℚ) / den < 2 ^ (q + 52)
  · refine ⟨q - 1, by rw [if_pos (hstep.2 hlt)], ?_, ?_⟩
    · rw [show q - 1 + 52 = q + 51 by omega]
      exact hlow.le
    · rw [show q - 1 + 53 = q + 52 by omega]
      exact hlt
  · exact ⟨q, by rw [if_neg fun h => hlt (hstep.1 h)], not_lt.1 hlt, hhigh⟩

/-! ## The double of an interval -/

/-- What is stored in the bits of a finite double: below the least exponent the significand may be
short, above it a power of two has a closer neighbour below. -/
structure Binary.Stored (b : Binary) (bits : Nat) : Prop where
  exponent_ge : -1074 ≤ b.q
  exponent_le : b.q ≤ 971
  significand_lt : b.m < 2 ^ 53
  significand_ge : b.q ≠ -1074 → 2 ^ 52 ≤ b.m
  narrow : b.q ≠ -1074 → b.m = 2 ^ 52 → b.narrow = true
  bits_eq : bits % 2 ^ 63 =
    if b.m < 2 ^ 52 then b.m else (b.q + 1075).toNat * 2 ^ 52 + (b.m - 2 ^ 52)

theorem stored_ofBits {bits : Nat} (hfinite : bits / 2 ^ 52 % 2 ^ 11 ≠ 2047) :
    (Binary.ofBits bits).Stored bits := by
  have hfraction : bits % 2 ^ 52 < 2 ^ 52 := Nat.mod_lt _ (by decide)
  have hbits : bits % 2 ^ 63 = bits / 2 ^ 52 % 2 ^ 11 * 2 ^ 52 + bits % 2 ^ 52 := by omega
  have hexponent : bits / 2 ^ 52 % 2 ^ 11 < 2 ^ 11 := Nat.mod_lt _ (by decide)
  rw [Binary.ofBits, Nat.pow_eq, Nat.pow_eq]
  generalize bits / 2 ^ 52 % 2 ^ 11 = exponent at *
  generalize bits % 2 ^ 52 = fraction at *
  by_cases hzero : exponent = 0
  · simp only [if_pos hzero]
    have hle : (-1074 : ℤ) ≤ 971 := by decide
    refine ⟨le_rfl, hle, ?_, fun h => absurd rfl h, fun h => absurd rfl h, ?_⟩
    · change fraction < 2 ^ 53
      omega
    · rw [hbits, hzero, if_pos hfraction, Nat.zero_mul, Nat.zero_add]
  · simp only [if_neg hzero]
    constructor
    · change (-1074 : ℤ) ≤ exponent - 1075
      omega
    · change (exponent : ℤ) - 1075 ≤ 971
      omega
    · change 2 ^ 52 + fraction < 2 ^ 53
      omega
    · intro _
      exact Nat.le_add_right _ _
    · intro hq hm
      have hone : 1 < exponent := by
        change (exponent : ℤ) - 1075 ≠ -1074 at hq
        omega
      have hnone : fraction = 0 := by
        change 2 ^ 52 + fraction = 2 ^ 52 at hm
        omega
      simp [hnone, hone]
    · have hge : ¬2 ^ 52 + fraction < 2 ^ 52 := by omega
      have htoNat : ((exponent : ℤ) - 1075 + 1075).toNat = exponent := by omega
      rw [hbits, if_neg hge, htoNat, Nat.add_sub_cancel_left]

variable {b : Binary} {bits num den : Nat}

theorem Binary.Stored.bits_lt (hb : b.Stored bits) : bits % 2 ^ 63 < 2047 * 2 ^ 52 := by
  have hle := hb.exponent_le
  have hlt := hb.significand_lt
  rw [hb.bits_eq]
  split <;> omega

section Intervals

variable {v : ℚ}

/-- Powers of two in quarters of the last place. -/
theorem two_zpow_eq_mul (q : ℤ) (k : ℕ) : (2 : ℚ) ^ (q - 2 + k) = 2 ^ k * 2 ^ (q - 2) := by
  rw [zpow_add₀ two_ne_zero, zpow_natCast, mul_comm]

theorem two_zpow_pred_eq_mul (q : ℤ) : (2 : ℚ) ^ (q - 1) = 2 * 2 ^ (q - 2) := by
  have hpow := two_zpow_eq_mul q 1
  rw [Nat.cast_one, show q - 2 + 1 = q - 1 by omega, pow_one] at hpow
  exact hpow

theorem Binary.Covers.bounds (h : b.Covers v) :
    (b.low : ℚ) * 2 ^ (b.q - 2) ≤ v ∧ v ≤ b.high * 2 ^ (b.q - 2) := by
  rw [Covers] at h
  split at h
  · exact h
  · exact ⟨h.1.le, h.2.le⟩

theorem Binary.cast_high (b : Binary) : (b.high : ℚ) = 4 * b.m + 2 := by
  rw [high]
  push_cast
  rfl

theorem Binary.le_cast_low (b : Binary) : (4 * b.m - 2 : ℚ) ≤ b.low := by
  have hnat : 4 * b.m ≤ b.low + 2 := by
    rw [low]
    split <;> omega
  have hcast : (4 * b.m : ℚ) ≤ b.low + 2 := by exact_mod_cast hnat
  linarith

/-- No number of the interval is more than a half of the last place away from the double. -/
theorem Binary.Covers.near (h : b.Covers v) :
    (4 * b.m - 2 : ℚ) * 2 ^ (b.q - 2) ≤ v ∧ v ≤ (4 * b.m + 2) * 2 ^ (b.q - 2) := by
  obtain ⟨hlow, hhigh⟩ := h.bounds
  rw [b.cast_high] at hhigh
  have hpos : (0 : ℚ) ≤ 2 ^ (b.q - 2) := by positivity
  exact ⟨(mul_le_mul_of_nonneg_right b.le_cast_low hpos).trans hlow, hhigh⟩

/-- The ends of the interval belong to an even significand. -/
theorem Binary.Covers.even_of_end (h : b.Covers v)
    (hend : v = (4 * b.m - 2) * 2 ^ (b.q - 2) ∨ v = (4 * b.m + 2) * 2 ^ (b.q - 2)) :
    b.m % 2 = 0 := by
  by_contra hodd
  rw [Covers, if_neg hodd, b.cast_high] at h
  have hpos : (0 : ℚ) ≤ 2 ^ (b.q - 2) := by positivity
  have hlow := mul_le_mul_of_nonneg_right b.le_cast_low hpos
  rcases hend with hend | hend
  · linarith [h.1]
  · linarith [h.2]

end Intervals

/-! ## The steps of a quotient in the interval -/

/-- The steps are not larger than the last place. -/
theorem le_of_covers {e : ℤ} (hb : b.Stored bits) {v : ℚ} (h : b.Covers v)
    (hv : (2 : ℚ) ^ (e + 52) ≤ v) : e ≤ b.q := by
  have hlt := hb.significand_lt
  have hhigh : (4 * b.m + 2 : ℚ) < 2 ^ 55 := by
    exact_mod_cast (by omega : 4 * b.m + 2 < 2 ^ 55)
  have hchain : (2 : ℚ) ^ (e + 52) < 2 ^ (b.q - 2 + (55 : ℕ)) := by
    calc (2 : ℚ) ^ (e + 52) ≤ v := hv
      _ ≤ (4 * b.m + 2) * 2 ^ (b.q - 2) := h.near.2
      _ < 2 ^ 55 * 2 ^ (b.q - 2) := by gcongr
      _ = 2 ^ (b.q - 2 + (55 : ℕ)) := (two_zpow_eq_mul b.q 55).symm
  have := (zpow_lt_zpow_iff_right₀ one_lt_two).1 hchain
  omega

/-- Smaller steps than the last place occur only below a power of two. -/
theorem eq_two_pow_of_covers {e : ℤ} (hb : b.Stored bits) {v : ℚ} (h : b.Covers v)
    (hv : v < 2 ^ (e + 53)) (hlt : max e (-1074) < b.q) :
    b.q ≠ -1074 ∧ b.m = 2 ^ 52 ∧ v < 2 ^ 54 * 2 ^ (b.q - 2) := by
  have hpos : (0 : ℚ) ≤ 2 ^ (b.q - 2) := by positivity
  have hq : b.q ≠ -1074 := by omega
  have hsig := hb.significand_ge hq
  have hv' : v < 2 ^ 54 * 2 ^ (b.q - 2) := by
    calc v < 2 ^ (e + 53) := hv
      _ ≤ 2 ^ (b.q - 2 + (54 : ℕ)) := zpow_le_zpow_right₀ one_le_two (by omega)
      _ = 2 ^ 54 * 2 ^ (b.q - 2) := two_zpow_eq_mul b.q 54
  have hmul : (4 * b.m - 2 : ℚ) < 2 ^ 54 :=
    lt_of_mul_lt_mul_right (h.near.1.trans_lt hv') hpos
  have hcast : (b.m : ℚ) < (2 ^ 52 + 1 : ℕ) := by
    push_cast
    linarith
  have := Nat.cast_lt.1 hcast
  exact ⟨hq, by omega, hv'⟩

/-- The interval of a power of two ends a quarter of its last place below it. -/
theorem Binary.Covers.near_of_narrow (hb : b.Stored bits) (hq : b.q ≠ -1074) (hm : b.m = 2 ^ 52)
    {v : ℚ} (h : b.Covers v) : (2 ^ 54 - 1 : ℚ) * 2 ^ (b.q - 2) ≤ v := by
  have hlow : b.low = 2 ^ 54 - 1 := by
    rw [Binary.low, hb.narrow hq hm, hm]
    rfl
  have hbound := h.bounds.1
  rw [hlow] at hbound
  exact_mod_cast hbound

/-- The steps are those of the last place, but below a power of two they are half of that. -/
theorem stepExponent_of_covers (hb : b.Stored bits) (hnum : 0 < num) (hden : 0 < den)
    (h : b.Covers (num / den)) :
    stepExponent num den = b.q ∨ stepExponent num den = b.q - 1 ∧ b.q ≠ -1074 ∧ b.m = 2 ^ 52 ∧
      (num : ℚ) / den < 2 ^ 54 * 2 ^ (b.q - 2) := by
  obtain ⟨e, hstep, helow, hehigh⟩ := stepExponent_spec hnum hden
  have hge := hb.exponent_ge
  have hle := le_of_covers hb h helow
  rcases eq_or_lt_of_le (max_le hle hge) with heq | hlt
  · exact Or.inl (hstep.trans heq)
  · obtain ⟨hq, hm, hv⟩ := eq_two_pow_of_covers hb h hehigh hlt
    have hchain : (2 : ℚ) ^ (b.q - 2 + (53 : ℕ)) < 2 ^ (e + 53) := by
      calc (2 : ℚ) ^ (b.q - 2 + (53 : ℕ)) = 2 ^ 53 * 2 ^ (b.q - 2) := two_zpow_eq_mul b.q 53
        _ ≤ (2 ^ 54 - 1) * 2 ^ (b.q - 2) :=
          mul_le_mul_of_nonneg_right (by norm_num) (by positivity)
        _ ≤ num / den := h.near_of_narrow hb hq hm
        _ < 2 ^ (e + 53) := hehigh
    have := (zpow_lt_zpow_iff_right₀ one_lt_two).1 hchain
    exact Or.inr ⟨by omega, hq, hm, hv⟩

/-- In steps of the last place the significand itself is the nearest number. -/
theorem roundHalfEven_of_covers (hden : 0 < den) (h : b.Covers (num / den)) :
    roundHalfEven (scaleDown num den b.q).1 (scaleDown num den b.q).2 = b.m := by
  obtain ⟨hlow, hhigh⟩ := h.near
  have hunit : (2 : ℚ) ^ b.q = 4 * 2 ^ (b.q - 2) := by
    have hpow := two_zpow_eq_mul b.q 2
    rw [Nat.cast_two, sub_add_cancel] at hpow
    rw [hpow]
    norm_num
  have hpos : (0 : ℚ) < 4 * 2 ^ (b.q - 2) := by positivity
  refine roundHalfEven_eq (scaleDown_pos num hden b.q) ?_ ?_ ?_
  · rw [scaleDown_eq, hunit, le_div_iff₀ hpos]
    linarith
  · rw [scaleDown_eq, hunit, div_le_iff₀ hpos]
    linarith
  · rw [scaleDown_eq, hunit, div_eq_iff hpos.ne', div_eq_iff hpos.ne']
    rintro (htie | htie)
    · exact h.even_of_end (Or.inl (htie.trans (by ring)))
    · exact h.even_of_end (Or.inr (htie.trans (by ring)))

/-- In steps of half the last place a quotient below a power of two is rounded up to it. -/
theorem roundHalfEven_of_narrow (hden : 0 < den)
    (hlow : (2 ^ 54 - 1 : ℚ) * 2 ^ (b.q - 2) ≤ num / den)
    (hhigh : (num : ℚ) / den < 2 ^ 54 * 2 ^ (b.q - 2)) :
    roundHalfEven (scaleDown num den (b.q - 1)).1 (scaleDown num den (b.q - 1)).2 = 2 ^ 53 := by
  have hunit := two_zpow_pred_eq_mul b.q
  have hpos : (0 : ℚ) < 2 * 2 ^ (b.q - 2) := by positivity
  refine roundHalfEven_eq (scaleDown_pos num hden _) ?_ ?_ fun _ => rfl
  · rw [scaleDown_eq, hunit, le_div_iff₀ hpos]
    push_cast
    linarith
  · rw [scaleDown_eq, hunit, div_le_iff₀ hpos]
    push_cast
    linarith

/-! ## The bits -/

theorem nearestBits?_of_roundHalfEven {s : ℤ} {m : Nat} (hstep : stepExponent num den = s)
    (hround : roundHalfEven (scaleDown num den s).1 (scaleDown num den s).2 = m)
    (hbits : bits % 2 ^ 63 = if m < 2 ^ 52 then m else (s + 1075).toNat * 2 ^ 52 + (m - 2 ^ 52))
    (hlt : bits % 2 ^ 63 < 2047 * 2 ^ 52) : nearestBits? num den = some (bits % 2 ^ 63) := by
  have hread : nearestBits? num den =
      if (if m < 2 ^ 52 then m else (s + 1075).toNat * 2 ^ 52 + (m - 2 ^ 52)) < 2047 * 2 ^ 52 then
        some (if m < 2 ^ 52 then m else (s + 1075).toNat * 2 ^ 52 + (m - 2 ^ 52))
      else none := by
    rw [← hround, ← hstep]
    rfl
  rw [hread, ← hbits, if_pos hlt]

/-- Any quotient in the interval of a finite double is rounded to that double. -/
theorem nearestBits?_of_covers (hb : b.Stored bits) (hnum : 0 < num) (hden : 0 < den)
    (h : b.Covers (num / den)) : nearestBits? num den = some (bits % 2 ^ 63) := by
  obtain hstep | ⟨hstep, hq, hm, hv⟩ := stepExponent_of_covers hb hnum hden h
  · exact nearestBits?_of_roundHalfEven hstep (roundHalfEven_of_covers hden h) hb.bits_eq hb.bits_lt
  · have hround := roundHalfEven_of_narrow hden (h.near_of_narrow hb hq hm) hv
    refine nearestBits?_of_roundHalfEven hstep hround ?_ hb.bits_lt
    have hge := hb.exponent_ge
    rw [hb.bits_eq, hm, if_neg (by decide), if_neg (by decide)]
    omega

end ClauseTree.Decimal
