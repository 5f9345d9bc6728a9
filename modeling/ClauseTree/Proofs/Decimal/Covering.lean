import ClauseTree.Decimal.Shortest
import ClauseTree.Proofs.Decimal.Bits
import ClauseTree.Proofs.Decimal.Rounding

/-!
# The shortest decimal rounds to its double

The search for the shortest decimal only takes points of a grid that lie in the interval of the
double, so what it finds rounds to the double. It always finds a point, because the last grid it
tries is finer than half the last place of the double: the next point above the double is still
in the interval.
-/

namespace ClauseTree.Decimal

variable {b : Binary} {tie : Tie} {k : Int} {c : Nat}

theorem quarterOver_pos (q k : Int) : 0 < (quarterOver q k).1 ∧ 0 < (quarterOver q k).2 :=
  ⟨Nat.mul_pos (Nat.two_pow_pos _) (Nat.pow_pos (by decide)),
    Nat.mul_pos (Nat.two_pow_pos _) (Nat.pow_pos (by decide))⟩

theorem quarterOver_eq (q k : Int) :
    (2 : ℚ) ^ (q - 2) * (quarterOver q k).2 = (quarterOver q k).1 * 10 ^ k := by
  have hneg : -(q - 2) = 2 - q := by omega
  rw [zpow_eq_div 2, zpow_eq_div 10, hneg]
  simp only [quarterOver, Nat.pow_eq]
  push_cast
  field_simp

/-- A number of quarters and a point of the grid are compared by whole numbers. -/
theorem quarters_le_iff (a c : Nat) (q k : Int) :
    a * (quarterOver q k).1 ≤ c * (quarterOver q k).2 ↔ (a : ℚ) * 2 ^ (q - 2) ≤ c * 10 ^ k := by
  have hdown : (0 : ℚ) < (quarterOver q k).2 := Nat.cast_pos.2 (quarterOver_pos q k).2
  have hten : (0 : ℚ) < 10 ^ k := by positivity
  rw [← mul_le_mul_iff_left₀ hdown, mul_assoc, quarterOver_eq, ← mul_assoc,
    mul_right_comm (c : ℚ), mul_le_mul_iff_left₀ hten]
  exact_mod_cast Iff.rfl

theorem le_quarters_iff (a c : Nat) (q k : Int) :
    c * (quarterOver q k).2 ≤ a * (quarterOver q k).1 ↔ (c : ℚ) * 10 ^ k ≤ a * 2 ^ (q - 2) := by
  have hdown : (0 : ℚ) < (quarterOver q k).2 := Nat.cast_pos.2 (quarterOver_pos q k).2
  have hten : (0 : ℚ) < 10 ^ k := by positivity
  rw [← mul_le_mul_iff_left₀ hdown, mul_assoc (a : ℚ), quarterOver_eq, ← mul_assoc,
    mul_right_comm (c : ℚ), mul_le_mul_iff_left₀ hten]
  exact_mod_cast Iff.rfl

/-- A point that the search takes was found to be inside, whichever branch takes it. -/
theorem ends_of_onGrid? (h : b.onGrid? tie k = some c) :
    if b.m % 2 = 0 then b.low * (quarterOver b.q k).1 ≤ c * (quarterOver b.q k).2 ∧
      c * (quarterOver b.q k).2 ≤ b.high * (quarterOver b.q k).1
    else b.low * (quarterOver b.q k).1 < c * (quarterOver b.q k).2 ∧
      c * (quarterOver b.q k).2 < b.high * (quarterOver b.q k).1 := by
  rw [Binary.onGrid?] at h
  generalize quarterOver b.q k = quarters at h ⊢
  obtain ⟨up, down⟩ := quarters
  dsimp -zeta only at h ⊢
  extract_lets value lowest highest inside below above toBelow toAbove at h
  have hinside : inside c = true := by
    split at h
    · next hboth =>
      rw [Bool.and_eq_true] at hboth
      split at h
      · exact Option.some.inj h ▸ hboth.1
      · split at h
        · exact Option.some.inj h ▸ hboth.2
        · split at h
          · split at h
            · exact Option.some.inj h ▸ hboth.1
            · exact Option.some.inj h ▸ hboth.2
          · exact Option.some.inj h ▸ hboth.2
    · split at h
      · next hbelow => exact Option.some.inj h ▸ hbelow
      · split at h
        · next habove => exact Option.some.inj h ▸ habove
        · cases h
  change (if b.m % 2 = 0 then decide (lowest ≤ c * down) && decide (c * down ≤ highest)
    else decide (lowest < c * down) && decide (c * down < highest)) = true at hinside
  split
  · next heven =>
    rw [if_pos heven, Bool.and_eq_true, decide_eq_true_eq, decide_eq_true_eq] at hinside
    exact hinside
  · next hodd =>
    rw [if_neg hodd, Bool.and_eq_true, decide_eq_true_eq, decide_eq_true_eq] at hinside
    exact hinside

/-- A point that the search takes lies in the interval. -/
theorem covers_of_onGrid? (h : b.onGrid? tie k = some c) : b.Covers (c * 10 ^ k) := by
  have hends := ends_of_onGrid? h
  rw [Binary.Covers]
  split at hends
  · next heven =>
    rw [if_pos heven]
    exact ⟨(quarters_le_iff _ _ _ _).1 hends.1, (le_quarters_iff _ _ _ _).1 hends.2⟩
  · next hodd =>
    rw [if_neg hodd]
    rw [← not_le, ← not_le, le_quarters_iff, quarters_le_iff, not_le, not_le] at hends
    exact hends

/-- On a grid finer than half the last place, the point above the double is in the interval. -/
theorem onGrid?_ne_none (hm : 0 < b.m) (hfine : (10 : ℚ) ^ k < 2 ^ (b.q - 1)) :
    b.onGrid? tie k ≠ none := by
  have hgrid : (quarterOver b.q k).2 < 2 * (quarterOver b.q k).1 := by
    rw [two_zpow_pred_eq_mul] at hfine
    by_contra hle
    have hcoarse := (quarters_le_iff 2 1 b.q k).1 (by omega)
    push_cast at hcoarse
    linarith
  have hpos := quarterOver_pos b.q k
  intro h
  rw [Binary.onGrid?] at h
  generalize quarterOver b.q k = quarters at h hgrid hpos
  obtain ⟨up, down⟩ := quarters
  dsimp -zeta only at h hgrid hpos
  extract_lets value lowest highest inside below above toBelow toAbove at h
  have hlow : lowest < above * down := by
    have hlt : lowest < value := Nat.mul_lt_mul_of_pos_right (by split <;> omega) hpos.1
    exact hlt.trans (Nat.lt_div_mul_add hpos.2 |>.trans_eq (Nat.succ_mul _ _).symm)
  have hhigh : above * down < highest := by
    have hle : value / down * down ≤ value := Nat.div_mul_le_self value down
    have hsum : above * down = value / down * down + down := Nat.succ_mul _ _
    have hends : highest = value + 2 * up := Nat.add_mul _ _ _
    omega
  have hinside : inside above = true := by
    change (if b.m % 2 = 0 then decide (lowest ≤ above * down) && decide (above * down ≤ highest)
      else decide (lowest < above * down) && decide (above * down < highest)) = true
    simp [hlow, hhigh, hlow.le, hhigh.le]
  rw [hinside] at h
  split at h
  · split at h
    · cases h
    · split at h
      · cases h
      · split at h <;> cases h
  · split at h
    · cases h
    · exact absurd h (by simp)

/-- The grid that is tried last is fine enough for every finite double. -/
theorem ten_zpow_lt {q : Int} (hlow : -1074 ≤ q) (hhigh : q ≤ 971)
    (hk : k ≤ (q + 53) * 30103 / 100000 - 21) : (10 : ℚ) ^ k < 2 ^ (q - 1) := by
  rcases le_or_gt 0 k with hpos | hneg
  · -- A thousand is less than the tenth power of two.
    have hcube : ((10 : ℚ) ^ k) ^ 3 < (2 ^ (q - 1)) ^ 3 := by
      calc ((10 : ℚ) ^ k) ^ 3 = (10 ^ 3) ^ k := by
            rw [← zpow_natCast, ← zpow_mul, mul_comm, zpow_mul, zpow_natCast]
        _ ≤ (2 ^ 10) ^ k := zpow_le_zpow_left₀ hpos (by norm_num) (by norm_num)
        _ = 2 ^ (10 * k) := by rw [← zpow_natCast, ← zpow_mul]; norm_num
        _ < 2 ^ (3 * (q - 1)) := zpow_lt_zpow_right₀ one_lt_two (by omega)
        _ = (2 ^ (q - 1)) ^ 3 := by rw [← zpow_natCast, ← zpow_mul, mul_comm]; norm_num
    exact lt_of_pow_lt_pow_left₀ 3 (by positivity) hcube
  · -- The 93rd power of two is less than the 28th of ten.
    obtain ⟨n, rfl⟩ : ∃ n : ℕ, k = -n := ⟨(-k).toNat, by omega⟩
    have hpow : ((10 : ℚ) ^ (-n : ℤ)) ^ 28 < (2 ^ (q - 1)) ^ 28 := by
      calc ((10 : ℚ) ^ (-n : ℤ)) ^ 28 = (10 ^ 28) ^ (-n : ℤ) := by
            rw [← zpow_natCast, ← zpow_mul, mul_comm, zpow_mul, zpow_natCast]
        _ ≤ (2 ^ 93) ^ (-n : ℤ) := by
            rw [zpow_neg, zpow_neg, zpow_natCast, zpow_natCast]
            have hle : ((2 : ℚ) ^ 93) ^ n ≤ (10 ^ 28) ^ n :=
              pow_le_pow_left₀ (by norm_num) (by norm_num) n
            exact inv_anti₀ (by positivity) hle
        _ = 2 ^ (93 * (-n : ℤ)) := by rw [← zpow_natCast, ← zpow_mul]; norm_num
        _ < 2 ^ (28 * (q - 1)) := zpow_lt_zpow_right₀ one_lt_two (by omega)
        _ = (2 ^ (q - 1)) ^ 28 := by rw [← zpow_natCast, ← zpow_mul, mul_comm]; norm_num
    exact lt_of_pow_lt_pow_left₀ 28 (by positivity) hpow

/-- The shortest decimal of a double that is not zero is in the interval of the double. -/
theorem covers_shortest {bits : Nat} (hb : b.Stored bits) (hm : 0 < b.m) :
    b.Covers ((b.shortest tie).digits * 10 ^ (b.shortest tie).exponent) := by
  let grid (i : Nat) : Option Scaled :=
    (b.onGrid? tie (b.topExponent - i)).map fun c => ⟨c, b.topExponent - i⟩
  have hread : b.shortest tie = ((List.range 24).findSome? grid).getD ⟨0, 0⟩ := by
    rw [Binary.shortest, if_neg hm.ne']
  have hlast : grid 23 ≠ none := by
    have hdigits : Nat.log2 b.m < 53 := (Nat.log2_lt hm.ne').2 hb.significand_lt
    have hfine : (10 : ℚ) ^ (b.topExponent - 23) < 2 ^ (b.q - 1) := by
      refine ten_zpow_lt hb.exponent_ge hb.exponent_le ?_
      rw [Binary.topExponent]
      omega
    have hsome : b.onGrid? tie (b.topExponent - 23) ≠ none := onGrid?_ne_none hm hfine
    exact fun hnone => hsome (Option.map_eq_none_iff.1 hnone)
  rw [hread]
  cases hfound : (List.range 24).findSome? grid with
  | none => exact absurd (List.findSome?_eq_none_iff.1 hfound 23 (by decide)) hlast
  | some d =>
    obtain ⟨i, -, hi⟩ := List.exists_of_findSome?_eq_some hfound
    obtain ⟨c, hc, rfl⟩ := Option.map_eq_some_iff.1 hi
    exact covers_of_onGrid? hc

/-- A number of digits tells the power of ten below a decimal and the one above it. -/
theorem digits_bounds {significand : Nat} (hs : 0 < significand) (exponent : Int) :
    (10 : ℚ) ^ ((Nat.toDigits 10 significand).length + exponent - 1) ≤ significand * 10 ^ exponent ∧
      significand * (10 : ℚ) ^ exponent <
        10 ^ ((Nat.toDigits 10 significand).length + exponent) := by
  have hlength : 0 < (Nat.toDigits 10 significand).length := Nat.length_toDigits_pos
  have hten : (0 : ℚ) < 10 ^ exponent := by positivity
  constructor
  · have hlow : 10 ^ ((Nat.toDigits 10 significand).length - 1) ≤ significand := by
      rcases Nat.eq_zero_or_pos ((Nat.toDigits 10 significand).length - 1) with hzero | hpos
      · rw [hzero]
        exact hs
      · by_contra hlt
        have := (Nat.length_toDigits_le_iff (by decide : 1 < 10) hpos).2 (not_le.1 hlt)
        omega
    have hcast : (10 : ℚ) ^ ((Nat.toDigits 10 significand).length - 1) ≤ significand := by
      exact_mod_cast hlow
    calc (10 : ℚ) ^ ((Nat.toDigits 10 significand).length + exponent - 1)
        = 10 ^ ((Nat.toDigits 10 significand).length - 1) * 10 ^ exponent := by
          rw [← zpow_natCast, ← zpow_add₀ (by norm_num)]
          congr 1
          omega
      _ ≤ significand * 10 ^ exponent := by gcongr
  · have hhigh : significand < 10 ^ (Nat.toDigits 10 significand).length :=
      (Nat.length_toDigits_le_iff (by decide : 1 < 10) hlength).1 le_rfl
    have hcast : (significand : ℚ) < 10 ^ (Nat.toDigits 10 significand).length := by
      exact_mod_cast hhigh
    rw [zpow_add₀ (by norm_num), zpow_natCast]
    exact mul_lt_mul_of_pos_right hcast hten

/-- Reals that round to a finite double are far from the powers of ten at which reading gives up. -/
theorem Binary.Covers.magnitude {bits : Nat} {v : ℚ} (hb : b.Stored bits) (hm : 0 < b.m)
    (h : b.Covers v) : (10 : ℚ) ^ (-400 : ℤ) < v ∧ v < 10 ^ (400 : ℤ) := by
  have height : (2 : ℚ) ^ (1200 : ℤ) < 10 ^ (400 : ℤ) := by
    rw [show (1200 : ℤ) = 3 * 400 by norm_num, zpow_mul]
    exact zpow_lt_zpow_left₀ (by norm_num) (by norm_num) (by norm_num)
  have hge := hb.exponent_ge
  have hle := hb.exponent_le
  have hlt := hb.significand_lt
  obtain ⟨hlow, hhigh⟩ := h.bounds
  constructor
  · have hone : (1 : ℚ) ≤ b.low := by
      have : 1 ≤ b.low := by
        rw [Binary.low]
        split <;> omega
      exact_mod_cast this
    calc (10 : ℚ) ^ (-400 : ℤ) = (10 ^ (400 : ℤ))⁻¹ := zpow_neg 10 400
      _ < (2 ^ (1200 : ℤ))⁻¹ := inv_strictAnti₀ (by positivity) height
      _ = 2 ^ (-1200 : ℤ) := (zpow_neg 2 1200).symm
      _ ≤ 2 ^ (b.q - 2) := zpow_le_zpow_right₀ one_le_two (by omega)
      _ ≤ b.low * 2 ^ (b.q - 2) := le_mul_of_one_le_left (by positivity) hone
      _ ≤ v := hlow
  · have hends : (b.high : ℚ) ≤ 2 ^ 55 := by
      have : b.high ≤ 2 ^ 55 := by
        rw [Binary.high]
        omega
      exact_mod_cast this
    calc v ≤ b.high * 2 ^ (b.q - 2) := hhigh
      _ ≤ 2 ^ 55 * 2 ^ (b.q - 2) := by gcongr
      _ = 2 ^ (55 + (b.q - 2)) := by rw [zpow_add₀ two_ne_zero, zpow_ofNat]
      _ ≤ 2 ^ (1200 : ℤ) := zpow_le_zpow_right₀ one_le_two (by omega)
      _ < 10 ^ (400 : ℤ) := height

/-- The shortest decimal of zero is zero times one. -/
theorem exponent_shortest {bits : Nat} (hb : b.Stored bits) (h : (b.shortest tie).digits = 0) :
    (b.shortest tie).exponent = 0 := by
  rcases Nat.eq_zero_or_pos b.m with hm | hm
  · rw [Binary.shortest, if_pos hm]
  · have hcovers : b.Covers ((b.shortest tie).digits * 10 ^ (b.shortest tie).exponent) :=
      covers_shortest hb hm
    have hpos : (0 : ℚ) < 10 ^ (-400 : ℤ) := by positivity
    have hzero := (hcovers.magnitude hb hm).1
    rw [h, Nat.cast_zero, zero_mul] at hzero
    exact absurd (hpos.trans hzero) (lt_irrefl 0)

/-- A decimal in the interval of a finite double is read as that double. -/
theorem nearest?_of_covers {bits significand : Nat} {exponent : Int} (hb : b.Stored bits)
    (hm : 0 < b.m) (hs : 0 < significand) (h : b.Covers (significand * 10 ^ exponent))
    (negative : Bool) :
    nearest? negative significand exponent = some
      (Float.ofBits (UInt64.ofNat (bits % 2 ^ 63 + if negative then 2 ^ 63 else 0))) := by
  obtain ⟨hlow, hhigh⟩ := h.magnitude hb hm
  obtain ⟨hlead, hlead'⟩ := digits_bounds hs exponent
  have hmost : ¬400 < (Nat.toDigits 10 significand).length + exponent := by
    have := (zpow_lt_zpow_iff_right₀ (by norm_num : (1 : ℚ) < 10)).1 (hlead.trans_lt hhigh)
    omega
  have hleast : ¬(Nat.toDigits 10 significand).length + exponent < -400 := by
    have := (zpow_lt_zpow_iff_right₀ (by norm_num : (1 : ℚ) < 10)).1 (hlow.trans hlead')
    omega
  have hnum : 0 < significand * 10 ^ exponent.toNat := Nat.mul_pos hs (Nat.pow_pos (by decide))
  have hden : 0 < 10 ^ (-exponent).toNat := Nat.pow_pos (by decide)
  have hvalue : ((significand * 10 ^ exponent.toNat : ℕ) : ℚ) / (10 ^ (-exponent).toNat : ℕ) =
      significand * 10 ^ exponent := by
    rw [zpow_eq_div]
    push_cast
    rw [mul_div_assoc]
  rw [← hvalue] at h
  rw [nearest?]
  simp only [Nat.pow_eq, if_neg hs.ne', if_neg hmost, if_neg hleast,
    nearestBits?_of_covers hb hnum hden h, Option.map_some]

/-- Any decimal that is equal to the shortest one of a finite double is read as that double. -/
theorem nearest?_of_shortest {x : Float} (hx : x.isFinite = true) {significand : Nat}
    {exponent : Int} (h : (significand : ℚ) * 10 ^ exponent =
      ((Binary.ofFloat x).shortest tie).digits * 10 ^ ((Binary.ofFloat x).shortest tie).exponent) :
    nearest? (isNegative x) significand exponent = some x := by
  have hb : (Binary.ofFloat x).Stored x.toBits.toNat := stored_ofBits (exponent_of_isFinite hx)
  have hten : (0 : ℚ) < 10 ^ exponent := by positivity
  have hvalue : Float.ofBits (UInt64.ofNat
      (x.toBits.toNat % 2 ^ 63 + if isNegative x then 2 ^ 63 else 0)) = x := by
    have hword : x.toBits.toNat < 2 ^ 64 := x.toBits.toNat_lt
    have hbits : x.toBits.toNat % 2 ^ 63 + (if isNegative x then 2 ^ 63 else 0) =
        x.toBits.toNat := by
      rw [isNegative, Nat.pow_eq]
      simp only [decide_eq_true_eq]
      split <;> omega
    rw [hbits, UInt64.ofNat_toNat, Float.ofBits_toBits]
  rcases Nat.eq_zero_or_pos (Binary.ofFloat x).m with hm | hm
  · have hzero : significand = 0 := by
      rw [Binary.shortest, if_pos hm, Nat.cast_zero, zero_mul] at h
      exact Nat.cast_eq_zero.1 ((mul_eq_zero.1 h).resolve_right hten.ne')
    have hbits : x.toBits.toNat % 2 ^ 63 = 0 := by
      rw [hb.bits_eq, hm, if_pos (by decide)]
    rw [hbits] at hvalue
    rw [nearest?]
    simp only [if_pos hzero]
    exact congrArg some hvalue
  · have hcovers : (Binary.ofFloat x).Covers (significand * 10 ^ exponent) := by
      rw [h]
      exact covers_shortest hb hm
    have hs : 0 < significand := by
      have hpos : (0 : ℚ) < significand * 10 ^ exponent :=
        lt_trans (by positivity) (hcovers.magnitude hb hm).1
      exact Nat.cast_pos.1 (pos_of_mul_pos_left hpos hten.le)
    rw [nearest?_of_covers hb hm hs hcovers, hvalue]

end ClauseTree.Decimal
