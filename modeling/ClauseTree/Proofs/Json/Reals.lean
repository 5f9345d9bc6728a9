import ClauseTree.Proofs.Decimal.Covering
import ClauseTree.Proofs.Json.Scanning

/-!
# Reading doubles back

Both notations for doubles spell a decimal equal to the one that is written, be it with the point at
another place. The decimal that is written is the shortest one of a double, so the double is read
back.
-/

namespace ClauseTree.Json

open Json.Parser Json.Printer

/-! ## The parts of a decimal -/

theorem not_isDigit_head {c : Char} (hc : c.isDigit = false) (s : List Char) :
    ∀ d ∈ (c :: s).head?, d.isDigit = false := by
  intro d hd
  cases hd
  exact hc

theorem ofDigits_append_zeros (ds : List Char) (n : Nat) :
    ofDigits (ds ++ List.replicate n '0') = 10 ^ n * ofDigits ds :=
  (Nat.ofDigitChars_append 0).trans Nat.ofDigitChars_replicate_zero

theorem ofDigits_zeros_append (n : Nat) (ds : List Char) :
    ofDigits (List.replicate n '0' ++ ds) = ofDigits ds := by
  have hzeros : Nat.ofDigitChars 10 (List.replicate n '0') 0 = 0 := by
    rw [Nat.ofDigitChars_replicate_zero, Nat.mul_zero]
  exact (Nat.ofDigitChars_append 0).trans (congrArg _ hzeros)

theorem fraction_append {ds r : List Char} (hne : ds ≠ []) (hds : ∀ c ∈ ds, c.isDigit = true)
    (hr : ∀ c ∈ r.head?, c.isDigit = false) : fraction ('.' :: (ds ++ r)) = some (some ds, r) := by
  have hdigits := digits_append hds hr
  obtain ⟨c, cs, rfl⟩ := List.exists_cons_of_ne_nil hne
  rw [fraction, hdigits]

theorem signedDigits_natAbs (e : Int) {r : List Char} (hr : ∀ c ∈ r.head?, c.isDigit = false) :
    signedDigits ((if e < 0 then '-' else '+') :: (Nat.toDigits 10 e.natAbs ++ r)) =
      some (e, r) := by
  have hdigits := digits_append (fun c => isDigit_of_mem_toDigits (n := e.natAbs)) hr
  obtain ⟨c, cs, hcs⟩ := List.exists_cons_of_ne_nil
    (Nat.toDigits_ne_nil (b := 10) (n := e.natAbs))
  have hvalue : ofDigits (c :: cs) = e.natAbs := by rw [← hcs, ofDigits_toDigits]
  rw [hcs] at hdigits ⊢
  split
  · next hneg =>
    have hsigned : -(e.natAbs : Int) = e := by omega
    simp only [signedDigits, hdigits, if_true, hvalue, hsigned]
  · next hpos =>
    have hsigned : (e.natAbs : Int) = e := by omega
    simp only [signedDigits, hdigits, Bool.false_eq_true, if_false, hvalue, hsigned]

/-! ## The two notations -/

/-- The text is read as the double nearest to a decimal that is equal to `d`. -/
def Denotes (s : List Char) (d : Decimal.Scaled) : Prop :=
  ∀ (negative : Bool) (r : List Char), EndsNumber r →
    ∃ (significand : Nat) (exponent : Int),
      unsigned negative (s ++ r) = some (realOf negative significand exponent, r) ∧
        (significand : ℚ) * 10 ^ exponent = d.digits * 10 ^ d.exponent

variable {d : Decimal.Scaled}

/-- Digits with a point among them. -/
theorem denotes_point {ds after : List Char} (hlead : Leading ds) (hne : after ≠ [])
    (hds : ∀ c ∈ ds, c.isDigit = true) (hafter : ∀ c ∈ after, c.isDigit = true)
    (hd : (ofDigits (ds ++ after) : ℚ) * 10 ^ (-after.length : Int) = d.digits * 10 ^ d.exponent) :
    Denotes (ds ++ '.' :: after) d := by
  intro negative r hr
  refine ⟨ofDigits (ds ++ after), 0 - after.length, ?_, by rw [zero_sub, hd]⟩
  have hpoint := not_isDigit_head (by decide : '.'.isDigit = false) (after ++ r)
  rw [List.append_assoc, List.cons_append]
  exact unsigned_of_parts negative (whole_append hlead hds hpoint)
    (fraction_append hne hafter fun c hc => (hr c hc).1) (power_of_endsNumber hr)

theorem numberOf_power (negative : Bool) (ds : List Char) (frac : Option (List Char)) (e : Int) :
    numberOf negative ds frac (some e) =
      realOf negative (ofDigits (ds ++ frac.getD [])) (e - (frac.getD []).length) := by
  cases frac <;> rfl

/-- Digits, perhaps with a point after the first one, and a power of ten. -/
theorem denotes_scientific {ds : List Char} {e : Int} (hlead : Leading (ds.take 1))
    (hds : ∀ c ∈ ds, c.isDigit = true)
    (hd : (ofDigits ds : ℚ) * 10 ^ (e - (ds.drop 1).length) = d.digits * 10 ^ d.exponent) :
    Denotes (Decimal.scientificNotation ds e) d := by
  intro negative r hr
  refine ⟨ofDigits ds, e - (ds.drop 1).length, ?_, hd⟩
  have hfirst : ∀ c ∈ ds.take 1, c.isDigit = true := fun c hc => hds c (List.mem_of_mem_take hc)
  have hmore : ∀ c ∈ ds.drop 1, c.isDigit = true := fun c hc => hds c (List.mem_of_mem_drop hc)
  have hpower : power ('e' :: (if e < 0 then '-' else '+') :: (Decimal.digits e.natAbs ++ r)) =
      some (some e, r) := by
    rw [power, Decimal.digits, signedDigits_natAbs e fun c hc => (hr c hc).1, Option.map_some]
  have hletter := not_isDigit_head (by decide : 'e'.isDigit = false)
    ((if e < 0 then '-' else '+') :: (Decimal.digits e.natAbs ++ r))
  by_cases hmany : ds.length ≤ 1
  · have hempty : ds.drop 1 = [] := List.drop_eq_nil_of_le hmany
    have hall : ds.take 1 = ds := List.take_of_length_le hmany
    have hread := unsigned_of_parts negative
      (whole_append hlead hfirst hletter) rfl hpower
    rw [hall] at hread
    rw [Decimal.scientificNotation, if_pos hmany, hall, hempty, List.append_nil, List.append_assoc,
      List.cons_append, List.cons_append, hread, numberOf_power, Option.getD_none, List.append_nil]
  · have hne : ds.drop 1 ≠ [] := fun h => hmany (List.drop_eq_nil_iff.1 h)
    have hread := unsigned_of_parts negative
      (whole_append hlead hfirst (not_isDigit_head (by decide : '.'.isDigit = false) _))
      (fraction_append hne hmore hletter) hpower
    rw [Decimal.scientificNotation, if_neg hmany, List.append_assoc, List.append_assoc,
      List.cons_append, List.cons_append, List.cons_append, hread, numberOf_power,
      Option.getD_some, List.take_append_drop]

theorem Leading.ne_nil {ds : List Char} (h : Leading ds) : ds ≠ [] := by
  rcases h with rfl | ⟨c, cs, rfl, -⟩
  · exact List.cons_ne_nil _ _
  · exact List.cons_ne_nil _ _

theorem isDigit_of_mem_zeros {n : Nat} : ∀ c ∈ List.replicate n '0', c.isDigit = true := by
  intro c hc
  rw [List.eq_of_mem_replicate hc]
  decide

section Plain

variable {ds : List Char} {k : Int} (hlead : Leading ds) (hzero : ds = ['0'] → k = 0)
  (hds : ∀ c ∈ ds, c.isDigit = true)
  (hd : (ofDigits ds : ℚ) * 10 ^ k = d.digits * 10 ^ d.exponent)

include hlead hds hd

include hzero in
/-- The zeros behind the digits and the one behind the point make the number ten times as great. -/
theorem denotes_zeros_behind (hk : 0 ≤ k) :
    Denotes (ds ++ List.replicate k.toNat '0' ++ ['.', '0']) d := by
  have hdigits : ∀ c ∈ ds ++ List.replicate k.toNat '0', c.isDigit = true :=
    List.forall_mem_append.2 ⟨hds, isDigit_of_mem_zeros⟩
  have hlead' : Leading (ds ++ List.replicate k.toNat '0') := by
    rcases hlead with rfl | ⟨c, cs, rfl, hc⟩
    · rw [hzero rfl]
      exact Or.inl rfl
    · exact Or.inr ⟨c, cs ++ List.replicate k.toNat '0', List.cons_append, hc⟩
  refine denotes_point hlead' (List.cons_ne_nil _ _) hdigits
    (List.forall_mem_singleton.2 (by decide)) ?_
  have hall : ds ++ List.replicate k.toNat '0' ++ ['0'] =
      ds ++ List.replicate (k.toNat + 1) '0' := by
    rw [List.append_assoc, List.replicate_succ']
  have hpow : (10 : ℚ) ^ k = 10 ^ k.toNat := by
    rw [← zpow_natCast, Int.toNat_of_nonneg hk]
  have htenth : (10 : ℚ) ^ (-(['0'].length) : ℤ) = 10⁻¹ := zpow_neg_one 10
  rw [hall, ofDigits_append_zeros, ← hd, hpow, htenth, pow_succ]
  push_cast
  ring

include hzero in
theorem denotes_point_within {w : Nat} (hw : (w : Int) = ds.length + k) (hpos : 0 < w)
    (hk : k < 0) : Denotes (ds.take w ++ '.' :: ds.drop w) d := by
  have hlead' : Leading (ds.take w) := by
    rcases hlead with h | ⟨c, cs, rfl, hc⟩
    · exact absurd (hzero h) hk.ne
    · obtain ⟨n, rfl⟩ := Nat.exists_eq_add_of_lt hpos
      exact Or.inr ⟨c, cs.take (0 + n), rfl, hc⟩
  have hafter : ds.drop w ≠ [] := by
    intro h
    have := List.drop_eq_nil_iff.1 h
    omega
  refine denotes_point hlead' hafter (fun c hc => hds c (List.mem_of_mem_take hc))
    (fun c hc => hds c (List.mem_of_mem_drop hc)) ?_
  have hlength : 0 < ds.length := List.length_pos_iff.2 hlead.ne_nil
  have hexponent : (-(ds.drop w).length : Int) = k := by
    rw [List.length_drop]
    omega
  rw [List.take_append_drop, hexponent, hd]

theorem denotes_zeros_before {n : Nat} (hn : (n : Int) = -(ds.length + k)) :
    Denotes ('0' :: '.' :: (List.replicate n '0' ++ ds)) d := by
  have hafter : ∀ c ∈ List.replicate n '0' ++ ds, c.isDigit = true :=
    List.forall_mem_append.2 ⟨isDigit_of_mem_zeros, hds⟩
  refine denotes_point (Or.inl rfl : Leading ['0'])
    (List.append_ne_nil_of_right_ne_nil _ hlead.ne_nil)
    (List.forall_mem_singleton.2 (by decide)) hafter ?_
  have hexponent : (-(List.replicate n '0' ++ ds).length : Int) = k := by
    rw [List.length_append, List.length_replicate]
    omega
  rw [hexponent, ← List.append_assoc]
  change (ofDigits (List.replicate (n + 1) '0' ++ ds) : ℚ) * _ = _
  rw [ofDigits_zeros_append, hd]

include hzero in
/-- Digits without an exponent, and a fraction even if the number is whole. -/
theorem denotes_plain : Denotes (Decimal.plainNotation true ds k) d := by
  rw [Decimal.plainNotation]
  split
  · next hk => exact denotes_zeros_behind hlead hzero hds hd hk
  split
  · next hk hwhole =>
    exact denotes_point_within hlead hzero hds hd (Int.toNat_of_nonneg hwhole.le) (by omega)
      (not_le.1 hk)
  · next hk hwhole =>
    exact denotes_zeros_before hlead hds hd (Int.toNat_of_nonneg (by omega))

end Plain

/-- A decimal is written as one that is equal to it. -/
theorem denotes_magnitude (hd : d.digits = 0 → d.exponent = 0) :
    Denotes (realLayout.magnitude d) d := by
  have hlead := leading_toDigits d.digits
  have hds : ∀ c ∈ Nat.toDigits 10 d.digits, c.isDigit = true := fun _ => isDigit_of_mem_toDigits
  have hzero : Nat.toDigits 10 d.digits = ['0'] → d.exponent = 0 := by
    intro h
    apply hd
    rw [← ofDigits_toDigits d.digits, h]
    rfl
  rw [Decimal.Layout.magnitude, Decimal.digits]
  split
  · exact denotes_plain hlead hzero hds (by rw [ofDigits_toDigits])
  · have hfirst : Leading ((Nat.toDigits 10 d.digits).take 1) := by
      rcases hlead with h | ⟨c, cs, h, hc⟩
      · exact Or.inl (by rw [h]; rfl)
      · exact Or.inr ⟨c, [], by rw [h]; rfl, hc⟩
    refine denotes_scientific hfirst hds ?_
    have hlength : 0 < (Nat.toDigits 10 d.digits).length := Nat.length_toDigits_pos
    have hexponent : (Nat.toDigits 10 d.digits).length - 1 + d.exponent -
        ((Nat.toDigits 10 d.digits).drop 1).length = d.exponent := by
      rw [List.length_drop]
      omega
    rw [hexponent, ofDigits_toDigits]

/-! ## Doubles -/

/-- A finite double is read back from its text. -/
theorem number_real {x : Float} (hx : x.isFinite = true) {r : List Char} (hr : EndsNumber r) :
    number (Printer.real x ++ r) = some (.real x, r) := by
  have hstored : (Decimal.Binary.ofFloat x).Stored x.toBits.toNat :=
    Decimal.stored_ofBits (Decimal.exponent_of_isFinite hx)
  obtain ⟨significand, exponent, hread, hvalue⟩ := denotes_magnitude
    (Decimal.exponent_shortest hstored) (Decimal.isNegative x) r hr
  rw [realOf, Decimal.nearest?_of_shortest hx hvalue] at hread
  rw [Printer.real, if_pos hx, Decimal.Layout.write]
  split
  · next hsign =>
    rw [hsign] at hread
    exact hread
  · next hsign =>
    rw [Bool.not_eq_true] at hsign
    rw [hsign] at hread
    exact number_of_unsigned hread

end ClauseTree.Json
