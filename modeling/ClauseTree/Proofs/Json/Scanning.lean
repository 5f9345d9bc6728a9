import ClauseTree.Json.Parser
import ClauseTree.Json.Printer
import Mathlib.Algebra.Group.Int.Defs
import Mathlib.Algebra.Group.Nat.Defs

/-!
# Scanning what was printed

The scanners of the JSON reader undo the printer, whatever is behind the text that was printed. A
quoted text ends at its own closing quote. A number ends where nothing is behind it that could
belong to it; `EndsNumber` says this of the rest.
-/

namespace ClauseTree.Json

open Json.Parser Json.Printer

/-! ## Quoted text -/

theorem hexDigit?_hexDigit {n : Nat} (h : n < 16) : hexDigit? (hexDigit n) = some n := by
  have hall : ∀ n < 16, hexDigit? (hexDigit n) = some n := by decide
  exact hall n h

/-- A code below the surrogates is a character by itself, whatever is behind it. -/
theorem characters?_code_cons {n : Nat} (h : n < 0xD800) (es : List Element) :
    characters? (.code n :: es) = (characters? es).map (Char.ofNat n :: ·) := by
  have hhigh : isHigh n = false := by
    rw [isHigh, decide_eq_false (by omega), Bool.false_and]
  have hlow : isLow n = false := by
    rw [isLow, decide_eq_false (by omega), Bool.false_and]
  cases es with
  | nil => simp [characters?, hhigh, hlow]
  | cons e es => cases e <;> simp [characters?, hhigh, hlow]

/-- `l` is read as one element, which stands for the character `c`. -/
def Spells (l : List Char) (c : Char) : Prop :=
  ∃ e, (∀ s, elements (l ++ s) = (elements s).map fun (es, r) => (e :: es, r)) ∧
    ∀ es, characters? (e :: es) = (characters? es).map (c :: ·)

theorem Spells.letter {x c : Char} (hx : x ≠ 'u') (h : escaped? x = some c) :
    Spells ['\\', x] c := by
  refine ⟨.char c, fun s => ?_, fun es => rfl⟩
  have hread : elements ('\\' :: x :: s) = (escaped? x).bind fun c =>
      (elements s).bind fun (es, rest) => some (.char c :: es, rest) := by
    rw [elements.eq_def]
    split
    · next h => cases h
    · next h => exact absurd (List.cons.inj h).1 (by decide)
    · next h => exact absurd (List.cons.inj (List.cons.inj h).2).1 hx
    · next h =>
      cases h
      rfl
    · next hslash h => exact absurd (List.cons.inj h).2.symm (hslash _ _ (List.cons.inj h).1.symm)
  change elements ('\\' :: x :: s) = _
  rw [hread, h, Option.bind_some]
  cases elements s <;> rfl

theorem Spells.code {c : Char} (h : c.toNat < 32) :
    Spells ['\\', 'u', '0', '0', hexDigit (c.toNat / 16), hexDigit (c.toNat % 16)] c := by
  have hhex : hex4? '0' '0' (hexDigit (c.toNat / 16)) (hexDigit (c.toNat % 16)) =
      some c.toNat := by
    have hzero : hexDigit? '0' = some 0 := rfl
    rw [hex4?, hzero, hexDigit?_hexDigit (by omega), hexDigit?_hexDigit (by omega)]
    change some (4096 * 0 + 256 * 0 + 16 * (c.toNat / 16) + c.toNat % 16) = some c.toNat
    congr 1
    omega
  refine ⟨.code c.toNat, fun s => ?_, fun es => ?_⟩
  · change elements ('\\' :: 'u' :: '0' :: '0' :: _ :: _ :: s) = _
    rw [elements, hhex]
    cases elements s <;> rfl
  · rw [characters?_code_cons (by omega), Char.ofNat_toNat]

theorem Spells.self {c : Char} (hquote : c ≠ '"') (hslash : c ≠ '\\') (h : ¬c.toNat < 32) :
    Spells [c] c := by
  refine ⟨.char c, fun s => ?_, fun es => rfl⟩
  have hread : elements (c :: s) =
      (elements s).bind fun (es, rest) => some (.char c :: es, rest) := by
    rw [elements.eq_def]
    split
    · next h' => cases h'
    · next h' => exact absurd (List.cons.inj h').1 hquote
    · next h' => exact absurd (List.cons.inj h').1 hslash
    · next h' => exact absurd (List.cons.inj h').1 hslash
    · next h' =>
      cases h'
      rw [if_neg h]
      rfl
  change elements (c :: s) = _
  rw [hread]
  cases elements s <;> rfl

theorem spells_escape (c : Char) : Spells (escape c) c := by
  rw [escape]
  split
  · next h =>
    subst h
    exact Spells.letter (by decide) rfl
  split
  · next h =>
    subst h
    exact Spells.letter (by decide) rfl
  split
  · next h =>
    subst h
    exact Spells.letter (by decide) rfl
  split
  · next h =>
    subst h
    exact Spells.letter (by decide) rfl
  split
  · next h =>
    subst h
    exact Spells.letter (by decide) rfl
  split
  · next h =>
    subst h
    exact Spells.letter (by decide) rfl
  split
  · next h =>
    subst h
    exact Spells.letter (by decide) rfl
  split
  · next h => exact Spells.code h
  · exact Spells.self ‹_› ‹_› ‹_›

theorem text_flatMap_escape (s : String) (r : List Char) :
    text (s.toList.flatMap escape ++ '"' :: r) = some (some s, r) := by
  have hspelled (cs : List Char) : ∃ es,
      elements (cs.flatMap escape ++ '"' :: r) = some (es, r) ∧ characters? es = some cs := by
    induction cs with
    | nil => exact ⟨[], by simp [elements], rfl⟩
    | cons c cs ih =>
      obtain ⟨es, hes, hcs⟩ := ih
      obtain ⟨e, he, hc⟩ := spells_escape c
      refine ⟨e :: es, ?_, ?_⟩
      · rw [List.flatMap_cons, List.append_assoc, he, hes, Option.map_some]
      · rw [hc, hcs, Option.map_some]
  obtain ⟨es, hes, hcs⟩ := hspelled s.toList
  rw [text, hes]
  change some ((characters? es).map String.ofList, r) = _
  rw [hcs, Option.map_some, String.ofList_toList]

/-! ## Numbers -/

/-- No character that could belong to a number stands first. -/
def EndsNumber (r : List Char) : Prop :=
  ∀ c ∈ r.head?, c.isDigit = false ∧ c ≠ '.' ∧ c ≠ 'e' ∧ c ≠ 'E'

theorem EndsNumber.nil : EndsNumber [] := fun _ h => by cases h

theorem EndsNumber.cons {c : Char} {r : List Char} (hdigit : c.isDigit = false) (hpoint : c ≠ '.')
    (hlower : c ≠ 'e') (hupper : c ≠ 'E') : EndsNumber (c :: r) := by
  intro d hd
  cases hd
  exact ⟨hdigit, hpoint, hlower, hupper⟩

theorem digits_append {ds r : List Char} (hds : ∀ c ∈ ds, c.isDigit = true)
    (hr : ∀ c ∈ r.head?, c.isDigit = false) : Parser.digits (ds ++ r) = (ds, r) := by
  have htake : r.takeWhile Char.isDigit = [] := by
    cases r with
    | nil => rfl
    | cons c r => rw [List.takeWhile_cons_of_neg (by simp [hr c rfl])]
  have hdrop : r.dropWhile Char.isDigit = r := by
    cases r with
    | nil => rfl
    | cons c r => rw [List.dropWhile_cons_of_neg (by simp [hr c rfl])]
  rw [Parser.digits, List.takeWhile_append_of_pos hds, List.dropWhile_append_of_pos hds, htake,
    hdrop, List.append_nil]

theorem isDigit_of_mem_toDigits {n : Nat} {c : Char} (h : c ∈ Nat.toDigits 10 n) :
    c.isDigit = true :=
  Nat.isDigit_of_mem_toDigits (by decide) (by decide) h

theorem ofDigits_toDigits (n : Nat) : ofDigits (Nat.toDigits 10 n) = n :=
  Nat.ofDigitChars_ten_toDigits

/-- Digits that may stand before the point: a zero, or digits that do not start with one. -/
def Leading (ds : List Char) : Prop :=
  ds = ['0'] ∨ ∃ c cs, ds = c :: cs ∧ c ≠ '0'

/-- Only zero is written with a zero in front. -/
theorem head_toDigits {n : Nat} (hn : n ≠ 0) :
    ∃ c cs, Nat.toDigits 10 n = c :: cs ∧ c ≠ '0' := by
  induction n using Nat.strongRecOn with
  | ind n ih =>
    rw [Nat.toDigits_eq_if (by decide)]
    split
    · next hlt =>
      have hall : ∀ m < 10, m ≠ 0 → Nat.digitChar m ≠ '0' := by decide
      exact ⟨_, [], rfl, hall n hlt hn⟩
    · next hge =>
      obtain ⟨c, cs, hcs, hc⟩ := ih (n / 10) (by omega) (by omega)
      exact ⟨c, cs ++ [Nat.digitChar (n % 10)], by rw [hcs, List.cons_append], hc⟩

theorem leading_toDigits (n : Nat) : Leading (Nat.toDigits 10 n) := by
  by_cases hn : n = 0
  · rw [hn, Nat.toDigits_zero]
    exact Or.inl rfl
  · exact Or.inr (head_toDigits hn)

theorem whole_append {ds r : List Char} (hlead : Leading ds) (hds : ∀ c ∈ ds, c.isDigit = true)
    (hr : ∀ c ∈ r.head?, c.isDigit = false) : whole (ds ++ r) = some (ds, r) := by
  rcases hlead with rfl | ⟨c, cs, rfl, hc⟩
  · rfl
  · have hdigits := digits_append hds hr
    rw [List.cons_append] at hdigits ⊢
    rw [whole.eq_def]
    split
    · next h => exact absurd (List.cons.inj h).1 hc
    · rw [hdigits]

theorem fraction_of_endsNumber {r : List Char} (hr : EndsNumber r) :
    fraction r = some (none, r) := by
  cases r with
  | nil => rfl
  | cons c r =>
    rw [fraction.eq_def]
    split
    · next h => exact absurd (List.cons.inj h).1 (hr c rfl).2.1
    · rfl

theorem power_of_endsNumber {r : List Char} (hr : EndsNumber r) : power r = some (none, r) := by
  cases r with
  | nil => rfl
  | cons c r =>
    rw [power.eq_def]
    split
    · next h => exact absurd (List.cons.inj h).1 (hr c rfl).2.2.1
    · next h => exact absurd (List.cons.inj h).1 (hr c rfl).2.2.2
    · rfl

variable (negative : Bool)

/-- A number is read by its three parts. -/
theorem unsigned_of_parts {ds s t u r : List Char} {frac : Option (List Char)} {exp : Option Int}
    (hwhole : whole s = some (ds, t)) (hfraction : fraction t = some (frac, u))
    (hpower : power u = some (exp, r)) :
    unsigned negative s = some (numberOf negative ds frac exp, r) := by
  rw [unsigned, hwhole]
  change ((fraction t).bind fun x => (power x.2).bind fun y =>
    some (numberOf negative ds x.1 y.1, y.2)) = _
  rw [hfraction, Option.bind_some, hpower, Option.bind_some]

theorem unsigned_toDigits (n : Nat) {r : List Char} (hr : EndsNumber r) :
    unsigned negative (Nat.toDigits 10 n ++ r) = some (wholeNumber negative n, r) := by
  have hwhole := whole_append (leading_toDigits n) (fun c => isDigit_of_mem_toDigits)
    fun c hc => (hr c hc).1
  rw [unsigned_of_parts negative hwhole (fraction_of_endsNumber hr) (power_of_endsNumber hr),
    numberOf, ofDigits_toDigits]

/-- What is read without a sign is read as it stands. -/
theorem number_of_unsigned {s : List Char} {p : Json × List Char}
    (h : unsigned false s = some p) : number s = some p := by
  rw [number.eq_def]
  split
  · next r =>
    have hnone : unsigned false ('-' :: r) = none := rfl
    rw [hnone] at h
    cases h
  · exact h

/-- A whole number in the range of 64-bit words is read exactly. -/
theorem number_integer {n : Int} (hlow : -2 ^ 63 ≤ n) (hhigh : n < 2 ^ 64) {r : List Char}
    (hr : EndsNumber r) : number (integer n ++ r) = some (.int n, r) := by
  rw [integer]
  split
  · next hneg =>
    have hrange : 0 < n.natAbs ∧ n.natAbs ≤ 2 ^ 63 := by omega
    have hvalue : -(n.natAbs : Int) = n := by omega
    change unsigned true (Nat.toDigits 10 n.natAbs ++ r) = _
    rw [unsigned_toDigits _ n.natAbs hr, wholeNumber, Nat.pow_eq, Nat.pow_eq]
    simp only [if_true, hrange.1, hrange.2, decide_true, Bool.and_true, hvalue]
  · next hpos =>
    have hrange : n.natAbs < 2 ^ 64 := by omega
    have hvalue : (n.natAbs : Int) = n := by omega
    apply number_of_unsigned
    rw [unsigned_toDigits _ n.natAbs hr, wholeNumber, Nat.pow_eq, Nat.pow_eq]
    simp only [Bool.false_eq_true, if_false, hrange, if_true, hvalue]

end ClauseTree.Json
