import ClauseTree.Json.Parser
import ClauseTree.Proofs.Decimal.Bits

/-!
# The numbers of a document

A reader makes 64-bit words of the whole numbers that are in range and finite doubles of all other
numbers. What is beyond the doubles has no content, so `Json.numbersFit` holds of every document
that was read from a text.
-/

namespace ClauseTree

theorem Decimal.isFinite_of_nearest? {negative : Bool} {significand : Nat} {exponent : Int}
    {x : Float} (h : nearest? negative significand exponent = some x) : x.isFinite = true := by
  have hsigned (bits : Nat) (hbits : bits < 2047 * 2 ^ 52) :
      (Float.ofBits (UInt64.ofNat (bits + if negative then 2 ^ 63 else 0))).isFinite = true := by
    refine isFinite_ofBits ?_
    have hsign :
        (if negative then 2 ^ 63 else 0) = 2 ^ 63 ∨ (if negative then 2 ^ 63 else 0) = 0 := by
      split
      · exact Or.inl rfl
      · exact Or.inr rfl
    rw [UInt64.toNat_ofNat']
    omega
  have hbits {num den bits : Nat} (hnearest : nearestBits? num den = some bits) :
      bits < 2047 * 2 ^ 52 := by
    rw [nearestBits?] at hnearest
    generalize scaleDown num den (stepExponent num den) = scaled at hnearest
    obtain ⟨n, d⟩ := scaled
    obtain ⟨b, hb⟩ : ∃ b, (if b < 2047 * 2 ^ 52 then some b else none) = some bits :=
      ⟨_, hnearest⟩
    split at hb
    · next hlt =>
      cases hb
      exact hlt
    · cases hb
  rw [nearest?] at h
  dsimp only at h
  split at h
  · cases h
    exact hsigned 0 (by decide)
  split at h
  · cases h
  split at h
  · cases h
    exact hsigned 0 (by decide)
  · obtain ⟨bits, hnearest, rfl⟩ := Option.map_eq_some_iff.1 h
    exact hsigned bits (hbits hnearest)

namespace Json

mutual

/-- Every number inside is a word of 64 bits or a finite double. -/
def numbersFit : Json → Bool
  | .int n => -2 ^ 63 ≤ n && n < 2 ^ 64
  | .real x => x.isFinite
  | .array items => itemsFit items
  | .object fields => fieldsFit fields
  | _ => true

def itemsFit : List Json → Bool
  | [] => true
  | j :: js => j.numbersFit && itemsFit js

def fieldsFit : List (String × Json) → Bool
  | [] => true
  | (_, j) :: fs => j.numbersFit && fieldsFit fs

end

theorem itemsFit_iff {js : List Json} : itemsFit js = true ↔ ∀ j ∈ js, j.numbersFit = true := by
  induction js with
  | nil => simp [itemsFit]
  | cons j js ih => rw [itemsFit, Bool.and_eq_true, ih, List.forall_mem_cons]

theorem fieldsFit_iff {fs : List (String × Json)} :
    fieldsFit fs = true ↔ ∀ f ∈ fs, f.2.numbersFit = true := by
  induction fs with
  | nil => simp [fieldsFit]
  | cons f fs ih => rw [fieldsFit, Bool.and_eq_true, ih, List.forall_mem_cons]

open Json.Parser

theorem numbersFit_realOf (negative : Bool) (significand : Nat) (exponent : Int) :
    (realOf negative significand exponent).numbersFit = true := by
  rw [realOf]
  split
  · next hx => exact Decimal.isFinite_of_nearest? hx
  · rfl

theorem numbersFit_wholeNumber (negative : Bool) (n : Nat) :
    (wholeNumber negative n).numbersFit = true := by
  rw [wholeNumber, Nat.pow_eq, Nat.pow_eq]
  split
  · split
    · next hrange =>
      rw [Bool.and_eq_true, decide_eq_true_eq, decide_eq_true_eq] at hrange
      rw [numbersFit, decide_eq_true (by omega), decide_eq_true (by omega), Bool.and_self]
    · exact numbersFit_realOf _ _ _
  · split
    · rw [numbersFit, decide_eq_true (by omega), decide_eq_true (by omega), Bool.and_self]
    · exact numbersFit_realOf _ _ _

theorem numbersFit_unsigned {negative : Bool} {s r : List Char} {j : Json}
    (h : unsigned negative s = some (j, r)) : j.numbersFit = true := by
  obtain ⟨⟨ds, s⟩, -, h⟩ := Option.bind_eq_some_iff.1 h
  obtain ⟨⟨frac, s⟩, -, h⟩ := Option.bind_eq_some_iff.1 h
  obtain ⟨⟨exp, s⟩, -, h⟩ := Option.bind_eq_some_iff.1 h
  cases h
  rw [numberOf.eq_def]
  split
  · exact numbersFit_wholeNumber _ _
  · exact numbersFit_realOf _ _ _

theorem numbersFit_number {s r : List Char} {j : Json} (h : number s = some (j, r)) :
    j.numbersFit = true := by
  rw [number.eq_def] at h
  split at h
  · exact numbersFit_unsigned h
  · exact numbersFit_unsigned h

theorem numbersFit_objectOf {fs : List (Option String × Json)}
    (h : ∀ f ∈ fs, f.2.numbersFit = true) : (objectOf fs).numbersFit = true := by
  rw [objectOf]
  split
  · next gs hgs =>
    rw [numbersFit, fieldsFit_iff]
    induction fs generalizing gs with
    | nil =>
      cases hgs
      exact List.forall_mem_nil _
    | cons f fs ih =>
      rw [List.forall_mem_cons] at h
      rw [List.mapM_cons] at hgs
      obtain ⟨g, hg, hgs⟩ := Option.bind_eq_some_iff.1 hgs
      obtain ⟨gs', hgs', hgs⟩ := Option.bind_eq_some_iff.1 hgs
      obtain ⟨name, -, rfl⟩ := Option.map_eq_some_iff.1 hg
      cases hgs
      exact List.forall_mem_cons.2 ⟨h.1, ih h.2 gs' hgs'⟩
  · rfl

section Steps

variable {fuel : Nat}
  (hvalue : ∀ s j r, value fuel s = some (j, r) → j.numbersFit = true)
  (hitems : ∀ s js r, Parser.items fuel s = some (js, r) → ∀ j ∈ js, j.numbersFit = true)
  (hmembers : ∀ s fs r, members fuel s = some (fs, r) → ∀ f ∈ fs, f.2.numbersFit = true)

include hitems hmembers in
theorem numbersFit_value_succ {s r : List Char} {j : Json} (h : value (fuel + 1) s = some (j, r)) :
    j.numbersFit = true := by
  rw [value.eq_def] at h
  dsimp only at h
  split at h
  · cases h
    rfl
  · cases h
    rfl
  · cases h
    rfl
  · obtain ⟨⟨t, r⟩, -, h⟩ := Option.map_eq_some_iff.1 h
    cases h
    cases t <;> rfl
  · split at h
    · cases h
      rfl
    · obtain ⟨⟨js, r⟩, hjs, h⟩ := Option.map_eq_some_iff.1 h
      cases h
      rw [numbersFit, itemsFit_iff]
      exact hitems _ _ _ hjs
  · split at h
    · cases h
      rfl
    · obtain ⟨⟨fs, r⟩, hfs, h⟩ := Option.map_eq_some_iff.1 h
      cases h
      exact numbersFit_objectOf (hmembers _ _ _ hfs)
  · exact numbersFit_number h

include hvalue hitems in
theorem numbersFit_items_succ {s r : List Char} {js : List Json}
    (h : Parser.items (fuel + 1) s = some (js, r)) : ∀ j ∈ js, j.numbersFit = true := by
  rw [Parser.items] at h
  obtain ⟨⟨j, r⟩, hj, h⟩ := Option.bind_eq_some_iff.1 h
  have hfit : j.numbersFit = true := hvalue _ _ _ hj
  dsimp only at h
  split at h
  · cases h
    exact List.forall_mem_singleton.2 hfit
  · obtain ⟨⟨is, r⟩, his, h⟩ := Option.bind_eq_some_iff.1 h
    cases h
    exact List.forall_mem_cons.2 ⟨hfit, hitems _ _ _ his⟩
  · cases h

include hvalue hmembers in
theorem numbersFit_members_succ {s r : List Char} {fs : List (Option String × Json)}
    (h : members (fuel + 1) s = some (fs, r)) : ∀ f ∈ fs, f.2.numbersFit = true := by
  rw [members.eq_def] at h
  dsimp only at h
  split at h
  · obtain ⟨⟨name, r⟩, -, h⟩ := Option.bind_eq_some_iff.1 h
    dsimp only at h
    split at h
    · obtain ⟨⟨j, r⟩, hj, h⟩ := Option.bind_eq_some_iff.1 h
      have hfit : j.numbersFit = true := hvalue _ _ _ hj
      dsimp only at h
      split at h
      · cases h
        exact List.forall_mem_singleton.2 hfit
      · obtain ⟨⟨gs, r⟩, hgs, h⟩ := Option.bind_eq_some_iff.1 h
        cases h
        exact List.forall_mem_cons.2 ⟨hfit, hmembers _ _ _ hgs⟩
      · cases h
    · cases h
  · cases h

end Steps

/-- What is read with any number of nested calls. -/
theorem numbersFit_of_read (fuel : Nat) :
    (∀ s j r, value fuel s = some (j, r) → j.numbersFit = true) ∧
      (∀ s js r, Parser.items fuel s = some (js, r) → ∀ j ∈ js, j.numbersFit = true) ∧
        ∀ s fs r, members fuel s = some (fs, r) → ∀ f ∈ fs, f.2.numbersFit = true := by
  induction fuel with
  | zero =>
    refine ⟨?_, ?_, ?_⟩
    · intro s j r h
      cases h
    · intro s js r h
      cases h
    · intro s fs r h
      cases h
  | succ fuel ih =>
    obtain ⟨hvalue, hitems, hmembers⟩ := ih
    exact ⟨fun _ _ _ => numbersFit_value_succ hitems hmembers,
      fun _ _ _ => numbersFit_items_succ hvalue hitems,
      fun _ _ _ => numbersFit_members_succ hvalue hmembers⟩

/-- The numbers of a text that was read. -/
theorem numbersFit_of_parse {s : String} {j : Json} (h : parse s = some j) :
    j.numbersFit = true := by
  obtain ⟨⟨i, r⟩, hi, h⟩ := Option.bind_eq_some_iff.1 h
  dsimp only at h
  split at h
  · cases h
    exact (numbersFit_of_read _).1 _ _ _ hi
  · cases h

end Json

end ClauseTree
