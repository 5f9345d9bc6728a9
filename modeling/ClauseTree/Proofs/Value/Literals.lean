import ClauseTree.Json.Parser
import ClauseTree.Value.Literal

/-!
# What literals denote

A text is written as one quoted literal. `quoted?` reads such a literal: a backslash takes the next
character as it is, and a quote without one closes. `literal_denotes` says that it reads a literal
to its end and no further and finds the text again, so texts are told apart by their literals. The
digits of bytes are read back in the same way by `unhex?`.

The escapes are made character by character. This is the same as doubling all backslashes first and
putting one before each quote afterwards (`flatMap_escape`); the other way round, the backslashes
before the quotes would be doubled as well.
-/

namespace ClauseTree.Value

/-! ## Texts -/

/-- The content of a quoted literal from behind its opening quote, and the text behind its closing
one. -/
def content? : List Char → Option (List Char × List Char)
  | [] => none
  | ['\\'] => none
  | '\\' :: c :: cs => (content? cs).map fun (s, rest) => (c :: s, rest)
  | c :: cs =>
    if c = '\x27' then some ([], cs) else (content? cs).map fun (s, rest) => (c :: s, rest)

/-- The content of the quoted literal that a text starts with, and the text behind it. -/
def quoted? : List Char → Option (List Char × List Char)
  | '\x27' :: cs => content? cs
  | _ => none

/-- The text with `w` in the place of each `c`. -/
def replacing (c : Char) (w s : List Char) : List Char :=
  s.flatMap fun d => if d = c then w else [d]

theorem content?_backslash (c : Char) (cs : List Char) :
    content? ('\\' :: c :: cs) = (content? cs).map fun (s, rest) => (c :: s, rest) := by
  rw [content?]

theorem content?_cons {c : Char} (hback : c ≠ '\\') (hquote : c ≠ '\x27') (cs : List Char) :
    content? (c :: cs) = (content? cs).map fun (s, rest) => (c :: s, rest) := by
  rw [content?, if_neg hquote]
  · rintro rfl
    exact absurd rfl hback
  · rintro d ds rfl
    exact absurd rfl hback

/-- What a character is escaped to is read as the character. -/
theorem content?_escape (c : Char) (cs : List Char) :
    content? (escape c ++ cs) = (content? cs).map fun (s, rest) => (c :: s, rest) := by
  rw [escape]
  split
  · next hback =>
    rw [hback, List.cons_append, List.cons_append, content?_backslash, List.nil_append]
  · next hback =>
    split
    · next hquote =>
      rw [hquote, List.cons_append, List.cons_append, content?_backslash, List.nil_append]
    · next hquote => rw [List.singleton_append, content?_cons hback hquote]

theorem content?_flatMap_escape (s rest : List Char) :
    content? (s.flatMap escape ++ '\x27' :: rest) = some (s, rest) := by
  induction s with
  | nil => rfl
  | cons c s ih => rw [List.flatMap_cons, List.append_assoc, content?_escape, ih, Option.map_some]

theorem quoted?_quoted (s rest : List Char) : quoted? (quoted s ++ rest) = some (s, rest) := by
  rw [quoted, List.cons_append, List.append_assoc, quoted?, List.singleton_append,
    content?_flatMap_escape]

theorem quoted_injective : Function.Injective quoted := by
  intro s t h
  have hs := quoted?_quoted s []
  rw [h, quoted?_quoted] at hs
  exact (Prod.mk.inj (Option.some.inj hs)).1.symm

/-- Backslashes are doubled before quotes get one. -/
theorem flatMap_escape (s : List Char) :
    s.flatMap escape =
      replacing '\x27' ['\\', '\x27'] (replacing '\\' ['\\', '\\'] s) := by
  rw [replacing, replacing, List.flatMap_assoc]
  refine congrArg (s.flatMap ·) (funext fun c => ?_)
  rw [escape]
  by_cases hback : c = '\\'
  · rw [if_pos hback, if_pos hback]
    rfl
  · rw [if_neg hback, if_neg hback, List.flatMap_singleton]

/-! ## Bytes -/

/-- The bytes that pairs of hexadecimal digits stand for. -/
def unhex? : List Char → Option (List UInt8)
  | [] => some []
  | [_] => none
  | a :: b :: cs => do
    let high ← Json.Parser.hexDigit? a
    let low ← Json.Parser.hexDigit? b
    let bytes ← unhex? cs
    return UInt8.ofNat (16 * high + low) :: bytes

theorem hexDigit?_hexDigit : ∀ n < 16, Json.Parser.hexDigit? (hexDigit n) = some n := by decide

theorem hexDigit_mem : ∀ n < 16, hexDigit n ∈ "0123456789ABCDEF".toList := by decide

theorem toNat_div_lt (b : UInt8) : b.toNat / 16 < 16 := by
  have := b.toNat_lt
  omega

theorem toNat_mod_lt (b : UInt8) : b.toNat % 16 < 16 := Nat.mod_lt _ (by decide)

theorem unhex?_hexByte (b : UInt8) (cs : List Char) :
    unhex? (hexByte b ++ cs) = (unhex? cs).map (b :: ·) := by
  have hbyte : UInt8.ofNat (16 * (b.toNat / 16) + b.toNat % 16) = b := by
    rw [Nat.div_add_mod, UInt8.ofNat_toNat]
  rw [hexByte, List.cons_append, List.cons_append, List.nil_append, unhex?,
    hexDigit?_hexDigit _ (toNat_div_lt b), hexDigit?_hexDigit _ (toNat_mod_lt b)]
  change (unhex? cs).bind (fun bytes => some (UInt8.ofNat _ :: bytes)) = _
  rw [hbyte]
  cases unhex? cs <;> rfl

theorem unhex?_flatMap_hexByte (bytes : List UInt8) :
    unhex? (bytes.flatMap hexByte) = some bytes := by
  induction bytes with
  | nil => rfl
  | cons b bytes ih => rw [List.flatMap_cons, unhex?_hexByte, ih, Option.map_some]

theorem length_flatMap_hexByte (bytes : List UInt8) :
    (bytes.flatMap hexByte).length = 2 * bytes.length := by
  induction bytes with
  | nil => rfl
  | cons b bytes ih =>
    have hbyte : (hexByte b).length = 2 := rfl
    rw [List.flatMap_cons, List.length_append, ih, hbyte, List.length_cons]
    omega

theorem mem_hexByte {b : UInt8} {c : Char} (hc : c ∈ hexByte b) :
    c ∈ "0123456789ABCDEF".toList := by
  rcases List.mem_cons.1 hc with rfl | hc
  · exact hexDigit_mem _ (toNat_div_lt b)
  · rw [List.mem_singleton.1 hc]
    exact hexDigit_mem _ (toNat_mod_lt b)

/-! ## Literals -/

/-- The literal of a text is read back as the text, whatever comes behind it, so two texts have the
same literal only if they are the same. Its escapes are two replacements. The literal of bytes has
two upper-case digits for each, from which the bytes are read back. -/
theorem literal_denotes :
    (∀ (s : String) (rest : List Char),
      quoted? ((literal (.text s)).toList ++ rest) = some (s.toList, rest)) ∧
    (∀ s : String, (literal (.text s)).toList =
      '\x27' :: (replacing '\x27' ['\\', '\x27'] (replacing '\\' ['\\', '\\'] s.toList) ++
        ['\x27'])) ∧
    (∀ s t : String, literal (.text s) = literal (.text t) ↔ s = t) ∧
    ∀ bytes : List UInt8, ∃ digits : List Char,
      literal (.blob bytes) = "unhex('" ++ String.ofList digits ++ "')" ∧
      digits.length = 2 * bytes.length ∧ digits ⊆ "0123456789ABCDEF".toList ∧
      unhex? digits = some bytes := by
  have htext (s : String) : (literal (.text s)).toList = quoted s.toList := String.toList_ofList
  refine ⟨fun s rest => ?_, fun s => ?_, fun s t => ⟨fun h => ?_, fun h => by rw [h]⟩,
    fun bytes => ?_⟩
  · rw [htext, quoted?_quoted]
  · rw [htext, quoted, flatMap_escape]
  · have hquoted : quoted s.toList = quoted t.toList := by rw [← htext, ← htext, h]
    exact String.toList_injective (quoted_injective hquoted)
  · refine ⟨bytes.flatMap hexByte, ?_, length_flatMap_hexByte bytes, fun c hc => ?_,
      unhex?_flatMap_hexByte bytes⟩
    · have hdigits : (String.ofList (bytes.flatMap hexByte)).toList = bytes.flatMap hexByte :=
        String.toList_ofList
      refine String.toList_injective ?_
      rw [literal, String.toList_ofList, String.toList_append, String.toList_append, hdigits,
        List.append_assoc]
      rfl
    · obtain ⟨b, -, hc⟩ := List.mem_flatMap.1 hc
      exact mem_hexByte hc

end ClauseTree.Value
