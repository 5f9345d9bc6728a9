import ClauseTree.Proofs.Statement.Filling
import Mathlib.Data.List.Basic

/-!
# Inlined text scanned again

The literals of values are put into a statement at its placeholders. `scan_inline` says what a
second scan makes of the result: it reads every character that was kept in the state in which the
first scan read it, it finds no placeholder any more, and it ends where the first scan ended. A
literal is therefore never taken for anything but a literal, whatever text is in it.

This is so because every placeholder and every literal is passed from outside quotes to outside
quotes. Of a literal that is shown by its kind: all but the text are quiet, and in a text every
character that could close the quotes has a backslash before it.
-/

namespace ClauseTree

open Placeholder

/-! ## Literals -/

namespace Placeholder

theorem Quiet.append {cs ds : List Char} (hcs : Quiet cs) (hds : Quiet ds) : Quiet (cs ++ ds) :=
  List.forall_mem_append.2 ⟨hcs, hds⟩

theorem Quiet.cons {c : Char} {cs : List Char} (hc : isQuote c = false ∧ c ≠ '?') (hcs : Quiet cs) :
    Quiet (c :: cs) :=
  List.forall_mem_cons.2 ⟨hc, hcs⟩

end Placeholder

namespace Value

theorem quiet_integerLiteral (n : Int) : Quiet (integerLiteral n) := by
  rw [integerLiteral]
  split
  · exact (quiet_toDigits _).cons (by decide)
  · exact quiet_toDigits _

theorem quiet_plainNotation {ds : List Char} (hds : Quiet ds) (k : Int) :
    Quiet (Decimal.plainNotation false ds k) := by
  have hpoint : isQuote '.' = false ∧ '.' ≠ '?' := by decide
  have hzero : isQuote '0' = false ∧ '0' ≠ '?' := by decide
  have hzeros (n : Nat) : Quiet (List.replicate n '0') := by
    intro c hc
    rw [List.eq_of_mem_replicate hc]
    exact hzero
  rw [Decimal.plainNotation]
  split
  · simpa using hds.append (hzeros k.toNat)
  · split
    · have htake : Quiet (ds.take (ds.length + k).toNat) := fun c hc =>
        hds c (List.mem_of_mem_take hc)
      have hdrop : Quiet (ds.drop (ds.length + k).toNat) := fun c hc =>
        hds c (List.mem_of_mem_drop hc)
      exact htake.append (hdrop.cons hpoint)
    · exact (((hzeros _).append hds).cons hpoint).cons hzero

theorem quiet_floatLiteral (x : Float) : Quiet (floatLiteral x) := by
  have hwrite : Quiet (literalLayout.write x) := by
    have hmagnitude := quiet_plainNotation
      (quiet_toDigits ((Decimal.Binary.ofFloat x).shortest .up).digits)
      ((Decimal.Binary.ofFloat x).shortest .up).exponent
    rw [Decimal.Layout.write]
    refine Quiet.append ?_ hmagnitude
    split <;> decide
  rw [floatLiteral]
  split
  · decide
  · split
    · split <;> decide
    · exact hwrite

/-- Inside quotes, only a backslash and the quote itself are more than a character. -/
theorem fills_inside {quote : Char} {cs : List Char} (h : ∀ c ∈ cs, c ≠ '\\' ∧ c ≠ quote) :
    Fills (.inside quote false) cs [] cs (.inside quote false) := by
  induction cs with
  | nil => exact Fills.nil _
  | cons c cs ih =>
    obtain ⟨hback, hquote⟩ := h c List.mem_cons_self
    refine Fills.cons_other (by simp [isPlaceholder]) ?_
    rw [State.next, if_neg hback, if_neg hquote]
    exact ih fun d hd => h d (List.mem_cons_of_mem c hd)

theorem hexByte_ne (b : UInt8) : ∀ c ∈ hexByte b, c ≠ '\\' ∧ c ≠ '\x27' := by
  have hdigit : ∀ n < 16, hexDigit n ≠ '\\' ∧ hexDigit n ≠ '\x27' := by decide
  have hhigh : b.toNat / 16 < 16 := by
    have := b.toNat_lt
    omega
  have hlow : b.toNat % 16 < 16 := Nat.mod_lt _ (by decide)
  simpa [hexByte] using ⟨hdigit _ hhigh, hdigit _ hlow⟩

/-- A backslash stands before every character that could end the literal. -/
theorem fills_escape (c : Char) :
    Fills (.inside '\x27' false) (escape c) [] (escape c) (.inside '\x27' false) := by
  rw [escape]
  split
  · exact ⟨rfl, rfl⟩
  · next hback =>
    split
    · exact ⟨rfl, rfl⟩
    · next hquote => exact fills_inside (by simpa using ⟨hback, hquote⟩)

theorem fills_quoted (s : List Char) :
    Fills .outside (quoted s) [] (quoted s) .outside := by
  have hbody : Fills (.inside '\x27' false) (s.flatMap escape) [] (s.flatMap escape)
      (.inside '\x27' false) := Fills.flatMap fun c _ => fills_escape c
  have hlast : Fills (.inside '\x27' false) ['\x27'] [] ['\x27'] .outside := ⟨rfl, rfl⟩
  exact Fills.cons_other (by decide) (hbody.append hlast)

/-- A literal has no placeholder and leaves the scan outside quotes. -/
theorem fills_literalChars (v : Value) :
    Fills .outside v.literalChars [] v.literalChars .outside := by
  cases v with
  | null => exact Quiet.fills (by decide)
  | bool b => cases b <;> exact Quiet.fills (by decide)
  | int n => exact (quiet_integerLiteral n.toInt).fills
  | uint n => exact (quiet_toDigits _).fills
  | float x => exact (quiet_floatLiteral x).fills
  | text s => exact fills_quoted s.toList
  | blob bytes =>
    have hword : Fills .outside "unhex(".toList [] "unhex(".toList .outside :=
      Quiet.fills (by decide)
    have hbytes : Fills (.inside '\x27' false) (bytes.flatMap hexByte) [] (bytes.flatMap hexByte)
        (.inside '\x27' false) :=
      Fills.flatMap fun b _ => fills_inside (hexByte_ne b)
    have hlast : Fills (.inside '\x27' false) ['\x27', ')'] [] ['\x27', ')'] .outside := ⟨rfl, rfl⟩
    exact hword.append (Fills.cons_other (by decide) (hbytes.append hlast))
  | undefined => exact Quiet.fills (by decide)

end Value

namespace Placeholder

/-! ## Parts between placeholders -/

/-- The characters of a text, each with the state in which the scan reads it. -/
def scan (s : State) : List Char → List (State × Char)
  | [] => []
  | c :: cs => (s, c) :: scan (s.next c) cs

theorem scan_append (s : State) (cs ds : List Char) :
    scan s (cs ++ ds) = scan s cs ++ scan (s.run cs) ds := by
  induction cs generalizing s with
  | nil => rfl
  | cons c cs ih => rw [List.cons_append, scan, scan, ih]; rfl

/-- A text whose scan finds a placeholder has a first one. -/
theorem exists_of_count_ne_zero {s : State} {cs : List Char} (h : count s cs ≠ 0) :
    ∃ part rest, cs = part ++ '?' :: rest ∧ count s part = 0 ∧ s.run part = .outside := by
  induction cs generalizing s with
  | nil => exact absurd rfl h
  | cons c cs ih =>
    by_cases hc : isPlaceholder s c = true
    · have hmark : s = .outside ∧ c = '?' := by simpa [isPlaceholder] using hc
      exact ⟨[], cs, by rw [hmark.2]; rfl, rfl, hmark.1⟩
    · rw [count, if_neg hc, Nat.zero_add] at h
      obtain ⟨part, rest, rfl, hcount, hrun⟩ := ih h
      exact ⟨c :: part, rest, rfl, by rw [count, if_neg hc, hcount], hrun⟩

theorem splice?_of_count_eq_zero {s : State} {cs : List Char} (h : count s cs = 0) :
    splice? s cs [] = some cs := by
  induction cs generalizing s with
  | nil => rfl
  | cons c cs ih =>
    rw [count, Nat.add_eq_zero_iff] at h
    have hc : ¬ isPlaceholder s c = true := by simpa using h.1
    rw [splice?_cons_other hc, ih h.2, Option.map_some]

/-- The text has no placeholder, and it leaves the scan outside quotes as it finds it. -/
abbrev Passed (cs : List Char) : Prop := Fills .outside cs [] cs .outside

theorem Passed.count {cs : List Char} (h : Passed cs) : count .outside cs = 0 :=
  count_of_splice? h.splice

/-- What stands before, between and behind the placeholders of a text. -/
theorem exists_parts {cs : List Char} {n : Nat} (h : count .outside cs = n) :
    ∃ (parts : List (List Char)) (last : List Char), parts.length = n ∧
      (∀ p ∈ parts, Passed p) ∧ count .outside last = 0 ∧
      cs = (parts.flatMap fun p => p ++ ['?']) ++ last := by
  induction n generalizing cs with
  | zero => exact ⟨[], cs, rfl, by simp, h, rfl⟩
  | succ n ih =>
    have hne : Placeholder.count .outside cs ≠ 0 := by omega
    obtain ⟨part, rest, rfl, hcount, hrun⟩ := exists_of_count_ne_zero hne
    have hrest : Placeholder.count .outside rest = n := by
      rw [count_append, hcount, hrun, Placeholder.count, if_pos (by decide)] at h
      have hnext : State.outside.next '?' = .outside := rfl
      rw [hnext] at h
      omega
    obtain ⟨parts, last, hlength, hparts, hlast, rfl⟩ := ih hrest
    have hpart : Passed part := ⟨hrun, splice?_of_count_eq_zero hcount⟩
    exact ⟨part :: parts, last, by simp [hlength], List.forall_mem_cons.2 ⟨hpart, hparts⟩, hlast,
      by simp⟩

/-- Between its parts a text is filled with one text for each placeholder. -/
theorem fills_parts {β : Type} (f : β → List Char) {parts : List (List Char)} {bs : List β}
    {last : List Char} (hlength : parts.length = bs.length) (hparts : ∀ p ∈ parts, Passed p)
    (hlast : count .outside last = 0) :
    Fills .outside ((parts.flatMap fun p => p ++ ['?']) ++ last) (bs.map f)
      (((parts.zip bs).flatMap fun (p, b) => p ++ f b) ++ last) (State.outside.run last) := by
  induction parts generalizing bs with
  | nil =>
    obtain rfl : bs = [] := List.length_eq_zero_iff.1 hlength.symm
    exact ⟨rfl, splice?_of_count_eq_zero hlast⟩
  | cons p parts ih =>
    cases bs with
    | nil => cases hlength
    | cons b bs =>
      obtain ⟨hp, hparts⟩ := List.forall_mem_cons.1 hparts
      have hmark : Fills .outside ['?'] [f b] (f b ++ []) .outside :=
        Fills.cons_placeholder (by decide) (Fills.nil .outside)
      have hrest := ih (Nat.succ.inj hlength) hparts
      simpa using (hp.append hmark).append hrest

section Run

variable {α : Type} {f : α → List Char} {as : List α} (last : List Char)

theorem run_flatMap (h : ∀ a ∈ as, State.outside.run (f a) = .outside) :
    State.outside.run (as.flatMap f ++ last) = State.outside.run last := by
  induction as with
  | nil => rfl
  | cons a as ih =>
    obtain ⟨ha, has⟩ := List.forall_mem_cons.1 h
    rw [List.flatMap_cons, List.append_assoc, run_append, ha, ih has]

/-- Texts that leave the scan outside quotes are read each for itself. -/
theorem scan_flatMap (h : ∀ a ∈ as, State.outside.run (f a) = .outside) :
    scan .outside (as.flatMap f ++ last) =
      (as.flatMap fun a => scan .outside (f a)) ++ scan .outside last := by
  induction as with
  | nil => rfl
  | cons a as ih =>
    obtain ⟨ha, has⟩ := List.forall_mem_cons.1 h
    rw [List.flatMap_cons, List.append_assoc, scan_append, ha, ih has, List.flatMap_cons,
      List.append_assoc]

theorem count_flatMap (h : ∀ a ∈ as, Passed (f a)) :
    count .outside (as.flatMap f ++ last) = count .outside last := by
  induction as with
  | nil => rfl
  | cons a as ih =>
    obtain ⟨ha, has⟩ := List.forall_mem_cons.1 h
    rw [List.flatMap_cons, List.append_assoc, count_append, ha.run, ha.count, ih has, Nat.zero_add]

end Run

end Placeholder

namespace Statement

/-- A statement can be inlined exactly if it has as many placeholders as values. The k-th
placeholder, which stands behind the k-th part of the text, then gives way to the literal of the
k-th value. A second scan reads every part in the same states as the first, finds no placeholder,
and ends in the same state. -/
theorem scan_inline (s : Statement) :
    (s.inline?.isSome = true ↔ count .outside s.sql.toList = s.bindings.length) ∧
    ∀ out, s.inline? = some out →
      ∃ parts last, parts.length = s.bindings.length ∧
        (∀ p ∈ last :: parts, count .outside p = 0) ∧
        scan .outside s.sql.toList =
          (parts.flatMap fun p => scan .outside p ++ [(.outside, '?')]) ++ scan .outside last ∧
        scan .outside out.toList =
          ((parts.zip s.bindings).flatMap fun (p, v) =>
            scan .outside p ++ scan .outside v.literalChars) ++ scan .outside last ∧
        count .outside out.toList = 0 ∧
        State.outside.run out.toList = State.outside.run s.sql.toList := by
  have hlength : (s.bindings.map Value.literalChars).length = s.bindings.length :=
    List.length_map ..
  constructor
  · rw [Statement.inline?, Placeholder.inline?, Option.isSome_map, isSome_splice?_iff, hlength]
  · intro out hout
    obtain ⟨text, htext, rfl⟩ := Option.map_eq_some_iff.1 hout
    have hcount := (count_of_splice? htext).trans hlength
    obtain ⟨parts, last, hparts, hpassed, hlast, hsql⟩ := exists_parts hcount
    have hfills := fills_parts Value.literalChars hparts hpassed hlast
    obtain rfl : _ = text := Option.some.inj ((hsql ▸ hfills.splice).symm.trans htext)
    have hmarked : ∀ p ∈ parts, State.outside.run (p ++ ['?']) = .outside := by
      intro p hp
      rw [run_append, (hpassed p hp).run]
      rfl
    have hfilled : ∀ e ∈ parts.zip s.bindings, Passed (e.1 ++ e.2.literalChars) := fun e he =>
      (hpassed e.1 (List.of_mem_zip he).1).append e.2.fills_literalChars
    refine ⟨parts, last, hparts, ?_, ?_, ?_, ?_, ?_⟩
    · exact List.forall_mem_cons.2 ⟨hlast, fun p hp => (hpassed p hp).count⟩
    · rw [hsql, scan_flatMap last hmarked]
      refine congrArg (· ++ _) (List.flatMap_congr fun p hp => ?_)
      rw [scan_append, (hpassed p hp).run]
      rfl
    · rw [String.toList_ofList, scan_flatMap last fun e he => (hfilled e he).run]
      refine congrArg (· ++ _) (List.flatMap_congr fun e he => ?_)
      rw [scan_append, (hpassed e.1 (List.of_mem_zip he).1).run]
    · rw [String.toList_ofList, count_flatMap last hfilled, hlast]
    · rw [String.toList_ofList, run_flatMap last fun e he => (hfilled e he).run, hsql,
        run_flatMap last hmarked]

/-- A statement with quotes of every kind, one of them never closed, and values that would close
them. -/
def unclosed : Statement where
  sql := "select '\\'?', ? from `a?` where x = ? and y = \"?"
  bindings := [.text "it's ?\\", .blob [0, 0xAB]]
  undefinedInWhere := false

theorem scan_inline_unclosed :
    ∃ out, unclosed.inline? = some out ∧
      out = "select '\\'?', 'it\\'s ?\\\\' from `a?` where x = unhex('00AB') and y = \"?" ∧
      count .outside out.toList = 0 ∧ State.outside.run out.toList = .inside '"' false := by
  obtain ⟨hsome, hscan⟩ := scan_inline unclosed
  obtain ⟨out, hout⟩ := Option.isSome_iff_exists.1 (hsome.2 (by decide))
  obtain ⟨parts, last, -, -, -, -, hcount, hrun⟩ := hscan out hout
  refine ⟨out, hout, Option.some.inj (hout.symm.trans ?_), hcount, hrun.trans (by decide)⟩
  decide +kernel

end Statement

end ClauseTree
