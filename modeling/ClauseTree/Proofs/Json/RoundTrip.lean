import ClauseTree.Proofs.Json.Reals

/-!
# Reading what was printed

`Json.printable` holds of the values that the printer and the reader agree on: whole numbers in the
range of 64-bit words, finite doubles, and nothing without content. Such a value is read back from
its text, on one line or over several.

The two texts differ in the blanks between the parts of a value, which a reader skips. `ReadsBack`
says of any text that it is read as a value, with more text behind it and with any greater number of
nested calls. `ReadsItems` and `ReadsFields` say the same of the items of an array and the fields of
an object after the first one, because the printer treats the first one apart. What is proved of
them holds for any blanks, so a layout only has to be shown to be one of these texts.
-/

namespace ClauseTree.Json

open Json.Parser Json.Printer

mutual

/-- The value is read back from its text. -/
def printable : Json → Bool
  | .int n => -2 ^ 63 ≤ n && n < 2 ^ 64
  | .real x => x.isFinite
  | .array items => itemsPrintable items
  | .object fields => fieldsPrintable fields
  | .unreadable => false
  | _ => true

def itemsPrintable : List Json → Bool
  | [] => true
  | j :: js => j.printable && itemsPrintable js

def fieldsPrintable : List (String × Json) → Bool
  | [] => true
  | (_, j) :: fs => j.printable && fieldsPrintable fs

end

/-- Enough nested calls read the value from the text and leave what is behind it. -/
def ReadsBack (cs : List Char) (j : Json) : Prop :=
  ∀ fuel r, EndsNumber r → 2 * cs.length ≤ fuel → value fuel (cs ++ r) = some (j, r)

/-! ## The first character of a value -/

/-- A number begins with a sign or a digit. -/
theorem head_of_number {s : List Char} {p : Json × List Char} (h : number s = some p) :
    ∃ c cs, s = c :: cs ∧ (c = '-' ∨ c.isDigit = true) := by
  cases s with
  | nil => cases h
  | cons c cs =>
    refine ⟨c, cs, rfl, ?_⟩
    by_cases hsign : c = '-'
    · exact Or.inl hsign
    · right
      have hunsigned : unsigned false (c :: cs) = some p := by
        rw [number.eq_def] at h
        split at h
        · next heq => exact absurd (List.cons.inj heq).1 hsign
        · exact h
      obtain ⟨⟨ds, rest⟩, hwhole, -⟩ := Option.bind_eq_some_iff.1 hunsigned
      rw [whole.eq_def] at hwhole
      split at hwhole
      · next heq =>
        rw [(List.cons.inj heq).1]
        decide
      · cases hdigit : c.isDigit with
        | true => rfl
        | false =>
          rw [Parser.digits, List.takeWhile_cons_of_neg (by simp [hdigit])] at hwhole
          cases hwhole

/-- What begins like a number is the beginning of no other value. -/
theorem value_of_number {s : List Char} {p : Json × List Char} (h : number s = some p)
    (fuel : Nat) : value (fuel + 1) s = some p := by
  obtain ⟨c, cs, rfl, hc⟩ := head_of_number h
  have hne (d : Char) (hsign : d ≠ '-') (hdigit : d.isDigit = false) : c ≠ d := by
    rintro rfl
    rcases hc with rfl | hc
    · exact hsign rfl
    · rw [hdigit] at hc
      cases hc
  rw [value.eq_def]
  split
  · next heq => cases heq
  · next heq =>
    cases heq
    split
    · next heq => exact absurd (List.cons.inj heq).1 (hne _ (by decide) (by decide))
    · next heq => exact absurd (List.cons.inj heq).1 (hne _ (by decide) (by decide))
    · next heq => exact absurd (List.cons.inj heq).1 (hne _ (by decide) (by decide))
    · next heq => exact absurd (List.cons.inj heq).1 (hne _ (by decide) (by decide))
    · next heq => exact absurd (List.cons.inj heq).1 (hne _ (by decide) (by decide))
    · next heq => exact absurd (List.cons.inj heq).1 (hne _ (by decide) (by decide))
    · exact h

/-- No value begins with a blank or with the end of an array. -/
theorem head_of_value {fuel : Nat} {s : List Char} {p : Json × List Char}
    (h : value fuel s = some p) :
    ∃ c cs, s = c :: cs ∧ isSpace c = false ∧ c ≠ ']' := by
  rw [value.eq_def] at h
  split at h
  · cases h
  · split at h
    · exact ⟨_, _, rfl, by decide, by decide⟩
    · exact ⟨_, _, rfl, by decide, by decide⟩
    · exact ⟨_, _, rfl, by decide, by decide⟩
    · exact ⟨_, _, rfl, by decide, by decide⟩
    · exact ⟨_, _, rfl, by decide, by decide⟩
    · exact ⟨_, _, rfl, by decide, by decide⟩
    · obtain ⟨c, cs, rfl, hc⟩ := head_of_number h
      refine ⟨c, cs, rfl, ?_⟩
      rcases hc with rfl | hc
      · exact ⟨by decide, by decide⟩
      · have hne (d : Char) (hdigit : d.isDigit = false) : c ≠ d := by
          rintro rfl
          rw [hdigit] at hc
          cases hc
        refine ⟨?_, hne _ (by decide)⟩
        simp [isSpace, hne ' ' (by decide), hne '\t' (by decide), hne '\n' (by decide),
          hne '\r' (by decide)]

variable {j : Json} {cs : List Char}

theorem ReadsBack.head (hj : ReadsBack cs j) :
    ∃ c ds, cs = c :: ds ∧ isSpace c = false ∧ c ≠ ']' := by
  have hvalue := hj _ [] EndsNumber.nil (Nat.le_refl _)
  rw [List.append_nil] at hvalue
  exact head_of_value hvalue

/-! ## Blanks between the parts -/

/-- Nothing but blanks. -/
def Spaces (w : List Char) : Prop := ∀ c ∈ w, isSpace c = true

variable {w : List Char}

theorem Spaces.nil : Spaces [] := List.forall_mem_nil _

theorem Spaces.skipSpace_append (hw : Spaces w) (r : List Char) :
    skipSpace (w ++ r) = skipSpace r := List.dropWhile_append_of_pos hw

/-- No number goes on with a blank. -/
theorem Spaces.endsNumber (hw : Spaces w) {r : List Char} (hr : EndsNumber r) :
    EndsNumber (w ++ r) := by
  cases w with
  | nil => exact hr
  | cons c w =>
    have hc : ((c = ' ' ∨ c = '\t') ∨ c = '\n') ∨ c = '\r' := by
      simpa [isSpace] using hw c List.mem_cons_self
    rcases hc with ((rfl | rfl) | rfl) | rfl
    · exact EndsNumber.cons (by decide) (by decide) (by decide) (by decide)
    · exact EndsNumber.cons (by decide) (by decide) (by decide) (by decide)
    · exact EndsNumber.cons (by decide) (by decide) (by decide) (by decide)
    · exact EndsNumber.cons (by decide) (by decide) (by decide) (by decide)

theorem ReadsBack.skipSpace (hj : ReadsBack cs j) (hw : Spaces w) (r : List Char) :
    skipSpace (w ++ (cs ++ r)) = cs ++ r := by
  obtain ⟨c, ds, hcs, hspace, -⟩ := hj.head
  rw [hw.skipSpace_append, hcs, List.cons_append, Parser.skipSpace,
    List.dropWhile_cons_of_neg (by simp [hspace])]

/-! ## Scalars -/

/-- A text that is read by one call is read by more of them. -/
theorem readsBack_of_value (hne : cs ≠ [])
    (h : ∀ fuel r, EndsNumber r → value (fuel + 1) (cs ++ r) = some (j, r)) : ReadsBack cs j := by
  intro fuel r hr hfuel
  have hpos : 0 < cs.length := List.length_pos_iff.2 hne
  obtain ⟨n, rfl⟩ : ∃ n, fuel = n + 1 := ⟨fuel - 1, by omega⟩
  exact h n r hr

theorem readsBack_null : ReadsBack ['n', 'u', 'l', 'l'] .null :=
  readsBack_of_value (by decide) fun _ _ _ => rfl

theorem readsBack_bool (b : Bool) : ReadsBack (scalar (.bool b)) (.bool b) := by
  cases b with
  | false => exact readsBack_of_value (List.cons_ne_nil _ _) fun _ _ _ => rfl
  | true => exact readsBack_of_value (List.cons_ne_nil _ _) fun _ _ _ => rfl

theorem readsBack_int {n : Int} (hlow : -2 ^ 63 ≤ n) (hhigh : n < 2 ^ 64) :
    ReadsBack (integer n) (.int n) := by
  refine readsBack_of_value ?_ fun fuel r hr => ?_
  · rw [integer]
    split
    · exact List.cons_ne_nil _ _
    · exact Nat.toDigits_ne_nil
  · exact value_of_number (number_integer hlow hhigh hr) fuel

theorem readsBack_real {x : Float} (hx : x.isFinite = true) :
    ReadsBack (Printer.real x) (.real x) := by
  refine readsBack_of_value ?_ fun fuel r hr => ?_
  · intro hnil
    have hread := number_real hx EndsNumber.nil
    rw [hnil] at hread
    cases hread
  · exact value_of_number (number_real hx hr) fuel

theorem readsBack_string (s : String) : ReadsBack (quoted s) (.string s) := by
  refine readsBack_of_value (List.cons_ne_nil _ _) fun fuel r hr => ?_
  have hread : value (fuel + 1) ('"' :: (s.toList.flatMap escape ++ '"' :: r)) =
      (text (s.toList.flatMap escape ++ '"' :: r)).map
        fun x => (x.1.elim .unreadable .string, x.2) := rfl
  rw [quoted, List.cons_append, List.append_assoc]
  exact hread.trans (by rw [text_flatMap_escape]; rfl)

/-! ## Arrays -/

/-- A text of items after the first one, up to the closing bracket. -/
inductive ReadsItems : List Char → List Json → Prop
  | nil {w : List Char} (hw : Spaces w) : ReadsItems (w ++ [']']) []
  | cons {w cs ts : List Char} {j : Json} {js : List Json} (hw : Spaces w) (hj : ReadsBack cs j)
    (h : ReadsItems ts js) : ReadsItems (',' :: (w ++ (cs ++ ts))) (j :: js)

theorem ReadsItems.endsNumber {ts : List Char} {js : List Json} (h : ReadsItems ts js)
    (r : List Char) : EndsNumber (ts ++ r) := by
  cases h with
  | nil hw =>
    rw [List.append_assoc]
    exact hw.endsNumber (EndsNumber.cons (by decide) (by decide) (by decide) (by decide))
  | cons hw hj h => exact EndsNumber.cons (by decide) (by decide) (by decide) (by decide)

section Items

variable {n : Nat} {s r t : List Char}

theorem items_last (hvalue : value n s = some (j, r)) (hskip : skipSpace r = ']' :: t) :
    Parser.items (n + 1) s = some ([j], t) := by
  rw [Parser.items, hvalue]
  simp only [Option.bind_eq_bind, Option.bind_some, hskip]
  rfl

theorem items_next (hvalue : value n s = some (j, r)) (hskip : skipSpace r = ',' :: t) :
    Parser.items (n + 1) s = (Parser.items n (skipSpace t)).bind fun x => some (j :: x.1, x.2) := by
  rw [Parser.items, hvalue]
  simp only [Option.bind_eq_bind, Option.bind_some, hskip]
  rfl

/-- What does not close the array at once are its items. -/
theorem value_bracket {c : Char} {cs : List Char} (hs : skipSpace s = c :: cs) (hc : c ≠ ']') :
    value (n + 1) ('[' :: s) = (Parser.items n (c :: cs)).map fun x => (.array x.1, x.2) := by
  rw [Parser.value, hs]
  split
  · next heq => exact absurd (List.cons.inj heq).1 hc
  · rfl

end Items

theorem items_of_readsItems {ts : List Char} {js : List Json} (hj : ReadsBack cs j)
    (h : ReadsItems ts js) {fuel : Nat} {r : List Char}
    (hfuel : 2 * (cs ++ ts).length + 1 ≤ fuel) :
    Parser.items fuel (cs ++ (ts ++ r)) = some (j :: js, r) := by
  induction h generalizing cs j fuel with
  | @nil w hw =>
    obtain ⟨n, rfl⟩ : ∃ n, fuel = n + 1 := ⟨fuel - 1, by omega⟩
    rw [List.length_append] at hfuel
    have hskip : skipSpace (w ++ [']'] ++ r) = ']' :: r := by
      rw [List.append_assoc, hw.skipSpace_append]
      rfl
    exact items_last (hj n _ ((ReadsItems.nil hw).endsNumber r) (by omega)) hskip
  | @cons w ds ts k ks hw hk h ih =>
    obtain ⟨n, rfl⟩ : ∃ n, fuel = n + 1 := ⟨fuel - 1, by omega⟩
    rw [List.length_append, List.length_cons, List.length_append] at hfuel
    have htail : Parser.items n (ds ++ (ts ++ r)) = some (k :: ks, r) := ih hk (by omega)
    have hskip : skipSpace (',' :: (w ++ (ds ++ ts)) ++ r) = ',' :: (w ++ (ds ++ (ts ++ r))) := by
      rw [List.cons_append, List.append_assoc, List.append_assoc]
      rfl
    rw [items_next (hj n _ ((ReadsItems.cons hw hk h).endsNumber r) (by omega)) hskip,
      hk.skipSpace hw, htail, Option.bind_some]

theorem readsBack_array_nil : ReadsBack ['[', ']'] (.array []) :=
  readsBack_of_value (by decide) fun _ _ _ => rfl

theorem readsBack_array_cons {ts : List Char} {js : List Json} (hw : Spaces w)
    (hj : ReadsBack cs j) (h : ReadsItems ts js) :
    ReadsBack ('[' :: (w ++ (cs ++ ts))) (.array (j :: js)) := by
  intro fuel r hr hfuel
  rw [List.length_cons, List.length_append] at hfuel
  obtain ⟨n, rfl⟩ : ∃ n, fuel = n + 1 := ⟨fuel - 1, by omega⟩
  have hitems : Parser.items n (cs ++ (ts ++ r)) = some (j :: js, r) :=
    items_of_readsItems hj h (by omega)
  have hskip := hj.skipSpace hw (ts ++ r)
  obtain ⟨c, ds, rfl, -, hclose⟩ := hj.head
  rw [List.cons_append, List.append_assoc, List.append_assoc, value_bracket hskip hclose]
  exact congrArg (Option.map _) hitems

/-! ## Objects -/

/-- A text of fields after the first one, up to the closing brace. -/
inductive ReadsFields : List Char → List (String × Json) → Prop
  | nil {w : List Char} (hw : Spaces w) : ReadsFields (w ++ ['\x7d']) []
  | cons {v w cs ts : List Char} {name : String} {j : Json} {fs : List (String × Json)}
    (hv : Spaces v) (hw : Spaces w) (hj : ReadsBack cs j) (h : ReadsFields ts fs) :
    ReadsFields (',' :: (v ++ (quoted name ++ ':' :: (w ++ (cs ++ ts))))) ((name, j) :: fs)

theorem ReadsFields.endsNumber {ts : List Char} {fs : List (String × Json)}
    (h : ReadsFields ts fs) (r : List Char) : EndsNumber (ts ++ r) := by
  cases h with
  | nil hw =>
    rw [List.append_assoc]
    exact hw.endsNumber (EndsNumber.cons (by decide) (by decide) (by decide) (by decide))
  | cons hv hw hj h => exact EndsNumber.cons (by decide) (by decide) (by decide) (by decide)

section Members

variable {n : Nat} {s t r u : List Char} {k : Option String}

theorem members_last (htext : text s = some (k, ':' :: t))
    (hvalue : value n (skipSpace t) = some (j, r)) (hskip : skipSpace r = '\x7d' :: u) :
    members (n + 1) ('"' :: s) = some ([(k, j)], u) := by
  have hcolon : skipSpace (':' :: t) = ':' :: t := rfl
  rw [Parser.members]
  simp only [htext, hcolon, hvalue, hskip, Option.bind_eq_bind, Option.bind_some]
  rfl

theorem members_next (htext : text s = some (k, ':' :: t))
    (hvalue : value n (skipSpace t) = some (j, r)) (hskip : skipSpace r = ',' :: u) :
    members (n + 1) ('"' :: s) =
      (members n (skipSpace u)).bind fun x => some ((k, j) :: x.1, x.2) := by
  have hcolon : skipSpace (':' :: t) = ':' :: t := rfl
  rw [Parser.members]
  simp only [htext, hcolon, hvalue, hskip, Option.bind_eq_bind, Option.bind_some]
  rfl

/-- What starts with a quote are the fields of an object. -/
theorem value_brace (hs : skipSpace s = '"' :: t) :
    value (n + 1) ('\x7b' :: s) = (members n ('"' :: t)).map fun x => (objectOf x.1, x.2) := by
  rw [Parser.value, hs]
  rfl

end Members

theorem quoted_append (name : String) (r : List Char) :
    quoted name ++ r = '"' :: (name.toList.flatMap escape ++ '"' :: r) := by
  rw [quoted, List.cons_append, List.append_assoc, List.singleton_append]

theorem Spaces.skipSpace_quoted (hw : Spaces w) (name : String) (r : List Char) :
    skipSpace (w ++ (quoted name ++ r)) = '"' :: (name.toList.flatMap escape ++ '"' :: r) := by
  rw [hw.skipSpace_append, quoted_append]
  rfl

theorem members_of_readsFields {ts : List Char} {fs : List (String × Json)} {name : String}
    (hw : Spaces w) (hj : ReadsBack cs j) (h : ReadsFields ts fs) {fuel : Nat} {r : List Char}
    (hfuel : 2 * (cs ++ ts).length + 2 ≤ fuel) :
    members fuel ('"' :: (name.toList.flatMap escape ++ '"' :: ':' :: (w ++ (cs ++ (ts ++ r))))) =
      some (((name, j) :: fs).map fun f => (some f.1, f.2), r) := by
  induction h generalizing w cs j name fuel with
  | @nil v hv =>
    obtain ⟨n, rfl⟩ : ∃ n, fuel = n + 1 := ⟨fuel - 1, by omega⟩
    rw [List.length_append] at hfuel
    have hvalue := hj n _ ((ReadsFields.nil hv).endsNumber r) (by omega)
    rw [← hj.skipSpace hw] at hvalue
    have hskip : skipSpace (v ++ ['\x7d'] ++ r) = '\x7d' :: r := by
      rw [List.append_assoc, hv.skipSpace_append]
      rfl
    exact members_last (text_flatMap_escape _ _) hvalue hskip
  | @cons v v' ds ts k i fs hv hv' hi h ih =>
    obtain ⟨n, rfl⟩ : ∃ n, fuel = n + 1 := ⟨fuel - 1, by omega⟩
    have hends := (@ReadsFields.cons v v' ds ts k i fs hv hv' hi h).endsNumber r
    rw [List.length_append, List.length_cons, List.length_append, List.length_append,
      List.length_cons, List.length_append] at hfuel
    have hvalue := hj n _ hends (by omega)
    rw [← hj.skipSpace hw] at hvalue
    have hskip : skipSpace (',' :: (v ++ (quoted k ++ ':' :: (v' ++ (ds ++ ts)))) ++ r) =
        ',' :: (v ++ (quoted k ++ ':' :: (v' ++ (ds ++ (ts ++ r))))) := by
      simp only [List.cons_append, List.append_assoc]
      rfl
    rw [members_next (text_flatMap_escape _ _) hvalue hskip, hv.skipSpace_quoted,
      ih hv' hi (by omega), Option.bind_some, List.map_cons, List.map_cons, List.map_cons]

theorem objectOf_eq (fields : List (Option String × Json)) :
    objectOf fields = (fields.mapM fun (f : Option String × Json) =>
      f.1.map fun name => (name, f.2)).elim .unreadable .object := by
  rw [objectOf]
  split
  · next fs hfs => exact (congrArg (fun x => Option.elim x unreadable object) hfs).symm
  · next hnone => exact (congrArg (fun x => Option.elim x unreadable object) hnone).symm

theorem objectOf_map (fs : List (String × Json)) :
    objectOf (fs.map fun f => (some f.1, f.2)) = .object fs := by
  have hnames : (fs.map fun f => (some f.1, f.2)).mapM
      (fun (f : Option String × Json) => f.1.map fun name => (name, f.2)) = some fs := by
    induction fs with
    | nil => rfl
    | cons f fs ih =>
      rw [List.map_cons, List.mapM_cons, ih]
      rfl
  rw [objectOf_eq, hnames, Option.elim_some]

theorem readsBack_object_nil : ReadsBack ['\x7b', '\x7d'] (.object []) :=
  readsBack_of_value (by decide) fun _ _ _ => rfl

theorem readsBack_object_cons {v ts : List Char} {fs : List (String × Json)} {name : String}
    (hv : Spaces v) (hw : Spaces w) (hj : ReadsBack cs j) (h : ReadsFields ts fs) :
    ReadsBack ('\x7b' :: (v ++ (quoted name ++ ':' :: (w ++ (cs ++ ts)))))
      (.object ((name, j) :: fs)) := by
  intro fuel r hr hfuel
  rw [List.length_cons, List.length_append, List.length_append, List.length_cons,
    List.length_append] at hfuel
  obtain ⟨n, rfl⟩ : ∃ n, fuel = n + 1 := ⟨fuel - 1, by omega⟩
  have hmembers : members n
      ('"' :: (name.toList.flatMap escape ++ '"' :: ':' :: (w ++ (cs ++ (ts ++ r))))) = _ :=
    members_of_readsFields hw hj h (by omega)
  have hskip := hv.skipSpace_quoted name (':' :: (w ++ (cs ++ (ts ++ r))))
  simp only [List.cons_append, List.append_assoc]
  rw [value_brace hskip, hmembers, Option.map_some, objectOf_map]

/-! ## All values -/

theorem itemsPrintable_iff {js : List Json} :
    itemsPrintable js = true ↔ ∀ j ∈ js, j.printable = true := by
  induction js with
  | nil => simp [itemsPrintable]
  | cons j js ih => rw [itemsPrintable, Bool.and_eq_true, ih, List.forall_mem_cons]

theorem fieldsPrintable_iff {fs : List (String × Json)} :
    fieldsPrintable fs = true ↔ ∀ f ∈ fs, f.2.printable = true := by
  induction fs with
  | nil => simp [fieldsPrintable]
  | cons f fs ih => rw [fieldsPrintable, Bool.and_eq_true, ih, List.forall_mem_cons]

mutual

theorem hasContent_of_printable : ∀ j : Json, j.printable = true → j.hasContent = true
  | .null, _ => rfl
  | .bool _, _ => rfl
  | .int _, _ => rfl
  | .real _, _ => rfl
  | .string _, _ => rfl
  | .array js, h => haveContent_of_itemsPrintable js h
  | .object fs, h => fieldsHaveContent_of_fieldsPrintable fs h
  | .unreadable, h => by cases h

theorem haveContent_of_itemsPrintable : ∀ js : List Json, itemsPrintable js = true →
    haveContent js = true
  | [], _ => rfl
  | j :: js, h => by
    rw [itemsPrintable, Bool.and_eq_true] at h
    rw [haveContent, hasContent_of_printable j h.1, haveContent_of_itemsPrintable js h.2,
      Bool.and_self]

theorem fieldsHaveContent_of_fieldsPrintable : ∀ fs : List (String × Json),
    fieldsPrintable fs = true → fieldsHaveContent fs = true
  | [], _ => rfl
  | (_, j) :: fs, h => by
    rw [fieldsPrintable, Bool.and_eq_true] at h
    rw [fieldsHaveContent, hasContent_of_printable j h.1,
      fieldsHaveContent_of_fieldsPrintable fs h.2, Bool.and_self]

end

/-! ## The text on one line -/

mutual

theorem readsBack_compact : ∀ j : Json, j.printable = true → ReadsBack (compactChars j) j
  | .null, _ => readsBack_null
  | .bool b, _ => readsBack_bool b
  | .int n, h => by
    rw [printable, Bool.and_eq_true, decide_eq_true_eq, decide_eq_true_eq] at h
    exact readsBack_int h.1 h.2
  | .real _, h => readsBack_real h
  | .string s, _ => readsBack_string s
  | .array [], _ => readsBack_array_nil
  | .array (j :: js), h => by
    rw [printable, itemsPrintable, Bool.and_eq_true] at h
    exact readsBack_array_cons Spaces.nil (readsBack_compact j h.1) (readsItems_compact js h.2)
  | .object [], _ => readsBack_object_nil
  | .object ((_, j) :: fs), h => by
    rw [printable, fieldsPrintable, Bool.and_eq_true] at h
    exact readsBack_object_cons Spaces.nil Spaces.nil (readsBack_compact j h.1)
      (readsFields_compact fs h.2)
  | .unreadable, h => by cases h

theorem readsItems_compact : ∀ js : List Json, itemsPrintable js = true →
    ReadsItems (compactItems js) js
  | [], _ => ReadsItems.nil Spaces.nil
  | j :: js, h => by
    rw [itemsPrintable, Bool.and_eq_true] at h
    exact ReadsItems.cons Spaces.nil (readsBack_compact j h.1) (readsItems_compact js h.2)

theorem readsFields_compact : ∀ fs : List (String × Json), fieldsPrintable fs = true →
    ReadsFields (compactFields fs) fs
  | [], _ => ReadsFields.nil Spaces.nil
  | (_, j) :: fs, h => by
    rw [fieldsPrintable, Bool.and_eq_true] at h
    exact ReadsFields.cons Spaces.nil Spaces.nil (readsBack_compact j h.1)
      (readsFields_compact fs h.2)

end

/-! ## The text over several lines -/

theorem spaces_newLine (depth : Nat) : Spaces (newLine depth) := by
  rw [Spaces, newLine, List.forall_mem_cons]
  refine ⟨by decide, fun c hc => ?_⟩
  rw [List.eq_of_mem_replicate hc]
  decide

theorem spaces_blank : Spaces [' '] := by
  rw [Spaces, List.forall_mem_singleton]
  decide

mutual

theorem readsBack_pretty : ∀ (depth : Nat) (j : Json), j.printable = true →
    ReadsBack (prettyChars depth j) j
  | _, .null, _ => readsBack_null
  | _, .bool b, _ => readsBack_bool b
  | _, .int n, h => by
    rw [printable, Bool.and_eq_true, decide_eq_true_eq, decide_eq_true_eq] at h
    exact readsBack_int h.1 h.2
  | _, .real _, h => readsBack_real h
  | _, .string s, _ => readsBack_string s
  | _, .array [], _ => readsBack_array_nil
  | depth, .array (j :: js), h => by
    rw [printable, itemsPrintable, Bool.and_eq_true] at h
    rw [prettyChars, List.append_assoc]
    exact readsBack_array_cons (spaces_newLine (depth + 1)) (readsBack_pretty (depth + 1) j h.1)
      (readsItems_pretty depth js h.2)
  | _, .object [], _ => readsBack_object_nil
  | depth, .object ((_, j) :: fs), h => by
    rw [printable, fieldsPrintable, Bool.and_eq_true] at h
    rw [prettyChars, List.append_assoc, ← List.singleton_append (x := ' ')]
    exact readsBack_object_cons (spaces_newLine (depth + 1)) spaces_blank
      (readsBack_pretty (depth + 1) j h.1) (readsFields_pretty depth fs h.2)
  | _, .unreadable, h => by cases h

theorem readsItems_pretty : ∀ (depth : Nat) (js : List Json), itemsPrintable js = true →
    ReadsItems (prettyItems depth js) js
  | depth, [], _ => ReadsItems.nil (spaces_newLine depth)
  | depth, j :: js, h => by
    rw [itemsPrintable, Bool.and_eq_true] at h
    rw [prettyItems, List.append_assoc]
    exact ReadsItems.cons (spaces_newLine (depth + 1)) (readsBack_pretty (depth + 1) j h.1)
      (readsItems_pretty depth js h.2)

theorem readsFields_pretty : ∀ (depth : Nat) (fs : List (String × Json)),
    fieldsPrintable fs = true → ReadsFields (prettyFields depth fs) fs
  | depth, [], _ => ReadsFields.nil (spaces_newLine depth)
  | depth, (_, j) :: fs, h => by
    rw [fieldsPrintable, Bool.and_eq_true] at h
    rw [prettyFields, List.append_assoc, ← List.singleton_append (x := ' ')]
    exact ReadsFields.cons (spaces_newLine (depth + 1)) spaces_blank
      (readsBack_pretty (depth + 1) j h.1) (readsFields_pretty depth fs h.2)

end

theorem ReadsBack.parse (hj : ReadsBack cs j) : parse (String.ofList cs) = some j := by
  have hread := hj (2 * cs.length + 2) [] EndsNumber.nil (by omega)
  have hskip := hj.skipSpace Spaces.nil []
  rw [List.append_nil] at hread hskip
  rw [List.nil_append] at hskip
  rw [Json.parse, String.toList_ofList, hskip, hread]
  rfl

/-- The text of a printable value spells that value. -/
theorem parse_compact (h : j.printable = true) : parse j.compact = some j :=
  (readsBack_compact j h).parse

/-- So does its text over several lines. -/
theorem parse_pretty (h : j.printable = true) : parse j.pretty = some j :=
  (readsBack_pretty 0 j h).parse

end ClauseTree.Json
