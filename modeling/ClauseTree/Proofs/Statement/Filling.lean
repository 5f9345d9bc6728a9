import ClauseTree.Statement.Basic
import ClauseTree.Identifier

/-!
# Filling placeholders

`Fills s cs ts out s'` says that the texts `ts` in the place of the placeholders of `cs` give
`out`, where the scan comes to `cs` in the state `s` and leaves it in the state `s'`. Texts
that follow each other are filled one by one. A statement is filled piece by piece in this way
as soon as each of its pieces closes the quotes that it opens.
-/

namespace ClauseTree.Placeholder

theorem splice?_cons_placeholder {s : State} {c : Char} (h : isPlaceholder s c = true)
    (cs t : List Char) (ts : List (List Char)) :
    splice? s (c :: cs) (t :: ts) = (splice? (s.next c) cs ts).map (t ++ ·) := by
  rw [splice?, if_pos h]

theorem splice?_cons_other {s : State} {c : Char} (h : ¬ isPlaceholder s c = true)
    (cs : List Char) (ts : List (List Char)) :
    splice? s (c :: cs) ts = (splice? (s.next c) cs ts).map (c :: ·) := by
  cases ts <;> rw [splice?, if_neg h]

/-- As many texts as there are placeholders always fit. -/
theorem splice?_eq_some_of_count {s : State} {cs : List Char} {ts : List (List Char)}
    (h : count s cs = ts.length) : ∃ out, splice? s cs ts = some out := by
  induction cs generalizing s ts with
  | nil =>
    have hts : ts = [] := List.length_eq_zero_iff.1 h.symm
    rw [hts]
    exact ⟨[], rfl⟩
  | cons c cs ih =>
    rw [count] at h
    by_cases hc : isPlaceholder s c = true
    · rw [if_pos hc] at h
      cases ts with
      | nil =>
        rw [List.length_nil] at h
        omega
      | cons t ts =>
        rw [List.length_cons] at h
        have hcount : count (s.next c) cs = ts.length := by omega
        obtain ⟨out, hout⟩ := ih hcount
        rw [splice?_cons_placeholder hc, hout]
        exact ⟨t ++ out, rfl⟩
    · rw [if_neg hc, Nat.zero_add] at h
      obtain ⟨out, hout⟩ := ih h
      rw [splice?_cons_other hc, hout]
      exact ⟨c :: out, rfl⟩

theorem count_of_splice? {s : State} {cs out : List Char} {ts : List (List Char)}
    (h : splice? s cs ts = some out) : count s cs = ts.length := by
  induction cs generalizing s ts out with
  | nil =>
    cases ts with
    | nil => rfl
    | cons t ts => cases h
  | cons c cs ih =>
    rw [count]
    by_cases hc : isPlaceholder s c = true
    · cases ts with
      | nil =>
        rw [splice?, if_pos hc] at h
        cases h
      | cons t ts =>
        rw [splice?_cons_placeholder hc, Option.map_eq_some_iff] at h
        obtain ⟨rest, hrest, -⟩ := h
        rw [if_pos hc, ih hrest, List.length_cons, Nat.add_comm]
    · rw [splice?_cons_other hc, Option.map_eq_some_iff] at h
      obtain ⟨rest, hrest, -⟩ := h
      rw [if_neg hc, ih hrest, Nat.zero_add]

/-- Texts can be put in exactly if there are as many of them as placeholders. -/
theorem isSome_splice?_iff {s : State} {cs : List Char} {ts : List (List Char)} :
    (splice? s cs ts).isSome = true ↔ count s cs = ts.length := by
  rw [Option.isSome_iff_exists]
  exact ⟨fun ⟨_, h⟩ => count_of_splice? h, splice?_eq_some_of_count⟩

/-- Only of an empty text nothing is left, unless a text put in is empty. -/
theorem splice?_eq_nil_iff {s : State} {cs out : List Char} {ts : List (List Char)}
    (hts : [] ∉ ts) (h : splice? s cs ts = some out) : out = [] ↔ cs = [] := by
  cases cs with
  | nil =>
    cases ts with
    | nil =>
      cases h
      rfl
    | cons t ts => cases h
  | cons c cs =>
    refine ⟨fun hout => ?_, fun hcs => nomatch hcs⟩
    rw [hout] at h
    by_cases hc : isPlaceholder s c = true
    · cases ts with
      | nil =>
        rw [splice?, if_pos hc] at h
        cases h
      | cons t ts =>
        rw [splice?_cons_placeholder hc, Option.map_eq_some_iff] at h
        obtain ⟨rest, -, hrest⟩ := h
        have ht : t = [] := (List.append_eq_nil_iff.1 hrest).1
        exact absurd List.mem_cons_self (ht ▸ hts)
    · rw [splice?_cons_other hc, Option.map_eq_some_iff] at h
      obtain ⟨rest, -, hrest⟩ := h
      cases hrest

/-- From `s` to `s'`, the placeholders of `cs` are filled with `ts`, which gives `out`. -/
structure Fills (s : State) (cs : List Char) (ts : List (List Char)) (out : List Char)
    (s' : State) : Prop where
  run : s.run cs = s'
  splice : splice? s cs ts = some out

namespace Fills

theorem nil (s : State) : Fills s [] [] [] s := ⟨rfl, rfl⟩

/-- A placeholder in front takes the first text. -/
theorem cons_placeholder {s s' : State} {c : Char} {cs t out : List Char} {ts : List (List Char)}
    (hc : isPlaceholder s c = true) (h : Fills (s.next c) cs ts out s') :
    Fills s (c :: cs) (t :: ts) (t ++ out) s' := by
  refine ⟨h.run, ?_⟩
  rw [splice?_cons_placeholder hc, h.splice, Option.map_some]

/-- Any other character in front stays. -/
theorem cons_other {s s' : State} {c : Char} {cs out : List Char} {ts : List (List Char)}
    (hc : ¬ isPlaceholder s c = true) (h : Fills (s.next c) cs ts out s') :
    Fills s (c :: cs) ts (c :: out) s' := by
  refine ⟨h.run, ?_⟩
  rw [splice?_cons_other hc, h.splice, Option.map_some]

theorem append {s s' s'' : State} {cs ds out out' : List Char} {ts us : List (List Char)}
    (h : Fills s cs ts out s') (h' : Fills s' ds us out' s'') :
    Fills s (cs ++ ds) (ts ++ us) (out ++ out') s'' := by
  induction cs generalizing s ts out with
  | nil =>
    obtain ⟨hrun, hsplice⟩ := h
    cases ts with
    | nil =>
      cases hrun
      cases hsplice
      exact h'
    | cons t ts => cases hsplice
  | cons c cs ih =>
    obtain ⟨hrun, hsplice⟩ := h
    by_cases hc : isPlaceholder s c = true
    · cases ts with
      | nil =>
        rw [splice?, if_pos hc] at hsplice
        cases hsplice
      | cons t ts =>
        rw [splice?_cons_placeholder hc, Option.map_eq_some_iff] at hsplice
        obtain ⟨rest, hrest, hout⟩ := hsplice
        rw [← hout, List.append_assoc]
        exact cons_placeholder hc (ih ⟨hrun, hrest⟩)
    · rw [splice?_cons_other hc, Option.map_eq_some_iff] at hsplice
      obtain ⟨rest, hrest, hout⟩ := hsplice
      rw [← hout]
      exact cons_other hc (ih ⟨hrun, hrest⟩)

/-- Parts that stay as they are. -/
theorem flatMap {α : Type} {s : State} {f : α → List Char} {as : List α}
    (h : ∀ a ∈ as, Fills s (f a) [] (f a) s) : Fills s (as.flatMap f) [] (as.flatMap f) s := by
  induction as with
  | nil => exact nil s
  | cons a as ih =>
    have ha : Fills s (f a) [] (f a) s := h a List.mem_cons_self
    have has := ih fun b hb => h b (List.mem_cons_of_mem a hb)
    exact ha.append has

end Fills

/-! ## Text without quotes -/

/-- The text has neither quotes nor placeholders. -/
def Quiet (cs : List Char) : Prop := ∀ c ∈ cs, isQuote c = false ∧ c ≠ '?'

instance (cs : List Char) : Decidable (Quiet cs) := List.decidableBAll _ cs

theorem Quiet.fills {cs : List Char} (h : Quiet cs) : Fills .outside cs [] cs .outside := by
  induction cs with
  | nil => exact Fills.nil .outside
  | cons c cs ih =>
    obtain ⟨hquote, hmark⟩ := h c List.mem_cons_self
    have hnext : State.outside.next c = .outside := by
      rw [State.next, hquote]
      rfl
    have hcs : Fills .outside cs [] cs .outside := ih fun d hd => h d (List.mem_cons_of_mem c hd)
    have hc : ¬ isPlaceholder .outside c = true := by simp [isPlaceholder, hmark]
    refine Fills.cons_other hc ?_
    rw [hnext]
    exact hcs

/-- The decimal digits of a number are quiet. -/
theorem quiet_toDigits (n : Nat) : Quiet (Nat.toDigits 10 n) := by
  intro c hc
  have hdigit : c.isDigit = true := Nat.isDigit_of_mem_toDigits (by decide) (by decide) hc
  have hne (d : Char) (hd : d.isDigit = false) : c ≠ d := by
    rintro rfl
    rw [hdigit] at hd
    cases hd
  refine ⟨?_, hne '?' (by decide)⟩
  simp [isQuote, hne '\x27' (by decide), hne '"' (by decide), hne '\x60' (by decide)]

/-! ## Quoted names -/

/-- A backslash of the text takes the quote with it: one that follows, or the one that closes. -/
def hidesQuote (quote : Char) : List Char → Bool
  | [] => false
  | [c] => c = '\\'
  | c :: d :: cs =>
    if c = '\\' then d = quote || hidesQuote quote cs else hidesQuote quote (d :: cs)

theorem hidesQuote_of_notMem {quote : Char} {cs : List Char} (h : '\\' ∉ cs) :
    hidesQuote quote cs = false := by
  fun_induction hidesQuote quote cs with
  | case1 => rfl
  | case2 c => simpa [eq_comm] using h
  | case3 d cs ih => simp at h
  | case4 c d cs hc ih => exact ih fun hmem => h (List.mem_cons_of_mem c hmem)

/-- A backslash takes the next character, which stays inside the quotes. -/
theorem fills_escaped (quote c : Char) :
    Fills (.inside quote false) ['\\', c] [] ['\\', c] (.inside quote false) :=
  Fills.cons_other (by simp [isPlaceholder])
    (Fills.cons_other (by simp [isPlaceholder, State.next]) (Fills.nil _))

section Quote

variable {quote : Char} (hquote : isQuote quote = true)
include hquote

theorem not_isPlaceholder_quote (s : State) : ¬ isPlaceholder s quote = true := by
  have hmark : quote ≠ '?' := by
    rintro rfl
    exact absurd hquote (by decide)
  simp [isPlaceholder, hmark]

theorem quote_ne_backslash : quote ≠ '\\' := by
  rintro rfl
  exact absurd hquote (by decide)

theorem next_outside_quote : State.outside.next quote = .inside quote false := by
  rw [State.next, if_pos hquote]

theorem next_inside_quote : (State.inside quote false).next quote = .outside := by
  rw [State.next, if_neg (quote_ne_backslash hquote), if_pos rfl]

/-- A doubled quote leaves the quotes and enters them again. -/
theorem fills_doubled {c : Char} (hc : c ≠ '\\') :
    Fills (.inside quote false) (if c = quote then [c, c] else [c]) []
      (if c = quote then [c, c] else [c]) (.inside quote false) := by
  by_cases heq : c = quote
  · rw [if_pos heq, heq]
    refine Fills.cons_other (not_isPlaceholder_quote hquote _) ?_
    rw [next_inside_quote hquote]
    refine Fills.cons_other (not_isPlaceholder_quote hquote _) ?_
    rw [next_outside_quote hquote]
    exact Fills.nil _
  · have hnext : (State.inside quote false).next c = .inside quote false := by
      rw [State.next, if_neg hc, if_neg heq]
    rw [if_neg heq]
    refine Fills.cons_other (by simp [isPlaceholder]) ?_
    rw [hnext]
    exact Fills.nil _

theorem fills_segment {segment : List Char} (h : hidesQuote quote segment = false) :
    Fills (.inside quote false) (segment.flatMap fun c => if c = quote then [c, c] else [c]) []
      (segment.flatMap fun c => if c = quote then [c, c] else [c]) (.inside quote false) := by
  have hback : '\\' ≠ quote := (quote_ne_backslash hquote).symm
  fun_induction hidesQuote quote segment with
  | case1 => exact Fills.nil _
  | case2 c =>
    rw [List.flatMap_cons]
    exact (fills_doubled hquote (by simpa using h)).append (Fills.nil _)
  | case3 d cs ih =>
    obtain ⟨hd, hcs⟩ : d ≠ quote ∧ hidesQuote quote cs = false := by simpa using h
    rw [List.flatMap_cons, List.flatMap_cons, if_neg hback, if_neg hd, ← List.append_assoc]
    exact (fills_escaped quote d).append (ih hcs)
  | case4 c d cs hc ih =>
    rw [List.flatMap_cons]
    exact (fills_doubled hquote hc).append (ih h)

/-- Quoted text in which no backslash hides a quote stays, and leaves the scan outside quotes. -/
theorem fills_quoteBetween {segment : List Char} (hsegment : hidesQuote quote segment = false) :
    Fills .outside (quoteBetween quote segment) [] (quoteBetween quote segment) .outside := by
  have hlast : Fills (.inside quote false) [quote] [] [quote] .outside := by
    refine Fills.cons_other (not_isPlaceholder_quote hquote _) ?_
    rw [next_inside_quote hquote]
    exact Fills.nil _
  rw [quoteBetween]
  split
  · next hstar =>
    rw [hstar]
    exact Quiet.fills (by decide)
  · refine Fills.cons_other (not_isPlaceholder_quote hquote _) ?_
    rw [next_outside_quote hquote]
    exact (fills_segment hquote hsegment).append hlast

end Quote

theorem fills_dotted {d : Dialect} (hd : d.quoteSegment = quoteBetween d.quote)
    (hquote : isQuote d.quote = true) {ss : List (List Char)}
    (hss : ∀ s ∈ ss, hidesQuote d.quote s = false) :
    Fills .outside (Identifier.dotted d ss) [] (Identifier.dotted d ss) .outside := by
  induction ss with
  | nil => exact Fills.nil .outside
  | cons s ss ih =>
    have hs : Fills .outside (d.quoteSegment s) [] (d.quoteSegment s) .outside := by
      rw [hd]
      exact fills_quoteBetween hquote (hss s List.mem_cons_self)
    have hrest := ih fun t ht => hss t (List.mem_cons_of_mem s ht)
    cases ss with
    | nil => exact hs
    | cons t ts => exact hs.append (Fills.cons_other (by decide) hrest)

/-- A name in which no backslash hides a quote stays, and leaves the scan outside quotes. -/
theorem fills_chars {d : Dialect} (hd : d.quoteSegment = quoteBetween d.quote)
    (hquote : isQuote d.quote = true) {i : Identifier}
    (hi : ∀ s ∈ i.name ++ i.alias?.getD [], hidesQuote d.quote s = false) :
    Fills .outside (i.chars d) [] (i.chars d) .outside := by
  have hname := fills_dotted hd hquote fun s hs => hi s (List.mem_append_left _ hs)
  rw [Identifier.chars]
  cases halias : i.alias? with
  | none => exact hname.append (Fills.nil .outside)
  | some ss =>
    rw [halias] at hi
    have hword : Fills .outside [' ', 'a', 's', ' '] [] [' ', 'a', 's', ' '] .outside :=
      Quiet.fills (by decide)
    have hss := fills_dotted hd hquote fun s hs => hi s (List.mem_append_right _ hs)
    exact hname.append (hword.append hss)

/-- A text without a backslash makes a name that stays and leaves the scan outside quotes. -/
theorem fills_identifier {d : Dialect} (hd : d.quoteSegment = quoteBetween d.quote)
    (hquote : isQuote d.quote = true) {cs : List Char} (hcs : '\\' ∉ cs) :
    Fills .outside ((Identifier.ofChars cs).chars d) [] ((Identifier.ofChars cs).chars d)
      .outside :=
  fills_chars hd hquote fun _ hs =>
    hidesQuote_of_notMem fun h => hcs (Identifier.mem_of_mem_ofChars hs h)

end ClauseTree.Placeholder
