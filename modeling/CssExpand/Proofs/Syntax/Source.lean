import CssExpand.Proofs.Syntax.Atom

/-!
# What a scan finds

The other half of reading written atoms: a lexeme that the scan cuts off a text is well-formed, and
the text after it does not prolong it (`next_found`). So of two lexemes that stand side by side in a
source, the first one stops where the second one starts. `Lexeme.meets` keeps of this what the
writer relies on: it lists the neighbours that no source has, and that the writer would not keep
apart either.

Of an identifier less is known than `IdentStopsAt` says. Its source may have had an escape that its
written form has not, and with the escape it stopped before texts that prolong it without.
-/

set_option autoImplicit false

namespace CssExpand.Syntax

/-! ## 1. Where names and numerals end -/

/-- Where a name starts, the reader of names takes a character at least. -/
theorem takeName_ne_nil {cs : List Char} (h : startsName cs) : (takeName cs).1 ≠ [] := by
  unfold takeName
  split
  · simp [startsName, startsEscape] at h
  · rename_i c rest
    split
    · rename_i hc
      subst hc
      split
      · rename_i hn
        have : isNameChar '\\' = false := by decide
        simp [startsName, hn, this] at h
      · simp
    · rename_i hc
      split
      · simp
      · rename_i hn
        have : startsEscape (c :: rest) = false := by
          unfold startsEscape
          split <;> simp_all
        simp [startsName, hn, this] at h

theorem takeName_subset (cs : List Char) : (takeName cs).2 ⊆ cs := by
  fun_induction takeName cs with
  | case1 => simp
  | case2 => simp
  | case3 rest =>
    rename_i ih
    exact List.subset_cons_of_subset _ (List.Subset.trans ih (mem_takeEscape rest).1)
  | case4 =>
    rename_i ih
    exact List.subset_cons_of_subset _ ih
  | case5 => simp

/-- What starts with a digit, or with a sign or point and a figure, is a numeral. -/
theorem of_read?_none {c : Char} {cs : List Char} (h : Numeral.read? (c :: cs) = none) :
    c.isDigit = false ∧ (c = '.' → ∀ d ∈ cs.head?, d.isDigit = false) ∧
      (c = '+' ∨ c = '-' → startsFigure cs = false) := by
  -- A figure behind the sign would have given the numeral a digit.
  have key : ∀ s ds, takeSign (c :: cs) = (s, ds) → startsFigure ds = false := by
    intro s ds hs
    simp only [Numeral.read?, hs] at h
    split at h
    · rename_i hc
      simp only [Bool.and_eq_true, List.isEmpty_iff, Option.isNone_iff_eq_none] at hc
      unfold startsFigure
      split
      · rename_i d r
        have hdot : ('.' : Char).isDigit = false := by decide
        have h2 := hc.2
        simp only [List.dropWhile_cons, hdot, Bool.false_eq_true, if_false, takeFraction] at h2
        split at h2
        · rename_i hd
          by_contra hx
          simp [hx] at hd
        · simp at h2
      · rename_i d r _
        by_contra hx
        simp [hx] at hc
      · rfl
    · simp at h
  by_cases h1 : c = '+'
  · subst h1
    exact ⟨by decide, by simp, fun _ => key _ _ rfl⟩
  · by_cases h2 : c = '-'
    · subst h2
      exact ⟨by decide, by simp, fun _ => key _ _ rfl⟩
    · have hfig := key none (c :: cs) (by simp [takeSign, h1, h2])
      refine ⟨?_, ?_, by simp [h1, h2]⟩
      · unfold startsFigure at hfig
        split at hfig
        · rename_i heq
          rw [(List.cons.inj heq).1]
          decide
        · rename_i heq
          rw [(List.cons.inj heq).1]
          exact hfig
        · simp_all
      · rintro rfl d hd
        cases cs with
        | nil => simp at hd
        | cons e r =>
          obtain rfl : e = d := by simpa using hd
          simpa [startsFigure] using hfig

/-! ## 2. Lexemes -/

/-- A lexeme as the scan makes them where nothing is wrong with the source. -/
def Lexeme.WellFormed : Lexeme → Prop
  | .atom a => a.WellFormed
  | .openFunction name => name ≠ [] ∧ '\x00' ∉ name
  | .openBlock _ | .close _ => True

/-- Whether a lexeme is a fault. -/
def Lexeme.isFault : Lexeme → Bool
  | .atom (.fault _) => true
  | _ => false

/-- What is known of the text after a lexeme in a source. -/
def Lexeme.FoundBefore : Lexeme → List Char → Prop
  | .atom (.whitespace _), cs => ∀ c ∈ cs.head?, isWhitespace c = false
  | .atom (.literal [c]), cs => LiteralStopsAt c cs
  | .atom (.number n), cs => NumberStopsAt n cs
  | .openFunction name, cs => Text.asciiLower name = ['u', 'r', 'l'] → startsQuoted cs
  | _, _ => True

/-- One step of the scan finds the lexeme `l` at the start of the text `cs`. -/
structure Found (l : Lexeme) (cs rest : List Char) : Prop where
  wellFormed : l.WellFormed
  before : l.FoundBefore rest
  subset : rest ⊆ cs
  whitespace : ∀ text, l = .atom (.whitespace text) → text <+: cs
  literal : ∀ text, l = .atom (.literal text) → text <+: cs

/-! ## 3. One step -/

theorem takeString_subset (quote : Char) (cs : List Char) : (takeString quote cs).rest ⊆ cs := by
  fun_induction takeString quote cs with
  | case1 => simp
  | case2 => simp
  | case3 => simp
  | case4 rest' _ ih =>
    exact List.subset_cons_of_subset _ (List.subset_cons_of_subset _ ih)
  | case5 d rest' _ _ ih =>
    exact List.subset_cons_of_subset _ (List.Subset.trans ih (mem_takeEscape (d :: rest')).1)
  | case6 => simp
  | case7 c rest _ _ _ ih => exact List.subset_cons_of_subset _ ih

/-- A reader leaves no character that was not in the text. -/
theorem takeUrl_subset (cs : List Char) : (takeUrl cs).rest ⊆ cs := by
  fun_induction takeUrl cs with
  | case1 => simp
  | case2 => simp
  | case3 => simp
  | case4 c rest _ _ rest' h =>
    have := (List.dropWhile_suffix (l := rest) isWhitespace).subset
    rw [h] at this
    exact List.subset_cons_of_subset _ (List.Subset.trans (List.subset_cons_self ..) this)
  | case5 c rest _ _ d rest' h _ =>
    have := (List.dropWhile_suffix (l := rest) isWhitespace).subset
    rw [h] at this
    exact List.subset_cons_of_subset _ this
  | case6 c rest _ _ _ ih =>
    exact List.subset_cons_of_subset _ (List.Subset.trans ih (mem_takeEscape rest).1)
  | case7 => exact List.subset_cons_self ..
  | case8 c rest _ _ _ _ ih => exact List.subset_cons_of_subset _ ih

/-- The same where what is taken is counted. -/
theorem takeRange_subset (cs : List Char) : (takeRange cs).2 ⊆ cs := by
  unfold takeRange
  dsimp only
  split
  · exact List.Subset.trans (List.drop_subset ..) (List.drop_subset ..)
  · split
    · rename_i rest h
      have hsub := List.drop_subset ((cs.take 6).takeWhile isHexDigit).length cs
      split
      · exact hsub
      · rw [h] at hsub
        exact List.Subset.trans (List.drop_subset ..)
          (List.Subset.trans (List.subset_cons_self ..) hsub)
    · exact List.drop_subset ..

variable {cs : List Char}

/-- The one lexeme of a step that finds no fault. -/
def Finds (r : List Lexeme × List Char) (cs : List Char) : Prop :=
  (∀ l ∈ r.1, l.isFault = false) → ∃ l, r.1 = [l] ∧ Found l cs r.2

theorem finds_urlLexemes {rest : List Char} (hu : '\x00' ∉ rest) (hs : rest ⊆ cs) :
    Finds (urlLexemes rest) cs := by
  intro hf
  have hsub := (List.dropWhile_suffix (l := rest) isWhitespace).subset
  unfold urlLexemes at hf ⊢
  dsimp only at hf ⊢
  split at hf
  · exact ⟨_, rfl, ⟨rfl, mem_takeUrl fun h => hu (hsub h)⟩, trivial,
      List.Subset.trans (List.Subset.trans (takeUrl_subset _) hsub) hs, by simp, by simp⟩
  · simp [Lexeme.isFault] at hf
  · simp [Lexeme.isFault] at hf

/-- A name gives an identifier, the start of a function or a url, each of them well-formed. -/
theorem finds_nameLexemes (hu : '\x00' ∉ cs) (hi : startsIdent cs) : Finds (nameLexemes cs) cs := by
  have hne := takeName_ne_nil (startsName_of_startsIdent hi)
  have hsub := takeName_subset cs
  have hz := mem_takeName hu
  unfold nameLexemes
  dsimp only
  split
  · rename_i rest h
    rw [h] at hsub
    have hrest : rest ⊆ cs := List.Subset.trans (List.subset_cons_self ..) hsub
    split
    · exact finds_urlLexemes (fun h => hu (hrest h)) hrest
    · rename_i hurl
      refine fun _ => ⟨_, rfl, ⟨hne, hz⟩, fun hlower => ?_, hrest, by simp, by simp⟩
      simpa [hlower, startsQuoted] using hurl
  · exact fun _ => ⟨_, rfl, ⟨hne, hz⟩, trivial, hsub, by simp, by simp⟩

/-- A numeral gives a number, a percentage or a dimension, and the text behind each begins with nothing
that would have been taken too. -/
theorem finds_numberLexemes {n : Numeral} {rest : List Char} (hn : n.WellFormed)
    (hstop : n.StopsAt rest) (hu : '\x00' ∉ rest) (hs : rest ⊆ cs) :
    Finds (numberLexemes n rest) cs := by
  unfold numberLexemes
  split
  · rename_i hi
    exact fun _ => ⟨_, rfl, ⟨hn, takeName_ne_nil (startsName_of_startsIdent hi), mem_takeName hu⟩,
      trivial, List.Subset.trans (takeName_subset _) hs, by simp, by simp⟩
  · rename_i hi
    split
    · exact fun _ => ⟨_, rfl, hn, trivial, List.Subset.trans (List.subset_cons_self ..) hs,
        by simp, by simp⟩
    · rename_i hp
      refine fun _ => ⟨_, rfl, hn, ⟨hstop, by simpa using hi, fun h => ?_⟩, hs, by simp, by simp⟩
      cases rest with
      | nil => simp at h
      | cons d r =>
        obtain rfl : d = '%' := by simpa using h
        exact hp r rfl

theorem finds_stringLexemes {quote : Char} {rest : List Char} (hu : '\x00' ∉ rest)
    (hs : rest ⊆ cs) : Finds (stringLexemes quote rest) cs := by
  intro hf
  unfold stringLexemes at hf ⊢
  dsimp only at hf ⊢
  split at hf
  · exact ⟨_, rfl, ⟨rfl, mem_takeString hu⟩, trivial,
      List.Subset.trans (takeString_subset _ _) hs, by simp,
      by simp⟩
  · simp [Lexeme.isFault] at hf
  · simp [Lexeme.isFault] at hf

/-- The name of a hash that no identifier starts. -/
theorem isPlainHash_takeName (hn : startsName cs) (hi : startsIdent cs = false) :
    IsPlainHash (takeName cs).1 := by
  cases cs with
  | nil => simp [startsName, startsEscape] at hn
  | cons c rest =>
    have hesc : c ≠ '-' → startsEscape (c :: rest) = false ∧ isNameStart c = false := by
      intro hc
      simpa [startsIdent, hc, and_comm] using hi
    have hchar : isNameChar c := by
      simp only [startsName, List.head?_cons, Option.any_some, Bool.or_eq_true] at hn
      refine hn.resolve_right fun he => ?_
      by_cases hc : c = '-'
      · subst hc
        simp [startsEscape] at he
      · simp [(hesc hc).1] at he
    rw [takeName_char hchar]
    refine ⟨c, _, rfl, ?_⟩
    by_cases hc : c = '-'
    · subst hc
      right
      refine ⟨rfl, fun d hd => ?_⟩
      simp only [startsIdent, Bool.or_eq_false_iff] at hi
      cases rest with
      | nil => simp [takeName_nil] at hd
      | cons e r =>
        simp only [List.head?_cons, Option.any_some, Bool.or_eq_false_iff, beq_eq_false_iff_ne,
          ne_eq] at hi
        by_cases he : isNameChar e
        · rw [takeName_char he] at hd
          obtain rfl : e = d := by simpa using hd
          simpa [isNameChar, hi.1.1, hi.1.2] using he
        · rw [takeName_of_not_startsName (by simp [startsName, he, hi.2])] at hd
          simp at hd
    · left
      simpa [isNameChar, hc, (hesc hc).2] using hchar

/-- A step at punctuation. -/
theorem found_punctuation {c : Char} (hu : Unified (c :: cs)) (hc : isLiteralChar c)
    (h : (c = '#' → startsName cs = false) ∧ (c = '@' → startsIdent cs = false) ∧
      (c = '-' → startsIdent ('-' :: cs) = false) ∧ (c = '+' ∨ c = '-' → startsFigure cs = false) ∧
      (c = '.' → ∀ d ∈ cs.head?, d.isDigit = false) ∧ (c = '\\' → cs.head? = some '\n')) :
    Found (punctuation c cs).1 (c :: cs) (punctuation c cs).2 := by
  obtain ⟨h1, h2, h3, h4, h5, h6⟩ := h
  -- Everything punctuation gives but comments is a literal, a longer one or the character alone.
  have hlong : ∀ text rest, text ∈ longLiterals → c :: cs = text ++ rest →
      Found (.atom (.literal text)) (c :: cs) rest := by
    intro text rest ht heq
    refine ⟨.inl ht, ?_, heq ▸ List.subset_append_right .., by simp, ?_⟩
    · simp only [longLiterals, List.mem_cons, List.not_mem_nil, or_false] at ht
      rcases ht with rfl | rfl | rfl | rfl | rfl | rfl | rfl | rfl <;> trivial
    · rintro text' ⟨⟩
      exact ⟨rest, heq.symm⟩
  -- The character alone stops because no branch before its own was taken.
  have hshort : (c = '/' → cs.head? ≠ some '*') → (c = '<' → ¬['!', '-', '-'] <+: cs) →
      (c = '|' → cs.head? ≠ some '|') →
      (c = '~' ∨ c = '|' ∨ c = '^' ∨ c = '$' ∨ c = '*' → cs.head? ≠ some '=') →
      Found (.atom (.literal [c])) (c :: cs) cs := by
    intro h7 h8 h9 h10
    refine ⟨.inr ⟨c, rfl, hc, ?_⟩, ⟨h1, h2, h3, h4, h5, h7, h8, h9, h10, h6⟩,
      List.subset_cons_self .., by simp, ?_⟩
    · exact unified_cons.mpr ⟨(unified_cons.mp hu).1, unified_nil⟩
    · rintro text' ⟨⟩
      exact ⟨cs, rfl⟩
  unfold punctuation
  split
  · rename_i rest
    have hsub := takeComment_subset rest
    have hrest : rest ⊆ '/' :: '*' :: rest :=
      List.Subset.trans (List.subset_cons_self ..) (List.subset_cons_self ..)
    exact ⟨⟨not_infix_takeComment rest, hu.mono (List.Subset.trans hsub.1 hrest)⟩, trivial,
      List.Subset.trans hsub.2 hrest,
      by simp, by simp⟩
  · exact hlong _ _ (by decide) rfl
  · exact hlong _ _ (by decide) rfl
  · rename_i rest hbar
    split
    · rename_i hop
      refine hlong _ _ ?_ rfl
      simp only [Bool.or_eq_true, decide_eq_true_eq] at hop
      rcases hop with (((rfl | rfl) | rfl) | rfl) | rfl <;> decide
    · rename_i hop
      simp only [Bool.or_eq_true, decide_eq_true_eq, not_or] at hop
      exact hshort (by simp) (by simp) (by simp) (by simp [hop])
  · rename_i n4 n1 n2 n3
    have hhead : ∀ d, cs.head? = some d → ∃ r, cs = d :: r := by
      intro d hd
      cases cs with
      | nil => simp at hd
      | cons e r => exact ⟨r, by simpa using hd⟩
    refine hshort ?_ ?_ ?_ ?_
    · intro hc hd
      obtain ⟨r, hr⟩ := hhead _ hd
      exact n1 r hc hr
    · rintro hc ⟨r, hr⟩
      exact n2 r hc hr.symm
    · intro hc hd
      obtain ⟨r, hr⟩ := hhead _ hd
      exact n3 r hc hr
    · intro hc hd
      obtain ⟨r, hr⟩ := hhead _ hd
      exact n4 r hr

/-- What is neither whitespace nor a name nor a number. The literals are the ones that need the
conditions: a character is one only because nothing longer starts with it here. -/
theorem finds_symbolLexemes {c : Char} (hu : Unified (c :: cs)) (hw : isWhitespace c = false)
    (hi : startsIdent (c :: cs) = false) (hn : Numeral.read? (c :: cs) = none) :
    Finds (symbolLexemes c cs) (c :: cs) := by
  obtain ⟨hdig, hpoint, hsign⟩ := of_read?_none hn
  have hz : '\x00' ∉ cs := fun h => (hu _ (List.mem_cons_of_mem _ h)).1 rfl
  have hs : cs ⊆ c :: cs := List.subset_cons_self ..
  -- what the tests before this one have ruled out, said of the character itself
  have hchar : (c = '-' → startsIdent ('-' :: cs) = false) ∧
      (c = '\\' → cs.head? = some '\n') ∧ isNameStart c = false := by
    refine ⟨?_, ?_, ?_⟩
    · rintro rfl
      exact hi
    · rintro rfl
      simpa [startsIdent, isNameStart] using hi
    · by_cases hc : c = '-'
      · subst hc
        decide
      · have : (isNameStart c || startsEscape (c :: cs)) = false := by
          simpa [startsIdent, hc] using hi
        exact (Bool.or_eq_false_iff.mp this).1
  unfold symbolLexemes
  split
  · rename_i h
    simp only [Bool.and_eq_true, decide_eq_true_eq] at h
    exact fun _ => ⟨_, rfl, ⟨takeName_ne_nil (startsName_of_startsIdent h.2), mem_takeName hz⟩,
      trivial, List.Subset.trans (takeName_subset _) hs, by simp, by simp⟩
  · rename_i hat
    split
    · rename_i h
      simp only [Bool.and_eq_true, decide_eq_true_eq] at h
      exact fun _ => ⟨_, rfl, ⟨takeName_ne_nil h.2, mem_takeName hz, isPlainHash_takeName h.2⟩,
        trivial, List.Subset.trans (takeName_subset _) hs, by simp, by simp⟩
    · rename_i hhash
      repeat' split
      all_goals first
        | exact fun _ => ⟨_, rfl, trivial, trivial, hs, by simp, by simp⟩
        | exact finds_stringLexemes hz hs
        | skip
      rename_i b1 b2 b3 b4 b5 b6 hq
      refine fun _ => ⟨_, rfl, found_punctuation hu ?_ ⟨?_, ?_, hchar.1, hsign, hpoint, hchar.2.1⟩⟩
      · simp only [Bool.or_eq_true, decide_eq_true_eq, not_or] at hq
        simp [isLiteralChar, hw, hchar.2.2, hdig, b1, b2, b3, b4, b5, b6, hq]
      · intro hc
        simpa [hc] using hhash
      · intro hc
        simpa [hc] using hat

/-- A step that finds no fault finds one lexeme, well-formed and as long as the text allows. -/
theorem finds_next {c : Char} (hu : Unified (c :: cs)) : Finds (next c cs) (c :: cs) := by
  have hz : '\x00' ∉ c :: cs := fun h => (hu _ h).1 rfl
  have hs : cs ⊆ c :: cs := List.subset_cons_self ..
  unfold next
  split
  · rename_i hw
    refine fun _ => ⟨_, rfl, ⟨by simp, ?_⟩, head?_dropWhile_stop _ _,
      List.Subset.trans (List.dropWhile_suffix _).subset hs, ?_, by simp⟩
    · rintro d hd
      rcases List.mem_cons.mp hd with rfl | hd
      · exact hw
      · exact List.mem_takeWhile_imp hd
    · rintro text ⟨⟩
      exact List.prefix_cons_inj c |>.mpr (List.takeWhile_prefix _)
  · rename_i hw
    split
    · have := takeRange_subset cs.tail
      exact fun _ => ⟨_, rfl, takeRange_lt _, trivial,
        List.Subset.trans (List.Subset.trans this (List.tail_suffix cs).subset) hs, by simp,
        by simp⟩
    · split
      · rename_i hclose
        simp only [Bool.and_eq_true, decide_eq_true_eq] at hclose
        obtain ⟨rfl, htake⟩ := hclose
        -- a CDC takes two characters behind its hyphen, whatever they would read as alone
        have hcs : cs = ['-', '>'] ++ cs.drop 2 := by
          rw [← htake, List.take_append_drop]
        refine fun _ => ⟨_, rfl, .inl (by decide), trivial,
          List.Subset.trans (List.drop_subset ..) hs, by simp,
          ?_⟩
        rintro text ⟨⟩
        exact ⟨cs.drop 2, by rw [List.cons_append, ← hcs]⟩
      · split
        · rename_i hi
          exact finds_nameLexemes hz hi
        · rename_i hi
          have hi : startsIdent (c :: cs) = false := by simpa using hi
          split
          · rename_i n rest hn
            obtain ⟨hwf, heq, hstop⟩ := Numeral.read?_some hn
            have hsub : rest ⊆ c :: cs := heq ▸ List.subset_append_right ..
            exact finds_numberLexemes hwf hstop (fun h => hz (hsub h)) hsub
          · rename_i hn
            exact finds_symbolLexemes hu (by simpa using hw) hi hn

/-! ## 4. Neighbours -/

namespace Lexeme

/-- Two lexemes that may stand side by side in a source. Of the pairs that no source has, those that
the writer keeps apart anyway are left out. A pair that a source cannot have needs no thought when the
tokens are written; it comes up again only if something was taken out between two tokens. -/
structure Meets (l l' : Lexeme) : Prop where
  whitespace : ∀ t u, l = .atom (.whitespace t) → l' ≠ .atom (.whitespace u)
  number : ∀ n, l = .atom (.number n) →
    l' ≠ .atom (.literal ['%']) ∧ l' ≠ .atom (.literal ['-', '-', '>'])
  hyphen : l = .atom (.literal ['-']) ∨ l = .atom (.literal ['#']) →
    l' ≠ .atom (.literal ['-']) ∧ l' ≠ .atom (.literal ['-', '-', '>'])
  at_sign : l = .atom (.literal ['@']) → l' ≠ .atom (.literal ['-', '-', '>'])
  slash : l = .atom (.literal ['/']) → l' ≠ .atom (.literal ['*', '='])
  bar : l = .atom (.literal ['|']) →
    l' ≠ .atom (.literal ['|', '=']) ∧ l' ≠ .atom (.literal ['|', '|'])
  backslash : l = .atom (.literal ['\\']) → ∃ t, l' = .atom (.whitespace ('\n' :: t))

/-- Whether a lexeme is a string. -/
def isString : Lexeme → Bool
  | .atom (.string _ _) => true
  | _ => false

/-- Whether a lexeme is whitespace. -/
def isWhitespace : Lexeme → Bool
  | .atom (.whitespace _) => true
  | _ => false

/-- A string comes first in a list of lexemes, or after whitespace, so far as the list goes. -/
def StartsQuoted : List Lexeme → Prop
  | [] => True
  | l :: ls => l.isString ∨ l.isWhitespace ∧ ∀ l' ∈ ls.head?, l'.isString

/-- A list of lexemes as it may stand in a source without faults. -/
def Sourced : List Lexeme → Prop
  | [] => True
  | l :: ls => l.WellFormed ∧ (∀ l' ∈ ls.head?, l.Meets l') ∧
      (∀ name, l = .openFunction name → Text.asciiLower name = ['u', 'r', 'l'] → StartsQuoted ls) ∧
      Sourced ls

theorem Sourced.of_append {as bs : List Lexeme} (h : Sourced (as ++ bs)) : Sourced bs := by
  induction as with
  | nil => exact h
  | cons l as ih => exact ih h.2.2.2

theorem StartsQuoted.left {as bs : List Lexeme} (h : StartsQuoted (as ++ bs)) :
    StartsQuoted as := by
  cases as with
  | nil => trivial
  | cons l as =>
    refine h.imp id fun hw => ⟨hw.1, fun l' hl' => hw.2 l' ?_⟩
    cases as with
    | nil => simp at hl'
    | cons => exact hl'

theorem Sourced.left {as bs : List Lexeme} (h : Sourced (as ++ bs)) : Sourced as := by
  induction as with
  | nil => trivial
  | cons l as ih =>
    obtain ⟨h1, h2, h3, h4⟩ := h
    refine ⟨h1, fun l' hl' => h2 l' ?_, fun name hn hu => (h3 name hn hu).left, ih h4⟩
    cases as with
    | nil => simp at hl'
    | cons => exact hl'

/-- A part of a source that has no faults has its properties. -/
theorem Sourced.of_isInfix {ls ms : List Lexeme} (h : Sourced ms) (hi : ls <:+: ms) : Sourced ls := by
  obtain ⟨as, bs, rfl⟩ := hi
  rw [List.append_assoc] at h
  exact h.of_append.left

end Lexeme

/-- The first lexeme of a text without faults, and the text after it. -/
theorem scan_eq_cons {cs : List Char} {l : Lexeme} {ls : List Lexeme} (hu : Unified cs)
    (hf : ∀ m ∈ Lexeme.scan cs, m.isFault = false) (h : Lexeme.scan cs = l :: ls) :
    ∃ c rest after, cs = c :: rest ∧ next c rest = ([l], after) ∧ Found l cs after ∧
      Lexeme.scan after = ls := by
  cases cs with
  | nil => simp [Lexeme.scan_nil] at h
  | cons c rest =>
    rw [Lexeme.scan_cons] at h hf
    obtain ⟨l', hl', hfound⟩ := finds_next hu fun m hm => hf m (List.mem_append_left _ hm)
    rw [hl', List.singleton_append, List.cons.injEq] at h
    obtain ⟨rfl, hrest⟩ := h
    exact ⟨c, rest, _, rfl, Prod.ext hl' rfl, hfound, hrest⟩

theorem stringLexemes_isString {quote : Char} {cs : List Char}
    (hf : ∀ m ∈ (stringLexemes quote cs).1, m.isFault = false) :
    ∃ l, (stringLexemes quote cs).1 = [l] ∧ l.isString := by
  unfold stringLexemes at hf ⊢
  dsimp only at hf ⊢
  split at hf
  · exact ⟨_, rfl, rfl⟩
  · simp [Lexeme.isFault] at hf
  · simp [Lexeme.isFault] at hf

/-- A quote starts a string. -/
theorem scan_quote {q : Char} {cs : List Char} (hq : q = '"' ∨ q = '\'')
    (hf : ∀ m ∈ Lexeme.scan (q :: cs), m.isFault = false) :
    ∃ l ls, Lexeme.scan (q :: cs) = l :: ls ∧ l.isString := by
  have hnext : next q cs = stringLexemes q cs := by
    rcases hq with rfl | rfl <;>
      rw [next_symbolLexemes (by decide) (by decide) (by simp) (by decide) (by decide)] <;>
      simp [symbolLexemes]
  rw [Lexeme.scan_cons, hnext] at hf ⊢
  obtain ⟨l, hl, hs⟩ := stringLexemes_isString fun m hm => hf m (List.mem_append_left _ hm)
  exact ⟨l, _, by rw [hl]; rfl, hs⟩

/-- A quote that was seen by looking ahead is the start of a string when the scan comes there, and a
string without a fault is closed. -/
theorem startsQuoted_scan {cs : List Char} (hf : ∀ m ∈ Lexeme.scan cs, m.isFault = false)
    (h : startsQuoted cs) (more : List Lexeme) : Lexeme.StartsQuoted (Lexeme.scan cs ++ more) := by
  have key : ∀ ds : List Char, (∀ m ∈ Lexeme.scan ds, m.isFault = false) →
      (ds.head?.any fun c => c == '"' || c == '\'') →
      ∃ l ls, Lexeme.scan ds = l :: ls ∧ l.isString := by
    intro ds hds hq
    cases ds with
    | nil => simp at hq
    | cons q r => exact scan_quote (by simpa using hq) hds
  cases cs with
  | nil => simp [startsQuoted] at h
  | cons c rest =>
    by_cases hw : isWhitespace c
    · rw [Lexeme.scan_cons, next_whitespace hw] at hf ⊢
      have hdrop : (c :: rest).dropWhile isWhitespace = rest.dropWhile isWhitespace := by simp [hw]
      rw [startsQuoted, hdrop] at h
      obtain ⟨l, ls, heq, hs⟩ := key _ (fun m hm => hf m (List.mem_append_right _ hm)) h
      refine .inr ⟨rfl, ?_⟩
      rw [heq]
      rintro l' ⟨⟩
      exact hs
    · have hdrop : (c :: rest).dropWhile isWhitespace = c :: rest := by simp [hw]
      rw [startsQuoted, hdrop] at h
      obtain ⟨l, ls, heq, hs⟩ := key _ hf h
      rw [heq]
      exact .inl hs

/-- What is found in a text meets what is found right after it. -/
theorem meets_of_found {cs rest after : List Char} {l l' : Lexeme} (h : Found l cs rest)
    (h' : Found l' rest after) (hn : ∀ c ds, rest = c :: ds → next c ds = ([l'], after)) :
    l.Meets l' := by
  -- a literal is written as it was read, so what `l` saw in front of it can be named
  have hlit : ∀ c t, l' = .atom (.literal (c :: t)) → ∃ ds, rest = c :: t ++ ds := by
    intro c t heq
    obtain ⟨ds, hds⟩ := h'.literal _ heq
    exact ⟨ds, hds.symm⟩
  have hb := h.before
  constructor
  · rintro t u rfl rfl
    have hw := h'.wellFormed
    cases u with
    | nil => exact hw.1 rfl
    | cons c u =>
      obtain ⟨ds, hds⟩ := h'.whitespace _ rfl
      have := hb c (by simp [← hds])
      rw [hw.2 c List.mem_cons_self] at this
      simp at this
  · rintro n rfl
    constructor <;> intro heq <;> obtain ⟨ds, rfl⟩ := hlit _ _ heq
    · exact hb.percent rfl
    · exact absurd hb.unit (by simp [startsIdent])
  · rintro (rfl | rfl)
    · constructor <;> intro heq <;> obtain ⟨ds, rfl⟩ := hlit _ _ heq <;>
        exact absurd (hb.hyphen rfl) (by simp [startsIdent])
    · constructor <;> intro heq <;> obtain ⟨ds, rfl⟩ := hlit _ _ heq <;>
        exact absurd (hb.hash rfl) (by simp [startsName, isNameChar])
  · rintro rfl heq
    obtain ⟨ds, rfl⟩ := hlit _ _ heq
    exact absurd (hb.at_sign rfl) (by simp [startsIdent])
  · rintro rfl heq
    obtain ⟨ds, rfl⟩ := hlit _ _ heq
    exact hb.slash rfl rfl
  · rintro rfl
    constructor <;> intro heq <;> obtain ⟨ds, rfl⟩ := hlit _ _ heq <;> exact hb.bar rfl rfl
  · rintro rfl
    -- a lone backslash was read before a line break, and the break opens the white space
    have hn' := hb.backslash rfl
    cases rest with
    | nil => simp at hn'
    | cons c ds =>
      obtain rfl : c = '\n' := by simpa using hn'
      have := hn _ _ rfl
      rw [next_whitespace (by decide)] at this
      simp only [Prod.mk.injEq, List.cons.injEq, and_true] at this
      exact ⟨_, this.1.symm⟩

/-- What a scan finds in a text without faults, and closing brackets after it. -/
theorem sourced_scan {cs : List Char} (hu : Unified cs)
    (hf : ∀ l ∈ Lexeme.scan cs, l.isFault = false) (closers : List Bracket) :
    Lexeme.Sourced (Lexeme.scan cs ++ closers.map .close) := by
  generalize hls : Lexeme.scan cs = ls
  induction ls generalizing cs with
  | nil =>
    rw [List.nil_append]
    induction closers with
    | nil => trivial
    | cons b closers ih =>
      exact ⟨trivial, fun l' _ => by constructor <;> simp, by simp, ih⟩
  | cons l ls ih =>
    obtain ⟨c, rest, after, rfl, -, hfound, hafter⟩ := scan_eq_cons hu hf hls
    have hu' : Unified after := hu.mono hfound.subset
    have hf' : ∀ m ∈ Lexeme.scan after, m.isFault = false := by
      intro m hm
      exact hf m (by rw [hls, ← hafter]; exact List.mem_cons_of_mem _ hm)
    refine ⟨hfound.wellFormed, fun l' hl' => ?_, ?_, ih hu' hf' hafter⟩
    · cases ls with
      | nil =>
        -- The text ends here, so `l` is no backslash; anything else meets a closing bracket.
        cases closers with
        | nil => simp at hl'
        | cons b closers =>
          obtain rfl : Lexeme.close b = l' := by simpa using hl'
          have hend : after = [] := by
            cases after with
            | nil => rfl
            | cons d ds =>
              obtain ⟨l, hl, -⟩ := finds_next hu' fun m hm => hf' m (by
                rw [Lexeme.scan_cons]
                exact List.mem_append_left _ hm)
              rw [Lexeme.scan_cons, hl] at hafter
              simp at hafter
          subst hend
          refine ⟨by simp, by simp, by simp, by simp, by simp, by simp, ?_⟩
          rintro rfl
          have := hfound.before.backslash rfl
          simp at this
      | cons l'' ls =>
        obtain rfl : l'' = l' := by simpa using hl'
        obtain ⟨d, ds, after', rfl, hnext, hfound', -⟩ := scan_eq_cons hu' hf' hafter
        refine meets_of_found hfound hfound' ?_
        rintro _ _ ⟨⟩
        exact hnext
    · rintro name rfl hurl
      rw [← hafter]
      exact startsQuoted_scan hf' (hfound.before hurl) _

end CssExpand.Syntax
