import CssExpand.Proofs.Syntax.Digits
import CssExpand.Proofs.Syntax.Rereading

/-!
# Texts that are their own writing

If the text that is written for lexemes is scanned as these very lexemes, then every one of them was
read where it is written, and stops where the next one starts (`aligned_of_scan`). So nothing had to
be put between them and none of them is one that is read back as something else (`misread_of_scan`).

This is the converse of `scan_written`. There a lexeme stops at the text after it and is therefore
read as itself; here it is read as itself, and it is to be shown that it stops there. One kind does not
tell where it was read to. A range of characters is the same with more zeros in front of its digits,
so for a range the lexemes behind it are needed (`rangeStopsAt_after`).
-/

set_option autoImplicit false

namespace CssExpand.Syntax

/-! ## 1. Names -/

/-- What is read as a name that is written in front of a text ends where the text starts. -/
theorem startsName_of_takeName {name cs : List Char} (h : name ++ (takeName cs).1 = name) :
    startsName cs = false :=
  Bool.eq_false_iff.mpr fun hs => takeName_ne_nil hs (List.append_right_eq_self.mp h)

/-- The first lexeme of a text is the first one of its first step. -/
theorem eq_of_scan {c : Char} {cs : List Char} {l l' : Lexeme} {ls : List Lexeme}
    (h : Lexeme.scan (c :: cs) = l :: ls) (hn : (next c cs).1.head? = some l') : l' = l := by
  obtain ⟨ms, hms⟩ := List.head?_eq_some_iff.mp hn
  rw [Lexeme.scan_cons, hms] at h
  exact (List.cons.inj h).1

/-- What is read as neither whitespace nor a range nor a literal passes the first branches. -/
theorem passesEarly_of_scan {c : Char} {cs : List Char} {l : Lexeme} {ls : List Lexeme}
    (h : Lexeme.scan (c :: cs) = l :: ls) (hw : ∀ t, l ≠ .atom (.whitespace t))
    (hr : ∀ a b, l ≠ .atom (.unicodeRange a b)) (hl : ∀ t, l ≠ .atom (.literal t)) :
    PassesEarly c cs := by
  refine ⟨Bool.eq_false_iff.mpr fun hc => ?_, fun hc => Bool.eq_false_iff.mpr fun hs => ?_, ?_⟩
  · exact hw _ (eq_of_scan h (by rw [next_whitespace hc]; rfl)).symm
  · exact hr _ _ (eq_of_scan h (by rw [next_range hc hs]; rfl)).symm
  · rintro rfl htake
    obtain ⟨ds, rfl⟩ : ∃ ds, cs = '-' :: '>' :: ds :=
      ⟨cs.drop 2, by rw [← List.take_append_drop 2 cs, htake]; rfl⟩
    exact hl _ (eq_of_scan h (by rw [next_close]; rfl)).symm

/-- Nothing but a url is read of a url, or a fault if it is broken. -/
theorem head?_urlLexemes (cs : List Char) :
    ∃ a, (urlLexemes cs).1.head? = some (.atom a) ∧
      (a = .fault .brokenUrl ∨ (takeUrl (cs.dropWhile isWhitespace)).ending ≠ .broken ∧
        ∃ value closed, a = .url value closed) := by
  unfold urlLexemes
  dsimp only
  split
  · next h => exact ⟨_, rfl, .inr ⟨by simp [h], _, _, rfl⟩⟩
  · next h => exact ⟨_, rfl, .inr ⟨by simp [h], _, _, rfl⟩⟩
  · exact ⟨_, rfl, .inl rfl⟩

/-- What a name is the start of depends on the text after it. -/
theorem nameLexemes_cases {name cs rest : List Char} (h : takeName cs = (name, rest)) :
    (rest.head? ≠ some '(' ∧ nameLexemes cs = ([.atom (.ident name)], rest)) ∨
      ∃ inside, rest = '(' :: inside ∧
        ((nameLexemes cs = urlLexemes inside) ∨
          (Text.asciiLower name = ['u', 'r', 'l'] → startsQuoted inside) ∧
            nameLexemes cs = ([.openFunction name], inside)) := by
  simp only [nameLexemes, h]
  split
  · next inside =>
    refine .inr ⟨inside, rfl, ?_⟩
    split
    · exact .inl rfl
    · next hurl => exact .inr ⟨fun hlower => by simpa [hlower, startsQuoted] using hurl, rfl⟩
  · next hne =>
    refine .inl ⟨fun hb => ?_, rfl⟩
    obtain ⟨inside, rfl⟩ := List.head?_eq_some_iff.mp hb
    exact hne inside rfl

section Kinds

variable {name cs : List Char} {ls : List Lexeme}

theorem startsName_of_scan_atKeyword (hne : name ≠ [])
    (h : Lexeme.scan ('@' :: identWritten name ++ cs) = .atom (.atKeyword name) :: ls) :
    startsName cs = false := by
  have hnext : (next '@' (identWritten name ++ cs)).1.head? =
      some (.atom (.atKeyword (name ++ (takeName cs).1))) := by
    rw [next_symbolLexemes (by decide) (by decide) (by simp) (by decide) (by decide)]
    simp [symbolLexemes, startsIdent_identWritten hne, takeName_identWritten]
  have heq := eq_of_scan h hnext
  simp only [Lexeme.atom.injEq, Atom.atKeyword.injEq] at heq
  exact startsName_of_takeName heq

/-- A hash takes all of a name, so if just the written one was taken, no name goes on behind it. -/
theorem startsName_of_scan_hash {isIdent : Bool}
    (h : Lexeme.scan (('#' :: if isIdent then identWritten name else nameWritten name) ++ cs) =
      .atom (.hash name isIdent) :: ls) : startsName cs = false := by
  have key : ∀ {written : List Char},
      takeName (written ++ cs) = (name ++ (takeName cs).1, (takeName cs).2) →
      Lexeme.scan ('#' :: (written ++ cs)) = .atom (.hash name isIdent) :: ls →
      startsName cs = false := by
    intro written hname h
    have hnext : next '#' (written ++ cs) = symbolLexemes '#' (written ++ cs) :=
      next_symbolLexemes (by decide) (by decide) (by simp) (by decide) (by decide)
    cases hs : startsName (written ++ cs) with
    | true =>
      have hhash : (next '#' (written ++ cs)).1 =
          [.atom (.hash (name ++ (takeName cs).1) (startsIdent (written ++ cs)))] := by
        rw [hnext]
        simp [symbolLexemes, hs, hname]
      have heq := eq_of_scan h (by rw [hhash]; rfl)
      simp only [Lexeme.atom.injEq, Atom.hash.injEq] at heq
      exact startsName_of_takeName heq.1
    | false =>
      have hstop : LiteralStopsAt '#' (written ++ cs) := by constructor <;> simp [hs]
      have hliteral : (next '#' (written ++ cs)).1 = [.atom (.literal ['#'])] := by
        rw [hnext]
        simp [symbolLexemes, hs, punctuation_eq hstop]
      cases eq_of_scan h (by rw [hliteral]; rfl)
  cases isIdent with
  | true => exact key (takeName_identWritten name cs) h
  | false => exact key (takeName_nameWritten name cs) h

/-- A name that is written in front of a text, and what is read of it. -/
theorem nameLexemes_of_scan {l : Lexeme} (hne : name ≠ [])
    (h : Lexeme.scan (identWritten name ++ cs) = l :: ls) (hw : ∀ t, l ≠ .atom (.whitespace t))
    (hr : ∀ a b, l ≠ .atom (.unicodeRange a b)) (hl : ∀ t, l ≠ .atom (.literal t)) :
    (∃ c rest, identWritten name ++ cs = c :: rest ∧ PassesEarly c rest) ∧
      ∀ l', (nameLexemes (identWritten name ++ cs)).1.head? = some l' → l' = l := by
  obtain ⟨c, rest, heq, -⟩ := head_identWritten hne cs
  have hident : startsIdent (c :: rest) := heq ▸ startsIdent_identWritten hne cs
  rw [heq] at h ⊢
  have hearly := passesEarly_of_scan h hw hr hl
  refine ⟨⟨c, rest, rfl, hearly⟩, fun l' hl' => eq_of_scan h ?_⟩
  rwa [next_name hident hearly.range hearly.close]

/-- The converse of `scan_ident`: an identifier that was read as itself stopped where its text stops.
Each way in which it could have gone on gives another first lexeme. -/
theorem identStopsAt_of_scan (hne : name ≠ [])
    (h : Lexeme.scan (identWritten name ++ cs) = .atom (.ident name) :: ls) :
    IdentStopsAt name cs := by
  obtain ⟨⟨c, rest, heq, hearly⟩, hfirst⟩ :=
    nameLexemes_of_scan hne h (by simp) (by simp) (by simp)
  have hends : startsName cs = false ∧ cs.head? ≠ some '(' := by
    rcases nameLexemes_cases (takeName_identWritten name cs) with
      ⟨hb, hn⟩ | ⟨inside, -, hn | ⟨-, hn⟩⟩
    · have hname := hfirst _ (by rw [hn]; rfl)
      simp only [Lexeme.atom.injEq, Atom.ident.injEq] at hname
      have hstop := startsName_of_takeName hname
      rw [takeName_of_not_startsName hstop] at hb
      exact ⟨hstop, hb⟩
    · obtain ⟨a, ha, hcases⟩ := head?_urlLexemes inside
      cases hfirst _ (hn ▸ ha)
      rcases hcases with hcases | ⟨-, _, _, hcases⟩ <;> cases hcases
    · cases hfirst _ (by rw [hn]; rfl)
  refine ⟨hends.1, hends.2, ?_, ?_⟩
  · rintro rfl hclose
    obtain ⟨ds, rfl⟩ := List.head?_eq_some_iff.mp hclose
    obtain ⟨rfl, rfl⟩ := List.cons.inj heq
    exact hearly.close rfl rfl
  · rintro (rfl | rfl)
    · obtain ⟨rfl, rfl⟩ := List.cons.inj heq
      exact hearly.range (.inl rfl)
    · obtain ⟨rfl, rfl⟩ := List.cons.inj heq
      exact hearly.range (.inr rfl)

/-- A function that is read as it is written is no url without quotes. -/
theorem startsQuoted_of_scan (hne : name ≠ [])
    (h : Lexeme.scan (identWritten name ++ '(' :: cs) = .openFunction name :: ls) :
    Text.asciiLower name = ['u', 'r', 'l'] → startsQuoted cs := by
  obtain ⟨-, hfirst⟩ := nameLexemes_of_scan hne h (by simp) (by simp) (by simp)
  have hstop : startsName ('(' :: cs) = false := by
    simp [startsName, startsEscape, isNameChar, isNameStart]
  rcases nameLexemes_cases (takeName_stop hstop).1 with ⟨hb, -⟩ | ⟨inside, heq, hn | ⟨hq, -⟩⟩
  · exact absurd rfl hb
  · obtain ⟨a, ha, -⟩ := head?_urlLexemes inside
    cases hfirst _ (hn ▸ ha)
  · obtain rfl := (List.cons.inj heq).2
    exact hq

/-! ## 2. Urls -/

/-- A character that breaks a url is written as it is, and breaks it. -/
theorem takeUrl_breaksWritten {c : Char} (h : breaksWritten c) (cs : List Char) :
    urlCharWritten c = [c] ∧ isWhitespace c = false ∧ (takeUrl (c :: cs)).ending = .broken := by
  have hne : ∀ d, breaksWritten d = false → c ≠ d := by
    rintro d hd rfl
    rw [h] at hd
    cases hd
  have hplain : c ≠ '\'' ∧ c ≠ '"' ∧ c ≠ '\\' ∧ c ≠ ' ' ∧ c ≠ '(' ∧ c ≠ ')' ∧ c ≠ '\t' ∧
      c ≠ '\n' ∧ c ≠ '\r' ∧ c ≠ '\x0C' := by
    refine ⟨?_, ?_, ?_, ?_, ?_, ?_, ?_, ?_, ?_, ?_⟩ <;> exact hne _ (by decide)
  obtain ⟨h1, h2, h3, h4, h5, h6, h7, h8, h9, h10⟩ := hplain
  have hw : isWhitespace c = false := by simp [isWhitespace, h4, h7, h8]
  have hescape : startsEscape (c :: cs) = false := by
    unfold startsEscape
    split <;> simp_all
  refine ⟨by simp [urlCharWritten, breakEscape, h1, h2, h3, h4, h5, h6, h7, h8, h9, h10], hw, ?_⟩
  rw [takeUrl]
  simp [h6, hw, hescape, breaksUrl_eq, h]

/-- A url that is written with a character that breaks it is broken. -/
theorem takeUrl_broken {value : List Char} (h : value.any breaksWritten) (cs : List Char) :
    (takeUrl (value.flatMap urlCharWritten ++ cs)).ending = .broken ∧
      ∀ d ∈ (value.flatMap urlCharWritten ++ cs).head?, isWhitespace d = false := by
  induction value with
  | nil => cases h
  | cons c value ih =>
    rw [List.flatMap_cons, List.append_assoc]
    cases hc : breaksWritten c with
    | true =>
      obtain ⟨hw, hs, hb⟩ := takeUrl_breaksWritten hc (value.flatMap urlCharWritten ++ cs)
      rw [hw]
      refine ⟨hb, ?_⟩
      rintro d ⟨⟩
      exact hs
    | false =>
      obtain ⟨htake, d, ds, hd, hs, -⟩ :=
        takeUrl_urlCharWritten hc (value.flatMap urlCharWritten ++ cs)
      rw [List.any_cons, hc, Bool.false_or] at h
      rw [htake, hd]
      refine ⟨(ih h).1, ?_⟩
      rintro e ⟨⟩
      exact hs

/-- A url that is read as it is written holds no character that breaks it. -/
theorem not_breaksWritten_of_scan {value : List Char}
    (h : Lexeme.scan (urlWritten value true ++ cs) = .atom (.url value true) :: ls) :
    value.any breaksWritten = false := by
  refine Bool.eq_false_iff.mpr fun hbreaks => ?_
  obtain ⟨hending, hhead⟩ := takeUrl_broken hbreaks (')' :: cs)
  have htext : urlWritten value true ++ cs =
      identWritten ['u', 'r', 'l'] ++ '(' :: (value.flatMap urlCharWritten ++ ')' :: cs) := by
    simp [urlWritten, identWritten, identStartWritten, nameWritten, nameCharWritten, isNameStart,
      isNameChar]
  rw [htext] at h
  obtain ⟨-, hfirst⟩ := nameLexemes_of_scan (by simp) h (by simp) (by simp) (by simp)
  have hstop : startsName ('(' :: (value.flatMap urlCharWritten ++ ')' :: cs)) = false := by
    simp [startsName, startsEscape, isNameChar, isNameStart]
  rcases nameLexemes_cases (takeName_stop hstop).1 with ⟨hb, -⟩ | ⟨inside, heq, hn | ⟨-, hn⟩⟩
  · exact absurd rfl hb
  · obtain rfl := (List.cons.inj heq).2
    obtain ⟨a, ha, hcases⟩ := head?_urlLexemes (value.flatMap urlCharWritten ++ ')' :: cs)
    cases hfirst _ (hn ▸ ha)
    rcases hcases with hcases | ⟨hclosed, -⟩
    · cases hcases
    · have hdrop : ([] ++ (value.flatMap urlCharWritten ++ ')' :: cs)).dropWhile isWhitespace = _ :=
        dropWhile_stop (by simp) hhead
      rw [List.nil_append] at hdrop
      rw [hdrop] at hclosed
      exact hclosed hending
  · cases hfirst _ (by rw [hn]; rfl)

/-! ## 3. Numbers -/

/-- Every step reads something. -/
theorem next_ne_nil (c : Char) (cs : List Char) : (next c cs).1 ≠ [] := by
  have hname : (nameLexemes (c :: cs)).1 ≠ [] := by
    rcases nameLexemes_cases (Eq.refl (takeName (c :: cs))) with ⟨-, hn⟩ | ⟨inside, -, hn | ⟨-, hn⟩⟩
    · simp [hn]
    · obtain ⟨a, ha, -⟩ := head?_urlLexemes inside
      rw [hn]
      rintro hnil
      simp [hnil] at ha
    · simp [hn]
  have hstring : (stringLexemes c cs).1 ≠ [] := by
    unfold stringLexemes
    dsimp only
    split <;> simp
  have hsymbol : (symbolLexemes c cs).1 ≠ [] := by
    unfold symbolLexemes
    repeat' split
    all_goals first | exact hstring | simp
  have hnumber : ∀ n rest, (numberLexemes n rest).1 ≠ [] := by
    intro n rest
    unfold numberLexemes
    repeat' split
    all_goals simp
  unfold next
  repeat' split
  all_goals first | exact hname | exact hsymbol | exact hnumber _ _ | simp

/-- A numeral that is read as it is written stops at what is written after it. -/
theorem stopsAt_of_scan {a : Atom} {n : Numeral} (hn : a.numeral? = some n) (hwf : n.WellFormed)
    (h : Lexeme.scan (n.chars ++ cs) = .atom a :: ls) : n.StopsAt cs := by
  obtain ⟨c, rest, heq, -⟩ := Numeral.head_chars hwf cs
  rw [heq] at h
  obtain ⟨l, ms, hms⟩ := List.exists_cons_of_ne_nil (next_ne_nil c rest)
  obtain rfl := eq_of_scan h (by rw [hms]; rfl)
  obtain ⟨after, hread⟩ := read?_of_mem_next (hms ▸ List.mem_cons_self) hn
  obtain ⟨-, htext, hstop⟩ := Numeral.read?_some hread
  rw [← heq, List.append_cancel_left_eq] at htext
  rwa [htext]

theorem numberLexemes_unit (n : Numeral) (h : startsIdent cs) :
    numberLexemes n cs = ([.atom (.dimension n (takeName cs).1)], (takeName cs).2) := by
  unfold numberLexemes
  rw [if_pos h]

theorem numberStopsAt_of_scan {n : Numeral} (hn : n.WellFormed)
    (h : Lexeme.scan (n.chars ++ cs) = .atom (.number n) :: ls) : NumberStopsAt n cs := by
  have hstop := stopsAt_of_scan rfl hn h
  refine ⟨hstop, Bool.eq_false_iff.mpr fun hi => ?_, fun hp => ?_⟩
  · rw [scan_numeral hn hstop (numberLexemes_unit n hi)] at h
    cases h
  · obtain ⟨r, rfl⟩ := List.head?_eq_some_iff.mp hp
    have hscan := scan_percentage hn r
    rw [List.append_assoc, List.singleton_append] at hscan
    rw [hscan] at h
    cases h

/-- A unit that starts as an exponent does is written that way. -/
theorem takeExponent_startsAsExponent {unit : List Char} (h : startsAsExponent unit)
    (cs : List Char) : (takeExponent (unitWritten unit ++ cs)).1 ≠ none := by
  match unit, h with
  | e :: d :: rest, h =>
    simp only [startsAsExponent, Bool.and_eq_true, Bool.or_eq_true, beq_iff_eq] at h
    obtain ⟨he, hd⟩ := h
    have hhyphen : d ≠ '-' := by
      rintro rfl
      exact absurd hd (by decide)
    have hplus : d ≠ '+' := by
      rintro rfl
      exact absurd hd (by decide)
    have hchar : nameCharWritten d = [d] := by simp [nameCharWritten, isNameChar, hd]
    have hwritten : unitWritten (e :: d :: rest) = e :: d :: nameWritten rest := by
      rcases he with rfl | rfl <;>
        simp [unitWritten, readsAsExponent, hhyphen, identWritten, identStartWritten, isNameStart,
          nameWritten, hchar]
    rw [hwritten]
    rcases he with rfl | rfl <;> simp [takeExponent, takeSign, hhyphen, hplus, hd]

/-- A dimension that is read as it is written has a unit that is none of its exponent, and ends. -/
theorem dimension_of_scan {n : Numeral} {unit : List Char} (hn : n.WellFormed) (hne : unit ≠ [])
    (h : Lexeme.scan (n.chars ++ unitWritten unit ++ cs) = .atom (.dimension n unit) :: ls) :
    (n.exponent.isNone && startsAsExponent unit) = false ∧ startsName cs = false := by
  rw [List.append_assoc] at h
  have hstop := stopsAt_of_scan rfl hn h
  have hname := takeName_unitWritten unit cs
  refine ⟨Bool.eq_false_iff.mpr fun hm => ?_, ?_⟩
  · simp only [Bool.and_eq_true, Option.isNone_iff_eq_none] at hm
    exact takeExponent_startsAsExponent hm.2 cs (hstop.exponent hm.1)
  · rw [scan_numeral hn hstop (numberLexemes_unit n (startsIdent_unitWritten hne cs)), hname] at h
    have hunit := (List.cons.inj h).1
    simp only [Lexeme.atom.injEq, Atom.dimension.injEq, true_and] at hunit
    have hlength := congrArg List.length hunit
    have hreread : (if readsAsExponent unit then 'e' :: unit.tail else unit).length =
        unit.length := by
      have := List.length_pos_iff.mpr hne
      split
      · rw [List.length_cons, List.length_tail]
        omega
      · rfl
    rw [List.length_append, hreread] at hlength
    refine Bool.eq_false_iff.mpr fun hs => takeName_ne_nil hs (List.length_eq_zero_iff.mp ?_)
    omega

/-! ## 4. Whitespace and literals -/

/-- Whitespace that is read as it is written ends where it does. -/
theorem not_isWhitespace_of_scan {text : List Char} (hne : text ≠ [])
    (hw : ∀ c ∈ text, isWhitespace c)
    (h : Lexeme.scan (text ++ cs) = .atom (.whitespace text) :: ls) :
    ∀ c ∈ cs.head?, isWhitespace c = false := by
  obtain ⟨c, text, rfl⟩ := List.exists_cons_of_ne_nil hne
  rw [List.forall_mem_cons] at hw
  have hnext : (next c (text ++ cs)).1.head? =
      some (.atom (.whitespace (c :: (text ++ cs).takeWhile isWhitespace))) := by
    rw [next_whitespace hw.1]
    rfl
  have heq := eq_of_scan h hnext
  simp only [Lexeme.atom.injEq, Atom.whitespace.injEq, List.cons.injEq, true_and] at heq
  rw [List.takeWhile_append_of_pos hw.2, List.append_right_eq_self] at heq
  rintro d hd
  obtain ⟨r, rfl⟩ := List.head?_eq_some_iff.mp hd
  by_contra hd
  simp [hd] at heq

/-- After a literal of one character comes the text behind the character. -/
theorem rest_of_punctuation {c : Char} (h : (punctuation c cs).1 = .atom (.literal [c])) :
    (punctuation c cs).2 = cs := by
  unfold punctuation at h ⊢
  split at h <;> try cases h
  · split
    · next hc => rw [if_pos hc] at h; cases h
    · rfl
  · rfl

/-- A step that gives a literal of one character took that character and no more. The split is over all
the branches of a step, and in most of them the lexeme is no such literal. -/
theorem rest_of_next_literal {c : Char} {rest : List Char}
    (h : next c cs = ([.atom (.literal [c])], rest)) : rest = cs := by
  -- of all readers only the one of punctuation gives a literal
  have hname : ∀ ds, (nameLexemes ds).1 ≠ [.atom (.literal [c])] := by
    intro ds heq
    rcases nameLexemes_cases (Eq.refl (takeName ds)) with ⟨-, hn⟩ | ⟨inside, -, hn | ⟨-, hn⟩⟩
    · rw [hn] at heq
      cases heq
    · obtain ⟨a, ha, hcases⟩ := head?_urlLexemes inside
      rw [← hn, heq] at ha
      cases ha
      rcases hcases with hcases | ⟨-, _, _, hcases⟩ <;> cases hcases
    · rw [hn] at heq
      cases heq
  have hsymbol : symbolLexemes c cs = ([.atom (.literal [c])], rest) → rest = cs := by
    intro heq
    have hpunctuation : ([(punctuation c cs).1], (punctuation c cs).2) =
        ([Lexeme.atom (.literal [c])], rest) → rest = cs := by
      intro heq
      obtain ⟨hone, rfl⟩ := Prod.ext_iff.mp heq
      exact rest_of_punctuation (List.cons.inj hone).1
    have hstring : stringLexemes c cs ≠ ([.atom (.literal [c])], rest) := by
      unfold stringLexemes
      dsimp only
      split <;> simp
    unfold symbolLexemes at heq
    repeat' split at heq
    all_goals first
      | exact hpunctuation heq
      | exact absurd heq hstring
      | simp at heq
  have hnumber : ∀ n ds, numberLexemes n ds ≠ ([.atom (.literal [c])], rest) := by
    intro n ds heq
    unfold numberLexemes at heq
    repeat' split at heq
    all_goals simp at heq
  unfold next at h
  repeat' split at h
  · simp at h
  · simp at h
  · simp at h
  · exact absurd (congrArg Prod.fst h) (hname _)
  · exact absurd h (hnumber _ _)
  · exact hsymbol h

end Kinds

/-! ## 5. A whole text -/

namespace Lexeme

variable {l : Lexeme} {ls ms : List Lexeme} {cs : List Char}

/-- A lexeme that is read as it is written stops where it is written, if nothing that is a range of
characters hides where it was read to. -/
theorem stopsAt_of_scan_written (hwf : l.WellFormed) (hu : Unified (l.written ++ cs))
    (hf : ∀ m ∈ scan (l.written ++ cs), m.isFault = false) (h : scan (l.written ++ cs) = l :: ms)
    (hr : ∀ first last, l = .atom (.unicodeRange first last) → RangeStopsAt cs) :
    l.StopsAt cs ∧ l.isMisread = false := by
  cases l with
  | atom a =>
    cases a with
    | whitespace text => exact ⟨not_isWhitespace_of_scan hwf.1 hwf.2 h, rfl⟩
    | literal text =>
      refine ⟨stopsAt_literal fun c htext => ?_, rfl⟩
      subst htext
      obtain ⟨d, rest, after, heq, hnext, hfound, -⟩ := scan_eq_cons hu hf h
      obtain ⟨rfl, rfl⟩ := List.cons.inj heq
      have hbefore := hfound.before
      rw [rest_of_next_literal hnext] at hbefore
      exact hbefore
    | ident name => exact ⟨identStopsAt_of_scan hwf.1 h, rfl⟩
    | atKeyword name => exact ⟨startsName_of_scan_atKeyword hwf.1 h, rfl⟩
    | hash name isIdent => exact ⟨startsName_of_scan_hash h, rfl⟩
    | url value closed =>
      obtain ⟨rfl, -⟩ := hwf
      exact ⟨trivial, not_breaksWritten_of_scan h⟩
    | unicodeRange first last => exact ⟨hr first last rfl, rfl⟩
    | number n => exact ⟨numberStopsAt_of_scan hwf h, rfl⟩
    | dimension n unit =>
      obtain ⟨hunit, hstop⟩ := dimension_of_scan hwf.1 hwf.2.1 h
      exact ⟨hstop, hunit⟩
    | _ => exact ⟨trivial, rfl⟩
  | openFunction name =>
    rw [written, List.append_assoc] at h
    exact ⟨startsQuoted_of_scan hwf.1 h, rfl⟩
  | openBlock b => exact ⟨trivial, rfl⟩
  | close b => exact ⟨trivial, rfl⟩

/-- Lexemes that are read as they are written need nothing between them, and each stops where the
next one is written. -/
theorem aligned_of_scan (hs : Sourced ls) (hb : Boundary cs) (hu : Unified (text (glued ls) ++ cs))
    (hf : ∀ m ∈ scan (text (glued ls) ++ cs), m.isFault = false)
    (h : scan (text (glued ls) ++ cs) = ls ++ ms) :
    StopsAll ls cs ∧ glued ls = ls ∧ ∀ l ∈ ls, l.isMisread = false := by
  induction ls with
  | nil => exact ⟨trivial, rfl, fun _ hl => (nomatch hl)⟩
  | cons l ls ih =>
    obtain ⟨hwf, -, -, hrest⟩ := hs
    rw [text_glued_cons] at h hu hf
    obtain ⟨hstop, hread⟩ := stopsAt_of_scan_written hwf hu hf h
      (by rintro first last rfl; exact rangeStopsAt_after hrest hb)
    rw [scan_written hwf hread hstop] at h hf
    have hscan : scan (after l ls cs) = ls ++ ms := (List.cons.inj h).2
    cases ls with
    | nil => exact ⟨⟨hstop, trivial⟩, rfl, by simpa using hread⟩
    | cons l' ls =>
      -- what is put between two lexemes is a comment, and clashes with nothing
      have hclash : l.joint.clash l'.joint = false := by
        refine Bool.eq_false_iff.mpr fun hclash => ?_
        rw [after, scan_glue, glue, if_pos hclash] at hscan
        obtain rfl : reread (.atom (.comment [])) = l' := (List.cons.inj hscan).1
        simp [reread, Atom.reread, joint, Atom.joint, Joint.not_clash_other] at hclash
      have hafter : after l (l' :: ls) cs = text (glued (l' :: ls)) ++ cs := by
        rw [after, glue, hclash]
        rfl
      rw [hafter] at hscan hf
      obtain ⟨hstops, hglued, hreads⟩ := ih hrest
        (hu.mono (hafter ▸ List.subset_append_right ..))
        (fun m hm => hf m (List.mem_cons_of_mem _ hm)) hscan
      refine ⟨⟨hstop, hstops⟩, ?_, List.forall_mem_cons.mpr ⟨hread, hreads⟩⟩
      rw [glued, glue, hclash, hglued]
      rfl

/-- A name that starts with a letter is written with it in front. -/
theorem head?_identWritten {name : List Char} {c : Char} (h : name.head? = some c)
    (hc : isNameStart c) (cs : List Char) : (identWritten name ++ cs).head? = some c := by
  obtain ⟨name, rfl⟩ := List.head?_eq_some_iff.mp h
  have hne : c ≠ '-' := by
    rintro rfl
    exact absurd hc (by decide)
  simp [identWritten, identStartWritten, hne, hc]

/-- What is written as a hexadecimal digit or a question mark in front starts with one. -/
theorem head?_of_startsAsRange (h : l.startsAsRange) (cs : List Char) :
    ∃ c, (l.written ++ cs).head? = some c ∧ (isHexDigit c ∨ c = '?') := by
  have hname : ∀ name : List Char, (name.head?.any fun c => isNameStart c && isHexDigit c) →
      ∀ ds, ∃ c, (identWritten name ++ ds).head? = some c ∧ (isHexDigit c ∨ c = '?') := by
    intro name hn ds
    simp only [Option.any_eq_true, Bool.and_eq_true] at hn
    obtain ⟨c, hc, hstart, hdigit⟩ := hn
    exact ⟨c, head?_identWritten hc hstart ds, .inl hdigit⟩
  cases l with
  | atom a =>
    cases a with
    | ident name => exact hname name h cs
    | literal text =>
      obtain rfl : text = ['?'] := by simpa [startsAsRange] using h
      exact ⟨'?', rfl, .inr rfl⟩
    | _ => cases h
  | openFunction name =>
    rw [written, List.append_assoc]
    exact hname name h _
  | _ => cases h

/-- What starts as a range of characters goes on makes one behind a word `u` and a plus sign. -/
theorem startsRange_after_plus (h : l.startsAsRange) (ls : List Lexeme) (cs : List Char) :
    startsRange ('+' :: after (.atom (.literal ['+'])) (l :: ls) cs) := by
  have hclash : (joint (.atom (.literal ['+']))).clash l.joint = false := by
    cases l with
    | atom a =>
      cases a with
      | ident name => rfl
      | literal text =>
        obtain rfl : text = ['?'] := by simpa [startsAsRange] using h
        rfl
      | _ => cases h
    | openFunction name => rfl
    | _ => cases h
  rw [after_of_not_clash hclash]
  obtain ⟨c, hc, hrange⟩ := head?_of_startsAsRange h (after l ls cs)
  obtain ⟨r, hr⟩ := List.head?_eq_some_iff.mp hc
  rw [hr]
  simpa [startsRange] using hrange

/-- What is written with two hyphens in front starts with them. -/
theorem prefix_of_startsWithHyphens (h : l.startsWithHyphens) (cs : List Char) :
    ['-', '-'] <+: l.written ++ cs := by
  have hname : ∀ name : List Char, ['-', '-'].isPrefixOf name →
      ∀ ds, ['-', '-'] <+: identWritten name ++ ds := by
    intro name hn ds
    obtain ⟨name, rfl⟩ := List.isPrefixOf_iff_prefix.mp hn
    exact ⟨nameWritten name ++ ds, rfl⟩
  cases l with
  | atom a =>
    cases a with
    | ident name => exact hname name h cs
    | literal text => exact (List.isPrefixOf_iff_prefix.mp h).trans (List.prefix_append ..)
    | _ => cases h
  | openFunction name =>
    rw [written, List.append_assoc]
    exact hname name h _
  | _ => cases h

/-- Lexemes that each stop where the next one is written do not join to something else. -/
theorem misjoins_of_stopsAll (h : StopsAll ls cs) : misjoins ls = false := by
  unfold misjoins
  split
  · next name text rest =>
    obtain ⟨hstop, -⟩ := h
    refine Bool.eq_false_iff.mpr fun hm => ?_
    simp only [Bool.or_eq_true, Bool.and_eq_true, beq_iff_eq] at hm
    rcases hm with ⟨⟨hname, rfl⟩, hrange⟩ | ⟨rfl, rfl⟩
    · cases rest with
      | nil => cases hrange
      | cons l rest =>
        have hstarts := startsRange_after_plus (by simpa using hrange) rest cs
        have hstops := hstop.range (by simpa using hname)
        rw [after_of_not_clash rfl] at hstops
        exact Bool.eq_false_iff.mp hstops hstarts
    · exact hstop.close rfl (by rw [after_of_not_clash rfl]; rfl)
  · next text text' rest =>
    obtain ⟨hstop, -⟩ := h
    refine Bool.eq_false_iff.mpr fun hm => ?_
    simp only [Bool.and_eq_true, beq_iff_eq] at hm
    obtain ⟨⟨rfl, rfl⟩, hhyphens⟩ := hm
    cases rest with
    | nil => cases hhyphens
    | cons l rest =>
      refine hstop.less rfl ?_
      rw [after_of_not_clash rfl, after_of_not_clash (by simp [joint, Atom.joint, Joint.clash,
        Joint.endsInName])]
      exact List.cons_prefix_cons.mpr ⟨rfl, prefix_of_startsWithHyphens (by simpa using hhyphens) _⟩
  · rfl

/-- Lexemes that are read as they are written are not misread. -/
theorem misread_of_scan (hs : Sourced ls) (hb : Boundary cs) (hu : Unified (text (glued ls) ++ cs))
    (hf : ∀ m ∈ scan (text (glued ls) ++ cs), m.isFault = false)
    (h : scan (text (glued ls) ++ cs) = ls ++ ms) : misread ls = false := by
  obtain ⟨hstops, -, hreads⟩ := aligned_of_scan hs hb hu hf h
  clear hs hu hf h
  induction ls with
  | nil => rfl
  | cons l ls ih =>
    rw [misread, hreads l List.mem_cons_self, misjoins_of_stopsAll hstops,
      ih hstops.2 fun m hm => hreads m (List.mem_cons_of_mem l hm)]
    rfl

end Lexeme

end CssExpand.Syntax
