import CssExpand.Proofs.Syntax.Digits

/-!
# A step reads no further than where it stops

A reader looks ahead of what it takes, but never past a character that can neither continue what
is read nor decide anything about it (`Inert`). So as long as such a character is left over, more
text behind it changes nothing: every reader gives the same and leaves the same rest, with the new
text at its end (`next_append`). The closing brace and the semicolon are such characters, and they
are the ones that end a rule.

Numerals and ranges of characters never take such a character, so for them it is enough that it is
in the text. Names, strings, urls and comments may take it, in an escape or as it is; for them it
has to be in the rest.
-/

set_option autoImplicit false

namespace CssExpand.Syntax

/-- The characters that end a rule. No reader needs one to go on. -/
def Inert (c : Char) : Prop := c = '\x7d' ∨ c = ';'

instance (c : Char) : Decidable (Inert c) := inferInstanceAs (Decidable (_ ∨ _))

variable {stop : Char} {cs : List Char}

/-! ## 1. Looking ahead -/

theorem Inert.isWhitespace (h : Inert stop) : isWhitespace stop = false := by
  rcases h with rfl | rfl <;> rfl

theorem Inert.isHexDigit (h : Inert stop) : isHexDigit stop = false := by
  rcases h with rfl | rfl <;> rfl

theorem Inert.isDigit (h : Inert stop) : stop.isDigit = false := by
  rcases h with rfl | rfl <;> rfl

/-- Behind a character that is not inert. -/
theorem Inert.mem_of_cons (h : Inert stop) {c : Char} (hc : ¬Inert c) (hm : stop ∈ c :: cs) :
    stop ∈ cs := by
  rcases List.mem_cons.mp hm with rfl | hm
  · exact absurd h hc
  · exact hm

/-- A run of characters ends at the first character outside its class, so it ends before `stop`
and never sees what stands behind. -/
theorem takeWhile_append_of_mem {p : Char → Bool} (hp : p stop = false) (h : stop ∈ cs)
    (ds : List Char) : (cs ++ ds).takeWhile p = cs.takeWhile p := by
  rw [List.takeWhile_append, if_neg]
  intro hlen
  have hall : cs.takeWhile p = cs := (List.takeWhile_prefix p).eq_of_length hlen
  have hstop := List.takeWhile_eq_self_iff.mp hall stop h
  rw [hp] at hstop
  cases hstop

theorem dropWhile_append_of_mem {p : Char → Bool} (hp : p stop = false) (h : stop ∈ cs)
    (ds : List Char) : (cs ++ ds).dropWhile p = cs.dropWhile p ++ ds := by
  rw [List.dropWhile_append, if_neg]
  intro hempty
  have hstop := List.dropWhile_eq_nil_iff.mp (List.isEmpty_iff.mp hempty) stop h
  rw [hp] at hstop
  cases hstop

/-- The run does not take the inert character, so it is in the rest. -/
theorem mem_dropWhile {p : Char → Bool} (hp : p stop = false) (h : stop ∈ cs) :
    stop ∈ cs.dropWhile p := by
  rw [← List.takeWhile_append_dropWhile (p := p) (l := cs), List.mem_append] at h
  refine h.resolve_left fun htake => ?_
  have hstop := List.mem_takeWhile_imp htake
  rw [hp] at hstop
  cases hstop

/-- What is found among the first characters of a longer text is found without the new ones. -/
theorem takeWhile_take_append_of_mem {p : Char → Bool} (hp : p stop = false) (h : stop ∈ cs)
    (k : Nat) (ds : List Char) : ((cs ++ ds).take k).takeWhile p = (cs.take k).takeWhile p := by
  rw [List.take_append]
  rcases Nat.le_total k cs.length with hk | hk
  · rw [Nat.sub_eq_zero_of_le hk, List.take_zero, List.append_nil]
  · rw [List.take_of_length_le hk]
    exact takeWhile_append_of_mem hp h _

theorem takeWhile_take_isPrefix (p : Char → Bool) (cs : List Char) (k : Nat) :
    (cs.take k).takeWhile p <+: cs :=
  (List.takeWhile_prefix p).trans (List.take_prefix k cs)

theorem length_takeWhile_take_le (p : Char → Bool) (cs : List Char) (k : Nat) :
    ((cs.take k).takeWhile p).length ≤ cs.length :=
  (takeWhile_take_isPrefix p cs k).length_le

theorem mem_drop_takeWhile_take {p : Char → Bool} (hp : p stop = false) (h : stop ∈ cs) (k : Nat) :
    stop ∈ cs.drop ((cs.take k).takeWhile p).length := by
  rw [← List.take_append_drop ((cs.take k).takeWhile p).length cs,
    ← List.prefix_iff_eq_take.mp (takeWhile_take_isPrefix p cs k), List.mem_append] at h
  refine h.resolve_left fun htake => ?_
  have hstop := List.mem_takeWhile_imp htake
  rw [hp] at hstop
  cases hstop

theorem head?_append_of_mem (h : stop ∈ cs) (ds : List Char) : (cs ++ ds).head? = cs.head? :=
  List.head?_append_of_ne_nil _ (List.ne_nil_of_mem h)

/-- A text that the inert character does not stand in is in front of the longer text if it is in
front of the shorter one. -/
theorem isPrefix_append_iff (h : stop ∈ cs) {front : List Char} (hf : stop ∉ front)
    (ds : List Char) : front <+: cs ++ ds ↔ front <+: cs := by
  refine ⟨fun hp => ?_, fun hp => hp.trans (List.prefix_append ..)⟩
  rcases List.prefix_or_prefix_of_prefix hp (List.prefix_append cs ds) with hp | hp
  · exact hp
  · exact absurd (hp.subset h) hf

/-- An escape is seen by two characters. The backslash is not inert, so `stop` is the second one
or stands behind it, and the text is long enough for the look. -/
theorem startsEscape_append (hs : Inert stop) (h : stop ∈ cs) (ds : List Char) :
    startsEscape (cs ++ ds) = startsEscape cs := by
  cases cs with
  | nil => cases h
  | cons c rest =>
    by_cases hc : c = '\\'
    · subst hc
      have hrest : stop ∈ rest := hs.mem_of_cons (by decide) h
      rw [List.cons_append, startsEscape_backslash, startsEscape_backslash,
        head?_append_of_mem hrest]
    · simp [startsEscape, hc]

theorem startsName_append (hs : Inert stop) (h : stop ∈ cs) (ds : List Char) :
    startsName (cs ++ ds) = startsName cs := by
  rw [startsName, startsName, head?_append_of_mem h, startsEscape_append hs h]

theorem startsIdent_append (hs : Inert stop) (h : stop ∈ cs) (ds : List Char) :
    startsIdent (cs ++ ds) = startsIdent cs := by
  cases cs with
  | nil => cases h
  | cons c rest =>
    by_cases hc : c = '-'
    · subst hc
      have hrest : stop ∈ rest := hs.mem_of_cons (by decide) h
      rw [List.cons_append, startsIdent, startsIdent, head?_append_of_mem hrest,
        startsEscape_append hs hrest]
    · have hplain : ∀ es, startsIdent (c :: es) = (isNameStart c || startsEscape (c :: es)) := by
        simp [startsIdent, hc]
      rw [List.cons_append, hplain, hplain, ← List.cons_append, startsEscape_append hs h]

theorem startsRange_append (hs : Inert stop) (h : stop ∈ cs) (ds : List Char) :
    startsRange (cs ++ ds) = startsRange cs := by
  cases cs with
  | nil => cases h
  | cons c rest =>
    by_cases hc : c = '+'
    · subst hc
      have hrest : stop ∈ rest := hs.mem_of_cons (by decide) h
      cases rest with
      | nil => cases hrest
      | cons d rest => rfl
    · simp [startsRange, hc]

/-! ## 2. Names -/

theorem dropOneWhitespace_append (h : cs ≠ []) (ds : List Char) :
    dropOneWhitespace (cs ++ ds) = dropOneWhitespace cs ++ ds := by
  cases cs with
  | nil => exact absurd rfl h
  | cons c rest =>
    rw [List.cons_append, dropOneWhitespace, dropOneWhitespace]
    split <;> rfl

/-- An escape may take an inert character as it is (`\;`), so here, and for all readers that go
through this one, `stop` has to be in the rest and not only in the text. -/
theorem takeEscape_append (hs : Inert stop) (h : stop ∈ (takeEscape cs).2) (ds : List Char) :
    takeEscape (cs ++ ds) = ((takeEscape cs).1, (takeEscape cs).2 ++ ds) := by
  have hcs : stop ∈ cs := (takeEscape_suffix cs).subset h
  have hdigits := takeWhile_take_append_of_mem hs.isHexDigit hcs 6 ds
  unfold takeEscape at h ⊢
  dsimp only at h ⊢
  rw [hdigits]
  split at h
  · rw [if_pos ‹_›, if_pos ‹_›]
    cases cs with
    | nil => cases hcs
    | cons c rest => rfl
  · rw [if_neg ‹_›, if_neg ‹_›, List.drop_append_of_le_length (length_takeWhile_take_le ..),
      dropOneWhitespace_append]
    exact List.ne_nil_of_mem ((dropOneWhitespace_suffix _).subset h)

/-- The recursion of `takeName`. Each case gets its `stop` from the rest of the last step, since
every reader leaves a suffix of what it is given. -/
theorem takeName_append (hs : Inert stop) (h : stop ∈ (takeName cs).2) (ds : List Char) :
    takeName (cs ++ ds) = ((takeName cs).1, (takeName cs).2 ++ ds) := by
  fun_induction takeName cs with
  | case1 => cases h
  | case2 rest hbreak =>
    have hrest : stop ∈ rest := hs.mem_of_cons (by decide) h
    rw [List.cons_append, takeName, if_pos rfl, if_pos]
    rwa [head?_append_of_mem hrest]
  | case3 rest hbreak tail ih =>
    have hescape : stop ∈ (takeEscape rest).2 := (takeName_suffix _).subset h
    have hrest : stop ∈ rest := (takeEscape_suffix rest).subset hescape
    rw [List.cons_append, takeName, if_pos rfl, if_neg]
    · simp only [takeEscape_append hs hescape, ih h, tail]
    · rwa [head?_append_of_mem hrest]
  | case4 c rest hc hname tail ih =>
    rw [List.cons_append, takeName, if_neg hc, if_pos hname]
    simp only [ih h, tail]
  | case5 c rest hc hname =>
    rw [List.cons_append, takeName, if_neg hc, if_neg hname]

/-! ## 3. Strings, urls and comments -/

/-- The same reading with more text behind it. -/
def Reading.append (r : Reading) (ds : List Char) : Reading := { r with rest := r.rest ++ ds }

/-- A string that ends with the text (`case1`, `case3`) leaves nothing, so no `stop` is left. -/
theorem takeString_append (hs : Inert stop) {quote : Char} (h : stop ∈ (takeString quote cs).rest)
    (ds : List Char) : takeString quote (cs ++ ds) = (takeString quote cs).append ds := by
  fun_induction takeString quote cs with
  | case1 => cases h
  | case2 rest =>
    rw [List.cons_append, takeString.eq_def]
    exact if_pos rfl
  | case3 => cases h
  | case4 rest hquote ih =>
    rw [List.cons_append, List.cons_append, takeString, if_neg hquote, if_pos rfl]
    exact ih h
  | case5 d rest hquote hd ih =>
    have hescape : stop ∈ (takeEscape (d :: rest)).2 := (takeString_suffix quote _).subset h
    have hone := takeEscape_append hs hescape ds
    rw [List.cons_append] at hone
    rw [List.cons_append, List.cons_append, takeString, if_neg hquote, if_pos rfl]
    simp only [if_neg hd, hone, ih h]
    rfl
  | case6 rest hquote hslash =>
    rw [List.cons_append, takeString.eq_def]
    exact (if_neg hquote).trans ((if_neg hslash).trans (if_pos rfl))
  | case7 c rest hquote hslash hbreak ih =>
    rw [List.cons_append, takeString.eq_def]
    refine (if_neg hquote).trans ((if_neg hslash).trans ((if_neg hbreak).trans ?_))
    rw [ih h]
    rfl

/-- A url skips whitespace in its middle and then asks for the closing bracket, so these cases
first say what is behind the whitespace in the longer text. -/
theorem takeUrl_append (hs : Inert stop) (h : stop ∈ (takeUrl cs).rest) (ds : List Char) :
    takeUrl (cs ++ ds) = (takeUrl cs).append ds := by
  fun_induction takeUrl cs with
  | case1 => cases h
  | case2 rest =>
    rw [List.cons_append, takeUrl, if_pos rfl]
    rfl
  | case3 => cases h
  | case4 c rest hclose hwhite rest' hdrop =>
    -- blanks before the closing bracket: the skip ends inside the text, where the stop is
    have hrest : stop ∈ rest := (List.dropWhile_suffix _).subset (hdrop ▸ List.mem_cons_of_mem _ h)
    have hdrop' : (rest ++ ds).dropWhile isWhitespace = ')' :: (rest' ++ ds) := by
      rw [dropWhile_append_of_mem hs.isWhitespace hrest, hdrop, List.cons_append]
    rw [List.cons_append, takeUrl.eq_def]
    refine (if_neg hclose).trans ((if_pos hwhite).trans ?_)
    rw [hdrop']
    rfl
  | case5 c rest hclose hwhite d rest' hdrop hd =>
    have hrest : stop ∈ rest := (List.dropWhile_suffix _).subset (hdrop ▸ h)
    have hdrop' : (rest ++ ds).dropWhile isWhitespace = d :: (rest' ++ ds) := by
      rw [dropWhile_append_of_mem hs.isWhitespace hrest, hdrop, List.cons_append]
    rw [List.cons_append, takeUrl.eq_def]
    refine (if_neg hclose).trans ((if_pos hwhite).trans ?_)
    rw [hdrop']
    exact if_neg hd
  | case6 c rest hclose hwhite hescape ih =>
    -- an escape: the stop lies behind it, so the escape sees all it needs
    have hone : stop ∈ (takeEscape rest).2 := (takeUrl_suffix _).subset h
    have hrest : stop ∈ c :: rest := List.mem_cons_of_mem _ ((takeEscape_suffix rest).subset hone)
    have hescape' := startsEscape_append hs hrest ds
    rw [hescape, List.cons_append] at hescape'
    rw [List.cons_append, takeUrl.eq_def]
    refine (if_neg hclose).trans ((if_neg hwhite).trans ((if_pos hescape').trans ?_))
    rw [takeEscape_append hs hone, ih h]
    rfl
  | case7 c rest hclose hwhite hescape hbreaks =>
    have hescape' := startsEscape_append hs (List.mem_cons_of_mem c h) ds
    rw [Bool.eq_false_iff.mpr hescape, List.cons_append] at hescape'
    rw [List.cons_append, takeUrl.eq_def]
    exact (if_neg hclose).trans ((if_neg hwhite).trans ((if_neg (by simp [hescape'])).trans
      (if_pos hbreaks)))
  | case8 c rest hclose hwhite hescape hbreaks ih =>
    have hrest : stop ∈ rest := (takeUrl_suffix _).subset h
    have hescape' := startsEscape_append hs (List.mem_cons_of_mem c hrest) ds
    rw [Bool.eq_false_iff.mpr hescape, List.cons_append] at hescape'
    rw [List.cons_append, takeUrl.eq_def]
    refine (if_neg hclose).trans ((if_neg hwhite).trans ((if_neg (by simp [hescape'])).trans
      ((if_neg hbreaks).trans ?_)))
    rw [ih h]
    rfl

/-- The remains of a broken url take every character up to the bracket, an inert one too. -/
theorem dropBrokenUrl_append (h : stop ∈ dropBrokenUrl cs) (ds : List Char) :
    dropBrokenUrl (cs ++ ds) = dropBrokenUrl cs ++ ds := by
  fun_induction dropBrokenUrl cs with
  | case1 => cases h
  | case2 rest ih => exact ih h
  | case3 => rfl
  | case4 c rest hslash hclose ih =>
    have hrest : stop ∈ rest := (dropBrokenUrl_suffix rest).subset h
    rw [List.cons_append, dropBrokenUrl, ih h]
    · rintro rest' rfl heq
      cases rest with
      | nil => cases hrest
      | cons d rest =>
        obtain ⟨rfl, -⟩ := List.cons.inj heq
        exact hslash rest rfl rfl
    · exact hclose

theorem takeComment_append (h : stop ∈ (takeComment cs).2) (ds : List Char) :
    takeComment (cs ++ ds) = ((takeComment cs).1, (takeComment cs).2 ++ ds) := by
  fun_induction takeComment cs with
  | case1 => cases h
  | case2 rest => rfl
  | case3 c rest hclose ih =>
    have hrest : stop ∈ rest := (takeComment_suffix rest).subset h
    rw [List.cons_append, takeComment, ih h]
    -- A star at the very end could be followed by a slash from the new text, but `stop` is behind it.
    rintro rest' rfl heq
    cases rest with
    | nil => cases hrest
    | cons d rest =>
      obtain ⟨rfl, -⟩ := List.cons.inj heq
      exact hclose rest rfl rfl

/-- What the step gives depends on how the string ended, and that is the same. -/
theorem stringLexemes_append (hs : Inert stop) {quote : Char}
    (h : stop ∈ (stringLexemes quote cs).2) (ds : List Char) :
    stringLexemes quote (cs ++ ds) =
      ((stringLexemes quote cs).1, (stringLexemes quote cs).2 ++ ds) := by
  have hrest : stop ∈ (takeString quote cs).rest := by
    unfold stringLexemes at h
    dsimp only at h
    split at h <;> exact h
  simp only [stringLexemes, takeString_append hs hrest, Reading.append]
  cases (takeString quote cs).ending <;> rfl

/-- A broken url leaves less than the reader of urls does, so in that case `stop` is looked for behind
its remains. -/
theorem urlLexemes_append (hs : Inert stop) (h : stop ∈ (urlLexemes cs).2) (ds : List Char) :
    urlLexemes (cs ++ ds) = ((urlLexemes cs).1, (urlLexemes cs).2 ++ ds) := by
  have hcs : stop ∈ cs := (urlLexemes_suffix cs).subset h
  unfold urlLexemes at h ⊢
  dsimp only at h ⊢
  have hrest : stop ∈ (takeUrl (cs.dropWhile isWhitespace)).rest := by
    split at h
    · exact h
    · exact h
    · exact (dropBrokenUrl_suffix _).subset h
  rw [dropWhile_append_of_mem hs.isWhitespace hcs, takeUrl_append hs hrest]
  simp only [Reading.append]
  cases hending : (takeUrl (cs.dropWhile isWhitespace)).ending with
  | closed => rfl
  | atEnd => rfl
  | broken =>
    rw [hending] at h
    dsimp only at h ⊢
    rw [dropBrokenUrl_append h]

/-! ## 4. Numerals and ranges -/

theorem takeSign_append (h : cs ≠ []) (ds : List Char) :
    takeSign (cs ++ ds) = ((takeSign cs).1, (takeSign cs).2 ++ ds) := by
  cases cs with
  | nil => exact absurd rfl h
  | cons c rest =>
    rw [List.cons_append]
    by_cases hplus : c = '+'
    · subst hplus
      rfl
    · by_cases hminus : c = '-'
      · subst hminus
        rfl
      · simp [takeSign, hplus, hminus]

theorem mem_takeSign (hs : Inert stop) (h : stop ∈ cs) : stop ∈ (takeSign cs).2 := by
  unfold takeSign
  split
  · exact hs.mem_of_cons (by decide) h
  · exact hs.mem_of_cons (by decide) h
  · exact h

theorem takeFraction_append (hs : Inert stop) (h : stop ∈ cs) (ds : List Char) :
    takeFraction (cs ++ ds) = ((takeFraction cs).1, (takeFraction cs).2 ++ ds) := by
  cases cs with
  | nil => cases h
  | cons c rest =>
    by_cases hc : c = '.'
    · subst hc
      have hrest : stop ∈ rest := hs.mem_of_cons (by decide) h
      simp only [List.cons_append, takeFraction, takeWhile_append_of_mem hs.isDigit hrest,
        dropWhile_append_of_mem hs.isDigit hrest]
      split <;> rfl
    · simp [takeFraction, hc]

theorem mem_takeFraction (hs : Inert stop) (h : stop ∈ cs) : stop ∈ (takeFraction cs).2 := by
  unfold takeFraction
  split
  · split
    · exact h
    · exact mem_dropWhile hs.isDigit (hs.mem_of_cons (by decide) h)
  · exact h

/-- An exponent that has no digits is given back. That there are none is seen from the first
character behind the sign, which is there. -/
theorem takeExponent_append (hs : Inert stop) (h : stop ∈ cs) (ds : List Char) :
    takeExponent (cs ++ ds) = ((takeExponent cs).1, (takeExponent cs).2 ++ ds) := by
  cases cs with
  | nil => cases h
  | cons c rest =>
    by_cases hc : (c == 'e' || c == 'E') = true
    · have hrest : stop ∈ rest := by
        refine hs.mem_of_cons ?_ h
        simp only [Bool.or_eq_true, beq_iff_eq] at hc
        rcases hc with rfl | rfl <;> decide
      have hsigned := mem_takeSign hs hrest
      simp only [List.cons_append, takeExponent, takeSign_append (List.ne_nil_of_mem hrest),
        takeWhile_append_of_mem hs.isDigit hsigned, dropWhile_append_of_mem hs.isDigit hsigned]
      split <;> rfl
    · simp [takeExponent, hc]

theorem mem_takeExponent (hs : Inert stop) (h : stop ∈ cs) : stop ∈ (takeExponent cs).2 := by
  cases cs with
  | nil => cases h
  | cons c rest =>
    rw [takeExponent]
    split
    · next hc =>
      refine mem_dropWhile hs.isDigit (mem_takeSign hs (hs.mem_of_cons ?_ h))
      simp only [Bool.and_eq_true, Bool.or_eq_true, beq_iff_eq] at hc
      rcases hc.1 with rfl | rfl <;> decide
    · exact h

/-- Sign, whole part, fraction and exponent one behind the other. Each of them leaves `stop`. -/
theorem Numeral.read?_append (hs : Inert stop) (h : stop ∈ cs) (ds : List Char) :
    Numeral.read? (cs ++ ds) = (Numeral.read? cs).map fun r => (r.1, r.2 ++ ds) := by
  have hsign := mem_takeSign hs h
  have hwhole := mem_dropWhile hs.isDigit hsign
  have hfraction := mem_takeFraction hs hwhole
  simp only [Numeral.read?, takeSign_append (List.ne_nil_of_mem h),
    takeWhile_append_of_mem hs.isDigit hsign, dropWhile_append_of_mem hs.isDigit hsign,
    takeFraction_append hs hwhole, takeExponent_append hs hfraction]
  split <;> rfl

/-- A numeral leaves every inert character. -/
theorem Numeral.mem_of_read? (hs : Inert stop) (h : stop ∈ cs) {n : Numeral} {rest : List Char}
    (hn : Numeral.read? cs = some (n, rest)) : stop ∈ rest := by
  unfold Numeral.read? at hn
  dsimp only at hn
  split at hn
  · cases hn
  · cases hn
    exact mem_takeExponent hs (mem_takeFraction hs (mem_dropWhile hs.isDigit (mem_takeSign hs h)))

/-- A range counts characters: at most six digits, then question marks up to six. Both counts stop
at the inert character, so taking more of a longer text changes neither. -/
theorem takeRange_append (hs : Inert stop) (h : stop ∈ cs) (ds : List Char) :
    takeRange (cs ++ ds) = ((takeRange cs).1, (takeRange cs).2 ++ ds) := by
  have hafter : stop ∈ cs.drop ((cs.take 6).takeWhile isHexDigit).length :=
    mem_drop_takeWhile_take hs.isHexDigit h 6
  have hmarks : ∀ {es : List Char} (k : Nat), stop ∈ es →
      ((es ++ ds).take k).takeWhile (· == '?') = (es.take k).takeWhile (· == '?') :=
    fun k hes => takeWhile_take_append_of_mem (by rcases hs with rfl | rfl <;> rfl) hes k ds
  unfold takeRange
  dsimp only
  rw [takeWhile_take_append_of_mem hs.isHexDigit h,
    List.drop_append_of_le_length (length_takeWhile_take_le ..),
    hmarks _ hafter]
  split
  · rw [List.drop_append_of_le_length (length_takeWhile_take_le ..)]
  · generalize cs.drop ((cs.take 6).takeWhile isHexDigit).length = after at hafter ⊢
    cases after with
    | nil => cases hafter
    | cons c rest =>
      by_cases hc : c = '-'
      · subst hc
        have hrest : stop ∈ rest := hs.mem_of_cons (by decide) hafter
        simp only [List.cons_append, takeWhile_take_append_of_mem hs.isHexDigit hrest]
        split
        · rfl
        · rw [List.drop_append_of_le_length (length_takeWhile_take_le ..)]
      · simp [hc]

/-! ## 5. One step -/

/-- If a step leaves an inert character, the other one gives the same lexemes and leaves the same
text with more behind it. -/
def Extends (stop : Char) (ds : List Char) (r r' : List Lexeme × List Char) : Prop :=
  stop ∈ r.2 → r' = (r.1, r.2 ++ ds)

theorem Extends.ite {p : Prop} [Decidable p] {ds : List Char} {a a' b b' : List Lexeme × List Char}
    (ha : p → Extends stop ds a a') (hb : ¬p → Extends stop ds b b') :
    Extends stop ds (if p then a else b) (if p then a' else b') := by
  by_cases hp : p
  · rw [if_pos hp, if_pos hp]
    exact ha hp
  · rw [if_neg hp, if_neg hp]
    exact hb hp

/-- A name in front of a bracket opens a function, or a url if it is `url` and no quote follows.
The look past the whitespace behind the bracket is the furthest any reader takes. -/
theorem nameLexemes_append (hs : Inert stop) (h : stop ∈ (nameLexemes cs).2) (ds : List Char) :
    nameLexemes (cs ++ ds) = ((nameLexemes cs).1, (nameLexemes cs).2 ++ ds) := by
  have hname : stop ∈ (takeName cs).2 := by
    unfold nameLexemes at h
    dsimp only at h
    split at h
    · next rest hrest =>
      rw [hrest]
      refine List.mem_cons_of_mem _ ?_
      split at h
      · exact (urlLexemes_suffix rest).subset h
      · exact h
    · exact h
  unfold nameLexemes at h ⊢
  rw [takeName_append hs hname]
  generalize takeName cs = found at h hname ⊢
  obtain ⟨name, after⟩ := found
  dsimp only at h hname ⊢
  cases after with
  | nil => cases hname
  | cons c rest =>
    by_cases hc : c = '('
    · subst hc
      have hrest : stop ∈ rest := hs.mem_of_cons (by decide) hname
      have hdrop := mem_dropWhile hs.isWhitespace hrest
      simp only [List.cons_append] at h ⊢
      rw [dropWhile_append_of_mem hs.isWhitespace hrest, head?_append_of_mem hdrop]
      split
      · rw [if_pos ‹_›] at h
        exact urlLexemes_append hs h ds
      · rfl
    · simp [hc]

/-- Behind a numeral there may be a unit, which is a name, or a percent sign, or neither. -/
theorem numberLexemes_append (hs : Inert stop) (n : Numeral) (hcs : stop ∈ cs)
    (h : stop ∈ (numberLexemes n cs).2) (ds : List Char) :
    numberLexemes n (cs ++ ds) = ((numberLexemes n cs).1, (numberLexemes n cs).2 ++ ds) := by
  unfold numberLexemes at h ⊢
  rw [startsIdent_append hs hcs]
  split
  · rw [if_pos ‹_›] at h
    rw [takeName_append hs h]
  · cases cs with
    | nil => cases hcs
    | cons c rest =>
      by_cases hc : c = '%'
      · subst hc
        rfl
      · simp [hc]

theorem punctuation_append (hs : Inert stop) {c : Char} (hcs : stop ∈ cs)
    (h : stop ∈ (punctuation c cs).2) (ds : List Char) :
    punctuation c (cs ++ ds) = ((punctuation c cs).1, (punctuation c cs).2 ++ ds) := by
  -- What does not start with a longer literal does not start with it in a longer text.
  have hlonger : ∀ front : List Char, (∀ d ∈ front, ¬Inert d) → (∀ rest, cs ≠ front ++ rest) →
      ∀ rest, cs ++ ds ≠ front ++ rest := by
    intro front hf hne rest heq
    have hfront : stop ∉ front := fun hm => hf stop hm hs
    obtain ⟨rest', hrest⟩ := (isPrefix_append_iff hcs hfront ds).mp ⟨rest, heq.symm⟩
    exact hne rest' hrest.symm
  fun_cases punctuation c cs with
  | case1 rest =>
    rw [punctuation] at h
    rw [List.cons_append, punctuation, takeComment_append h]
  | case2 rest => rfl
  | case3 rest => rfl
  | case4 c rest hc => simp only [List.cons_append, punctuation, if_pos hc]
  | case5 c rest hc => simp only [List.cons_append, punctuation, if_neg hc]
  | case6 c rest hcomment hhidden hbars hequals =>
    rw [punctuation.eq_5]
    · exact hlonger ['='] (by simp [Inert]) hequals
    · exact fun rest' hc => hlonger ['*'] (by simp [Inert]) (hcomment · hc) rest'
    · exact fun rest' hc => hlonger ['!', '-', '-'] (by simp [Inert]) (hhidden · hc) rest'
    · exact fun rest' hc => hlonger ['|'] (by simp [Inert]) (hbars · hc) rest'

theorem symbolLexemes_append (hs : Inert stop) (c : Char) (hcs : stop ∈ cs) (ds : List Char) :
    Extends stop ds (symbolLexemes c cs) (symbolLexemes c (cs ++ ds)) := by
  unfold symbolLexemes
  rw [startsIdent_append hs hcs, startsName_append hs hcs]
  refine .ite (fun _ h => ?_) fun _ => .ite (fun _ h => ?_) fun _ => ?_
  · rw [takeName_append hs h]
  · rw [takeName_append hs h]
  -- Names and hashes go through `takeName`, the rest is looked at one character at a time.
  -- The six brackets.
  iterate 6 refine .ite (fun _ _ => rfl) fun _ => ?_
  refine .ite (fun _ h => stringLexemes_append hs h ds) fun _ h => ?_
  rw [punctuation_append hs hcs h]

theorem take_two_append (hs : Inert stop) (h : stop ∈ cs) (ds : List Char) :
    (cs ++ ds).take 2 = ['-', '>'] ↔ cs.take 2 = ['-', '>'] := by
  have hclose : stop ∉ ['-', '>'] := by rcases hs with rfl | rfl <;> decide
  have htake : ∀ es : List Char, es.take 2 = ['-', '>'] ↔ ['-', '>'] <+: es := fun es =>
    eq_comm.trans List.prefix_iff_eq_take.symm
  rw [htake, htake, isPrefix_append_iff h hclose]

/-- A step that leaves an inert character gives the same lexemes before a longer text. -/
theorem next_append (hs : Inert stop) {c : Char} (h : stop ∈ (next c cs).2) (ds : List Char) :
    next c (cs ++ ds) = ((next c cs).1, (next c cs).2 ++ ds) := by
  -- The step takes at least `c`, so what it leaves is a suffix of `cs`.
  have hcs : stop ∈ cs := by
    rcases List.suffix_cons_iff.mp (next_suffix c cs) with hall | hrest
    · have hlen := length_next c cs
      rw [hall, List.length_cons] at hlen
      omega
    · exact hrest.subset h
  have hall : stop ∈ c :: cs := List.mem_cons_of_mem c hcs
  have hident := startsIdent_append hs hall ds
  have hread := Numeral.read?_append hs hall ds
  rw [List.cons_append] at hident hread
  suffices hstep : Extends stop ds (next c cs) (next c (cs ++ ds)) from hstep h
  unfold next
  simp only [startsRange_append hs hcs, take_two_append hs hcs, hident, hread]
  refine .ite (fun _ _ => ?_) fun _ => .ite (fun _ h => ?_) fun _ => .ite (fun hclose _ => ?_)
    fun _ => .ite (fun _ h => nameLexemes_append hs h ds) fun _ => ?_
  · rw [takeWhile_append_of_mem hs.isWhitespace hcs, dropWhile_append_of_mem hs.isWhitespace hcs]
  · have hrange : stop ∈ cs.tail := (takeRange_suffix _).subset h
    rw [List.tail_append_of_ne_nil (List.ne_nil_of_mem hcs), takeRange_append hs hrange]
  · simp only [Bool.and_eq_true, decide_eq_true_eq] at hclose
    have hlen := (List.take_prefix 2 cs).length_le
    rw [hclose.2, List.length_cons, List.length_singleton] at hlen
    rw [List.drop_append_of_le_length hlen]
  · cases hn : Numeral.read? (c :: cs) with
    | none => exact symbolLexemes_append hs c hcs ds
    | some r =>
      exact fun h => numberLexemes_append hs r.1 (Numeral.mem_of_read? hs hall hn) h ds

end CssExpand.Syntax
