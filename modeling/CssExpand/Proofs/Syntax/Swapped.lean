import CssExpand.Proofs.Syntax.Locality
import CssExpand.Proofs.Syntax.Rereading
import Mathlib

/-!
# What a step reads in front of a slash or a space

Two texts are swapped if they are the same up to a place where the one goes on with a slash and the
other one with a space (`Swapped`). A step that reads the one text up to that place or less reads the
same in the other one, and what is left is swapped again (`next_swapped`). For neither of the two
characters prolongs anything that a step reads.

There is one exception. An escape takes the space that comes after its code. So an atom that ends in
an escape in front of the slash ends behind the space, and then the text there must not prolong it.

Locality is about texts with more behind them, and this is about texts with something else behind them.
There, a character that is left over says where a reader stopped. Here it is the text from the slash on.
-/

set_option autoImplicit false

namespace CssExpand.Syntax

/-- Two texts that are the same up to a place where the one goes on with a slash and `x`, and the other
one with a space and `y`. Here a comment opens in the first text. Up to there both are scanned in step. -/
inductive Swapped (x y : List Char) : List Char → List Char → Prop
  | here : Swapped x y ('/' :: x) (' ' :: y)
  | cons (c : Char) {cs ds : List Char} (rest : Swapped x y cs ds) : Swapped x y (c :: cs) (c :: ds)

variable {x y cs ds : List Char}

/-! ## 1. Looking ahead -/

namespace Swapped

theorem append (front : List Char) (h : Swapped x y cs ds) :
    Swapped x y (front ++ cs) (front ++ ds) := by
  induction front with
  | nil => exact h
  | cons c front ih => exact .cons c ih

theorem suffix (h : Swapped x y cs ds) : '/' :: x <:+ cs := by
  induction h with
  | here => exact List.suffix_refl _
  | cons c _ ih => exact ih.trans (List.suffix_cons c _)

theorem head?_any {p : Char → Bool} (hp : p '/' = p ' ') (h : Swapped x y cs ds) :
    ds.head?.any p = cs.head?.any p := by
  cases h with
  | here => simp [hp]
  | cons c _ => rfl

theorem head?_eq {c : Char} (hslash : c ≠ '/') (hspace : c ≠ ' ') (h : Swapped x y cs ds) :
    ds.head? = some c ↔ cs.head? = some c := by
  cases h with
  | here => simp [Ne.symm hslash, Ne.symm hspace]
  | cons d _ => rfl

theorem startsEscape (h : Swapped x y cs ds) : startsEscape ds = startsEscape cs := by
  cases h with
  | here => rfl
  | cons c rest =>
    by_cases hc : c = '\\'
    · subst hc
      cases rest with
      | here => rfl
      | cons d _ => rw [startsEscape_backslash, startsEscape_backslash]; rfl
    · simp [Syntax.startsEscape, hc]

theorem startsName (h : Swapped x y cs ds) : startsName ds = startsName cs := by
  rw [Syntax.startsName, Syntax.startsName, h.startsEscape, h.head?_any (by decide)]

theorem startsIdent (h : Swapped x y cs ds) : startsIdent ds = startsIdent cs := by
  cases h with
  | here => rfl
  | cons c rest =>
    by_cases hc : c = '-'
    · subst hc
      rw [Syntax.startsIdent, Syntax.startsIdent, rest.startsEscape, rest.head?_any (by decide)]
    · have hplain : ∀ es, Syntax.startsIdent (c :: es) =
          (isNameStart c || Syntax.startsEscape (c :: es)) := by
        simp [Syntax.startsIdent, hc]
      rw [hplain, hplain, (Swapped.cons c rest).startsEscape]

theorem startsRange (h : Swapped x y cs ds) : startsRange ds = startsRange cs := by
  cases h with
  | here => rfl
  | cons c rest =>
    by_cases hc : c = '+'
    · subst hc
      cases rest with
      | here => rfl
      | cons d _ => rfl
    · simp [Syntax.startsRange, hc]

/-- Something without a slash or a space starts both texts or neither. -/
theorem isPrefix_iff {front : List Char} (hslash : '/' ∉ front) (hspace : ' ' ∉ front)
    (h : Swapped x y cs ds) : front <+: ds ↔ front <+: cs := by
  induction front generalizing cs ds with
  | nil => simp
  | cons c front ih =>
    rw [List.mem_cons, not_or] at hslash hspace
    cases h with
    | here => simp [List.cons_prefix_cons, Ne.symm hslash.1, Ne.symm hspace.1]
    | cons d rest => rw [List.cons_prefix_cons, List.cons_prefix_cons, ih hslash.2 hspace.2 rest]

/-- A counted run ends before the place where the texts differ, if neither of the two characters there
belongs to it. -/
theorem drop_takeWhile_take {p : Char → Bool} (hslash : p '/' = false) (hspace : p ' ' = false)
    (h : Swapped x y cs ds) (k : Nat) : (ds.take k).takeWhile p = (cs.take k).takeWhile p ∧
      Swapped x y (cs.drop ((cs.take k).takeWhile p).length)
        (ds.drop ((cs.take k).takeWhile p).length) := by
  induction h generalizing k with
  | here =>
    cases k with
    | zero => exact ⟨rfl, .here⟩
    | succ k => simpa [hslash, hspace] using Swapped.here
  | @cons c cs ds rest ih =>
    cases k with
    | zero => exact ⟨rfl, .cons c rest⟩
    | succ k =>
      cases hc : p c with
      | true => simpa [hc] using ih k
      | false => simpa [hc] using Swapped.cons c rest

theorem dropWhile {p : Char → Bool} (hslash : p '/' = false) (hspace : p ' ' = false)
    (h : Swapped x y cs ds) :
    ds.takeWhile p = cs.takeWhile p ∧ Swapped x y (cs.dropWhile p) (ds.dropWhile p) := by
  induction h with
  | here => simpa [hslash, hspace] using Swapped.here
  | @cons c cs ds rest ih =>
    cases hc : p c with
    | true => simpa [hc] using ih
    | false => simpa [hc] using Swapped.cons c rest

/-- Whitespace ends in front of the slash, if not before. -/
theorem dropWhile_isWhitespace (h : Swapped x y cs ds) :
    cs.dropWhile isWhitespace = '/' :: x ∨
      Swapped x y (cs.dropWhile isWhitespace) (ds.dropWhile isWhitespace) := by
  induction h with
  | here => exact .inl rfl
  | @cons c cs ds rest ih =>
    cases hc : isWhitespace c with
    | true => simpa [hc] using ih
    | false => exact .inr (by simpa [hc] using Swapped.cons c rest)

end Swapped

/-- The text from the slash on is longer than what is behind the slash. -/
theorem not_suffix_of_suffix {rest : List Char} (h : rest <:+ x) : ¬ '/' :: x <:+ rest := by
  intro hs
  have h1 := h.length_le
  have h2 := hs.length_le
  rw [List.length_cons] at h2
  omega

/-- The place is the only one. -/
theorem Swapped.unique {es : List Char} (h : Swapped x y cs ds) (h' : Swapped x y cs es) :
    ds = es := by
  induction h generalizing es with
  | here =>
    cases h' with
    | here => rfl
    | cons _ h' => exact absurd h'.suffix (not_suffix_of_suffix (List.suffix_refl x))
  | cons c h ih =>
    cases h' with
    | here => exact absurd h.suffix (not_suffix_of_suffix (List.suffix_refl x))
    | cons _ h' => rw [ih h']

/-! ## 2. Names -/

/-- What is left of two swapped texts: swapped texts again, or what comes after the slash and the space
of which only the space was read. -/
def Leaves (x y rest rest' : List Char) : Prop :=
  Swapped x y rest rest' ∨ rest = '/' :: x ∧ rest' = y

/-- An escape that does not take the slash takes the same in both texts. The blank that ends it may be
the one that stands for the comment, which is why what is left is `Leaves` and not `Swapped`. -/
theorem takeEscape_swapped (h : Swapped x y cs ds) (hs : '/' :: x <:+ (takeEscape cs).2) :
    (takeEscape ds).1 = (takeEscape cs).1 ∧ Leaves x y (takeEscape cs).2 (takeEscape ds).2 := by
  obtain ⟨hdigits, hdrop⟩ := h.drop_takeWhile_take (p := isHexDigit) (by decide) (by decide) 6
  unfold takeEscape at hs ⊢
  dsimp only at hs ⊢
  rw [hdigits]
  split at hs
  · rw [if_pos ‹_›, if_pos ‹_›]
    cases h with
    | here => exact absurd hs (not_suffix_of_suffix (List.suffix_refl x))
    | cons c rest => exact ⟨rfl, .inl rest⟩
  · rw [if_neg ‹_›, if_neg ‹_›]
    refine ⟨rfl, ?_⟩
    generalize cs.drop ((cs.take 6).takeWhile isHexDigit).length = es at hdrop ⊢
    generalize ds.drop ((cs.take 6).takeWhile isHexDigit).length = fs at hdrop ⊢
    cases hdrop with
    | here => exact .inr ⟨rfl, rfl⟩
    | cons c rest =>
      rw [dropOneWhitespace, dropOneWhitespace]
      split
      · exact .inl rest
      · exact .inl (.cons c rest)

theorem takeName_slash : takeName ('/' :: x) = ([], '/' :: x) := takeName_of_not_startsName rfl

/-- The same name is read in both texts, if none goes on behind the space. -/
theorem takeName_swapped (h : Swapped x y cs ds) (hs : '/' :: x <:+ (takeName cs).2)
    (hy : (takeName cs).2 = '/' :: x → startsName y = false) :
    (takeName ds).1 = (takeName cs).1 ∧ Leaves x y (takeName cs).2 (takeName ds).2 := by
  fun_induction takeName cs generalizing ds with
  | case1 => cases h
  | case2 rest hbreak =>
    cases h with
    | cons _ h =>
      rw [takeName, if_pos rfl, if_pos ((h.head?_eq (by decide) (by decide)).mpr hbreak)]
      exact ⟨rfl, .inl (.cons _ h)⟩
  | case3 rest hbreak tail =>
    rename_i ih
    cases h with
    | cons _ h =>
      -- an escape may run up to the swapped place, where a comment and a space part
      have hbreak' := mt (h.head?_eq (by decide) (by decide)).mp hbreak
      obtain ⟨hchar, hleft⟩ := takeEscape_swapped h (hs.trans (takeName_suffix _))
      rw [takeName_escape hbreak', hchar]
      rcases hleft with hleft | ⟨hslash, hspace⟩
      · obtain ⟨hname, hrest⟩ := ih hleft hs hy
        exact ⟨congrArg (_ :: ·) hname, hrest⟩
      · -- The escape takes the space, and the name ends behind it.
        have htail : tail = ([], '/' :: x) := by rw [← takeName_slash, ← hslash]
        rw [htail] at hy ⊢
        rw [hspace, takeName_of_not_startsName (hy rfl)]
        exact ⟨rfl, .inr ⟨rfl, rfl⟩⟩
  | case4 c rest hc hname tail =>
    rename_i ih
    cases h with
    | here => exact absurd hname (by decide)
    | cons _ h =>
      obtain ⟨hname', hrest⟩ := ih h hs hy
      rw [takeName_char hname]
      exact ⟨congrArg (_ :: ·) hname', hrest⟩
  | case5 c rest hc hname =>
    cases h with
    | here =>
      rw [takeName_of_not_startsName rfl]
      exact ⟨rfl, .inl .here⟩
    | cons _ h =>
      rw [takeName, if_neg hc, if_neg hname]
      exact ⟨rfl, .inl (.cons c h)⟩

/-! ## 3. Strings, urls and comments -/

/-- The same string is read in both texts, if it ends in front of the slash. -/
theorem takeString_swapped {quote : Char} (hslash : quote ≠ '/') (h : Swapped x y cs ds)
    (hs : '/' :: x <:+ (takeString quote cs).rest) :
    (takeString quote ds).value = (takeString quote cs).value ∧
      (takeString quote ds).ending = (takeString quote cs).ending ∧
      Swapped x y (takeString quote cs).rest (takeString quote ds).rest := by
  -- A string that reaches the slash takes it, and then the slash is not in the rest.
  have hover : ¬ '/' :: x <:+ (takeString quote ('/' :: x)).rest := by
    rw [takeString.eq_def]
    simp only [if_neg hslash.symm]
    exact not_suffix_of_suffix (takeString_suffix quote x)
  fun_induction takeString quote cs generalizing ds with
  | case1 => cases h
  | case2 rest =>
    cases h with
    | here => exact absurd rfl hslash
    | cons _ h =>
      rw [takeString.eq_def]
      simpa using h
  | case3 =>
    cases h with
    | cons _ h => cases h
  | case4 rest hquote ih =>
    cases h with
    | cons _ h =>
      cases h with
      | cons _ h =>
        rw [takeString, if_neg hquote, if_pos rfl]
        exact ih h hs
  | case5 d rest hbreak hquote ih =>
    cases h with
    | @cons _ _ es h =>
      obtain ⟨hchar, hleft⟩ := takeEscape_swapped h (hs.trans (takeString_suffix quote _))
      rcases hleft with hleft | ⟨hend, -⟩
      · obtain ⟨hvalue, hending, hrest⟩ := ih hleft hs
        have hescape : takeString quote ('\\' :: es) =
            (takeString quote (takeEscape es).2).push (takeEscape es).1 := by
          cases h with
          | here => rw [takeString, if_neg hquote, if_pos rfl, if_neg (by decide)]
          | cons _ h => rw [takeString, if_neg hquote, if_pos rfl, if_neg hbreak]
        rw [hescape]
        exact ⟨by simp [Reading.push, hchar, hvalue], hending, hrest⟩
      · -- An escape in front of the slash leaves the string open there.
        rw [Reading.push, hend] at hs
        exact absurd hs hover
  | case6 rest hquote hbackslash =>
    cases h with
    | cons _ h =>
      rw [takeString.eq_def]
      simpa [hquote] using Swapped.cons _ h
  | case7 c rest hquote hbackslash hbreak ih =>
    cases h with
    | here =>
      rw [takeString.eq_def] at hover
      simp only [if_neg hslash.symm] at hover
      exact absurd hs hover
    | cons _ h =>
      obtain ⟨hvalue, hending, hrest⟩ := ih h hs
      rw [takeString.eq_def]
      simpa [Reading.push, hquote, hbackslash, hbreak, hvalue, hending] using hrest

/-- A url goes on behind a slash. -/
theorem not_suffix_takeUrl : ¬ '/' :: x <:+ (takeUrl ('/' :: x)).rest := by
  have hslash : takeUrl ('/' :: x) = (takeUrl x).push '/' := by
    rw [takeUrl.eq_def]
    simp [isWhitespace, startsEscape, breaksUrl]
  rw [hslash]
  exact not_suffix_of_suffix (takeUrl_suffix x)

/-- The same url is read in both texts, if it is closed in front of the slash. -/
theorem takeUrl_swapped (h : Swapped x y cs ds) (hclosed : (takeUrl cs).ending = .closed)
    (hs : '/' :: x <:+ (takeUrl cs).rest) :
    (takeUrl ds).value = (takeUrl cs).value ∧ (takeUrl ds).ending = .closed ∧
      Swapped x y (takeUrl cs).rest (takeUrl ds).rest := by
  fun_induction takeUrl cs generalizing ds with
  | case1 => cases h
  | case2 rest =>
    cases h with
    | cons _ h =>
      rw [takeUrl.eq_def]
      simpa using h
  | case3 => cases hclosed
  -- The blank that stands for the comment could be the first of the blanks before the bracket, but then
  -- the other text has no bracket there.
  | case4 c rest hclose hwhite rest' hdrop =>
    cases h with
    | here => exact absurd hwhite (by decide)
    | @cons _ _ es h =>
      rcases h.dropWhile_isWhitespace with hend | hleft
      · rw [hend] at hdrop
        cases hdrop
      · rw [hdrop] at hleft
        generalize hfs : es.dropWhile isWhitespace = fs at hleft
        cases hleft with
        | cons _ hleft =>
          rw [takeUrl.eq_def]
          simpa [hclose, hwhite, hfs] using hleft
  | case5 c rest hclose hwhite d rest' hdrop hd => cases hclosed
  | case6 c rest hclose hwhite hescape ih =>
    have hescape' := h.startsEscape.trans hescape
    cases h with
    | here => cases hescape
    | @cons _ _ es h =>
      obtain ⟨hchar, hleft⟩ := takeEscape_swapped h (hs.trans (takeUrl_suffix _))
      rcases hleft with hleft | ⟨hend, -⟩
      · obtain ⟨hvalue, hending, hrest⟩ := ih hleft hclosed hs
        have hone : takeUrl (c :: es) = (takeUrl (takeEscape es).2).push (takeEscape es).1 := by
          rw [takeUrl.eq_def]
          simp [hclose, hwhite, hescape']
        rw [hone]
        exact ⟨by simp [Reading.push, hchar, hvalue], hending, hrest⟩
      · rw [Reading.push, hend] at hs
        exact absurd hs not_suffix_takeUrl
  | case7 => cases hclosed
  | case8 c rest hclose hwhite hescape hbreaks ih =>
    have hescape' := h.startsEscape.trans (Bool.eq_false_iff.mpr hescape)
    cases h with
    | here => exact absurd hs (not_suffix_of_suffix (takeUrl_suffix x))
    | @cons _ _ es h =>
      obtain ⟨hvalue, hending, hrest⟩ := ih h hclosed hs
      have hone : takeUrl (c :: es) = (takeUrl es).push c := by
        rw [takeUrl.eq_def]
        simp [hclose, hwhite, hescape', hbreaks]
      rw [hone]
      exact ⟨by simp [Reading.push, hvalue], hending, hrest⟩

/-- The same comment is read in both texts, if it is closed in front of the slash. -/
theorem takeComment_swapped (h : Swapped x y cs ds) (hs : '/' :: x <:+ (takeComment cs).2) :
    (takeComment ds).1 = (takeComment cs).1 ∧ Swapped x y (takeComment cs).2 (takeComment ds).2 := by
  fun_induction takeComment cs generalizing ds with
  | case1 => cases h
  | case2 rest =>
    cases h with
    | cons _ h =>
      cases h with
      | here => exact absurd hs (not_suffix_of_suffix (List.suffix_refl x))
      | cons _ h => exact ⟨rfl, h⟩
  | case3 c rest hclose ih =>
    cases h with
    | here => exact absurd hs (not_suffix_of_suffix (takeComment_suffix x))
    | @cons _ _ es h =>
      obtain ⟨htext, hrest⟩ := ih h hs
      rw [takeComment]
      · exact ⟨congrArg (c :: ·) htext, hrest⟩
      · rintro fs rfl rfl
        cases h with
        | cons _ h => exact hclose _ rfl rfl

/-! ## 4. Numerals and ranges -/

theorem takeSign_swapped (h : Swapped x y cs ds) :
    (takeSign ds).1 = (takeSign cs).1 ∧ Swapped x y (takeSign cs).2 (takeSign ds).2 := by
  cases h with
  | here => exact ⟨rfl, .here⟩
  | cons c h =>
    by_cases hplus : c = '+'
    · subst hplus
      exact ⟨rfl, h⟩
    · by_cases hminus : c = '-'
      · subst hminus
        exact ⟨rfl, h⟩
      · simpa [takeSign, hplus, hminus] using Swapped.cons c h

/-- A fraction is the same and leaves the place behind. -/
theorem takeFraction_swapped (h : Swapped x y cs ds) :
    (takeFraction ds).1 = (takeFraction cs).1 ∧
      Swapped x y (takeFraction cs).2 (takeFraction ds).2 := by
  cases h with
  | here => exact ⟨rfl, .here⟩
  | cons c h =>
    by_cases hc : c = '.'
    · subst hc
      obtain ⟨hdigits, hrest⟩ := h.dropWhile (p := Char.isDigit) (by decide) (by decide)
      rw [takeFraction, takeFraction, hdigits]
      split
      · exact ⟨rfl, .cons _ h⟩
      · exact ⟨rfl, hrest⟩
    · simpa [takeFraction, hc] using Swapped.cons c h

theorem takeExponent_swapped (h : Swapped x y cs ds) :
    (takeExponent ds).1 = (takeExponent cs).1 ∧
      Swapped x y (takeExponent cs).2 (takeExponent ds).2 := by
  cases h with
  | here => exact ⟨rfl, .here⟩
  | cons c h =>
    obtain ⟨hsign, hsigned⟩ := takeSign_swapped h
    obtain ⟨hdigits, hrest⟩ := hsigned.dropWhile (p := Char.isDigit) (by decide) (by decide)
    rw [takeExponent, takeExponent, hsign, hdigits]
    split
    · exact ⟨rfl, hrest⟩
    · exact ⟨rfl, .cons c h⟩

/-- The same numeral is read in both texts. -/
theorem Numeral.read?_swapped (h : Swapped x y cs ds) :
    Numeral.read? cs = none ∧ Numeral.read? ds = none ∨
      ∃ n rest rest', Numeral.read? cs = some (n, rest) ∧ Numeral.read? ds = some (n, rest') ∧
        Swapped x y rest rest' := by
  obtain ⟨hsign, hsigned⟩ := takeSign_swapped h
  obtain ⟨hwhole, hbehind⟩ := hsigned.dropWhile (p := Char.isDigit) (by decide) (by decide)
  obtain ⟨hfraction, hpast⟩ := takeFraction_swapped hbehind
  obtain ⟨hexponent, hrest⟩ := takeExponent_swapped hpast
  simp only [Numeral.read?, hsign, hwhole, hfraction, hexponent]
  split
  · exact .inl ⟨rfl, rfl⟩
  · exact .inr ⟨_, _, _, rfl, rfl, hrest⟩

/-- So does a range of characters, in each of its three forms. -/
theorem takeRange_swapped (h : Swapped x y cs ds) :
    (takeRange ds).1 = (takeRange cs).1 ∧ Swapped x y (takeRange cs).2 (takeRange ds).2 := by
  obtain ⟨hdigits, hbehind⟩ := h.drop_takeWhile_take (p := isHexDigit) (by decide) (by decide) 6
  unfold takeRange
  dsimp only
  rw [hdigits]
  generalize (cs.take 6).takeWhile isHexDigit = digits at hbehind ⊢
  generalize cs.drop digits.length = es at hbehind ⊢
  generalize ds.drop digits.length = fs at hbehind ⊢
  obtain ⟨hmarks, hpast⟩ := hbehind.drop_takeWhile_take (p := (· == '?')) (by decide) (by decide)
    (6 - digits.length)
  rw [hmarks]
  split
  · exact ⟨rfl, hpast⟩
  · cases hbehind with
    | here => exact ⟨rfl, .here⟩
    | cons c hbehind =>
      by_cases hc : c = '-'
      · subst hc
        obtain ⟨hlast, hrest⟩ :=
          hbehind.drop_takeWhile_take (p := isHexDigit) (by decide) (by decide) 6
        simp only [hlast]
        split
        · exact ⟨rfl, .cons _ hbehind⟩
        · exact ⟨rfl, hrest⟩
      · simpa [hc] using Swapped.cons c hbehind

/-! ## 5. One step -/

/-- Of two swapped texts, two steps read the same. What they leave is swapped again; or else an atom ends
in front of the slash, and with the space. -/
def Alike (x y : List Char) (step step' : List Lexeme × List Char) : Prop :=
  step'.1 = step.1 ∧ (Swapped x y step.2 step'.2 ∨
    (∃ a, step.1 = [.atom a]) ∧ step.2 = '/' :: x ∧ step'.2 = y)

/-- Whether a lexeme ends in a name, and may so end in an escape. -/
def Lexeme.endsInName : Lexeme → Bool
  | .atom (.ident _) | .atom (.atKeyword _) | .atom (.hash _ _) | .atom (.dimension _ _) => true
  | _ => false

/-- If a step finds no fault and reads no further than up to the slash, the other one is like it. A name
that ends right there needs something that separates behind the space. -/
def Copies (x y : List Char) (step step' : List Lexeme × List Char) : Prop :=
  (∀ l ∈ step.1, l.isFault = false) → '/' :: x <:+ step.2 →
    (step.2 = '/' :: x → (∀ l ∈ step.1, l.endsInName = false) ∨ Separates y) →
    Alike x y step step'

theorem Copies.ite {p : Prop} [Decidable p] {a a' b b' : List Lexeme × List Char}
    (ha : p → Copies x y a a') (hb : ¬p → Copies x y b b') :
    Copies x y (if p then a else b) (if p then a' else b') := by
  by_cases hp : p
  · rw [if_pos hp, if_pos hp]
    exact ha hp
  · rw [if_neg hp, if_neg hp]
    exact hb hp

theorem Copies.of_swapped (ls : List Lexeme) (h : Swapped x y cs ds) :
    Copies x y (ls, cs) (ls, ds) := fun _ _ _ => ⟨rfl, .inl h⟩

/-- A name with something in front of it that makes an atom of it. -/
theorem copies_takeName (f : List Char → Atom) (hf : ∀ name, (Lexeme.atom (f name)).endsInName = true)
    (h : Swapped x y cs ds) :
    Copies x y ([.atom (f (takeName cs).1)], (takeName cs).2)
      ([.atom (f (takeName ds).1)], (takeName ds).2) := by
  intro _ hs hy
  obtain ⟨hname, hrest⟩ := takeName_swapped h hs fun hend => by
    rcases hy hend with hno | hy
    · have hname := hno _ List.mem_cons_self
      rw [hf] at hname
      cases hname
    · exact hy.startsName
  refine ⟨by rw [hname], ?_⟩
  rcases hrest with hrest | ⟨hend, hbehind⟩
  · exact .inl hrest
  · exact .inr ⟨⟨_, rfl⟩, hend, hbehind⟩

/-- A string that ends before the place is the same in both. One that goes on over it is no case, for
then the place is inside of a lexeme and not between two. -/
theorem copies_stringLexemes {quote : Char} (hslash : quote ≠ '/') (h : Swapped x y cs ds) :
    Copies x y (stringLexemes quote cs) (stringLexemes quote ds) := by
  have hstep : ∀ {es}, (takeString quote es).ending = .closed → stringLexemes quote es =
      ([.atom (.string (takeString quote es).value true)], (takeString quote es).rest) :=
    fun hes => by simp [stringLexemes, hes]
  intro hf hs _
  have hclosed : (takeString quote cs).ending = .closed := by
    unfold stringLexemes at hf
    dsimp only at hf
    split at hf
    · assumption
    · simp [Lexeme.isFault] at hf
    · simp [Lexeme.isFault] at hf
  rw [hstep hclosed] at hs ⊢
  obtain ⟨hvalue, hending, hrest⟩ := takeString_swapped hslash h hs
  rw [hstep (hending.trans hclosed), hvalue]
  exact ⟨rfl, .inl hrest⟩

/-- The same for a url, closed or broken. -/
theorem copies_urlLexemes (h : Swapped x y cs ds) :
    Copies x y (urlLexemes cs) (urlLexemes ds) := by
  have hstep : ∀ {es}, (takeUrl (es.dropWhile isWhitespace)).ending = .closed → urlLexemes es =
      ([.atom (.url (takeUrl (es.dropWhile isWhitespace)).value true)],
        (takeUrl (es.dropWhile isWhitespace)).rest) :=
    fun hes => by simp [urlLexemes, hes]
  intro hf hs _
  have hclosed : (takeUrl (cs.dropWhile isWhitespace)).ending = .closed := by
    unfold urlLexemes at hf
    dsimp only at hf
    split at hf
    · assumption
    · simp [Lexeme.isFault] at hf
    · simp [Lexeme.isFault] at hf
  rw [hstep hclosed] at hs ⊢
  rcases h.dropWhile_isWhitespace with hend | hleft
  · rw [hend] at hs
    exact absurd hs not_suffix_takeUrl
  · obtain ⟨hvalue, hending, hrest⟩ := takeUrl_swapped hleft hclosed hs
    rw [hstep hending, hvalue]
    exact ⟨rfl, .inl hrest⟩

/-- Whether a url has quotes shows in both texts. -/
theorem quoted_swapped (h : Swapped x y cs ds) :
    cs.dropWhile isWhitespace = '/' :: x ∨
      (ds.dropWhile isWhitespace).head?.any (fun c => c == '"' || c == '\'') =
        (cs.dropWhile isWhitespace).head?.any fun c => c == '"' || c == '\'' :=
  h.dropWhile_isWhitespace.imp_right fun hleft => hleft.head?_any (by decide)

theorem nameLexemes_ident (h : (takeName cs).2.head? ≠ some '(') :
    nameLexemes cs = ([.atom (.ident (takeName cs).1)], (takeName cs).2) := by
  unfold nameLexemes
  dsimp only
  split
  · next hrest => exact absurd (by rw [hrest]; rfl) h
  · rfl

theorem nameLexemes_open {inside : List Char} (h : (takeName cs).2 = '(' :: inside) :
    nameLexemes cs =
      if Text.asciiLower (takeName cs).1 = ['u', 'r', 'l'] &&
          !(inside.dropWhile isWhitespace).head?.any (fun c => c == '"' || c == '\'') then
        urlLexemes inside
      else ([.openFunction (takeName cs).1], inside) := by
  simp only [nameLexemes, h]

theorem copies_nameLexemes (h : Swapped x y cs ds) :
    Copies x y (nameLexemes cs) (nameLexemes ds) := by
  cases hopen : (takeName cs).2.head? == some '(' with
  | false =>
    have hident : (takeName cs).2.head? ≠ some '(' := by simpa using hopen
    rw [nameLexemes_ident hident]
    intro hf hs hy
    have hcopy := copies_takeName .ident (fun _ => rfl) h hf hs hy
    rwa [nameLexemes_ident]
    -- Nor does a bracket stand behind the name in the other text.
    rcases hcopy.2 with hrest | ⟨-, hend, hbehind⟩
    · exact mt (hrest.head?_eq (by decide) (by decide)).mp hident
    · rw [hbehind]
      rcases hy hend with hno | hy
      · cases hno _ List.mem_cons_self
      · intro hparen
        exact absurd (hy _ hparen) (by decide)
  | true =>
    obtain ⟨inside, hinside⟩ : ∃ inside, (takeName cs).2 = '(' :: inside :=
      List.head?_eq_some_iff.mp (by simpa using hopen)
    intro hf hs hy
    have hsuffix : '/' :: x <:+ inside := by
      rw [nameLexemes_open hinside] at hs
      split at hs
      · exact hs.trans (urlLexemes_suffix inside)
      · exact hs
    obtain ⟨hname, hrest⟩ := takeName_swapped h (hinside ▸ hsuffix.trans (List.suffix_cons _ _))
      fun hend => by
        rw [hinside] at hend
        cases hend
    rw [hinside] at hrest
    obtain ⟨inside', hinside', hleft⟩ :
        ∃ inside', (takeName ds).2 = '(' :: inside' ∧ Swapped x y inside inside' := by
      rcases hrest with hrest | ⟨hend, -⟩
      · generalize (takeName ds).2 = rest at hrest
        cases hrest with
        | cons _ hleft => exact ⟨_, rfl, hleft⟩
      · cases hend
    rw [nameLexemes_open hinside] at hf hs hy ⊢
    rw [nameLexemes_open hinside', hname]
    rcases quoted_swapped hleft with hend | hquoted
    · -- A url without quotes would go on behind the slash.
      by_cases hurl : Text.asciiLower (takeName cs).1 = ['u', 'r', 'l']
      · have hrest : (urlLexemes inside).2 <:+ (takeUrl (inside.dropWhile isWhitespace)).rest := by
          unfold urlLexemes
          dsimp only
          split
          · exact List.suffix_refl _
          · exact List.suffix_refl _
          · exact dropBrokenUrl_suffix _
        simp only [hend, hurl] at hs hrest
        exact absurd (hs.trans hrest) not_suffix_takeUrl
      · simp only [hurl, decide_false, Bool.false_and, Bool.false_eq_true, if_false]
        exact ⟨rfl, .inl hleft⟩
    · rw [hquoted]
      exact Copies.ite (fun _ => copies_urlLexemes hleft) (fun _ => .of_swapped _ hleft) hf hs hy

theorem copies_numberLexemes (n : Numeral) (h : Swapped x y cs ds) :
    Copies x y (numberLexemes n cs) (numberLexemes n ds) := by
  unfold numberLexemes
  rw [h.startsIdent]
  refine .ite (fun _ => copies_takeName (.dimension n) (fun _ => rfl) h) fun _ => ?_
  cases h with
  | here => exact .of_swapped _ .here
  | cons c h =>
    by_cases hc : c = '%'
    · subst hc
      exact .of_swapped _ h
    · simpa [hc] using Copies.of_swapped _ (.cons c h)

theorem copies_punctuation (c : Char) (h : Swapped x y cs ds) :
    Copies x y ([(punctuation c cs).1], (punctuation c cs).2)
      ([(punctuation c ds).1], (punctuation c ds).2) := by
  -- What does not start with a longer literal does not start with it in the other text.
  have hlonger : ∀ front : List Char, '/' ∉ front → ' ' ∉ front → (∀ rest, cs ≠ front ++ rest) →
      ∀ rest, ds ≠ front ++ rest := by
    intro front hslash hspace hne rest heq
    obtain ⟨rest', hrest⟩ := (h.isPrefix_iff hslash hspace).mp ⟨rest, heq.symm⟩
    exact hne rest' hrest.symm
  fun_cases punctuation c cs with
  | case1 rest =>
    cases h with
    | cons _ h =>
      intro _ hs _
      obtain ⟨htext, hrest⟩ := takeComment_swapped h hs
      rw [punctuation, htext]
      exact ⟨rfl, .inl hrest⟩
  | case2 rest =>
    cases h with
    | cons _ h =>
      cases h with
      | cons _ h =>
        cases h with
        | cons _ h => exact .of_swapped _ h
  | case3 rest =>
    cases h with
    | cons _ h => exact .of_swapped _ h
  | case4 c rest hc =>
    cases h with
    | cons _ h =>
      simp only [punctuation, if_pos hc]
      exact .of_swapped _ h
  | case5 c rest hc =>
    cases h with
    | cons _ h =>
      simp only [punctuation, if_neg hc]
      exact .of_swapped _ (.cons _ h)
  | case6 c rest hcomment hhidden hbars hequals =>
    rw [punctuation.eq_5]
    · exact .of_swapped _ h
    · exact hlonger ['='] (by simp) (by simp) hequals
    · exact fun rest' hc => hlonger ['*'] (by simp) (by simp) (hcomment · hc) rest'
    · exact fun rest' hc => hlonger ['!', '-', '-'] (by simp) (by simp) (hhidden · hc) rest'
    · exact fun rest' hc => hlonger ['|'] (by simp) (by simp) (hbars · hc) rest'

theorem copies_symbolLexemes (c : Char) (h : Swapped x y cs ds) :
    Copies x y (symbolLexemes c cs) (symbolLexemes c ds) := by
  unfold symbolLexemes
  rw [h.startsIdent, h.startsName]
  refine .ite (fun _ => copies_takeName .atKeyword (fun _ => rfl) h) fun _ =>
    .ite (fun _ => copies_takeName (.hash · _) (fun _ => rfl) h) fun _ => ?_
  -- The six brackets.
  iterate 6 refine .ite (fun _ => .of_swapped _ h) fun _ => ?_
  refine .ite (fun hquote => copies_stringLexemes ?_ h) fun _ => copies_punctuation c h
  rintro rfl
  exact absurd hquote (by decide)

/-- A step that finds no fault and reads no further than up to the slash is copied by the step in the
other text. Only whitespace is longer there. -/
theorem next_swapped {c : Char} (hc : isWhitespace c = false) (h : Swapped x y cs ds) :
    Copies x y (next c cs) (next c ds) := by
  have hall := Swapped.cons c h
  have htake : ds.take 2 = ['-', '>'] ↔ cs.take 2 = ['-', '>'] := by
    have hiff : ∀ es : List Char, es.take 2 = ['-', '>'] ↔ ['-', '>'] <+: es := fun es =>
      eq_comm.trans List.prefix_iff_eq_take.symm
    rw [hiff, hiff, h.isPrefix_iff (by decide) (by decide)]
  unfold next
  simp only [hc, Bool.false_eq_true, if_false, h.startsRange, htake, hall.startsIdent]
  refine .ite (fun hrange => ?_) fun _ => .ite (fun hclose => ?_) fun _ =>
    .ite (fun _ => copies_nameLexemes hall) fun _ => ?_
  · cases h with
    | here => simp [startsRange] at hrange
    | cons d h =>
      obtain ⟨hends, hrest⟩ := takeRange_swapped h
      rw [List.tail_cons, List.tail_cons, hends]
      exact .of_swapped _ hrest
  · simp only [Bool.and_eq_true, decide_eq_true_eq] at hclose
    rw [← List.take_append_drop 2 cs, hclose.2] at h ⊢
    cases h with
    | cons _ h =>
      cases h with
      | cons _ h => exact .of_swapped _ h
  · rcases Numeral.read?_swapped hall with ⟨hcs, hds⟩ | ⟨n, rest, rest', hcs, hds, hrest⟩
    · rw [hcs, hds]
      exact copies_symbolLexemes c h
    · rw [hcs, hds]
      exact copies_numberLexemes n hrest

end CssExpand.Syntax
