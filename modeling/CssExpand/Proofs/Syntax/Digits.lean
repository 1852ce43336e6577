import CssExpand.Proofs.Syntax.Nesting
import CssExpand.Proofs.Syntax.Source
import Mathlib

/-!
# No number without a digit

A number is read off the text where it stands, so a text without digits holds none, faulty or not
(`number_not_mem_ofChars`). The scan only ever goes on with the end of the text that it is given
(`next_suffix`), and nesting adds nothing but brackets and faults (`mem_listFlat_nest`).
-/

set_option autoImplicit false

namespace CssExpand.Syntax

/-! ## 1. A step goes on with the end of the text -/

theorem dropOneWhitespace_suffix (cs : List Char) : dropOneWhitespace cs <:+ cs := by
  unfold dropOneWhitespace
  split
  · exact List.suffix_refl _
  · split
    · exact List.suffix_cons ..
    · exact List.suffix_refl _

theorem takeEscape_suffix (cs : List Char) : (takeEscape cs).2 <:+ cs := by
  unfold takeEscape
  dsimp only
  split
  · split
    · exact List.suffix_refl _
    · exact List.suffix_cons ..
  · exact (dropOneWhitespace_suffix _).trans (List.drop_suffix ..)

theorem takeName_suffix (cs : List Char) : (takeName cs).2 <:+ cs := by
  fun_induction takeName cs with
  | case1 => exact List.suffix_refl _
  | case2 => exact List.suffix_refl _
  | case3 rest _ _ ih => exact (ih.trans (takeEscape_suffix rest)).trans (List.suffix_cons ..)
  | case4 c rest _ _ _ ih => exact ih.trans (List.suffix_cons ..)
  | case5 => exact List.suffix_refl _

theorem takeString_suffix (quote : Char) (cs : List Char) : (takeString quote cs).rest <:+ cs := by
  fun_induction takeString quote cs with
  | case1 => exact List.suffix_refl _
  | case2 => exact List.suffix_cons ..
  | case3 => exact List.nil_suffix
  | case4 rest' _ ih => exact (ih.trans (List.suffix_cons ..)).trans (List.suffix_cons ..)
  | case5 d rest' _ _ ih =>
    exact (ih.trans (takeEscape_suffix (d :: rest'))).trans (List.suffix_cons ..)
  | case6 => exact List.suffix_refl _
  | case7 c rest _ _ _ ih => exact ih.trans (List.suffix_cons ..)

/-- The case of a blank before the closing bracket goes through `dropWhile`, all others drop what one
step of the reader takes. -/
theorem takeUrl_suffix (cs : List Char) : (takeUrl cs).rest <:+ cs := by
  fun_induction takeUrl cs with
  | case1 => exact List.suffix_refl _
  | case2 => exact List.suffix_cons ..
  | case3 => exact List.nil_suffix
  | case4 c rest _ _ rest' h =>
    have hdrop := List.dropWhile_suffix (l := rest) isWhitespace
    rw [h] at hdrop
    exact ((List.suffix_cons ..).trans hdrop).trans (List.suffix_cons ..)
  | case5 c rest _ _ d rest' h _ =>
    have hdrop := List.dropWhile_suffix (l := rest) isWhitespace
    rw [h] at hdrop
    exact hdrop.trans (List.suffix_cons ..)
  | case6 c rest _ _ _ ih => exact (ih.trans (takeEscape_suffix rest)).trans (List.suffix_cons ..)
  | case7 => exact List.suffix_cons ..
  | case8 c rest _ _ _ _ ih => exact ih.trans (List.suffix_cons ..)

theorem dropBrokenUrl_suffix (cs : List Char) : dropBrokenUrl cs <:+ cs := by
  fun_induction dropBrokenUrl cs with
  | case1 => exact List.suffix_refl _
  | case2 rest ih => exact (ih.trans (List.suffix_cons ..)).trans (List.suffix_cons ..)
  | case3 => exact List.suffix_cons ..
  | case4 c rest _ _ ih => exact ih.trans (List.suffix_cons ..)

theorem takeComment_suffix (cs : List Char) : (takeComment cs).2 <:+ cs := by
  fun_induction takeComment cs with
  | case1 => exact List.suffix_refl _
  | case2 => exact (List.suffix_cons ..).trans (List.suffix_cons ..)
  | case3 c rest _ ih => exact ih.trans (List.suffix_cons ..)

theorem takeRange_suffix (cs : List Char) : (takeRange cs).2 <:+ cs := by
  unfold takeRange
  dsimp only
  split
  · exact (List.drop_suffix ..).trans (List.drop_suffix ..)
  · have hdrop := List.drop_suffix ((cs.take 6).takeWhile isHexDigit).length cs
    split
    · rename_i rest h
      split
      · exact hdrop
      · rw [h] at hdrop
        exact ((List.drop_suffix ..).trans (List.suffix_cons ..)).trans hdrop
    · exact hdrop

theorem stringLexemes_suffix (quote : Char) (cs : List Char) :
    (stringLexemes quote cs).2 <:+ cs := by
  unfold stringLexemes
  dsimp only
  split <;> exact takeString_suffix quote cs

theorem urlLexemes_suffix (cs : List Char) : (urlLexemes cs).2 <:+ cs := by
  have hrest := (takeUrl_suffix (cs.dropWhile isWhitespace)).trans
    (List.dropWhile_suffix (l := cs) isWhitespace)
  unfold urlLexemes
  dsimp only
  split
  · exact hrest
  · exact hrest
  · exact (dropBrokenUrl_suffix _).trans hrest

theorem nameLexemes_suffix (cs : List Char) : (nameLexemes cs).2 <:+ cs := by
  have hname := takeName_suffix cs
  unfold nameLexemes
  dsimp only
  split
  · rename_i rest h
    rw [h] at hname
    have hrest := (List.suffix_cons '(' rest).trans hname
    split
    · exact (urlLexemes_suffix rest).trans hrest
    · exact hrest
  · exact hname

theorem numberLexemes_suffix (n : Numeral) (cs : List Char) : (numberLexemes n cs).2 <:+ cs := by
  unfold numberLexemes
  split
  · exact takeName_suffix cs
  · split
    · exact List.suffix_cons ..
    · exact List.suffix_refl _

theorem punctuation_suffix (c : Char) (cs : List Char) : (punctuation c cs).2 <:+ cs := by
  unfold punctuation
  split
  · exact (takeComment_suffix _).trans (List.suffix_cons ..)
  · exact ((List.suffix_cons ..).trans (List.suffix_cons ..)).trans (List.suffix_cons ..)
  · exact List.suffix_cons ..
  · split
    · exact List.suffix_cons ..
    · exact List.suffix_refl _
  · exact List.suffix_refl _

theorem symbolLexemes_suffix (c : Char) (cs : List Char) : (symbolLexemes c cs).2 <:+ cs := by
  unfold symbolLexemes
  repeat' split
  all_goals first
    | exact takeName_suffix cs
    | exact stringLexemes_suffix c cs
    | exact punctuation_suffix c cs
    | exact List.suffix_refl _

/-- What any step leaves is the end of what it was given, from the same fact about each reader. -/
theorem next_suffix (c : Char) (cs : List Char) : (next c cs).2 <:+ c :: cs := by
  have hcs : cs <:+ c :: cs := List.suffix_cons ..
  unfold next
  split
  · exact (List.dropWhile_suffix _).trans hcs
  · split
    · exact ((takeRange_suffix _).trans (List.tail_suffix cs)).trans hcs
    · split
      · exact (List.drop_suffix ..).trans hcs
      · split
        · exact nameLexemes_suffix _
        · split
          · rename_i n rest hn
            obtain ⟨-, heq, -⟩ := Numeral.read?_some hn
            exact (numberLexemes_suffix n rest).trans ⟨n.chars, heq.symm⟩
          · exact (symbolLexemes_suffix c cs).trans hcs

/-! ## 2. What a step reads -/

/-- Every lexeme of a url is a url or a fault. -/
theorem forall_mem_urlLexemes {p : Lexeme → Prop}
    (hurl : ∀ value closed, p (.atom (.url value closed)))
    (hfault : ∀ kind, p (.atom (.fault kind))) (cs : List Char) :
    ∀ l ∈ (urlLexemes cs).1, p l := by
  unfold urlLexemes
  dsimp only
  split
  · exact List.forall_mem_singleton.mpr (hurl ..)
  · exact List.forall_mem_cons.mpr ⟨hurl .., List.forall_mem_singleton.mpr (hfault ..)⟩
  · exact List.forall_mem_singleton.mpr (hfault ..)

/-- Every lexeme of a string is a string or a fault. -/
theorem forall_mem_stringLexemes {p : Lexeme → Prop}
    (hstring : ∀ value closed, p (.atom (.string value closed)))
    (hfault : ∀ kind, p (.atom (.fault kind))) (quote : Char) (cs : List Char) :
    ∀ l ∈ (stringLexemes quote cs).1, p l := by
  unfold stringLexemes
  dsimp only
  split
  · exact List.forall_mem_singleton.mpr (hstring ..)
  · exact List.forall_mem_cons.mpr ⟨hstring .., List.forall_mem_singleton.mpr (hfault ..)⟩
  · exact List.forall_mem_singleton.mpr (hfault ..)

/-- A name starts an identifier, a function or a url. -/
theorem forall_mem_nameLexemes {p : Lexeme → Prop} (hident : ∀ name, p (.atom (.ident name)))
    (hopen : ∀ name, p (.openFunction name)) (hurl : ∀ value closed, p (.atom (.url value closed)))
    (hfault : ∀ kind, p (.atom (.fault kind))) (cs : List Char) :
    ∀ l ∈ (nameLexemes cs).1, p l := by
  unfold nameLexemes
  dsimp only
  split
  · split
    · exact forall_mem_urlLexemes hurl hfault _
    · exact List.forall_mem_singleton.mpr (hopen ..)
  · exact List.forall_mem_singleton.mpr (hident ..)

/-! ## 3. Numbers in a scan -/

/-- The number a lexeme carries. -/
def Lexeme.numeral? : Lexeme → Option Numeral
  | .atom a => a.numeral?
  | _ => none

/-- A text without digits. -/
def Digitless (cs : List Char) : Prop := ∀ c ∈ cs, c.isDigit = false

theorem Digitless.read? {cs : List Char} (h : Digitless cs) : Numeral.read? cs = none := by
  cases hn : Numeral.read? cs with
  | none => rfl
  | some r =>
    obtain ⟨hwf, heq, -⟩ := Numeral.read?_some hn
    -- a numeral has a digit in front of its point or after it
    have hdigit : ∃ d ∈ r.1.chars, d.isDigit := by
      rcases hwf.some_digit with hw | hf
      · obtain ⟨d, hd⟩ := List.exists_mem_of_ne_nil _ hw
        exact ⟨d, by simp [Numeral.chars, hd], hwf.whole d hd⟩
      · obtain ⟨ds, hds⟩ := Option.ne_none_iff_exists'.mp hf
        obtain ⟨hne, hall⟩ := hwf.fraction ds hds
        obtain ⟨d, hd⟩ := List.exists_mem_of_ne_nil _ hne
        exact ⟨d, by simp [Numeral.chars, hds, hd], hall d hd⟩
    obtain ⟨d, hd, hdig⟩ := hdigit
    rw [h d (heq ▸ List.mem_append_left _ hd)] at hdig
    cases hdig

theorem numeral?_of_mem_stringLexemes {a : Atom} {quote : Char} {cs : List Char}
    (h : Lexeme.atom a ∈ (stringLexemes quote cs).1) : a.numeral? = none :=
  forall_mem_stringLexemes (p := fun l => l.numeral? = none) (fun _ _ => rfl) (fun _ => rfl)
    quote cs _ h

theorem numeral?_of_mem_nameLexemes {a : Atom} {cs : List Char}
    (h : Lexeme.atom a ∈ (nameLexemes cs).1) : a.numeral? = none :=
  forall_mem_nameLexemes (p := fun l => l.numeral? = none) (fun _ => rfl) (fun _ => rfl)
    (fun _ _ => rfl) (fun _ => rfl) cs _ h

theorem numeral?_of_punctuation {a : Atom} {c : Char} {cs : List Char}
    (h : Lexeme.atom a = (punctuation c cs).1) : a.numeral? = none := by
  unfold punctuation at h
  repeat' split at h
  all_goals
    rw [Lexeme.atom.injEq] at h
    rw [h]
    rfl

theorem numeral?_of_mem_symbolLexemes {a : Atom} {c : Char} {cs : List Char}
    (h : Lexeme.atom a ∈ (symbolLexemes c cs).1) : a.numeral? = none := by
  unfold symbolLexemes at h
  repeat' split at h
  all_goals first
    | exact numeral?_of_mem_stringLexemes h
    | exact numeral?_of_punctuation (List.mem_singleton.mp h)
    | simp at h
  all_goals
    rw [h]
    rfl

theorem numeral?_of_mem_numberLexemes {a : Atom} {n : Numeral} {cs : List Char}
    (h : Lexeme.atom a ∈ (numberLexemes n cs).1) : a.numeral? = some n := by
  unfold numberLexemes at h
  repeat' split at h
  all_goals
    rw [List.mem_singleton, Lexeme.atom.injEq] at h
    rw [h]
    rfl

/-- Only where a numeral can be read is there a lexeme with a numeral, and it is that one. -/
theorem read?_of_mem_next {c : Char} {cs : List Char} {a : Atom} {n : Numeral}
    (h : Lexeme.atom a ∈ (next c cs).1) (hn : a.numeral? = some n) :
    ∃ rest, Numeral.read? (c :: cs) = some (n, rest) := by
  have hnone : a.numeral? ≠ none := by simp [hn]
  have hsingle : ∀ b : Atom, b.numeral? = none → Lexeme.atom a ∉ [Lexeme.atom b] := by
    intro b hb hm
    rw [List.mem_singleton, Lexeme.atom.injEq] at hm
    exact hnone (hm ▸ hb)
  unfold next at h
  split at h
  · exact absurd h (hsingle _ rfl)
  · split at h
    · exact absurd h (hsingle _ rfl)
    · split at h
      · exact absurd h (hsingle _ rfl)
      · split at h
        · exact absurd (numeral?_of_mem_nameLexemes h) hnone
        · split at h
          · next m rest hread =>
            obtain rfl := Option.some.inj (hn.symm.trans (numeral?_of_mem_numberLexemes h))
            exact ⟨rest, hread⟩
          · exact absurd (numeral?_of_mem_symbolLexemes h) hnone

/-- A number is only found where a numeral can be read. -/
theorem number_not_mem_next {c : Char} {cs : List Char} (h : Numeral.read? (c :: cs) = none)
    (n : Numeral) : Lexeme.atom (.number n) ∉ (next c cs).1 := by
  intro hm
  obtain ⟨rest, hread⟩ := read?_of_mem_next hm rfl
  rw [h] at hread
  cases hread

theorem number_not_mem_scan {cs : List Char} (h : Digitless cs) (n : Numeral) :
    Lexeme.atom (.number n) ∉ Lexeme.scan cs := by
  fun_induction Lexeme.scan cs with
  | case1 => simp
  | case2 c rest ih =>
    rw [List.mem_append, not_or]
    exact ⟨number_not_mem_next h.read? n, ih fun d hd => h d ((next_suffix c rest).subset hd)⟩

/-! ## 4. Numbers in a text -/

/-- What is neither a bracket nor a fault stands among nested lexemes only if it is one of them, or
stood open before. -/
theorem Token.mem_listFlat_nest {a : Atom} (ha : ∀ b, a ≠ .fault b) (ls : List Lexeme)
    (frames : List Frame) (current : List Token)
    (h : Lexeme.atom a ∈ listFlat (nest frames current ls)) :
    Lexeme.atom a ∈ opened frames current ∨ Lexeme.atom a ∈ ls := by
  fun_induction nest frames current ls with
  -- At the end of the text all frames are closed, which brings no atom.
  | case1 frames current =>
    refine .inl ?_
    induction frames generalizing current with
    | nil => simpa [opened] using h
    | cons f frames ih =>
      have := ih (f.close current) h
      rw [opened_close] at this
      simpa using this
  | case2 frames current b rest ih =>
    rcases ih h with h | h
    · rw [opened_cons] at h
      simp only [flat, List.mem_append, List.mem_singleton] at h
      rcases h with h | h
      · exact .inl h
      · exact .inr (h ▸ List.mem_cons_self)
    · exact .inr (List.mem_cons_of_mem _ h)
  | case3 frames current name rest ih =>
    rcases ih h with h | h
    · exact .inl (by simpa [opened, openerLexeme, listFlat] using h)
    · exact .inr (List.mem_cons_of_mem _ h)
  | case4 frames current b rest ih =>
    rcases ih h with h | h
    · exact .inl (by simpa [opened, openerLexeme, listFlat] using h)
    · exact .inr (List.mem_cons_of_mem _ h)
  | case5 current b rest ih =>
    rcases ih h with h | h
    · rw [opened_cons] at h
      exact .inl (by simpa [flat, ha] using h)
    · exact .inr (List.mem_cons_of_mem _ h)
  | case6 current rest f frames ih =>
    rcases ih h with h | h
    · rw [opened_close] at h
      exact .inl (by simpa using h)
    · exact .inr (List.mem_cons_of_mem _ h)
  | case7 f frames current b rest _ ih =>
    rcases ih h with h | h
    · rw [opened_cons] at h
      exact .inl (by simpa [flat, ha] using h)
    · exact .inr (List.mem_cons_of_mem _ h)

theorem Token.mem_listFlat {t : Token} {ts : List Token} {l : Lexeme} (ht : t ∈ ts)
    (hl : l ∈ t.flat) : l ∈ listFlat ts := by
  induction ts with
  | nil => cases ht
  | cons u ts ih =>
    rw [listFlat, List.mem_append]
    rcases List.mem_cons.mp ht with rfl | ht
    · exact .inl hl
    · exact .inr (ih ht)

theorem digitless_unifyBreaks {cs : List Char} (h : Digitless cs) : Digitless (unifyBreaks cs) := by
  fun_induction unifyBreaks cs with
  | case1 => exact h
  | case2 rest ih =>
    exact List.forall_mem_cons.mpr ⟨by decide, ih fun d hd => h d (by simp [hd])⟩
  | case3 c rest _ ih =>
    refine List.forall_mem_cons.mpr ⟨?_, ih fun d hd => h d (by simp [hd])⟩
    split
    · decide
    · split
      · decide
      · exact h c List.mem_cons_self

/-- A text without digits has no number at any depth. -/
theorem number_not_mem_ofChars {cs : List Char} (h : Digitless cs) (n : Numeral) :
    Lexeme.atom (.number n) ∉ Token.listFlat (Token.ofChars cs) := by
  intro hm
  rcases Token.mem_listFlat_nest (by simp) _ _ _ hm with hm | hm
  · simp [Token.opened, Token.listFlat] at hm
  · exact number_not_mem_scan (digitless_unifyBreaks h) n hm

end CssExpand.Syntax
