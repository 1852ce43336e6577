import CssExpand.Proofs.Syntax.Respelled
import CssExpand.Sheet.Body

/-!
# Reading the text that an author wrote

The text of a value keeps the two escapes that a hack may end in as they were written
(`authoredText`). Such a text is still read as the tokens that it was made from (`scan_restored`). It
may take a blank that follows it as part of its escape, and nothing else.
-/

set_option autoImplicit false

namespace CssExpand

open Syntax

/-! ## 1. Restoring an ending -/

/-- A written text with the escapes of a hack at its end as authors write them. -/
def restored (cs : List Char) : List Char :=
  restoreAtEnd [replacement, '/'] ['\\', '0', '/'] (restoreAtEnd ['\\', '\t'] ['\\', '9'] cs)

theorem authoredText_eq (ts : List Token) :
    authoredText ts = String.ofList (restored (Token.listWritten (Token.trim ts))) := rfl

theorem restoreAtEnd_append (written source stem : List Char) :
    restoreAtEnd written source (stem ++ written) = stem ++ source := by
  simp [restoreAtEnd]

theorem restoreAtEnd_of_getLast? {written source cs : List Char} {d : Char}
    (hd : written.getLast? = some d) (h : cs.getLast? ≠ some d) (hn : cs.getLast? ≠ some '\n') :
    restoreAtEnd written source cs = cs := by
  have key : ∀ (ws : List Char) (e : Char), ws.getLast? = some e → cs.getLast? ≠ some e →
      ws.isSuffixOf cs = false := by
    intro ws e hw hc
    rw [Bool.eq_false_iff, ne_eq, List.isSuffixOf_iff_suffix]
    rintro ⟨t, rfl⟩
    rw [List.getLast?_append, hw] at hc
    exact hc rfl
  simp [restoreAtEnd, key written d hd h, key (written ++ ['\n']) '\n' (by simp) hn]

theorem restored_tab (stem : List Char) : restored (stem ++ ['\\', '\t']) = stem ++ ['\\', '9'] := by
  rw [restored, restoreAtEnd_append]
  exact restoreAtEnd_of_getLast? (d := '/') rfl (by simp) (by simp)

theorem restored_slash (stem : List Char) :
    restored (stem ++ [replacement, '/']) = stem ++ ['\\', '0', '/'] := by
  have : restoreAtEnd ['\\', '\t'] ['\\', '9'] (stem ++ [replacement, '/']) = _ :=
    restoreAtEnd_of_getLast? (d := '\t') rfl (by simp) (by simp)
  rw [restored, this, restoreAtEnd_append]

theorem restored_plain {cs : List Char} (h1 : ¬['\\', '\t'] <:+ cs)
    (h2 : ¬[replacement, '/'] <:+ cs) (hn : cs.getLast? ≠ some '\n') : restored cs = cs := by
  have key : ∀ ws source : List Char, ¬ws <:+ cs → restoreAtEnd ws source cs = cs := by
    intro ws source h
    have hb : (ws ++ ['\n']).isSuffixOf cs = false := by
      rw [Bool.eq_false_iff, ne_eq, List.isSuffixOf_iff_suffix]
      rintro ⟨t, rfl⟩
      exact hn (by simp)
    simp [restoreAtEnd, h, hb]
  rw [restored, key _ _ h1, key _ _ h2]

/-! ## 2. The last lexeme -/

theorem getLast?_text_glued {front : List Lexeme} {l : Lexeme} (hwf : l.WellFormed) :
    (Lexeme.text (Lexeme.glued (front ++ [l]))).getLast? = l.written.getLast? := by
  obtain ⟨d, ds, heq, -⟩ := Lexeme.exists_head hwf []
  rw [List.append_nil] at heq
  rw [Lexeme.glued_append, Lexeme.text_append, List.getLast?_append]
  simp [Lexeme.glued, Lexeme.text, heq, List.getLast?_cons]

/-- The last lexeme of firm tokens, which is no whitespace: a bracket that closes the last token, or
that token itself. -/
theorem Token.exists_last {ts : List Token} (hne : ts ≠ []) (hf : Token.Firm ts) :
    ∃ front l, Token.listFlat ts = front ++ [l] ∧ l.isWhitespace = false := by
  rcases List.eq_nil_or_concat ts with rfl | ⟨init, t, rfl⟩
  · exact absurd rfl hne
  · rw [List.concat_eq_append] at hf ⊢
    have hw := hf.whitespace t (by simp)
    rw [Token.listFlat_append, Token.listFlat_singleton]
    cases t with
    | atom a =>
      refine ⟨Token.listFlat init, .atom a, rfl, ?_⟩
      cases a with
      | whitespace text => simp [Token.isWhitespace] at hw
      | _ => rfl
    | function name arguments =>
      exact ⟨Token.listFlat init ++ .openFunction name :: Token.listFlat arguments, .close .round,
        by simp [Token.flat], rfl⟩
    | block b content =>
      exact ⟨Token.listFlat init ++ .openBlock b :: Token.listFlat content, .close b,
        by simp [Token.flat], rfl⟩

/-- Nothing but whitespace at the end makes a text end in a line break. -/
theorem getLast?_listWritten_ne_break {ts : List Token} (h : Token.Settled ts) (hf : Token.Firm ts) :
    (Token.listWritten ts).getLast? ≠ some '\n' := by
  by_cases hne : ts = []
  · subst hne
    simp [Token.listWritten]
  obtain ⟨front, l, hflat, hw⟩ := Token.exists_last hne hf
  have hwf : l.WellFormed := (hflat ▸ h.sourced : Lexeme.Sourced (front ++ [l])).of_append.1
  rw [Token.listWritten_eq ts h.sourced, hflat, getLast?_text_glued hwf]
  intro hbreak
  rcases Lexeme.name?_of_getLast? hwf hw (by decide) hbreak with ⟨h, -⟩ | ⟨_, _, hn⟩
  · exact absurd h (by decide)
  · exact hn rfl

/-- A slash after a character that no slash is escaped with is a slash. -/
theorem eq_slash {stem : List Char} {l : Lexeme} (hwf : l.WellFormed) (hm : l.isMisread = false)
    (hw : l.isWhitespace = false) (h : [replacement, '/'] <:+ stem ++ l.written) :
    l = .atom (.literal ['/']) := by
  obtain ⟨d, ds, hne, -⟩ := Lexeme.exists_head hwf []
  rw [List.append_nil] at hne
  have hlast : l.written.getLast? = some '/' := by
    obtain ⟨t, ht⟩ := h
    have := congrArg List.getLast? ht
    rw [List.getLast?_append, List.getLast?_append, hne] at this
    simpa [hne, List.getLast?_cons] using this.symm
  have hbefore : ∀ w c, l.written = w ++ [c, '/'] → c = replacement := by
    intro w c hc
    obtain ⟨t, ht⟩ := h
    rw [hc, ← List.append_assoc] at ht
    exact (List.cons.inj (List.append_inj_right' ht rfl)).1.symm
  rcases Lexeme.name?_of_getLast? hwf hw (by decide) hlast with
    ⟨-, h | ⟨text, rfl⟩⟩ | ⟨name, hname, -⟩
  · exact h
  · exact absurd (hbefore (['/', '*'] ++ text) '*' (by simp [Lexeme.written, Atom.written]))
      (by decide)
  · obtain ⟨w, hstem, -⟩ := exists_stem hwf hm hname (.inr (.inr rfl))
    exact absurd (hbefore w '\\' hstem) (by decide)

/-! ## 3. Reading the restored text -/

/-- Another spelling of a tab. -/
theorem takeName_nine {cs : List Char} (hs : Separates cs)
    (hn : startsName (dropOneWhitespace cs) = false) :
    takeName ('\\' :: '9' :: cs) = (['\t'], dropOneWhitespace cs) := by
  have h : takeEscape (['9'] ++ cs) = _ :=
    takeEscape_digits (List.all_eq_true.mp rfl) (by simp) (by simp) fun c hc => (hs.boundary c hc).2.2
  have hcode : charOfCode (hexValue ['9']) = '\t' := by decide
  rw [takeName_escape (by simp)]
  rw [List.singleton_append, hcode] at h
  rw [h, takeName_of_not_startsName hn]

/-- Another spelling of the replacement, in front of a slash. -/
theorem takeName_zero (cs : List Char) :
    takeName ('\\' :: '0' :: '/' :: cs) = ([replacement], '/' :: cs) := by
  have h : takeEscape (['0'] ++ '/' :: cs) = _ :=
    takeEscape_digits (List.all_eq_true.mp rfl) (by simp) (by simp) (by rintro c ⟨⟩; decide)
  have hcode : charOfCode (hexValue ['0']) = replacement := by decide
  rw [takeName_escape (by simp)]
  rw [List.singleton_append, hcode] at h
  rw [h]
  have hstop : startsName ('/' :: cs) = false := by
    simp [startsName, startsEscape, isNameChar, isNameStart]
  have hdrop : dropOneWhitespace ('/' :: cs) = '/' :: cs := rfl
  rw [hdrop, takeName_of_not_startsName hstop]

theorem seam_slash (ls : List Lexeme) : Lexeme.seam ls [.atom (.literal ['/'])] = [] := by
  unfold Lexeme.seam
  split
  · rename_i l l' _ h
    obtain rfl : Lexeme.atom (.literal ['/']) = l' := by simpa using h
    have : l.joint.clash (.literal ['/']) = false := by
      simp [Joint.clash, Joint.startsWithName, Joint.startsWithNumber]
    exact if_neg (Bool.eq_false_iff.mp this)
  · rfl

/-- In front of a slash, the code of the replacement is read as the replacement. -/
theorem scan_restoredSlash {front : List Lexeme} {cs : List Char}
    (hso : Lexeme.Sourced (front ++ [.atom (.literal ['/'])]))
    (hm : Lexeme.misread (front ++ [.atom (.literal ['/'])]) = false)
    (hs : Lexeme.StopsAll (front ++ [.atom (.literal ['/'])]) cs)
    (h : [replacement, '/'] <:+ Lexeme.text (Lexeme.glued (front ++ [.atom (.literal ['/'])]))) :
    Lexeme.scan (restored (Lexeme.text (Lexeme.glued (front ++ [.atom (.literal ['/'])]))) ++ cs) =
      (Lexeme.glued (front ++ [.atom (.literal ['/'])])).map Lexeme.reread ++ Lexeme.scan cs := by
  have htext : Lexeme.text (Lexeme.glued (front ++ [.atom (.literal ['/'])])) =
      Lexeme.text (Lexeme.glued front) ++ ['/'] := by
    rw [Lexeme.glued_append, seam_slash, Lexeme.text_append]
    simp [Lexeme.glued, Lexeme.text, Lexeme.written, Atom.written]
  have hglued : Lexeme.glued (front ++ [.atom (.literal ['/'])]) =
      Lexeme.glued front ++ [.atom (.literal ['/'])] := by
    rw [Lexeme.glued_append, seam_slash]
    simp [Lexeme.glued]
  -- Before the slash stands the replacement character that is restored, and it ends a name: nothing else
  -- is written with it at the end.
  have hend : (Lexeme.text (Lexeme.glued front)).getLast? = some replacement := by
    rw [htext] at h
    obtain ⟨t, ht⟩ := h
    have : t ++ [replacement] ++ ['/'] = Lexeme.text (Lexeme.glued front) ++ ['/'] := by
      rw [← ht]
      simp
    rw [← List.append_inj_left' this rfl]
    simp
  rcases List.eq_nil_or_concat front with rfl | ⟨init, m, rfl⟩
  · simp [Lexeme.glued, Lexeme.text] at hend
  rw [List.concat_eq_append] at *
  have hwf : m.WellFormed := hso.left.of_append.1
  rw [getLast?_text_glued hwf] at hend
  have hw : m.isWhitespace = false := by
    cases m with
    | atom a =>
      cases a with
      | whitespace text => exact absurd (hwf.2 _ (List.mem_of_getLast? hend)) (by decide)
      | _ => rfl
    | _ => rfl
  obtain ⟨name, hname⟩ : ∃ name, m.name? = some (name ++ [replacement]) := by
    rcases Lexeme.name?_of_getLast? hwf hw (by decide) hend with ⟨h, -⟩ | ⟨name, hname, -⟩
    · exact absurd h (by decide)
    · exact ⟨name, hname⟩
  obtain ⟨stem, hstem, hread⟩ := Lexeme.scan_respelled hso.left (Lexeme.misread_left hm)
    (hs.left (by simp)) hname (.inr (.inl rfl))
  have hc : nameCharWritten replacement = [replacement] := by decide
  -- The restored escape takes up to the slash, which is read by itself as it was.
  have hslash : Lexeme.scan ('/' :: cs) = .atom (.literal ['/']) :: Lexeme.scan cs :=
    Lexeme.scan_written hso.of_append.1 rfl hs.append.1
  have hread' := hread ('\\' :: '0' :: '/' :: cs) ('/' :: cs) (.inl ⟨'0', '/' :: cs, rfl, by decide⟩)
    (takeName_zero cs) (by simp)
  rw [htext, hglued, hstem, hc, List.append_assoc, List.singleton_append, restored_slash,
    List.append_assoc]
  rw [hslash] at hread'
  simpa [Lexeme.reread, Atom.reread] using hread'

/-- The restored text of settled tokens is read as what they are read back as. A blank after it may
be read with its last escape. -/
theorem scan_restored {ts : List Token} (h : Token.Settled ts) (hf : Token.Firm ts) :
    ∃ rest : List Char → List Char, (rest = id ∨ rest = dropOneWhitespace) ∧
      ∀ cs, Separates cs → startsName (dropOneWhitespace cs) = false →
        (dropOneWhitespace cs).head? ≠ some '(' →
        Lexeme.scan (restored (Token.listWritten ts) ++ cs) =
          Token.listFlat (Token.listReread ts) ++ Lexeme.scan (rest cs) := by
  by_cases hne : ts = []
  · subst hne
    exact ⟨id, .inl rfl, fun cs _ _ _ => rfl⟩
  obtain ⟨front, l, hflat, hw⟩ := Token.exists_last hne hf
  have hstops : ∀ cs, Separates cs → Lexeme.StopsAll (front ++ [l]) cs := fun cs hs =>
    hflat ▸ h.stopsAll (hf.stopsAt hs) hs.boundary
  have hso : Lexeme.Sourced (front ++ [l]) := hflat ▸ h.sourced
  have hm : Lexeme.misread (front ++ [l]) = false := hflat ▸ h.misread
  have hwf : l.WellFormed := hso.of_append.1
  have hml : l.isMisread = false := by
    have := Lexeme.misread_append hm
    simp only [Lexeme.misread, Bool.or_eq_false_iff] at this
    exact this.1.1
  have htext : Token.listWritten ts = Lexeme.text (Lexeme.glued (front ++ [l])) := by
    rw [Token.listWritten_eq ts h.sourced, hflat]
  have hback : Token.listFlat (Token.listReread ts) =
      (Lexeme.glued (front ++ [l])).map Lexeme.reread := by
    rw [Token.listFlat_listReread, hflat]
  have hlast : (Lexeme.text (Lexeme.glued (front ++ [l]))).getLast? = l.written.getLast? :=
    getLast?_text_glued hwf
  rw [htext, hback]
  by_cases h1 : ['\\', '\t'] <:+ Lexeme.text (Lexeme.glued (front ++ [l]))
  · -- The text ends in a name with a tab, whose code takes a blank.
    obtain ⟨name, hname⟩ : ∃ name, l.name? = some (name ++ ['\t']) := by
      have htab : l.written.getLast? = some '\t' := by
        obtain ⟨t, ht⟩ := h1
        rw [← hlast, ← ht]
        simp
      rcases Lexeme.name?_of_getLast? hwf hw (by decide) htab with ⟨h, -⟩ | ⟨name, hname, -⟩
      · exact absurd h (by decide)
      · exact ⟨name, hname⟩
    obtain ⟨stem, hstem, hread⟩ := Lexeme.scan_respelled hso hm (hstops [] (by simp [Separates]))
      hname (.inl rfl)
    have hc : nameCharWritten '\t' = ['\\', '\t'] := by decide
    refine ⟨dropOneWhitespace, .inr rfl, fun cs hs hn hb => ?_⟩
    rw [hstem, hc, restored_tab, List.append_assoc]
    exact hread _ _ (.inl ⟨'9', cs, rfl, by decide⟩) (takeName_nine hs hn) hb
  refine ⟨id, .inl rfl, fun cs hs _ _ => ?_⟩
  by_cases h2 : [replacement, '/'] <:+ Lexeme.text (Lexeme.glued (front ++ [l]))
  · obtain rfl : l = .atom (.literal ['/']) := by
      rw [Lexeme.glued_append, Lexeme.text_append] at h2
      have hend : Lexeme.text (Lexeme.glued [l]) = l.written := by simp [Lexeme.glued, Lexeme.text]
      rw [hend] at h2
      exact eq_slash hwf hml hw h2
    exact scan_restoredSlash hso hm (hstops cs hs) h2
  -- neither ending that the restoring looks for: it leaves the text alone
  · have hbreak := getLast?_listWritten_ne_break h hf
    rw [htext] at hbreak
    rw [restored_plain h1 h2 hbreak]
    exact Lexeme.scan_text_glued hso hm (hstops cs hs)

end CssExpand
