import CssExpand.Proofs.Syntax.Nesting

/-!
# Tokens that are written and read again

The theorems of the layers below, put together for tokens: the text of settled tokens, in front of
something that separates (`isSeparator`), is scanned as the lexemes of the tokens that they are read
back as (`scan_listWritten`), and those have the same text again (`listWritten_listReread`). So a
text that was written for tokens is a fixed point of reading and writing.
-/

set_option autoImplicit false

namespace CssExpand.Syntax

/-! ## 1. Separators -/

/-- Whether a character comes between what is written for tokens and what is written after it. -/
def isSeparator (c : Char) : Bool :=
  [' ', '\n', '\t', ';', ',', '/', ')', ']', '\x7d'].contains c

/-- A text that starts with a separator, or is empty. -/
def Separates (cs : List Char) : Prop := ∀ c ∈ cs.head?, isSeparator c

theorem separates_cons {c : Char} (h : isSeparator c) (cs : List Char) : Separates (c :: cs) := by
  rintro d ⟨⟩
  exact h

/-- A text that is scanned as some tokens in front of any separator is scanned as them at the end. -/
theorem scan_of_separates {x : List Char} {ts : List Token}
    (h : ∀ cs, Separates cs → Lexeme.scan (x ++ cs) = Token.listFlat ts ++ Lexeme.scan cs) :
    Lexeme.scan x = Token.listFlat ts := by
  simpa using h [] (by simp [Separates])

theorem ofChars_of_scan {x : List Char} {ts : List Token} (hu : Unified x)
    (h : ∀ cs, Separates cs → Lexeme.scan (x ++ cs) = Token.listFlat ts ++ Lexeme.scan cs) :
    Token.ofChars x = ts := by
  rw [Token.ofChars, unifyBreaks_eq hu, scan_of_separates h, Token.nest_listFlat_eq]

theorem checkIntegers_of_scan {text : String} {ts : List Token} (hu : Unified text.toList)
    (h : ∀ cs, Separates cs → Lexeme.scan (text.toList ++ cs) =
      Token.listFlat ts ++ Lexeme.scan cs) :
    checkIntegers text = .ok () ↔ ∀ l ∈ Token.listFlat ts, l.overlong? = none := by
  rw [Token.checkIntegers_eq_ok, unifyBreaks_eq hu, scan_of_separates h]

/-- The characters that may follow. All that is known of such a text is known of its first character,
so each fact below is decided on this list. -/
def separators : List Char := [' ', '\n', '\t', ';', ',', '/', ')', ']', '\x7d']

theorem Separates.mem {cs : List Char} (h : Separates cs) : ∀ c ∈ cs.head?, c ∈ separators := by
  intro c hc
  simpa [isSeparator, separators] using h c hc

theorem Separates.forall_head? {cs : List Char} (h : Separates cs) {p : Char → Bool}
    (hp : separators.all p = true) : ∀ c ∈ cs.head?, p c = true :=
  fun c hc => List.all_eq_true.mp hp c (h.mem c hc)

theorem Separates.head?_ne {cs : List Char} (h : Separates cs) {d : Char} (hd : d ∉ separators) :
    cs.head? ≠ some d :=
  fun hc => hd (h.mem d hc)

theorem Separates.boundary {cs : List Char} (h : Separates cs) : Lexeme.Boundary cs := by
  intro c hc
  have hs := h.forall_head? (p := fun c => c != '?' && c != '-' && !isHexDigit c) (by decide) c hc
  simpa [and_assoc] using hs

theorem Separates.isDigit {cs : List Char} (h : Separates cs) :
    ∀ c ∈ cs.head?, c.isDigit = false := by
  intro c hc
  simpa using h.forall_head? (p := fun c => !c.isDigit) (by decide) c hc

theorem Separates.startsFigure {cs : List Char} (h : Separates cs) : startsFigure cs = false := by
  cases cs with
  | nil => rfl
  | cons c rest =>
    have hdigit := h.isDigit c rfl
    have hpoint : c ≠ '.' := fun hc => h.head?_ne (by decide : '.' ∉ separators) (by rw [hc]; rfl)
    unfold Syntax.startsFigure
    split <;> simp_all

theorem Separates.startsName {cs : List Char} (h : Separates cs) : startsName cs = false := by
  cases cs with
  | nil => rfl
  | cons c rest =>
    have hname := h.forall_head? (p := fun c => !isNameChar c) (by decide) c rfl
    have hbackslash : c ≠ '\\' := fun hc =>
      h.head?_ne (by decide : '\\' ∉ separators) (by rw [hc]; rfl)
    have hescape : startsEscape (c :: rest) = false := by
      unfold startsEscape
      split <;> simp_all
    simpa [Syntax.startsName, hescape] using hname

/-- Every lexeme stops at a separator but whitespace, a backslash and an open function. -/
theorem Lexeme.stopsAt_separator {l : Lexeme} {cs : List Char} (hw : ∀ t, l ≠ .atom (.whitespace t))
    (hb : l ≠ .atom (.literal ['\\'])) (hf : ∀ name, l ≠ .openFunction name) (h : Separates cs) :
    l.StopsAt cs := by
  have hname := h.startsName
  have hident := not_startsIdent_of_startsName hname
  cases l with
  | atom a =>
    cases a with
    | whitespace text => exact absurd rfl (hw text)
    | literal text =>
      refine stopsAt_literal fun c hc => ?_
      subst hc
      refine ⟨fun _ => hname, fun _ => hident.1, fun _ => hident.2, fun _ => h.startsFigure,
        fun _ => h.isDigit, fun _ => h.head?_ne (by decide), ?_, fun _ => h.head?_ne (by decide),
        fun _ => h.head?_ne (by decide), fun hc => absurd (by rw [hc]) hb⟩
      rintro - ⟨r, hr⟩
      exact h.head?_ne (by decide : '!' ∉ separators) (by rw [← hr]; rfl)
    | ident name =>
      refine ⟨hname, h.head?_ne (by decide), fun _ => h.head?_ne (by decide), fun _ => ?_⟩
      unfold startsRange
      split
      · exact absurd rfl (h.head?_ne (by decide : '+' ∉ separators))
      · rfl
    | number n =>
      refine ⟨⟨h.isDigit, fun _ _ => takeFraction_of_not_startsFigure h.startsFigure, fun _ =>
        takeExponent_of_head fun c hc => ?_⟩, hident.1, h.head?_ne (by decide)⟩
      constructor <;> rintro rfl <;> exact absurd hc (h.head?_ne (by decide))
    | unicodeRange first last =>
      refine ⟨fun c hc => (h.boundary c hc).2.2, h.head?_ne (by decide), ?_⟩
      rintro c rest rfl
      exact absurd rfl (h.head?_ne (by decide : '-' ∉ separators))
    | atKeyword name => exact hname
    | hash name isIdent => exact hname
    | dimension n unit => exact hname
    | _ => trivial
  | openFunction name => exact absurd rfl (hf name)
  | openBlock b => trivial
  | close b => trivial

namespace Token

/-! ## 2. Scanning what is written -/

/-- In the lexemes of a tree the start of a function is never the last one: its closing bracket comes
behind it, whatever the arguments are. -/
theorem endsClosed_listFlat (ts : List Token) : Lexeme.EndsClosed (listFlat ts) := by
  have last : ∀ (us : List Token) (name : List Char), (listFlat us).getLast? ≠
      some (.openFunction name) := by
    intro us name
    rcases List.eq_nil_or_concat us with rfl | ⟨init, t, rfl⟩
    · simp [listFlat]
    · rw [List.concat_eq_append, listFlat_append, listFlat_singleton]
      cases t <;> simp [flat, List.getLast?_append, List.getLast?_cons]
  intro name
  refine ⟨fun hs => ?_, fun text hs => ?_⟩
  · obtain ⟨ls, heq⟩ := hs
    exact last ts name (by rw [← heq]; simp)
  · -- The whitespace is the last token, and before it the function would have to be open.
    rcases List.eq_nil_or_concat ts with rfl | ⟨init, t, rfl⟩
    · obtain ⟨ls, heq⟩ := hs
      simp [listFlat] at heq
    · rw [List.concat_eq_append, listFlat_append, listFlat_singleton] at hs
      obtain ⟨ls, heq⟩ := hs
      have hsplit : (ls ++ [Lexeme.openFunction name]) ++ [Lexeme.atom (.whitespace text)] =
          listFlat init ++ t.flat := by
        rw [← heq]
        simp
      cases t with
      | atom a =>
        rw [flat] at hsplit
        have := List.append_inj_left' hsplit rfl
        exact last init name (by rw [← this]; simp)
      | function name' arguments =>
        have := congrArg List.getLast? hsplit
        simp [flat, List.getLast?_append, List.getLast?_cons] at this
      | block b content =>
        have := congrArg List.getLast? hsplit
        simp [flat, List.getLast?_append, List.getLast?_cons] at this

/-- Tokens that what is written after them cannot change. Whitespace would grow by the blank behind it,
and a backslash would escape whatever comes. -/
structure Firm (ts : List Token) : Prop where
  whitespace : ∀ t, ts.getLast? = some t → t.isWhitespace = false
  backslash : ∀ t, ts.getLast? = some t → t.isLiteral ['\\'] = false

/-- The last lexeme of firm tokens stops in front of a separator. It is no whitespace, which a blank
would prolong, and no backslash, which would escape it. -/
theorem Firm.stopsAt {ts : List Token} {cs : List Char} (h : Firm ts) (hs : Separates cs) :
    ∀ l ∈ (listFlat ts).getLast?, l.StopsAt cs := by
  rcases List.eq_nil_or_concat ts with rfl | ⟨init, t, rfl⟩
  · simp [listFlat]
  · rw [List.concat_eq_append] at h ⊢
    have hw := h.whitespace t (by simp)
    have hb := h.backslash t (by simp)
    intro l hl
    rw [listFlat_append, listFlat_singleton] at hl
    refine Lexeme.stopsAt_separator ?_ ?_ ?_ hs <;> cases t <;>
      simp [flat, List.getLast?_append, List.getLast?_cons] at hl
    all_goals subst hl
    · rintro text ⟨⟩
      simp [isWhitespace] at hw
    · rintro text ⟨⟩
    · rintro text ⟨⟩
    · rintro ⟨⟩
      simp [isLiteral] at hb
    all_goals simp

/-- Whitespace at the end stops too, where none follows it. -/
theorem stopsAt_of_getLast? {ts : List Token} {cs : List Char}
    (hb : ∀ t ∈ ts.getLast?, t.isLiteral ['\\'] = false) (hs : Separates cs)
    (hw : ∀ c ∈ cs.head?, Syntax.isWhitespace c = false) :
    ∀ l ∈ (listFlat ts).getLast?, l.StopsAt cs := by
  rcases List.eq_nil_or_concat ts with rfl | ⟨init, t, rfl⟩
  · simp [listFlat]
  · rw [List.concat_eq_append] at hb ⊢
    cases hblank : t.isWhitespace with
    | false =>
      refine Firm.stopsAt ⟨fun u hu => ?_, hb⟩ hs
      obtain rfl : t = u := by simpa using hu
      exact hblank
    | true =>
      cases t with
      | atom a =>
        cases a with
        | whitespace text =>
          intro l hl
          obtain rfl : Lexeme.atom (.whitespace text) = l := by
            simpa [listFlat_append, listFlat, flat] using hl
          exact hw
        | _ => cases hblank
      | _ => cases hblank

/-- The lexemes of settled tokens each stop where the next one is written. -/
theorem Settled.stopsAll {ts : List Token} {cs : List Char} (h : Settled ts)
    (hlast : ∀ l ∈ (listFlat ts).getLast?, l.StopsAt cs) (hb : Lexeme.Boundary cs) :
    Lexeme.StopsAll (listFlat ts) cs :=
  Lexeme.stopsAll h.sourced h.misread (endsClosed_listFlat ts) hlast hb

/-- The text of settled tokens is scanned as the tokens that they are read back as. -/
theorem scan_listWritten {ts : List Token} {cs : List Char} (h : Settled ts) (hf : Firm ts)
    (hs : Separates cs) :
    Lexeme.scan (listWritten ts ++ cs) = listFlat (listReread ts) ++ Lexeme.scan cs := by
  rw [listWritten_eq ts h.sourced, listFlat_listReread]
  exact Lexeme.scan_text_glued h.sourced h.misread (h.stopsAll (hf.stopsAt hs) hs.boundary)

/-! ## 3. Writing what is read back -/

/-- A unit that is read with a small letter is written with the code of that letter again. -/
theorem written_rereadAtom (a : Atom) : a.reread.written = a.written := by
  cases a with
  | dimension n unit =>
    by_cases h : readsAsExponent unit
    · have h' : readsAsExponent ('e' :: unit.tail) := by
        match unit with
        | [] => simp [readsAsExponent] at h
        | [c] => simp [readsAsExponent]
        | c :: d :: rest =>
          have : d = '-' := by
            by_contra hd
            simp [readsAsExponent, hd] at h
          subst this
          simp [readsAsExponent]
      simp [Atom.reread, Atom.written, unitWritten, h, h']
    · simp [Atom.reread, h]
  | _ => rfl

@[simp] theorem joint_reread (t : Token) : t.reread.joint = t.joint := by
  cases t with
  | atom a => cases a <;> rfl
  | function name arguments => rfl
  | block b content => cases b <;> rfl

@[simp] theorem isLiteral_reread (t : Token) (text : List Char) :
    t.reread.isLiteral text = t.isLiteral text := by
  cases t with
  | atom a => cases a <;> rfl
  | function name arguments => rfl
  | block b content => rfl

@[simp] theorem startsWithBreak_reread (t : Token) : t.reread.startsWithBreak = t.startsWithBreak := by
  cases t with
  | atom a => cases a <;> rfl
  | function name arguments => rfl
  | block b content => rfl

theorem glue_reread (t u : Token) : t.reread.glue u.reread = t.glue u := by
  simp [glue]

/-- A comment is written after anything as it is, but for a backslash. -/
theorem glue_comment {t : Token} {j : Joint} (h : t.joint.clash j) (text : List Char) :
    t.glue (.atom (.comment text)) = [] := by
  have hlit : t.isLiteral ['\\'] = false := by
    refine Bool.eq_false_iff.mpr fun hl => ?_
    cases t with
    | atom a =>
      cases a with
      | literal text =>
        obtain rfl : text = ['\\'] := by simpa [isLiteral] using hl
        rcases Joint.of_clash h with h | h | h | ⟨c, hc, h⟩
        · simp [joint, Atom.joint, Joint.endsInName] at h
        · simp [joint, Atom.joint] at h
        · simp [joint, Atom.joint] at h
        · simp only [joint, Atom.joint, Joint.literal.injEq, List.cons.injEq, and_true] at h
          subst h
          exact absurd hc (by decide)
      | _ => simp [isLiteral] at hl
    | function name arguments => simp [isLiteral] at hl
    | block b content => simp [isLiteral] at hl
  simp [glue, hlit, joint, Atom.joint, Joint.not_clash_other]

theorem comment_glue (text : List Char) (u : Token) : glue (.atom (.comment text)) u = [] := by
  have h : (joint (.atom (.comment text))).clash u.joint = false :=
    Joint.not_clash_left rfl (by simp [joint, Atom.joint]) _
  simp [glue, h, isLiteral]

mutual

theorem endsInOpenString_reread : ∀ t : Token, t.reread.endsInOpenString = t.endsInOpenString
  | .atom a => by cases a <;> rfl
  | .function name arguments => by
    rw [reread, endsInOpenString, endsInOpenString, lastEndsInOpenString_reread arguments]
  | .block b content => rfl

theorem lastEndsInOpenString_reread : ∀ ts : List Token,
    lastEndsInOpenString (listReread ts) = lastEndsInOpenString ts
  | [] => rfl
  | [t] => by
    simp only [listReread, join, List.append_nil, lastEndsInOpenString]
    exact endsInOpenString_reread t
  | t :: u :: us => by
    have ih := lastEndsInOpenString_reread (u :: us)
    rw [listReread, join]
    rw [listReread] at ih ⊢
    split <;> simpa [lastEndsInOpenString] using ih

end

mutual

theorem written_reread : ∀ t : Token, t.reread.written = t.written
  | .atom a => written_rereadAtom a
  | .function name arguments => by
    rw [reread, written, written, listWritten_listReread arguments,
      lastEndsInOpenString_reread arguments]
  | .block b content => by
    rw [reread, written, written, listWritten_listReread content]

/-- What tokens are read back as has their text. -/
theorem listWritten_listReread : ∀ ts : List Token,
    listWritten (listReread ts) = listWritten ts
  | [] => rfl
  | [t] => by
    simp only [listReread, join, List.append_nil, listWritten, glueBefore]
    rw [written_reread t]
  | t :: u :: us => by
    have ih := listWritten_listReread (u :: us)
    have ht := written_reread t
    rw [listReread, join]
    rw [listReread] at ih ⊢
    split
    · rename_i hclash
      have hclash' : t.reread.joint.clash u.joint := by rwa [joint_reread]
      simp only [List.cons_append, List.nil_append, listWritten, glueBefore,
        glue_comment hclash', comment_glue, ht, written, Atom.written] at ih ⊢
      rw [ih]
      simp [glue, hclash]
    · simp only [List.nil_append, listWritten, glueBefore, glue_reread, ht] at ih ⊢
      rw [ih]

end

end Token

end CssExpand.Syntax
