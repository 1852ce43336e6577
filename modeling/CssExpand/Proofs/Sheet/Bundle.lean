import CssExpand.Proofs.Sheet.Lasting
import CssExpand.Proofs.Syntax.Seam

/-!
# Texts one after the other

A text that ends where its last rule ends (`Sheet.isWhole`) can have any text behind it: its rules
stay as they were, and those of the other text are the ones that it has by itself (`parse_bundle`).
That the first text parses is not enough. An open comment, string or block would go on in the second
text, and so would an at-rule that still waits for its semicolon; a text that parses may end in any
of them.
-/

set_option autoImplicit false

namespace CssExpand

open Syntax

/-! ## 1. Reading rules across a seam -/

/-- Rules that are read one after the other: what is pending in between, and the nodes so far. -/
theorem readRules_append {top : Bool} {us : List Token} (ts : List Token) {p : Pending}
    {ns : List Node} (h : readRules top p (ts ++ us) = .ok ns) : ∃ p' front back,
      readRules top p' us = .ok back ∧ ns = front ++ back ∧
        ∀ vs later, readRules top p' vs = .ok later →
          readRules top p (ts ++ vs) = .ok (front ++ later) := by
  induction ts generalizing p ns with
  | nil => exact ⟨p, [], ns, h, rfl, fun _ _ h => h⟩
  | cons t ts ih =>
    by_cases hc : isCurlyBlock t
    · obtain ⟨content, rfl⟩ := exists_of_isCurlyBlock hc
      obtain ⟨nodes, rest, hread, hrest, rfl⟩ := readRules_cons_block.mp h
      obtain ⟨p', front, back, hback, rfl, hlater⟩ := ih hrest
      exact ⟨p', p.close nodes :: front, back, hback, rfl, fun vs later hvs =>
        readRules_cons_block.mpr ⟨nodes, _, hread, hlater vs later hvs, rfl⟩⟩
    · have hc := Bool.eq_false_iff.mpr hc
      obtain ⟨rest, hrest, rfl⟩ := (readRules_cons_plain hc).mp h
      obtain ⟨p', front, back, hback, rfl, hlater⟩ := ih hrest
      refine ⟨p', (p.take top t).1 ++ front, back, hback, by rw [List.append_assoc],
        fun vs later hvs => ?_⟩
      rw [List.append_assoc]
      exact (readRules_cons_plain hc).mpr ⟨_, hlater vs later hvs, rfl⟩

/-- A selector waits for its block. -/
theorem readRules_rule_blank (top : Bool) (selector : List Token) (w : List Char)
    (ns : List Node) : readRules top (.rule selector) (blank w) ≠ .ok ns := by
  have hnil : ∀ selector, readRules top (.rule selector) [] ≠ .ok ns := by
    intro selector h
    rw [readRules] at h
    cases h
  intro h
  cases w with
  | nil => exact hnil selector h
  | cons c w =>
    obtain ⟨ns', hrest, rfl⟩ := (readRules_cons_plain rfl).mp h
    exact hnil _ hrest

/-- After the token that ends the last rule, the reader is in the middle of nothing. -/
theorem readRules_end {top : Bool} {p : Pending} {t : Token} {w : List Char} {ns : List Node}
    (ht : (∃ content, t = .block .curly content) ∨ t = .atom (.literal [';']))
    (h : readRules top p (t :: blank w) = .ok ns) : ∀ vs later,
      readRules top .nothing vs = .ok later → readRules top p (t :: vs) = .ok (ns ++ later) := by
  have hblank := readRules_onlyBlank top w
  rcases ht with ⟨content, rfl⟩ | rfl
  · obtain ⟨nodes, rest, hread, hrest, rfl⟩ := readRules_cons_block.mp h
    obtain rfl : rest = [] := Except.ok.inj (hrest.symm.trans hblank)
    exact fun vs later hvs => readRules_cons_block.mpr ⟨nodes, later, hread, hvs, rfl⟩
  · obtain ⟨rest, hrest, rfl⟩ := (readRules_cons_plain rfl).mp h
    cases p with
    | nothing =>
      have htake : (Pending.take top .nothing (.atom (.literal [';']))).2 =
          .rule [.atom (.literal [';'])] := by
        cases top <;> rfl
      rw [htake] at hrest
      exact absurd hrest (readRules_rule_blank top _ w rest)
    | rule selector => exact absurd hrest (readRules_rule_blank top _ w rest)
    | atRule name prelude =>
      obtain rfl : rest = [] := Except.ok.inj (hrest.symm.trans hblank)
      exact fun vs later hvs => (readRules_cons_plain rfl).mpr ⟨later, hvs, rfl⟩

theorem nest_blank (w : List Char) (ls : List Lexeme) :
    nest [] [] (Token.listFlat (blank w) ++ ls) = blank w ++ nest [] [] ls := by
  rw [Token.nest_listFlat, List.append_nil, nest_nil, List.reverse_reverse]

/-- What is read of lexemes up to the end of a rule, with whitespace after them, is read of them
before any others too. -/
theorem readRules_of_upToRule {ls ms : List Lexeme} {w : List Char} {ns later : List Node}
    (hls : ls = [] ∨ Lexeme.UpToRule ls)
    (h : readRules true .nothing (nest [] [] (ls ++ Token.listFlat (blank w))) = .ok ns)
    (h' : readRules true .nothing (nest [] [] ms) = .ok later) :
    readRules true .nothing (nest [] [] (ls ++ ms)) = .ok (ns ++ later) := by
  have hflat : nest [] [] (Token.listFlat (blank w)) = blank w := Token.nest_listFlat_eq _
  rcases hls with rfl | hls
  · rw [List.nil_append, hflat] at h
    obtain rfl : ns = [] := Except.ok.inj (h.symm.trans (readRules_onlyBlank true w))
    exact h'
  · obtain ⟨front, t, ht, hms⟩ := nest_append_of_upToRule hls
    rw [hms, hflat] at h
    obtain ⟨p, before, back, hback, rfl, hlater⟩ := readRules_append front h
    rw [hms, List.append_assoc]
    exact hlater _ _ (readRules_end ht hback _ _ h')

/-! ## 2. Line breaks across a seam -/

/-- A line break between two texts stays, unless the text before it ends in half of one. -/
theorem unifyBreaks_append (as bs : List Char) : ∃ w, IsBlank w ∧
    unifyBreaks (as ++ '\n' :: bs) = unifyBreaks as ++ (w ++ unifyBreaks bs) := by
  have hbreak : IsBlank ['\n'] := by simp [IsBlank, isWhitespace]
  fun_induction unifyBreaks as with
  | case1 => exact ⟨['\n'], hbreak, rfl⟩
  | case2 rest ih =>
    obtain ⟨w, hw, heq⟩ := ih
    exact ⟨w, hw, congrArg ('\n' :: ·) heq⟩
  | case3 c rest hpair ih =>
    by_cases hhalf : c = '\r' ∧ rest = []
    · obtain ⟨rfl, rfl⟩ := hhalf
      exact ⟨[], by simp [IsBlank], rfl⟩
    · obtain ⟨w, hw, heq⟩ := ih
      refine ⟨w, hw, ?_⟩
      rw [List.cons_append, unifyBreaks, heq]
      · rfl
      · rintro rest' rfl hrest
        cases rest with
        | nil => exact hhalf ⟨rfl, rfl⟩
        | cons d rest =>
          obtain ⟨rfl, -⟩ := List.cons.inj hrest
          exact hpair rest rfl rfl

/-! ## 3. The theorem -/

/-- Whether a text is blank or ends, but for whitespace, where its last rule ends. -/
def Sheet.isWhole (css : String) : Bool :=
  Lexeme.endsRule (Lexeme.scan (unifyBreaks css.toList))

/-- Two texts with a line break between them. -/
def bundle (first second : String) : String := first ++ "\n" ++ second

/-- The lexemes of two texts are those of the first up to the end of its last rule, whitespace, and
those of the second from its first one on that is no whitespace. -/
theorem scan_bundle {first : String} (hwhole : Sheet.isWhole first) (second : String) :
    ∃ front back v w x, (front = [] ∨ Lexeme.UpToRule front) ∧
      Lexeme.scan (unifyBreaks first.toList) = front ++ Token.listFlat (blank v) ∧
      Lexeme.scan (unifyBreaks second.toList) = Token.listFlat (blank w) ++ back ∧
      Lexeme.scan (unifyBreaks (bundle first second).toList) =
        front ++ (Token.listFlat (blank x) ++ back) := by
  obtain ⟨front, v, hfront, hv, hscan⟩ := scan_append_of_endsRule hwhole
  replace hv : IsBlank v := hv
  obtain ⟨u, hu, hunify⟩ := unifyBreaks_append first.toList second.toList
  generalize hcs : unifyBreaks second.toList = cs at hunify
  have hw : IsBlank (cs.takeWhile isWhitespace) := fun _ h => List.mem_takeWhile_imp h
  have hblank : ∀ {x : List Char}, IsBlank x → Lexeme.scan (x ++ cs.dropWhile isWhitespace) =
      Token.listFlat (blank x) ++ Lexeme.scan (cs.dropWhile isWhitespace) := fun hx =>
    scan_blank hx (head?_dropWhile_stop isWhitespace cs)
  have hsplit := List.takeWhile_append_dropWhile (p := isWhitespace) (l := cs)
  refine ⟨front, Lexeme.scan (cs.dropWhile isWhitespace), v, cs.takeWhile isWhitespace,
    v ++ (u ++ cs.takeWhile isWhitespace), hfront, ?_, ?_, ?_⟩
  · rw [← scan_onlyBlank hv]
    simpa using hscan []
  · rw [← hblank hw, hsplit]
  · have htext : (bundle first second).toList = first.toList ++ '\n' :: second.toList := by
      simp [bundle]
    rw [htext, hunify, hscan, ← hblank (hv.append (hu.append hw)), List.append_assoc,
      List.append_assoc, hsplit]

theorem parse_eq_ok_iff {css : String} {sheet : Sheet} : Sheet.parse css = .ok sheet ↔
    (∀ l ∈ Lexeme.scan (unifyBreaks css.toList), l.overlong? = none) ∧
      readRules true .nothing (nest [] [] (Lexeme.scan (unifyBreaks css.toList))) = .ok sheet := by
  refine ⟨fun h => ?_, fun ⟨hshort, hread⟩ => ?_⟩
  · obtain ⟨hshort, hread⟩ := readRules_of_parse h
    exact ⟨Token.checkIntegers_eq_ok.mp hshort, hread⟩
  · rw [Sheet.parse, Token.checkIntegers_eq_ok.mpr hshort, Sheet.ofChars, Token.ofChars, hread]
    rfl

/-- The rules of two texts are those of each, if the first one is whole. -/
theorem parse_bundle {first second : String} {sheet sheet' : Sheet}
    (hwhole : Sheet.isWhole first) (h : Sheet.parse first = .ok sheet)
    (h' : Sheet.parse second = .ok sheet') :
    Sheet.parse (bundle first second) = .ok (sheet ++ sheet') := by
  obtain ⟨front, back, v, w, x, hfront, hfirst, hsecond, hboth⟩ := scan_bundle hwhole second
  obtain ⟨hshort, hread⟩ := parse_eq_ok_iff.mp h
  obtain ⟨hshort', hread'⟩ := parse_eq_ok_iff.mp h'
  rw [hfirst] at hshort hread
  rw [hsecond] at hshort' hread'
  rw [nest_blank, readRules_blank] at hread'
  refine parse_eq_ok_iff.mpr ⟨?_, ?_⟩
  · rw [hboth]
    exact List.forall_mem_append.mpr ⟨(List.forall_mem_append.mp hshort).1,
      List.forall_mem_append.mpr ⟨short_blank x, (List.forall_mem_append.mp hshort').2⟩⟩
  · rw [hboth]
    refine readRules_of_upToRule hfront hread ?_
    rw [nest_blank, readRules_blank]
    exact hread'

end CssExpand
