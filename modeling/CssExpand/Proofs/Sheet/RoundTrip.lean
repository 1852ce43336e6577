import CssExpand.Proofs.Sheet.Phrases
import Mathlib

/-!
# Writing a parsed stylesheet and parsing it again

A sheet keeps the names of properties and at-rules without the escapes that a source may write them
with, and its other texts as they are written for their tokens. Both can go wrong. A name that needs
an escape is not read back, and a text that ends in a lone backslash takes the character that the
layout puts after it (`Node.isPlain`); so does a source in which only an escape kept lexemes apart
(`Token.listMisread`). Where there is nothing of that kind, the nodes that are parsed last
(`lasts_of_readRules`), and the sheet is the one that its layout is parsed as (`roundTrip`).
-/

set_option autoImplicit false

namespace CssExpand

open Syntax

/-! ## 1. Plain nodes -/

/-- Whether a name is written as itself. -/
def isPlainName (name : String) : Bool := identWritten name.toList == name.toList

mutual

/-- Whether no name in a node needs an escape and none of its texts ends in a lone backslash. -/
def Node.isPlain : Node → Bool
  | .declaration d => isPlainName d.prop && closes d.value.toList
  | .raw text => closes text.toList
  | .comment _ => true
  | .rule selector nodes => closes selector.toList && listIsPlain nodes
  | .atStatement name prelude _ => isPlainName name && closes prelude.toList
  | .atBlock name prelude _ nodes =>
    isPlainName name && closes prelude.toList && listIsPlain nodes

def listIsPlain : List Node → Bool
  | [] => true
  | n :: ns => n.isPlain && listIsPlain ns

end

theorem listIsPlain_iff {ns : List Node} : listIsPlain ns ↔ ∀ n ∈ ns, n.isPlain := by
  induction ns with
  | nil => simp [listIsPlain]
  | cons n ns ih => rw [listIsPlain, Bool.and_eq_true, ih, List.forall_mem_cons]

/-! ## 2. Bodies -/

theorem isCommentText_of_settled {ts : List Token} (h : Token.Settled ts) {text : List Char}
    (ht : .atom (.comment text) ∈ ts) : IsCommentText (String.ofList text) := by
  obtain ⟨before, after, rfl⟩ := List.append_of_mem ht
  have hwf : (Atom.comment text).WellFormed := (h.of_isInfix ⟨before, after, by simp⟩ :
    Token.Settled [.atom (.comment text)]).sourced.1
  rw [IsCommentText, String.toList_ofList]
  exact hwf

theorem lastsInBody_of_readChunk {ts : List Token} (h : Token.Settled ts)
    (hs : ∀ t ∈ ts, t.isSemicolon = false) (hp : ∀ n ∈ readChunk ts, n.isPlain) :
    ∀ n ∈ readChunk ts, n.LastsInBody := by
  induction ts with
  | nil => simp [readChunk]
  | cons t ts ih =>
    rw [List.forall_mem_cons] at hs
    cases ht : t.isSignificant with
    | true =>
      rw [readChunk_significant ht] at hp ⊢
      have hp := hp _ (List.mem_singleton_self _)
      intro n hn
      rw [List.mem_singleton.mp hn]
      cases hd : readDeclaration? (t :: ts) with
      | none =>
        rw [hd, Option.elim_none, Node.isPlain] at hp
        refine .line (by simp [Node.written]) (line_raw h (by simp) ?_ ?_ hd hp)
        · rintro u ⟨⟩
          exact ht
        · exact List.forall_mem_cons.mpr hs
      | some d =>
        rw [hd, Option.elim_some, Node.isPlain, Bool.and_eq_true, isPlainName, beq_iff_eq] at hp
        obtain ⟨us, hline⟩ := line_declaration h (List.forall_mem_cons.mpr hs) hd hp.1 hp.2
        exact .line (toList_written d) hline
    | false =>
      -- Whitespace and comments in front of the piece.
      cases t with
      | atom a =>
        cases a with
        | whitespace text =>
          rw [readChunk_whitespace] at hp ⊢
          exact ih h.tail hs.2 hp
        | comment text =>
          rw [readChunk_comment, List.forall_mem_cons] at hp ⊢
          exact ⟨.comment (isCommentText_of_settled h List.mem_cons_self), ih h.tail hs.2 hp.2⟩
        | _ => cases ht
      | function name arguments => cases ht
      | block b content => cases ht

theorem lastsInBody_of_readBody {ts : List Token} (h : Token.Settled ts)
    (hp : ∀ n ∈ readBody ts, n.isPlain) : ∀ n ∈ readBody ts, n.LastsInBody := by
  intro n hn
  obtain ⟨piece, hpiece, hmem⟩ := List.mem_flatMap.mp hn
  obtain ⟨hin, hs⟩ := of_mem_splitAt hpiece
  exact lastsInBody_of_readChunk (h.of_isInfix hin) hs
    (fun m hm => hp m (List.mem_flatMap.mpr ⟨piece, hpiece, hm⟩)) n hmem

/-! ## 3. Rules -/

/-- What a reader of rules is in the middle of, before tokens that settle it. The tokens that are
pending are settled together with those to come, because the two are read as one text. -/
inductive Pending.Reads (top : Bool) : Pending → List Token → Prop
  | nothing {ts : List Token} (settled : Token.Settled ts) : Reads top .nothing ts
  | rule {selector ts : List Token} (settled : Token.Settled (selector.reverse ++ ts))
    (block : ∀ t ∈ selector, isCurlyBlock t = false) (ne_nil : selector ≠ [])
    (start : ∀ t ∈ selector.getLast?, Pending.take top .nothing t = ([], .rule [t])) :
    Reads top (.rule selector) ts
  | atRule {name : List Char} {prelude ts : List Token}
    (settled : Token.Settled (prelude.reverse ++ ts)) (named : name ≠ [] ∧ '\x00' ∉ name)
    (block : ∀ t ∈ prelude, isCurlyBlock t = false)
    (semicolon : ∀ t ∈ prelude, t.isSemicolon = false) :
    Reads top (.atRule (String.ofList (Text.asciiLower name)) prelude) ts

theorem Pending.Reads.settled {top : Bool} {p : Pending} {ts : List Token} (h : p.Reads top ts) :
    Token.Settled ts := by
  cases h with
  | nothing settled => exact settled
  | rule settled => exact settled.right
  | atRule settled => exact settled.right

/-- A name that is plain is one that an at-rule may have. -/
theorem atName_asciiLower {name : List Char} (h : name ≠ [] ∧ '\x00' ∉ name)
    (hp : isPlainName (String.ofList (Text.asciiLower name))) :
    AtName (String.ofList (Text.asciiLower name)).toList := by
  rw [isPlainName, String.toList_ofList, beq_iff_eq] at hp
  rw [String.toList_ofList]
  refine ⟨hp ▸ unified_identWritten (mem_asciiLower h.2), ?_, hp, asciiLower_asciiLower name⟩
  simpa [Text.asciiLower] using h.1

theorem take_reread {top : Bool} {t : Token}
    (h : Pending.take top .nothing t = ([], .rule [t])) :
    Pending.take top .nothing t.reread = ([], .rule [t.reread]) := by
  cases t with
  | atom a =>
    cases a with
    | dimension n unit =>
      simp [Pending.take, Token.reread, Atom.reread, hidesSheet, Token.isLiteral]
    | _ => exact h
  | function name arguments => simp [Pending.take, Token.reread, hidesSheet, Token.isLiteral]
  | block b content => simp [Pending.take, Token.reread, hidesSheet, Token.isLiteral]

/-- The prelude of an at-rule, with its tokens read back. -/
theorem exists_phrase_prelude {prelude ts : List Token}
    (h : Token.Settled (prelude.reverse ++ ts)) (hb : ∀ t ∈ prelude, isCurlyBlock t = false)
    (hs : ∀ t ∈ prelude, t.isSemicolon = false)
    (hc : closes (trimmedText prelude.reverse).toList) :
    ∃ us, Phrase (trimmedText prelude.reverse).toList us ∧ ∀ t ∈ us, t.isSemicolon = false := by
  have hblock : ∀ t ∈ prelude.reverse, isCurlyBlock t = false :=
    fun t ht => hb t (List.mem_reverse.mp ht)
  refine ⟨_, phrase_trimmedText h.left hblock hc, forall_listReread rfl isSemicolon_reread ?_⟩
  exact fun t ht => hs t (List.mem_reverse.mp ((trim_isInfix _).subset ht))

theorem lasts_statement {top : Bool} {name : String} {prelude ts : List Token}
    (h : Pending.Reads top (.atRule name prelude) ts)
    (hp : (Pending.statement name prelude).isPlain) :
    (Pending.statement name prelude).Lasts top := by
  cases h with
  | atRule settled named block semicolon =>
    rw [Pending.statement, Node.isPlain, Bool.and_eq_true] at hp
    obtain ⟨us, hphrase, hus⟩ := exists_phrase_prelude settled block semicolon hp.2
    exact .atStatement (atName_asciiLower named hp.1) hphrase hus

theorem isPlain_of_close {p : Pending} {nodes : List Node} (h : (p.close nodes).isPlain) :
    ∀ n ∈ nodes, n.isPlain := by
  cases p <;> simp only [Pending.close, Node.isPlain, Bool.and_eq_true] at h <;>
    exact listIsPlain_iff.mp h.2

/-- A block completes a node that lasts if the nodes in the block do. -/
theorem lasts_close {top : Bool} {p : Pending} {ts : List Token} {nodes : List Node}
    (h : p.Reads top ts) (hp : (p.close nodes).isPlain)
    (hn : if p.wantsRules then ∀ n ∈ nodes, n.Lasts false else ∀ n ∈ nodes, n.LastsInBody) :
    (p.close nodes).Lasts top := by
  cases h with
  | nothing settled =>
    have hphrase : Phrase "".toList [] :=
      ⟨unified_nil, by simp, fun _ _ => rfl, by simp [Token.listFlat], rfl, by simp, by simp, by simp⟩
    exact .rule hphrase (by simp) hn
  | @rule selector ts settled block ne_nil start =>
    rw [Pending.close, Node.isPlain, Bool.and_eq_true] at hp
    have hblock : ∀ t ∈ selector.reverse, isCurlyBlock t = false :=
      fun t ht => block t (List.mem_reverse.mp ht)
    refine .rule (phrase_trimmedText settled.left hblock hp.1) ?_ hn
    -- The first token of a selector is no whitespace, so it is the first one of the text too.
    obtain ⟨init, t, rfl⟩ := (List.eq_nil_or_concat selector).resolve_left ne_nil
    rw [List.concat_eq_append] at start ⊢
    have htake := start t (by simp)
    have hw : t.isWhitespace = false := by
      cases t with
      | atom a => cases a <;> first | rfl | cases htake
      | function name arguments => rfl
      | block b content => rfl
    intro u hu
    rw [head?_listReread] at hu
    obtain ⟨v, hv, rfl⟩ := Option.map_eq_some_iff.mp hu
    have hpre := trim_isPrefix (init ++ [t]).reverse
    rw [List.reverse_concat, List.dropWhile_cons, if_neg (by simp [hw])] at hpre
    cases htrim : Token.trim (t :: init.reverse) with
    | nil => simp [htrim] at hv
    | cons w ws =>
      rw [htrim] at hpre
      obtain rfl : w = t := (List.cons_prefix_cons.mp hpre).1
      obtain rfl : w = v := by simpa [htrim] using hv
      exact take_reread htake
  | @atRule name prelude ts settled named block semicolon =>
    rw [Pending.close, Node.isPlain, Bool.and_eq_true, Bool.and_eq_true] at hp
    obtain ⟨us, hphrase, hus⟩ := exists_phrase_prelude settled block semicolon hp.1.2
    have hname := atName_asciiLower named hp.1.1
    rw [Pending.wantsRules] at hn
    rw [Pending.close]
    cases hholds : holdsRules (String.ofList (Text.asciiLower name)) with
    | true =>
      rw [hholds] at hn
      exact .atRules hname hphrase hus hholds hn
    | false =>
      rw [hholds] at hn
      exact .atBody hname hphrase hus hholds hn

/-- What a token does between rules. -/
theorem take_nothing (top : Bool) (t : Token) :
    (∃ text, t = .atom (.comment text) ∧
        Pending.take top .nothing t = ([.comment (String.ofList text)], .nothing)) ∨
      (∃ name, t = .atom (.atKeyword name) ∧ Pending.take top .nothing t =
        ([], .atRule (String.ofList (Text.asciiLower name)) [])) ∨
      Pending.take top .nothing t = ([], .nothing) ∨
      Pending.take top .nothing t = ([], .rule [t]) := by
  unfold Pending.take
  dsimp only
  split
  · exact .inr (.inr (.inl rfl))
  · exact .inl ⟨_, rfl, rfl⟩
  · exact .inr (.inl ⟨_, rfl, rfl⟩)
  · split
    · exact .inr (.inr (.inl rfl))
    · exact .inr (.inr (.inr rfl))

/-- A token that is no block completes nodes that last. -/
theorem reads_take {top : Bool} {p : Pending} {t : Token} {ts : List Token}
    (h : p.Reads top (t :: ts)) (hc : isCurlyBlock t = false) :
    (p.take top t).2.Reads top ts ∧
      ((∀ n ∈ (p.take top t).1, n.isPlain) → ∀ n ∈ (p.take top t).1, n.Lasts top) := by
  have hnone : ∀ n ∈ ([] : List Node), n.Lasts top := List.forall_mem_nil _
  cases h with
  | nothing settled =>
    rcases take_nothing top t with ⟨text, rfl, heq⟩ | ⟨name, rfl, heq⟩ | heq | heq
    · rw [heq]
      refine ⟨.nothing settled.tail, fun _ n hn => ?_⟩
      rw [List.mem_singleton.mp hn]
      exact .comment (isCommentText_of_settled settled List.mem_cons_self)
    · rw [heq]
      have hwf : (Atom.atKeyword name).WellFormed := settled.head.sourced.1
      exact ⟨.atRule settled.tail hwf (by simp) (by simp), fun _ => hnone⟩
    · rw [heq]
      exact ⟨.nothing settled.tail, fun _ => hnone⟩
    · rw [heq]
      refine ⟨.rule settled (by simpa using hc) (by simp) ?_, fun _ => hnone⟩
      rintro u ⟨⟩
      exact heq
  | @rule selector ts settled block ne_nil start =>
    refine ⟨.rule (by simpa using settled) (List.forall_mem_cons.mpr ⟨hc, block⟩) (by simp) ?_,
      fun _ => hnone⟩
    obtain ⟨u, us, rfl⟩ := List.exists_cons_of_ne_nil ne_nil
    rwa [List.getLast?_cons_cons]
  | @atRule name prelude ts settled named block semicolon =>
    rw [Pending.take]
    cases hs : t.isSemicolon with
    | true =>
      rw [if_pos rfl]
      refine ⟨.nothing settled.right.tail, fun hp n hn => ?_⟩
      rw [List.mem_singleton.mp hn]
      exact lasts_statement (.atRule settled named block semicolon) (hp _ List.mem_cons_self)
    | false =>
      rw [if_neg (by simp)]
      exact ⟨.atRule (by simpa using settled) named (List.forall_mem_cons.mpr ⟨hc, block⟩)
        (List.forall_mem_cons.mpr ⟨hs, semicolon⟩), fun _ => hnone⟩

/-- Plain nodes that are read from settled tokens last. -/
theorem lasts_of_readRules (top : Bool) : ∀ (ts : List Token) {p : Pending} {ns : List Node},
    p.Reads top ts → readRules top p ts = .ok ns → (∀ n ∈ ns, n.isPlain) → ∀ n ∈ ns, n.Lasts top
  | [], p, ns, h, hr, hp => by
    rw [readRules] at hr
    cases p with
    | nothing =>
      cases hr
      simp
    | rule selector => cases hr
    | atRule name prelude =>
      cases hr
      rw [List.forall_mem_singleton] at hp ⊢
      exact lasts_statement h hp
  | t :: ts, p, ns, h, hr, hp => by
    by_cases hc : isCurlyBlock t
    · cases t with
      | atom a => cases hc
      | function name arguments => cases hc
      | block b content =>
        cases b with
        | round => cases hc
        | square => cases hc
        | curly =>
          obtain ⟨nodes, rest, hread, hrest, rfl⟩ := readRules_cons_block.mp hr
          rw [List.forall_mem_cons] at hp ⊢
          -- a block closes the pending rule: its content is read as rules or as a body, by what
          -- the rule wants, and the reading starts afresh behind it
          have hcontent : Token.Settled content := h.settled.head.content
          have hnodes := isPlain_of_close hp.1
          have hafter : Pending.Reads top .nothing ts := .nothing h.settled.tail
          refine ⟨lasts_close h hp.1 ?_, lasts_of_readRules top ts hafter hrest hp.2⟩
          unfold readerOf at hread
          cases hw : p.wantsRules with
          | true =>
            rw [hw] at hread
            exact lasts_of_readRules false content (.nothing hcontent) hread hnodes
          | false =>
            rw [hw] at hread
            cases hread
            exact lastsInBody_of_readBody hcontent hnodes
    · obtain ⟨rest, hrest, rfl⟩ := (readRules_cons_plain (Bool.eq_false_iff.mpr hc)).mp hr
      obtain ⟨hreads, hlasts⟩ := reads_take h (Bool.eq_false_iff.mpr hc)
      rw [List.forall_mem_append] at hp ⊢
      exact ⟨hlasts hp.1, lasts_of_readRules top ts hreads hrest hp.2⟩

/-! ## 4. Sheets -/

/-- An indentation of spaces and tabs. -/
def IsIndent (indent : String) : Prop := ∀ c ∈ indent.toList, c = ' ' ∨ c = '\t'

theorem IsIndent.isBlank {indent : String} (h : IsIndent indent) : IsBlank indent.toList := by
  intro c hc
  rcases h c hc with rfl | rfl <;> rfl

/-- The nodes of a plain sheet whose source has no faults, and nothing that is misread, last. -/
theorem lasts_of_parse {css : String} {sheet : Sheet} (h : Sheet.parse css = .ok sheet)
    (hf : Token.listHasFault (Token.ofChars css.toList) = false)
    (hm : Token.listMisread (Token.ofChars css.toList) = false) (hp : listIsPlain sheet) :
    ∀ n ∈ sheet, n.Lasts true := by
  obtain ⟨hc, hread⟩ := readRules_of_parse h
  exact lasts_of_readRules true _ (.nothing (Token.settled_parse hc hf hm)) hread
    (listIsPlain_iff.mp hp)

/-- A plain sheet whose source has no faults, and nothing that is misread, is written to a text that
is parsed as the same sheet, whatever blanks it is indented with.

All conditions are on what was read, and each stands for one way in which a source can be lost: a fault
is written as something else, a misread token loses an escape without which it is another token, and a
node that is not plain ends in a lone backslash or needs an escape in its name. -/
theorem roundTrip {css : String} {sheet : Sheet} (h : Sheet.parse css = .ok sheet)
    (hf : Token.listHasFault (Token.ofChars css.toList) = false)
    (hm : Token.listMisread (Token.ofChars css.toList) = false) (hp : listIsPlain sheet)
    {indent : String} (hi : IsIndent indent) :
    ∃ text, sheet.write indent = .ok text ∧ Sheet.parse text = .ok sheet :=
  parse_write (lasts_of_parse h hf hm hp) hi.isBlank

/-- A sheet with a hack, a raw piece, comments and a list of rules in a block. -/
def mixedSheet : Sheet :=
  [.comment "!", .atStatement "import" "url(x)" false,
   .atBlock "media" "(a)" true
    [.rule "a>b" [.raw "*top:1", .declaration ⟨"top", "0\\9", true⟩, .comment ""]],
   .atBlock "page" "" false [.declaration ⟨"--X", "", false⟩]]

/-- A text for that sheet, laid out in another way than it is written. -/
def mixedText : String :=
  "/*!*/@IMPORT url( x );@media (a)\x7ba>b\x7b*top:1;TOP:0\\9!important;/**/\x7d\x7d@page\x7b--X:\x7d"

/-- The text of a sheet with comments, at-rules of each kind and hacks satisfies the conditions, and the
sheet comes back. -/
theorem roundTrip_mixedSheet :
    Sheet.parse mixedText = .ok mixedSheet ∧
      Token.listHasFault (Token.ofChars mixedText.toList) = false ∧
      Token.listMisread (Token.ofChars mixedText.toList) = false ∧ listIsPlain mixedSheet ∧
      IsIndent "\t" ∧
      ∃ text, mixedSheet.write "\t" = .ok text ∧ Sheet.parse text = .ok mixedSheet := by
  have hparse : Sheet.parse mixedText = .ok mixedSheet := by
    rw [mixedText, mixedSheet]
    cbv
  have hfault : Token.listHasFault (Token.ofChars mixedText.toList) = false := by cbv
  have hmisread : Token.listMisread (Token.ofChars mixedText.toList) = false := by cbv
  have hplain : listIsPlain mixedSheet := by
    rw [mixedSheet]
    cbv
  have hindent : IsIndent "\t" := by
    intro c hc
    simp at hc
    exact .inr hc
  exact ⟨hparse, hfault, hmisread, hplain, hindent,
    roundTrip hparse hfault hmisread hplain hindent⟩

/-- A value that is a lone backslash takes the semicolon that is written after it. -/
theorem parse_write_loneBackslash :
    Sheet.parse "a\x7bb:\\\n\x7d" = .ok [.rule "a" [.declaration ⟨"b", "\\", false⟩]] ∧
      Token.listHasFault (Token.ofChars "a\x7bb:\\\n\x7d".toList) = false ∧
      ∃ text, Sheet.write "" [.rule "a" [.declaration ⟨"b", "\\", false⟩]] = .ok text ∧
        Sheet.parse text = .ok [.rule "a" [.declaration ⟨"b", "\\;", false⟩]] :=
  ⟨by cbv, by cbv, "a \x7b\nb: \\;\n\x7d\n", by cbv, by cbv⟩

end CssExpand
