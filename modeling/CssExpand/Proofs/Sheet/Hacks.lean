import CssExpand.Proofs.Forest.PassSheet
import CssExpand.Proofs.Passes.Protected
import CssExpand.Proofs.Sheet.RoundTrip

/-!
# Hacks in values

The tokenizer reads the escapes `\9` and `\0` of a hack like any other escape: what is left of them is
a name that ends in a tab, or one that ends in the replacement character in front of a slash
(`EndsInHack`). The text of such tokens is that of the hack again (`isHackValue_authoredText`), so the
declaration is known for a hack, no pass touches it, and it is read back (`keepsHack_of_parse`).

The escapes are looked for at the very end of the text. Whitespace after the hack is trimmed before,
and `!important` is no part of the value, but a comment stays: after a comment the hack is not
restored, not recognised, and taken apart like any other value (`longhands_hackBeforeComment`).
-/

set_option autoImplicit false

namespace CssExpand

open Syntax Forest

/-! ## 1. Values that end in a hack -/

/-- The name that a token ends in. -/
def Syntax.Token.endName? : Token → Option (List Char)
  | .atom a => (Lexeme.atom a).name?
  | _ => none

/-- The tokens end in a tab that was escaped, or in a replacement character that was escaped and the
slash right after it. Nothing but whitespace follows. This is asked of the tokens, before anything is
written: that their text ends like a hack is what has to be shown. -/
inductive EndsInHack : List Token → Prop
  | tab {front gap : List Token} {t : Token} {name : List Char}
      (named : t.endName? = some (name ++ ['\t'])) (blank : ∀ g ∈ gap, g.isWhitespace) :
      EndsInHack (front ++ t :: gap)
  | slash {front gap : List Token} {t : Token} {name : List Char}
      (named : t.endName? = some (name ++ [replacement])) (blank : ∀ g ∈ gap, g.isWhitespace) :
      EndsInHack (front ++ t :: .atom (.literal ['/']) :: gap)

/-- The text of a token that ends in a name ends as the name does. -/
theorem Syntax.Token.written_stem {t : Token} {name : List Char} {c : Char}
    (h : t.endName? = some (name ++ [c])) (hc : IsHackEnd c) :
    ∃ stem, t.written = stem ++ nameCharWritten c := by
  obtain ⟨stem, hstem, -⟩ := identWritten_stem name hc
  cases t with
  | atom a =>
    cases a with
    | ident n =>
      obtain rfl : n = name ++ [c] := by simpa [endName?, Lexeme.name?] using h
      exact ⟨stem, hstem⟩
    | atKeyword n =>
      obtain rfl : n = name ++ [c] := by simpa [endName?, Lexeme.name?] using h
      exact ⟨'@' :: stem, by simp [written, Atom.written, hstem]⟩
    | hash n isIdent =>
      obtain rfl : n = name ++ [c] := by simpa [endName?, Lexeme.name?] using h
      cases isIdent with
      | true => exact ⟨'#' :: stem, by simp [written, Atom.written, hstem]⟩
      | false => exact ⟨'#' :: nameWritten name, by simp [written, Atom.written, nameWritten]⟩
    | dimension n unit =>
      obtain rfl : unit = name ++ [c] := by simpa [endName?, Lexeme.name?] using h
      obtain ⟨st, hst, -⟩ := unitWritten_stem name hc
      exact ⟨n.chars ++ st, by simp [written, Atom.written, hst]⟩
    | _ => simp [endName?, Lexeme.name?] at h
  | function n arguments => cases h
  | block b content => cases h

theorem Syntax.Token.isWhitespace_of_endName? {t : Token} {name : List Char}
    (h : t.endName? = some name) : t.isWhitespace = false := by
  cases t with
  | atom a => cases a <;> first | rfl | cases h
  | _ => rfl

/-- Leading whitespace ends before a token that is none. -/
theorem dropWhile_isWhitespace_append {t : Token} (ht : t.isWhitespace = false)
    (front gap : List Token) : (front ++ t :: gap).dropWhile Token.isWhitespace =
      front.dropWhile Token.isWhitespace ++ t :: gap := by
  induction front with
  | nil => simp [ht]
  | cons u front ih =>
    rw [List.cons_append, List.dropWhile_cons, List.dropWhile_cons]
    split
    · exact ih
    · rfl

/-- Trimming ends at the last token that is no whitespace. -/
theorem trim_append {t : Token} (ht : t.isWhitespace = false) (front : List Token)
    {gap : List Token} (hgap : ∀ g ∈ gap, g.isWhitespace) :
    Token.trim (front ++ t :: gap) = front.dropWhile Token.isWhitespace ++ [t] := by
  have hback : ∀ g ∈ gap.reverse, g.isWhitespace := fun g hg => hgap g (List.mem_reverse.mp hg)
  rw [Token.trim, dropWhile_isWhitespace_append ht, List.reverse_append, List.reverse_cons,
    List.append_assoc, List.singleton_append, dropWhile_stop hback]
  · simp
  · rintro u ⟨⟩
    exact ht

/-- The text of tokens ends in the text of the last ones. -/
theorem Syntax.Token.listWritten_append_cons (ts : List Token) (t : Token) (us : List Token) :
    ∃ before, listWritten (ts ++ t :: us) = before ++ listWritten (t :: us) := by
  induction ts with
  | nil => exact ⟨[], rfl⟩
  | cons u ts ih =>
    obtain ⟨before, h⟩ := ih
    refine ⟨u.written ++ u.glueBefore (ts ++ t :: us) ++ before, ?_⟩
    rw [List.cons_append, listWritten, h, ← List.append_assoc]

/-- A name and a slash are written side by side. -/
theorem Syntax.Token.listWritten_slash {t : Token} {name : List Char} (h : t.endName? = some name) :
    listWritten [t, .atom (.literal ['/'])] = t.written ++ ['/'] := by
  have hclash : t.joint.clash (.literal ['/']) = false := by
    simp [Joint.clash, Joint.startsWithName, Joint.startsWithNumber]
  have hback : t.isLiteral ['\\'] = false := by
    cases t with
    | atom a => cases a <;> first | rfl | cases h
    | _ => rfl
  have hglue : t.glue (.atom (.literal ['/'])) = [] := by
    rw [glue, joint, Atom.joint, hclash, hback]
    rfl
  simp [listWritten, glueBefore, hglue, written, Atom.written]

/-- The text of a value that ends in a hack is one that is known for a hack. -/
theorem isHackValue_authoredText {ts : List Token} (h : EndsInHack ts) :
    isHackValue (authoredText ts) = true := by
  rw [authoredText_eq]
  cases h with
  | @tab front gap t name named blank =>
    obtain ⟨stem, hstem⟩ := Token.written_stem named (.inl rfl)
    obtain ⟨before, hbefore⟩ :=
      Token.listWritten_append_cons (front.dropWhile Token.isWhitespace) t []
    have hc : nameCharWritten '\t' = ['\\', '\t'] := by decide
    have htext : Token.listWritten (Token.trim (front ++ t :: gap)) =
        before ++ stem ++ ['\\', '\t'] := by
      rw [trim_append (Token.isWhitespace_of_endName? named) front blank, hbefore,
        Token.listWritten, hstem, hc]
      simp [Token.glueBefore, Token.listWritten]
    have hend : ['\\', '9'].isSuffixOf (before ++ stem ++ ['\\', '9']) = true :=
      List.isSuffixOf_iff_suffix.mpr (List.suffix_append _ _)
    rw [htext, restored_tab, isHackValue, String.toList_ofList, hend]
    rfl
  | @slash front gap t name named blank =>
    obtain ⟨stem, hstem⟩ := Token.written_stem named (.inr (.inl rfl))
    obtain ⟨before, hbefore⟩ := Token.listWritten_append_cons
      (front.dropWhile Token.isWhitespace) t [.atom (.literal ['/'])]
    have hc : nameCharWritten replacement = [replacement] := by decide
    have hsplit : front ++ t :: .atom (.literal ['/']) :: gap =
        (front ++ [t]) ++ .atom (.literal ['/']) :: gap := by simp
    have htext : Token.listWritten (Token.trim (front ++ t :: .atom (.literal ['/']) :: gap)) =
        before ++ stem ++ [replacement, '/'] := by
      rw [hsplit, trim_append rfl (front ++ [t]) blank,
        dropWhile_isWhitespace_append (Token.isWhitespace_of_endName? named), List.append_assoc,
        List.singleton_append, hbefore, Token.listWritten_slash named, hstem, hc]
      simp
    have hend : ['\\', '0', '/'].isSuffixOf (before ++ stem ++ ['\\', '0', '/']) = true :=
      List.isSuffixOf_iff_suffix.mpr (List.suffix_append _ _)
    rw [htext, restored_slash, isHackValue, String.toList_ofList, hend, Bool.or_true]
    rfl

/-! ## 2. The bodies of a source -/

mutual

/-- The content of a `{}` block if it is read as declarations, and those inside it otherwise. -/
def blockContents (asRules : Bool) : Token → List (List Token)
  | .block .curly content => if asRules then bodyContents false .nothing content else [content]
  | _ => []

/-- The contents of the `{}` blocks in a list of rules that are read as declarations, in order. -/
def bodyContents (top : Bool) (pending : Pending) : List Token → List (List Token)
  | [] => []
  | t :: ts =>
    if isCurlyBlock t then
      blockContents pending.wantsRules t ++ bodyContents top .nothing ts
    else bodyContents top (pending.take top t).2 ts

end

/-- The bodies of rules and the declaration blocks of at-rules, in order. -/
def Sheet.bodies (sheet : Sheet) : List (List Node) := (Pass.units .nothing).listBodies sheet

mutual

theorem Pass.bodies_subset (p : Pass) : ∀ n : Node, p.bodies n ⊆ (Pass.units .nothing).bodies n
  | .rule _ _ => List.Subset.refl _
  | .atBlock _ _ true nodes => Pass.listBodies_subset p nodes
  | .atBlock _ _ false body => by
    rw [Pass.bodies]
    split
    · exact List.Subset.refl _
    · exact List.nil_subset _
  | .declaration _ | .raw _ | .comment _ | .atStatement _ _ _ => List.nil_subset _

theorem Pass.listBodies_subset (p : Pass) : ∀ ns : List Node,
    p.listBodies ns ⊆ (Pass.units .nothing).listBodies ns
  | [] => List.nil_subset _
  | n :: ns => fun _ hb => List.mem_append.mpr <| (List.mem_append.mp hb).imp
    (fun h => Pass.bodies_subset p n h) fun h => Pass.listBodies_subset p ns h

end

/-- A pass goes to bodies of the stylesheet. -/
theorem Sheet.mem_bodies {p : Pass} {sheet : Sheet} {body : List Node}
    (h : body ∈ p.listBodies sheet) : body ∈ sheet.bodies := Pass.listBodies_subset p sheet h

/-- A reader that is not at a `{}` block makes no bodies. -/
theorem bodies_take (top : Bool) (p : Pending) (t : Token) : Sheet.bodies (p.take top t).1 = [] := by
  cases p with
  | nothing =>
    rcases take_nothing top t with ⟨text, rfl, h⟩ | ⟨name, rfl, h⟩ | h | h <;> rw [h] <;> rfl
  | rule selector => rfl
  | atRule name prelude =>
    rw [Pending.take]
    split <;> rfl

theorem bodies_append (ns ms : List Node) :
    Sheet.bodies (ns ++ ms) = Sheet.bodies ns ++ Sheet.bodies ms := by
  rw [Sheet.bodies, Sheet.bodies, Sheet.bodies, Pass.listBodies_eq, Pass.listBodies_eq,
    Pass.listBodies_eq, List.flatMap_append]

/-- The node of a `{}` block has the bodies that are in it, or is one. -/
theorem bodies_close (p : Pending) (nodes rest : List Node) :
    Sheet.bodies (p.close nodes :: rest) =
      (if p.wantsRules then Sheet.bodies nodes else [nodes]) ++ Sheet.bodies rest := by
  rw [Sheet.bodies, Pass.listBodies]
  congr 1
  cases p with
  | nothing => rfl
  | rule selector => rfl
  | atRule name prelude =>
    rw [Pending.close, Pending.wantsRules]
    cases holdsRules name <;> rfl

/-- The bodies of a list of rules are read from its contents one by one. -/
theorem bodies_of_readRules (top : Bool) : ∀ (ts : List Token) {p : Pending} {ns : List Node},
    readRules top p ts = .ok ns → Sheet.bodies ns = (bodyContents top p ts).map readBody
  | [], p, ns, h => by
    rw [readRules] at h
    cases p with
    | nothing =>
      cases h
      rfl
    | rule selector => cases h
    | atRule name prelude =>
      cases h
      rfl
  | t :: ts, p, ns, h => by
    rw [bodyContents]
    by_cases hc : isCurlyBlock t
    · rw [if_pos hc]
      cases t with
      | atom a => cases hc
      | function name arguments => cases hc
      | block b content =>
        cases b with
        | round => cases hc
        | square => cases hc
        | curly =>
          obtain ⟨nodes, rest, hread, hrest, rfl⟩ := readRules_cons_block.mp h
          rw [bodies_close, bodies_of_readRules top ts hrest, blockContents, List.map_append]
          congr 1
          unfold readerOf at hread
          cases hw : p.wantsRules with
          | true =>
            rw [hw] at hread
            exact bodies_of_readRules false content hread
          | false =>
            rw [hw] at hread
            cases hread
            rfl
    · rw [if_neg hc]
      obtain ⟨rest, hrest, rfl⟩ := (readRules_cons_plain (Bool.eq_false_iff.mpr hc)).mp h
      rw [bodies_append, bodies_take, List.nil_append, bodies_of_readRules top ts hrest]

/-! ## 3. Declarations -/

/-- The piece of a body is a declaration: a name, a colon and a value, which may be important. It says
what the reader of bodies does, without the reader, so that a declaration can be pointed out in the
source. -/
inductive IsDeclaration : List Token → List Char → List Token → Bool → Prop
  | mk {before between rest value : List Token} {name : List Char} {colon : Token}
      {important : Bool} (start : ∀ t ∈ before, t.isSignificant = false)
      (gap : ∀ t ∈ between, t.isSignificant = false) (colon_eq : colon.isLiteral [':'])
      (read : readValue? rest = some (value, important)) :
      IsDeclaration (before ++ .atom (.ident name) :: (between ++ colon :: rest)) name value important

/-- A declaration is read from its piece. -/
theorem IsDeclaration.mem_readChunk {piece value : List Token} {name : List Char} {important : Bool}
    (h : IsDeclaration piece name value important) :
    .declaration ⟨propertyName name, authoredText value, important⟩ ∈ readChunk piece := by
  cases h with
  | @mk before between rest _ _ colon _ start gap colon_eq read =>
    have hdrop : (before ++ .atom (.ident name) :: (between ++ colon :: rest)).dropWhile
        (!·.isSignificant) = .atom (.ident name) :: (between ++ colon :: rest) :=
      dropWhile_insignificant start rfl
    have hread : readDeclaration? (.atom (.ident name) :: (between ++ colon :: rest)) =
        (readValue? rest).map fun v => ⟨propertyName name, authoredText v.1, v.2⟩ :=
      readDeclaration?_parts (List.forall_mem_nil _) gap colon_eq
    rw [read, Option.map_some] at hread
    rw [readChunk, hdrop]
    refine List.mem_append_right _ ?_
    simp [hread]

/-- A node is what it was, and stands in the block that it stood in. -/
structure Forest.StaysAt (id : NodeId) (f g : Forest) : Prop where
  cell : g.cell? id = f.cell? id
  block : ∀ block, id ∈ g.children block ↔ id ∈ f.children block

/-- Passes that leave a declaration untouched leave it where it is. -/
theorem Forest.Untouched.staysAt {ignored : Ignored} {f g : Forest} (h : Untouched ignored f g)
    {id : NodeId} {d : Declaration} (hd : f.declaration? id = some d)
    (hp : d.isProtected ignored = true) : StaysAt id f g := by
  obtain ⟨c, hc, hcd⟩ := exists_cell?_of_declaration? hd
  have hstays : f.stays ignored id = true := by
    rw [stays, content?_eq, hc, Option.map_some, hcd]
    exact hp
  refine ⟨?_, fun block => ?_⟩
  · rw [h.same id hstays, hc, Option.map_some, Cell.withChildren, hcd]
    obtain ⟨content, parent⟩ := c
    obtain rfl : content = .declaration d := hcd
    rfl
  · have hmem : ∀ ids : List NodeId, id ∈ ids.filter (f.stays ignored) ↔ id ∈ ids := by simp [hstays]
    rw [← hmem (g.children block), h.children block, hmem]

/-- What becomes of a hack in a stylesheet that was parsed from a text. That it is known as a hack, that
no pass looks at it and that it stays where it is holds of every such text. That it is read back has
the conditions of the round trip, and they are on the whole sheet: a value elsewhere that is written
with a lone backslash at its end, or a name that needs an escape, takes some of what is written behind
it, so no condition on the declaration alone would be enough. -/
structure KeepsHack (css : String) (sheet : Sheet) (d : Declaration) : Prop where
  stands : ∃ body ∈ sheet.bodies, .declaration d ∈ body
  isHack : d.isHack = true
  /-- No stage of any pass looks at it. -/
  unseen : ∀ (kind : PassKind) (ignored : Ignored), ∀ s ∈ (kind.pass ignored).stages,
    s.considers d = false
  /-- In place, its node stays as it is and where it is, even if the passes are stopped elsewhere. -/
  kept : ∀ (kinds : List PassKind) (ignored : Ignored) (id : NodeId),
    (ofSheet sheet).declaration? id = some d →
    (Edit.runPasses (kinds.map (PassKind.pass ignored))).Ends (ofSheet sheet)
      (fun _ g => StaysAt id (ofSheet sheet) g)
      (fun e g => (∃ cause, e = .overlong cause) ∧ StaysAt id (ofSheet sheet) g)
  /-- It is read back, if the source has no faults and is not misread and the sheet is plain. -/
  readBack : Token.listHasFault (Token.ofChars css.toList) = false →
    Token.listMisread (Token.ofChars css.toList) = false → listIsPlain sheet →
    ∀ indent, IsIndent indent →
      ∃ text, sheet.write indent = .ok text ∧ Sheet.parse text = .ok sheet

/-- No pass looks at a hack. -/
theorem considers_hack {d : Declaration} (h : d.isHack = true) {kind : PassKind} {ignored : Ignored}
    {s : Stage} (hs : s ∈ (kind.pass ignored).stages) : s.considers d = false := by
  cases kind with
  | longhands =>
    obtain ⟨names, -, rfl⟩ := List.mem_map.mp hs
    simp [Pass.longhandStage, h]
  | defaults =>
    obtain rfl := List.mem_singleton.mp hs
    simp [h]
  | units =>
    obtain rfl := List.mem_singleton.mp hs
    simp [h]

/-- A declaration of a text that parses whose value ends in a hack, before blanks and `!important`, is
known for a hack, left alone by all passes and read back.

It is found by where it stands in the source, in a piece between two semicolons of a body, since nothing
else tells it from the other declarations of the sheet. Being read back is about the text of the whole
sheet, so it comes with the conditions of `roundTrip`; all the rest is about the declaration alone. -/
theorem keepsHack_of_parse {css : String} {sheet : Sheet} (h : Sheet.parse css = .ok sheet)
    {content piece value : List Token} {name : List Char} {important : Bool}
    (hcontent : content ∈ bodyContents true .nothing (Token.ofChars css.toList))
    (hpiece : piece ∈ Token.splitAt Token.isSemicolon content)
    (hd : IsDeclaration piece name value important)
    (hcustom : isCustomName (propertyName name) = false) (hhack : EndsInHack value) :
    KeepsHack css sheet ⟨propertyName name, authoredText value, important⟩ := by
  have hread := (readRules_of_parse h).2
  have hisHack : Declaration.isHack ⟨propertyName name, authoredText value, important⟩ = true := by
    rw [Declaration.isHack, Declaration.isCustom, hcustom, isHackValue_authoredText hhack,
      Bool.or_true]
    rfl
  refine ⟨?_, hisHack, fun kind ignored s hs => considers_hack hisHack hs, ?_, ?_⟩
  · refine ⟨readBody content, ?_, List.mem_flatMap.mpr ⟨piece, hpiece, hd.mem_readChunk⟩⟩
    rw [bodies_of_readRules true _ hread]
    exact List.mem_map_of_mem hcontent
  · intro kinds ignored id hid
    have hprotected : Declaration.isProtected ignored
        ⟨propertyName name, authoredText value, important⟩ = true := by
      rw [Declaration.isProtected, hisHack, Bool.true_or]
    refine (Reached.ends_runPasses kinds
      ⟨sound_ofSheet sheet, fun _ => rfl, .refl (ofSheet sheet)⟩).mono ?_ ?_
    · exact fun _ g hg => hg.untouched.staysAt hid hprotected
    · exact fun _ g hg => ⟨hg.1, hg.2.untouched.staysAt hid hprotected⟩
  · exact fun hf hm hp indent hi => parse_write (lasts_of_parse h hf hm hp) hi.isBlank

/-- A source with a hack that ends a dimension, and one in front of a blank and `!important`. -/
def hackText : String := "a\x7bTOP:1px\\9;color:f(x)\\0/ !important\x7d"

def hackSheet : Sheet :=
  [.rule "a" [.declaration ⟨"top", "1px\\9", false⟩, .declaration ⟨"color", "f(x)\\0/", true⟩]]

/-- The tokens of the second hack. -/
def hackTokens : List Token :=
  [.function ['f'] [.atom (.ident ['x'])], .atom (.ident [replacement]), .atom (.literal ['/']),
    .atom (.whitespace [' '])]

/-- The hack behind a function, which a blank and `!important` follow. -/
theorem keepsHack_of_parse_hackSheet :
    Sheet.parse hackText = .ok hackSheet ∧ EndsInHack hackTokens ∧
      KeepsHack hackText hackSheet ⟨"color", "f(x)\\0/", true⟩ := by
  have h : Sheet.parse hackText = .ok hackSheet := by
    rw [hackText, hackSheet]
    cbv
  let rest : List Token :=
    hackTokens ++ [.atom (.literal ['!']), .atom (.ident "important".toList)]
  let piece : List Token := .atom (.ident "color".toList) :: .atom (.literal [':']) :: rest
  let first : List Token := [.atom (.ident "TOP".toList), .atom (.literal [':']),
    .atom (.dimension ⟨none, ['1'], none, none⟩ ['p', 'x', '\t'])]
  have htokens : Token.ofChars hackText.toList = [.atom (.ident ['a']),
      .block .curly (first ++ .atom (.literal [';']) :: piece)] := by
    rw [hackText]
    cbv
  have hcontent : first ++ .atom (.literal [';']) :: piece ∈
      bodyContents true .nothing (Token.ofChars hackText.toList) := by
    rw [htokens]
    exact List.mem_singleton_self _
  have hpiece : piece ∈ Token.splitAt Token.isSemicolon (first ++ .atom (.literal [';']) :: piece) :=
    List.mem_cons_of_mem _ (List.mem_singleton_self _)
  have hread : readValue? rest = some (hackTokens, true) := rfl
  have hd : IsDeclaration piece "color".toList hackTokens true :=
    IsDeclaration.mk (List.forall_mem_nil _) (List.forall_mem_nil _) rfl hread
  have hend : EndsInHack hackTokens :=
    @EndsInHack.slash [.function ['f'] [.atom (.ident ['x'])]] [.atom (.whitespace [' '])] _ [] rfl
      (by simp [Token.isWhitespace])
  have hname : propertyName "color".toList = "color" := by cbv
  have hvalue : authoredText hackTokens = "f(x)\\0/" := by
    rw [hackTokens]
    cbv
  have hkept := keepsHack_of_parse h hcontent hpiece hd (by rw [hname]; rfl) hend
  rw [hname, hvalue] at hkept
  exact ⟨h, hend, hkept⟩

/-- Behind a hack, a comment ends the text of the value. The hack is not restored, and the value is
taken apart. -/
theorem longhands_hackBeforeComment :
    Sheet.parse "a\x7bmargin:0\\9/*c*/\x7d" =
        .ok [.rule "a" [.declaration ⟨"margin", "0\\\t/*c*/", false⟩]] ∧
      Declaration.isHack ⟨"margin", "0\\\t/*c*/", false⟩ = false ∧
      longhands .nothing "margin" "0\\\t/*c*/" =
        .replace (["top", "right", "bottom", "left"].map fun side => ("margin-" ++ side, "0\\")) :=
  ⟨by cbv, by decide +kernel, by decide +kernel⟩

end CssExpand
