import CssExpand.Proofs.Sheet.Chunks
import CssExpand.Proofs.Sheet.Lasting

/-!
# Unfinished rules

A text is refused for one thing: a list of rules ends inside a rule. To say where that is without
going through the reader, a list of rules is written as pieces, one after the other (`RulePiece`),
with a rest in which something is still open. Every list can be cut like that (`exists_pieces`), and
the reader goes through it piece by piece (`reads_pieces`): what is in a piece matters to it only if
that is a list of rules again.

So a list is read if none of the lists in it ends inside a rule (`reads_iff`), and what is in the
bodies of rules has no say in it (`SameRules.reads_iff`).
-/

set_option autoImplicit false

namespace CssExpand

open Syntax

/-! ## 1. The pieces of a list of rules -/

/-- Whether a token is an at-keyword. -/
def isAtKeyword : Token → Bool
  | .atom (.atKeyword _) => true
  | _ => false

/-- Whether a token may stand between rules, where it starts none. -/
def isBetweenRules (top : Bool) (t : Token) : Bool :=
  t.isWhitespace || t.isComment || (top && hidesSheet t)

/-- Whether a token between rules starts one that is no at-rule. -/
def startsRule (top : Bool) (t : Token) : Bool := !isBetweenRules top t && !isAtKeyword t

/-- A piece of a list of rules. The cut is that of the reader, without its state: each piece can be
looked at alone. -/
inductive RulePiece where
  | between (t : Token)
  | rule (selector body : List Token)
  | atStatement (name : List Char) (prelude : List Token)
  | atBlock (name : List Char) (prelude content : List Token)

namespace RulePiece

/-- The tokens of a piece. -/
def tokens : RulePiece → List Token
  | between t => [t]
  | rule selector body => selector ++ [.block .curly body]
  | atStatement name prelude => .atom (.atKeyword name) :: prelude ++ [semicolon]
  | atBlock name prelude content => .atom (.atKeyword name) :: prelude ++ [.block .curly content]

/-- The tokens of a piece make this piece and no other: a selector ends at the first `{}` block, and
a prelude there or at the first semicolon. -/
def Fits (top : Bool) : RulePiece → Prop
  | between t => isBetweenRules top t = true
  | rule selector _ =>
    (∀ t ∈ selector.head?, startsRule top t = true) ∧ ∀ t ∈ selector, isCurlyBlock t = false
  | atStatement _ prelude | atBlock _ prelude _ =>
    (∀ t ∈ prelude, isCurlyBlock t = false) ∧ ∀ t ∈ prelude, t.isSemicolon = false

/-- The list of rules that is in a piece, if its name says that there is one. -/
def rules? : RulePiece → Option (List Token)
  | atBlock name _ content =>
    if holdsRules (String.ofList (Text.asciiLower name)) then some content else none
  | _ => none

/-- The same piece with something else in its block, if it has one. -/
def withBlock (new : List Token) : RulePiece → RulePiece
  | rule selector _ => rule selector new
  | atBlock name prelude _ => atBlock name prelude new
  | p => p

theorem Fits.withBlock {top : Bool} {p : RulePiece} (h : p.Fits top) (new : List Token) :
    (p.withBlock new).Fits top := by
  cases p <;> exact h

theorem rules?_withBlock {p : RulePiece} (new : List Token) :
    (p.withBlock new).rules? = p.rules?.map fun _ => new := by
  cases p with
  | atBlock name prelude content =>
    rw [RulePiece.withBlock, rules?, rules?]
    split <;> rfl
  | between | rule | atStatement => rfl

end RulePiece

/-- The tokens `ts` are pieces of a list of rules, one after the other, and then `rest`. The rest is
what the reader is in the middle of when the tokens end. -/
structure Pieces (top : Bool) (ts : List Token) (ps : List RulePiece) (rest : List Token) :
    Prop where
  eq : ts = ps.flatMap RulePiece.tokens ++ rest
  fits : ∀ p ∈ ps, p.Fits top

/-- A list of rules ends inside a rule: behind its pieces something starts that is no at-rule, and
there is no `{}` block up to the end. -/
def EndsInRule (top : Bool) (ts : List Token) : Prop :=
  ∃ ps t selector, Pieces top ts ps (t :: selector) ∧ startsRule top t = true ∧
    ∀ u ∈ t :: selector, isCurlyBlock u = false

/-- The lists of rules in a sheet: the whole of it, and in each of them the blocks of the at-rules
whose names say so. -/
inductive IsRuleList (sheet : List Token) : Bool → List Token → Prop
  | whole : IsRuleList sheet true sheet
  | block {top : Bool} {ts rest content : List Token} {ps : List RulePiece} {p : RulePiece}
    (outer : IsRuleList sheet top ts) (pieces : Pieces top ts ps rest) (member : p ∈ ps)
    (holds : p.rules? = some content) : IsRuleList sheet false content

/-- Two lists of rules that are the same but for what is in bodies, that is in the blocks of rules
and of at-rules whose names do not say that rules are in them. -/
inductive SameRules : Bool → List Token → List Token → Prop
  | rest {top : Bool} (ts : List Token) : SameRules top ts ts
  | body {top : Bool} {ts us : List Token} {p : RulePiece} (new : List Token) (fits : p.Fits top)
    (holds : p.rules? = none) (others : SameRules top ts us) :
    SameRules top (p.tokens ++ ts) ((p.withBlock new).tokens ++ us)
  | rules {top : Bool} {ts us content new : List Token} {p : RulePiece} (fits : p.Fits top)
    (holds : p.rules? = some content) (inner : SameRules false content new)
    (others : SameRules top ts us) :
    SameRules top (p.tokens ++ ts) ((p.withBlock new).tokens ++ us)

theorem Pieces.cons {top : Bool} {ts rest : List Token} {p : RulePiece} {ps : List RulePiece}
    (hp : p.Fits top) (h : Pieces top ts ps rest) : Pieces top (p.tokens ++ ts) (p :: ps) rest where
  eq := by rw [List.flatMap_cons, List.append_assoc, ← h.eq]
  fits := List.forall_mem_cons.mpr ⟨hp, h.fits⟩

/-! ## 2. Cutting a list into pieces -/

/-- What can be open at the end of a list of rules. -/
inductive IsRest (top : Bool) : List Token → Prop
  | nothing : IsRest top []
  | rule {t : Token} {selector : List Token} (starts : startsRule top t = true)
    (unblocked : ∀ u ∈ t :: selector, isCurlyBlock u = false) : IsRest top (t :: selector)
  | atRule (name : List Char) {prelude : List Token}
    (unblocked : ∀ u ∈ prelude, isCurlyBlock u = false)
    (unended : ∀ u ∈ prelude, u.isSemicolon = false) :
    IsRest top (.atom (.atKeyword name) :: prelude)

theorem token_cases (top : Bool) (t : Token) : isBetweenRules top t = true ∨
    (∃ name, t = .atom (.atKeyword name)) ∨ startsRule top t = true := by
  cases hb : isBetweenRules top t with
  | true => exact .inl rfl
  | false =>
    cases ha : isAtKeyword t with
    | false => exact .inr (.inr (by simp [startsRule, hb, ha]))
    | true =>
      unfold isAtKeyword at ha
      split at ha
      · exact .inr (.inl ⟨_, rfl⟩)
      · cases ha

theorem eq_semicolon {t : Token} (h : t.isSemicolon = true) : t = semicolon := by
  unfold Token.isSemicolon Token.isLiteral at h
  split at h
  · rw [semicolon, eq_of_beq h]
  · cases h

/-- Tokens without one that satisfies the predicate, or the ones before the first that does. -/
theorem all_or_cut (stops : Token → Bool) (ts : List Token) : (∀ t ∈ ts, stops t = false) ∨
    ∃ before t after, ts = before ++ t :: after ∧ (∀ u ∈ before, stops u = false) ∧
      stops t = true := by
  cases h : ts.find? stops with
  | none => exact .inl (by simpa using h)
  | some t =>
    obtain ⟨ht, before, after, heq, hbefore⟩ := List.find?_eq_some_iff_append.mp h
    exact .inr ⟨before, t, after, heq, by simpa using hbefore, ht⟩

/-- Every list of rules is cut into pieces with a rest. The induction is on the number of tokens
that are left; the first of them says which piece comes next. -/
theorem exists_pieces (top : Bool) (ts : List Token) :
    ∃ ps rest, Pieces top ts ps rest ∧ IsRest top rest := by
  cases ts with
  | nil => exact ⟨[], [], ⟨rfl, by simp⟩, .nothing⟩
  | cons t ts =>
    -- the first token says which piece starts here: none, an at-rule or a rule; the rest is
    -- shorter by that piece
    rcases token_cases top t with hbetween | ⟨name, rfl⟩ | hstarts
    · obtain ⟨ps, rest, hps, hrest⟩ := exists_pieces top ts
      have hfits : (RulePiece.between t).Fits top := hbetween
      exact ⟨_, rest, hps.cons hfits, hrest⟩
    · rcases all_or_cut (fun u => isCurlyBlock u || u.isSemicolon) ts with
        hall | ⟨prelude, u, after, rfl, hprelude, hu⟩
      · simp only [Bool.or_eq_false_iff] at hall
        exact ⟨[], _, ⟨rfl, by simp⟩,
          .atRule name (fun u hu => (hall u hu).1) fun u hu => (hall u hu).2⟩
      · simp only [Bool.or_eq_false_iff] at hprelude
        have hfits := And.intro (fun v hv => (hprelude v hv).1) fun v hv => (hprelude v hv).2
        obtain ⟨ps, rest, hps, hrest⟩ := exists_pieces top after
        rcases Bool.or_eq_true_iff.mp hu with hcurly | hsemi
        · obtain ⟨content, rfl⟩ := exists_of_isCurlyBlock hcurly
          have hp : (RulePiece.atBlock name prelude content).Fits top := hfits
          exact ⟨_, rest, by simpa [RulePiece.tokens] using hps.cons hp, hrest⟩
        · obtain rfl := eq_semicolon hsemi
          have hp : (RulePiece.atStatement name prelude).Fits top := hfits
          exact ⟨_, rest, by simpa [RulePiece.tokens] using hps.cons hp, hrest⟩
    · rcases all_or_cut isCurlyBlock (t :: ts) with hall | ⟨selector, u, after, heq, hselector, hu⟩
      · exact ⟨[], _, ⟨rfl, by simp⟩, .rule hstarts hall⟩
      · obtain ⟨body, rfl⟩ := exists_of_isCurlyBlock hu
        have hlength : after.length ≤ ts.length := by
          have := congrArg List.length heq
          simp only [List.length_cons, List.length_append] at this
          omega
        obtain ⟨ps, rest, hps, hrest⟩ := exists_pieces top after
        have hp : (RulePiece.rule selector body).Fits top := by
          refine ⟨fun v hv => ?_, hselector⟩
          cases selector with
          | nil => cases hv
          | cons w selector =>
            obtain rfl : w = v := by simpa using hv
            rw [← (List.cons.inj heq).1, hstarts]
        exact ⟨_, rest, by simpa [RulePiece.tokens, heq] using hps.cons hp, hrest⟩
termination_by ts.length

/-! ## 3. Reading piece by piece -/

/-- Tokens are read as rules up to their end. -/
def ReadsRules (top : Bool) (p : Pending) (ts : List Token) : Prop :=
  ∃ ns, readRules top p ts = .ok ns

section Reading

variable {top : Bool} {p : Pending} {t : Token} {ts rest : List Token}

theorem reads_cons_plain (hc : isCurlyBlock t = false) :
    ReadsRules top p (t :: ts) ↔ ReadsRules top (p.take top t).2 ts := by
  simp only [ReadsRules, readRules_cons_plain hc]
  exact ⟨fun ⟨_, rest, h, _⟩ => ⟨rest, h⟩, fun ⟨rest, h⟩ => ⟨_, rest, h, rfl⟩⟩

/-- What is in a block matters only if it is read as rules. -/
theorem reads_cons_block {content : List Token} : ReadsRules top p (.block .curly content :: ts) ↔
    (p.wantsRules = true → ReadsRules false .nothing content) ∧ ReadsRules top .nothing ts := by
  simp only [ReadsRules, readRules_cons_block]
  constructor
  · rintro ⟨_, nodes, rest, hread, hrest, -⟩
    refine ⟨fun hw => ⟨nodes, ?_⟩, rest, hrest⟩
    rwa [hw] at hread
  · rintro ⟨hcontent, rest, hrest⟩
    cases hw : p.wantsRules with
    | true =>
      obtain ⟨nodes, hread⟩ := hcontent hw
      exact ⟨_, nodes, rest, hread, hrest, rfl⟩
    | false => exact ⟨_, readBody content, rest, rfl, hrest, rfl⟩

theorem take_of_isBetweenRules (h : isBetweenRules top t = true) :
    (Pending.take top .nothing t).2 = .nothing := by
  unfold Pending.take
  dsimp only
  split
  · rfl
  · rfl
  · cases top <;> cases h
  · next hw hc _ =>
    -- only a marker is left
    have hmarker : (top && hidesSheet t) = true := by
      rw [isBetweenRules, Bool.or_eq_true, Bool.or_eq_true] at h
      refine h.resolve_left ?_
      rintro (h | h)
      · unfold Token.isWhitespace at h
        split at h
        · exact hw _ rfl
        · cases h
      · unfold Token.isComment at h
        split at h
        · exact hc _ rfl
        · cases h
    rw [hmarker]
    rfl

theorem take_of_startsRule (h : startsRule top t = true) :
    (Pending.take top .nothing t).2 = .rule [t] := by
  simp only [startsRule, isBetweenRules, Bool.and_eq_true, Bool.not_eq_true',
    Bool.or_eq_false_iff] at h
  obtain ⟨⟨⟨hw, hc⟩, hm⟩, ha⟩ := h
  unfold Pending.take
  dsimp only
  split
  · cases hw
  · cases hc
  · cases ha
  · rw [hm]
    rfl

theorem isCurlyBlock_of_isBetweenRules (h : isBetweenRules top t = true) :
    isCurlyBlock t = false := by
  cases t with
  | atom a => rfl
  | function name arguments => rfl
  | block b content => cases top <;> cases h

theorem reads_selector {selector : List Token} (hstarts : startsRule top t = true)
    (hc : ∀ u ∈ t :: selector, isCurlyBlock u = false) :
    ReadsRules top .nothing (t :: selector ++ rest) ↔
      ReadsRules top (.rule (selector.reverse ++ [t])) rest := by
  rw [List.forall_mem_cons] at hc
  rw [List.cons_append, reads_cons_plain hc.1, take_of_startsRule hstarts]
  exact exists_congr fun ns => readRules_selector hc.2

theorem reads_prelude {name : List Char} {prelude : List Token}
    (hc : ∀ u ∈ prelude, isCurlyBlock u = false) (hs : ∀ u ∈ prelude, u.isSemicolon = false) :
    ReadsRules top .nothing (.atom (.atKeyword name) :: prelude ++ rest) ↔
      ReadsRules top (.atRule (String.ofList (Text.asciiLower name)) prelude.reverse) rest := by
  rw [List.cons_append, reads_cons_plain rfl]
  refine exists_congr fun ns => (readRules_prelude hc hs).trans ?_
  rw [List.append_nil]

/-- A piece is gone through if the list of rules in it is, if there is one. -/
theorem reads_piece {piece : RulePiece} (h : piece.Fits top) :
    ReadsRules top .nothing (piece.tokens ++ rest) ↔
      (∀ content ∈ piece.rules?, ReadsRules false .nothing content) ∧
        ReadsRules top .nothing rest := by
  cases piece with
  | between t =>
    rw [RulePiece.tokens, List.singleton_append,
      reads_cons_plain (isCurlyBlock_of_isBetweenRules h), take_of_isBetweenRules h]
    simp [RulePiece.rules?]
  | rule selector body =>
    have hblock : ∀ {p : Pending}, p.wantsRules = false →
        (ReadsRules top p (.block .curly body :: rest) ↔ ReadsRules top .nothing rest) := by
      intro p hp
      simp [reads_cons_block, hp]
    rw [RulePiece.tokens, List.append_assoc]
    cases selector with
    | nil => simpa [RulePiece.rules?] using hblock rfl
    | cons t selector =>
      rw [reads_selector (h.1 t rfl) h.2]
      simpa [RulePiece.rules?] using hblock rfl
  | atStatement name prelude =>
    rw [RulePiece.tokens, List.append_assoc, reads_prelude h.1 h.2, List.singleton_append,
      reads_cons_plain rfl]
    simp [RulePiece.rules?, Pending.take, semicolon, Token.isSemicolon, Token.isLiteral]
  | atBlock name prelude content =>
    rw [RulePiece.tokens, List.append_assoc, reads_prelude h.1 h.2, List.singleton_append,
      reads_cons_block, Pending.wantsRules, RulePiece.rules?]
    cases holdsRules (String.ofList (Text.asciiLower name)) <;> simp

theorem reads_pieces {ps : List RulePiece} (h : Pieces top ts ps rest) :
    ReadsRules top .nothing ts ↔
      (∀ p ∈ ps, ∀ content ∈ p.rules?, ReadsRules false .nothing content) ∧
        ReadsRules top .nothing rest := by
  obtain ⟨rfl, hfits⟩ := h
  induction ps with
  | nil => simp
  | cons p ps ih =>
    rw [List.forall_mem_cons] at hfits
    rw [List.flatMap_cons, List.append_assoc, reads_piece hfits.1, ih hfits.2, List.forall_mem_cons,
      and_assoc]

/-- A rest is read unless a rule is open in it. -/
theorem reads_rest (h : IsRest top rest) : ReadsRules top .nothing rest ∨
    ∃ t selector, rest = t :: selector ∧ startsRule top t = true ∧
      ∀ u ∈ t :: selector, isCurlyBlock u = false := by
  cases h with
  | nothing => exact .inl ⟨[], by rw [readRules]; rfl⟩
  | rule starts unblocked => exact .inr ⟨_, _, rfl, starts, unblocked⟩
  | @atRule name prelude unblocked unended =>
    refine .inl ?_
    rw [← List.append_nil (_ :: prelude), reads_prelude unblocked unended]
    exact ⟨_, by rw [readRules]; rfl⟩

theorem not_reads_of_endsInRule (h : EndsInRule top ts) : ¬ReadsRules top .nothing ts := by
  obtain ⟨ps, t, selector, hps, hstarts, hc⟩ := h
  rw [reads_pieces hps, ← List.append_nil (t :: selector), reads_selector hstarts hc, not_and]
  rintro - ⟨ns, hns⟩
  rw [readRules] at hns
  cases hns

end Reading

/-! ## 4. Lists inside lists -/

theorem size_le_listSize {t : Token} {ts : List Token} (h : t ∈ ts) :
    t.size ≤ Token.listSize ts := by
  induction ts with
  | nil => cases h
  | cons u ts ih =>
    rw [Token.listSize]
    rcases List.mem_cons.mp h with rfl | h
    · exact Nat.le_add_right _ _
    · exact Nat.le_trans (ih h) (Nat.le_add_left _ _)

/-- A block inside is smaller than the text it stands in, which is what the induction goes by. -/
theorem listSize_of_rules? {top : Bool} {ts rest content : List Token} {ps : List RulePiece}
    {p : RulePiece} (h : Pieces top ts ps rest) (hp : p ∈ ps) (hc : p.rules? = some content) :
    Token.listSize content < Token.listSize ts := by
  have hblock : .block .curly content ∈ p.tokens := by
    cases p with
    | atBlock name prelude inner =>
      rw [RulePiece.rules?] at hc
      split at hc
      · obtain rfl := Option.some.inj hc
        simp [RulePiece.tokens]
      · cases hc
    | between | rule | atStatement => cases hc
  have hmem : .block .curly content ∈ ts := by
    rw [h.eq]
    exact List.mem_append_left _ (List.mem_flatMap.mpr ⟨p, hp, hblock⟩)
  have hsize := size_le_listSize hmem
  rw [Token.size] at hsize
  exact Nat.lt_of_lt_of_le (Nat.lt_add_of_pos_right Nat.zero_lt_two) hsize

/-- What is not read ends inside a rule, or a list of rules in it is not read either. -/
theorem exists_endsInRule {sheet : List Token} {top : Bool} {ts : List Token}
    (hlist : IsRuleList sheet top ts) (h : ¬ReadsRules top .nothing ts) :
    ∃ inner us, IsRuleList sheet inner us ∧ EndsInRule inner us := by
  obtain ⟨ps, rest, hps, hrest⟩ := exists_pieces top ts
  by_cases hread : ∀ p ∈ ps, ∀ content ∈ p.rules?, ReadsRules false .nothing content
  · rcases reads_rest hrest with hr | ⟨t, selector, rfl, hstarts, hc⟩
    · exact absurd ((reads_pieces hps).mpr ⟨hread, hr⟩) h
    · exact ⟨top, ts, hlist, ps, t, selector, hps, hstarts, hc⟩
  · push Not at hread
    obtain ⟨p, hp, content, hcontent, hinner⟩ := hread
    have hlt := listSize_of_rules? hps hp hcontent
    exact exists_endsInRule (.block hlist hps hp hcontent) hinner
termination_by Token.listSize ts

/-- Where a sheet is read, all its lists of rules are. -/
theorem reads_of_isRuleList {sheet : List Token} (h : ReadsRules true .nothing sheet) {top : Bool}
    {ts : List Token} (hlist : IsRuleList sheet top ts) : ReadsRules top .nothing ts := by
  induction hlist with
  | whole => exact h
  | block _ pieces member holds ih => exact ((reads_pieces pieces).mp ih).1 _ member _ holds

theorem reads_iff {sheet : List Token} : ReadsRules true .nothing sheet ↔
    ¬∃ top ts, IsRuleList sheet top ts ∧ EndsInRule top ts := by
  constructor
  · rintro h ⟨top, ts, hlist, hends⟩
    exact not_reads_of_endsInRule hends (reads_of_isRuleList h hlist)
  · intro h
    by_contra hread
    exact h (exists_endsInRule .whole hread)

theorem SameRules.reads_iff {top : Bool} {ts us : List Token} (h : SameRules top ts us) :
    ReadsRules top .nothing ts ↔ ReadsRules top .nothing us := by
  induction h with
  | rest => rfl
  | body new fits holds _ ih =>
    rw [reads_piece fits, reads_piece (fits.withBlock new), RulePiece.rules?_withBlock, holds, ih]
    rfl
  | rules fits holds _ _ inner ih =>
    rw [reads_piece fits, reads_piece (fits.withBlock _), RulePiece.rules?_withBlock, holds, ih]
    simp [inner]

/-! ## 5. Texts -/

/-- A text without overlong integers is a sheet, or it has an unfinished rule. -/
theorem parse_cases {css : String} (h : checkIntegers css = .ok ()) :
    (ReadsRules true .nothing (Token.ofChars css.toList) ∧ ∃ sheet, Sheet.parse css = .ok sheet) ∨
      (¬ReadsRules true .nothing (Token.ofChars css.toList) ∧
        ∃ position, Sheet.parse css = .error (.unfinished position)) := by
  rw [Sheet.parse, h, Sheet.ofChars]
  cases hread : readRules true .nothing (Token.ofChars css.toList) with
  | ok sheet => exact .inl ⟨⟨sheet, hread⟩, sheet, rfl⟩
  | error e =>
    refine .inr ⟨?_, _, rfl⟩
    rintro ⟨ns, hns⟩
    rw [hread] at hns
    cases hns

/-- A text without overlong integers is refused if and only if one of its lists of rules ends inside
a rule, and it is a sheet otherwise. Nothing in the body of a rule or in the block of an at-rule
that holds declarations matters for that.

`EndsInRule` knows nothing of the reader: it cuts a list of tokens into finished pieces and looks at what
is left. So the first two parts say of the reader both that it refuses for this and for nothing else. -/
theorem unfinished_iff_endsInRule {css : String} (h : checkIntegers css = .ok ()) :
    ((∃ position, Sheet.parse css = .error (.unfinished position)) ↔
      ∃ top ts, IsRuleList (Token.ofChars css.toList) top ts ∧ EndsInRule top ts) ∧
    ((∃ sheet, Sheet.parse css = .ok sheet) ↔
      ¬∃ top ts, IsRuleList (Token.ofChars css.toList) top ts ∧ EndsInRule top ts) ∧
    ∀ css', checkIntegers css' = .ok () →
      SameRules true (Token.ofChars css.toList) (Token.ofChars css'.toList) →
      ((∃ position, Sheet.parse css = .error (.unfinished position)) ↔
        ∃ position, Sheet.parse css' = .error (.unfinished position)) := by
  have hiff : ∀ {css : String}, checkIntegers css = .ok () →
      ((∃ position, Sheet.parse css = .error (.unfinished position)) ↔
        ¬ReadsRules true .nothing (Token.ofChars css.toList)) ∧
      ((∃ sheet, Sheet.parse css = .ok sheet) ↔
        ReadsRules true .nothing (Token.ofChars css.toList)) := by
    intro css h
    rcases parse_cases h with ⟨hread, sheet, hparse⟩ | ⟨hread, position, hparse⟩ <;>
      simp [hread, hparse]
  obtain ⟨herror, hok⟩ := hiff h
  refine ⟨?_, ?_, fun css' h' hsame => ?_⟩
  · rw [herror, reads_iff, not_not]
  · rw [hok, reads_iff]
  · rw [herror, (hiff h').1, hsame.reads_iff]

/-- The marker stands between rules in the sheet, but in the block of the at-rule it starts one. -/
def markerText : String := "<!--@font-face\x7ba\x7d@MEDIA x\x7bb\x7bc\x7d<!--"

/-- The same rules with other bodies. -/
def otherBodies : String :=
  "<!--@font-face\x7b@media y\x7bz\x7d\x7d@MEDIA x\x7bb\x7b@scope\x7bw\x7d\x7d<!--"

/-- The marker. -/
def marker : Token := .atom (.literal ['<', '!', '-', '-'])

/-- The rule in the block of the at-rule, and the marker behind it. -/
def mediaTokens (body : List Token) : List Token :=
  (RulePiece.rule [.atom (.ident ['b'])] body).tokens ++ [marker]

/-- The pieces of the two texts, with these in the two bodies. -/
def markerPieces (face body : List Token) : List RulePiece :=
  [.between marker, .atBlock "font-face".toList [] face,
   .atBlock "MEDIA".toList [.atom (.whitespace [' ']), .atom (.ident ['x'])] (mediaTokens body)]

theorem fits_markerPieces (face body : List Token) : ∀ p ∈ markerPieces face body, p.Fits true := by
  have hmarker : isBetweenRules true marker = true := rfl
  simp [markerPieces, RulePiece.Fits, hmarker, isCurlyBlock, Token.isSemicolon, Token.isLiteral]

theorem rules?_markerPieces (face body : List Token) :
    (markerPieces face body).map RulePiece.rules? = [none, none, some (mediaTokens body)] := by
  have hface : holdsRules (String.ofList (Text.asciiLower "font-face".toList)) = false := by cbv
  have hmedia : holdsRules (String.ofList (Text.asciiLower "MEDIA".toList)) = true := by cbv
  simp only [markerPieces, List.map_cons, List.map_nil, RulePiece.rules?, hface, hmedia, if_true]
  rfl

/-- In both texts the marker at the end starts a rule that has no block, so both are refused, whatever
their bodies hold. -/
theorem unfinished_iff_endsInRule_marker :
    checkIntegers markerText = .ok () ∧ checkIntegers otherBodies = .ok () ∧
      SameRules true (Token.ofChars markerText.toList) (Token.ofChars otherBodies.toList) ∧
      (∃ position, Sheet.parse markerText = .error (.unfinished position)) ∧
      ∃ position, Sheet.parse otherBodies = .error (.unfinished position) := by
  have h : checkIntegers markerText = .ok () := by cbv
  have h' : checkIntegers otherBodies = .ok () := by cbv
  obtain ⟨face, body, htokens⟩ : ∃ face body, Token.ofChars markerText.toList =
      (markerPieces face body).flatMap RulePiece.tokens :=
    ⟨[.atom (.ident ['a'])], [.atom (.ident ['c'])], by cbv⟩
  obtain ⟨face', body', htokens'⟩ : ∃ face body, Token.ofChars otherBodies.toList =
      (markerPieces face body).flatMap RulePiece.tokens :=
    ⟨[.atom (.atKeyword "media".toList), .atom (.whitespace [' ']), .atom (.ident ['y']),
        .block .curly [.atom (.ident ['z'])]],
      [.atom (.atKeyword "scope".toList), .block .curly [.atom (.ident ['w'])]], by cbv⟩
  have hrule : ∀ p ∈ [RulePiece.rule [.atom (.ident ['b'])] body], p.Fits false := by
    rw [List.forall_mem_singleton]
    exact ⟨fun t ht => Option.some.inj ht ▸ rfl, List.forall_mem_singleton.mpr rfl⟩
  have hfits := fits_markerPieces face body
  have hrules := rules?_markerPieces face body
  have hsame : SameRules true (Token.ofChars markerText.toList)
      (Token.ofChars otherBodies.toList) := by
    obtain ⟨-, hbody, hmedia, -⟩ : _ ∧ _ ∧ _ ∧ True := by simpa [markerPieces] using hrules
    simp only [markerPieces, List.forall_mem_cons] at hfits
    rw [htokens, htokens']
    exact .body [] hfits.1 rfl (.body face' hfits.2.1 hbody (.rules hfits.2.2.1 hmedia
      (.body body' (hrule _ List.mem_cons_self) rfl (.rest [marker])) (.rest [])))
  have hlist : IsRuleList (Token.ofChars markerText.toList) false (mediaTokens body) := by
    have hmem : some (mediaTokens body) ∈ (markerPieces face body).map RulePiece.rules? := by
      simp [hrules]
    obtain ⟨p, hp, hholds⟩ := List.mem_map.mp hmem
    exact .block .whole ⟨by rw [htokens, List.append_nil], hfits⟩ hp hholds
  have hends : EndsInRule false (mediaTokens body) :=
    ⟨_, marker, [], ⟨by simp [mediaTokens], hrule⟩, rfl, List.forall_mem_singleton.mpr rfl⟩
  have hrefused := (unfinished_iff_endsInRule h).1.mpr ⟨_, _, hlist, hends⟩
  exact ⟨h, h', hsame, hrefused, ((unfinished_iff_endsInRule h).2.2 _ h' hsame).mp hrefused⟩

end CssExpand
