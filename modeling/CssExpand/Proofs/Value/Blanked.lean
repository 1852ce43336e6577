import CssExpand.Proofs.Syntax.Swapped
import CssExpand.Proofs.Syntax.Seam
import CssExpand.Proofs.Value.Steady
import Mathlib

/-!
# Spaces in place of comments

A value with a space for every comment outside all brackets (`blankComments`) has, but for these spaces,
the tokens of the value without its comments. The space is whitespace of its own, or it becomes part of
the whitespace beside it, or an escape in front of it takes it (`Respaced`). The last of these would
prolong a name, were it not that something separates behind the comment.

`Token.commentsApart` says where the comments may stand for that. What the tokens of the two texts have in
common is then proved once, by recursion over the steps of the scan (`follows_of_commentsApart`).
-/

set_option autoImplicit false

namespace CssExpand

open Syntax Value

/-! ## 1. The text -/

namespace Value

/-- A text with a space for every comment outside all brackets. These brackets are open in front of
it. -/
def blankComments (brackets : List Bracket) (cs : List Char) : List Char :=
  match cs with
  | [] => []
  | c :: rest =>
    if brackets.isEmpty && (next c rest).1.any isCommentLexeme then
      ' ' :: blankComments brackets (next c rest).2
    else
      (c :: rest).take (rest.length + 1 - (next c rest).2.length) ++
        blankComments ((next c rest).1.foldl Lexeme.openAfter brackets) (next c rest).2
termination_by cs.length
decreasing_by
  all_goals
    have := length_next c rest
    simp only [List.length_cons]
    omega

/-- One value is another one with a single space for every comment outside all brackets, line breaks
being all the same. -/
def Blanks (value blanked : String) : Prop :=
  unifyBreaks blanked.toList = blankComments [] (unifyBreaks value.toList)

instance (value blanked : String) : Decidable (Blanks value blanked) :=
  inferInstanceAs (Decidable (_ = _))

theorem not_comment_of_any {ls : List Lexeme} (h : ∀ l ∈ ls, isCommentLexeme l = false) :
    ls.any isCommentLexeme = false := by
  rw [List.any_eq_false]
  intro l hl
  simp [h l hl]

/-- A comment starts with a slash, so no other character of punctuation gives one. -/
theorem punctuation_comment {c : Char} {cs : List Char}
    (h : isCommentLexeme (punctuation c cs).1 = true) :
    c = '/' ∧ ∃ text, (punctuation c cs).1 = .atom (.comment text) := by
  fun_cases punctuation c cs with
  | case1 rest => exact ⟨rfl, _, rfl⟩
  | case2 rest => cases h
  | case3 rest => cases h
  | case4 c rest hc =>
    rw [punctuation, if_pos hc] at h
    cases h
  | case5 c rest hc =>
    rw [punctuation, if_neg hc] at h
    cases h
  | case6 c rest hcomment hhidden hbars hequals =>
    rw [punctuation.eq_5 _ _ hequals hcomment hhidden hbars] at h
    cases h

/-- A comment is found by itself, where a slash stands. -/
theorem next_comment {c : Char} {cs : List Char} (h : (next c cs).1.any isCommentLexeme = true) :
    c = '/' ∧ ∃ text, (next c cs).1 = [.atom (.comment text)] := by
  have hname : (nameLexemes (c :: cs)).1.any isCommentLexeme = false :=
    not_comment_of_any (forall_mem_nameLexemes (fun _ => rfl) (fun _ => rfl) (fun _ _ => rfl)
      (fun _ => rfl) _)
  have hstring : (stringLexemes c cs).1.any isCommentLexeme = false :=
    not_comment_of_any (forall_mem_stringLexemes (fun _ _ => rfl) (fun _ => rfl) c cs)
  have hnumber : ∀ n rest, (numberLexemes n rest).1.any isCommentLexeme = false := by
    intro n rest
    unfold numberLexemes
    split
    · rfl
    · split <;> rfl
  have hsymbol : (symbolLexemes c cs).1.any isCommentLexeme = true →
      c = '/' ∧ ∃ text, (symbolLexemes c cs).1 = [.atom (.comment text)] := by
    unfold symbolLexemes
    split_ifs
    all_goals intro h
    any_goals cases h
    · rw [hstring] at h
      cases h
    · obtain ⟨hc, text, htext⟩ := punctuation_comment (by simpa using h)
      exact ⟨hc, text, by rw [htext]⟩
  revert h
  unfold next
  split_ifs
  · exact fun h => nomatch h
  · exact fun h => nomatch h
  · exact fun h => nomatch h
  · rw [hname]
    exact fun h => nomatch h
  · split
    · rw [hnumber]
      exact fun h => nomatch h
    · exact hsymbol

/-- A step is a part of the text and what is left of it. -/
theorem take_append_next (c : Char) (cs : List Char) :
    (c :: cs).take (cs.length + 1 - (next c cs).2.length) ++ (next c cs).2 = c :: cs :=
  List.suffix_iff_eq_append.mp (next_suffix c cs)

/-- A text with comments outside all brackets has its first space where its first comment starts. -/
theorem blankComments_swapped (brackets : List Bracket) (cs : List Char) :
    blankComments brackets cs = cs ∨
      ∃ x z text, next '/' x = ([.atom (.comment text)], z) ∧
        Swapped x (blankComments [] z) cs (blankComments brackets cs) ∧
        (cs = '/' :: x → brackets = []) := by
  fun_induction blankComments brackets cs with
  | case1 => exact .inl rfl
  | case2 brackets c rest hcomment ih =>
    simp only [Bool.and_eq_true, List.isEmpty_iff] at hcomment
    obtain ⟨rfl, hcomment⟩ := hcomment
    obtain ⟨rfl, text, htext⟩ := next_comment hcomment
    exact .inr ⟨rest, _, text, Prod.ext htext rfl, .here, fun _ => rfl⟩
  | case3 brackets c rest hcomment ih =>
    have htake := take_append_next c rest
    rcases ih with heq | ⟨x, z, text, hnext, hswap, -⟩
    · rw [heq]
      exact .inl htake
    · refine .inr ⟨x, z, text, hnext, ?_, fun hcs => ?_⟩
      · conv => lhs; rw [← htake]
        exact hswap.append _
      · -- The step left the slash behind, so something stood in front of it.
        have h1 := hswap.suffix.length_le
        have h2 := length_next c rest
        obtain ⟨-, rfl⟩ := List.cons.inj hcs
        rw [List.length_cons] at h1
        omega

/-- The text behind a step that is no comment outside all brackets. -/
theorem blankComments_step {brackets : List Bracket} {c : Char} {rest after : List Char} {l : Lexeme}
    (hn : next c rest = ([l], after)) (hl : brackets = [] → isCommentLexeme l = false) :
    blankComments brackets (c :: rest) = (c :: rest).take (rest.length + 1 - after.length) ++
      blankComments (Lexeme.openAfter brackets l) after := by
  rw [blankComments, hn, if_neg]
  · rfl
  · simp only [Bool.and_eq_true, List.isEmpty_iff, not_and]
    intro hb
    simp [hl hb]

theorem suffix_of_next {c : Char} {rest after : List Char} {ls : List Lexeme}
    (hn : next c rest = (ls, after)) : after <:+ c :: rest := by
  have hsuffix := next_suffix c rest
  rwa [hn] at hsuffix

/-- What such a step reads starts with its first character. -/
theorem exists_take_next {c : Char} {rest after : List Char} {ls : List Lexeme}
    (hn : next c rest = (ls, after)) : ∃ front,
      (c :: rest).take (rest.length + 1 - after.length) = c :: front ∧ front ++ after = rest := by
  have htake := take_append_next c rest
  have hlen := length_next c rest
  rw [hn] at htake hlen
  refine ⟨rest.take (rest.length - after.length), ?_, ?_⟩
  · rw [Nat.sub_add_comm hlen, List.take_succ_cons]
  · rw [Nat.sub_add_comm hlen, List.take_succ_cons] at htake
    exact (List.cons.inj htake).2

/-- A step that is no comment outside all brackets, and no whitespace, finds the same in the text with
spaces. Only an atom in front of a comment may take the space. -/
theorem scan_blankComments {brackets : List Bracket} {c : Char} {rest after : List Char} {l : Lexeme}
    (hn : next c rest = ([l], after)) (hc : Syntax.isWhitespace c = false) (hf : l.isFault = false)
    (hl : brackets = [] → isCommentLexeme l = false)
    (hy : ∀ x z text, after = '/' :: x → next '/' x = ([.atom (.comment text)], z) →
      brackets = [] → l.endsInName = false ∨ Separates (blankComments [] z)) :
    Lexeme.scan (blankComments brackets (c :: rest)) =
        l :: Lexeme.scan (blankComments (Lexeme.openAfter brackets l) after) ∨
      ∃ a x z text, l = .atom a ∧ brackets = [] ∧ after = '/' :: x ∧
        next '/' x = ([.atom (.comment text)], z) ∧
        Lexeme.scan (blankComments brackets (c :: rest)) = l :: Lexeme.scan (blankComments [] z) := by
  have hstep := blankComments_step hn hl
  obtain ⟨front, hfront, hrest⟩ := exists_take_next hn
  rw [hfront, List.cons_append] at hstep
  rw [hstep]
  rcases blankComments_swapped (Lexeme.openAfter brackets l) after with heq |
    ⟨x, z, text, hnext, hswap, hopen⟩
  · rw [heq, hrest, scan_of_next hn]
    exact .inl rfl
  -- the blanking drops a comment further on: the two texts are swapped from there
  · have hboth : Swapped x (blankComments [] z) rest
        (front ++ blankComments (Lexeme.openAfter brackets l) after) :=
      hrest ▸ hswap.append front
    have hends : after = '/' :: x → l.endsInName = false ∨ Separates (blankComments [] z) := by
      intro hend
      cases hname : l.endsInName with
      | false => exact .inl rfl
      | true =>
        have hbrackets : Lexeme.openAfter brackets l = brackets := by
          cases l with
          | atom a => rfl
          | _ => cases hname
        exact .inr ((hy x z text hend hnext (hbrackets ▸ hopen hend)).resolve_left (by simp [hname]))
    obtain ⟨hsame, hleft⟩ := next_swapped hc hboth (by simpa [hn] using hf)
      (by rw [hn]; exact hswap.suffix) (by simpa [hn] using hends)
    rw [hn] at hsame hleft
    rw [Lexeme.scan_cons, hsame]
    rcases hleft with hleft | ⟨⟨a, ha⟩, hend, hbehind⟩
    · rw [hleft.unique hswap]
      exact .inl rfl
    · obtain rfl : l = .atom a := by simpa using ha
      rw [hbehind]
      exact .inr ⟨a, x, z, text, rfl, hopen hend, hend, hnext, rfl⟩

theorem blankComments_whitespace (brackets : List Bracket) {c : Char}
    (hc : Syntax.isWhitespace c = true) (rest : List Char) :
    blankComments brackets (c :: rest) = (c :: rest.takeWhile Syntax.isWhitespace) ++
      blankComments brackets (rest.dropWhile Syntax.isWhitespace) := by
  have hnext : next c rest = _ := next_whitespace hc
  have htake := take_append_next c rest
  rw [hnext] at htake
  have hall : (c :: rest.takeWhile Syntax.isWhitespace) ++ rest.dropWhile Syntax.isWhitespace =
      c :: rest := by
    rw [List.cons_append, List.takeWhile_append_dropWhile]
  rw [blankComments_step hnext fun _ => rfl, List.append_cancel_right (htake.trans hall.symm)]
  rfl

/-- Inside brackets the first character stays. -/
theorem head?_blankComments {brackets : List Bracket} (hb : brackets ≠ []) (cs : List Char) :
    (blankComments brackets cs).head? = cs.head? := by
  rcases blankComments_swapped brackets cs with heq | ⟨x, z, text, -, hswap, hopen⟩
  · rw [heq]
  · generalize blankComments brackets cs = ds at hswap
    cases hswap with
    | here => exact absurd (hopen rfl) hb
    | cons c _ => rfl

/-- Inside brackets every step finds the same, whitespace too. -/
theorem scan_blankComments_open {brackets : List Bracket} (hb : brackets ≠ []) {c : Char}
    {rest after : List Char} {l : Lexeme} (hn : next c rest = ([l], after))
    (hf : l.isFault = false) :
    Lexeme.scan (blankComments brackets (c :: rest)) =
      l :: Lexeme.scan (blankComments (Lexeme.openAfter brackets l) after) := by
  cases hc : Syntax.isWhitespace c with
  | false =>
    rcases scan_blankComments hn hc hf (fun h => absurd h hb) (fun _ _ _ _ _ h => absurd h hb) with
      hscan | ⟨a, x, z, text, -, h, -⟩
    · exact hscan
    · exact absurd h hb
  | true =>
    rw [next_whitespace hc] at hn
    obtain ⟨hl, rfl⟩ := Prod.mk.inj hn
    obtain rfl := List.cons.inj hl |>.1
    rw [blankComments_whitespace brackets hc, scan_whitespace (List.cons_ne_nil c _)]
    · rfl
    · exact List.forall_mem_cons.mpr ⟨hc, fun d hd => List.mem_takeWhile_imp hd⟩
    · rw [head?_blankComments hb]
      exact head?_dropWhile_stop _ _

end Value

/-! ## 2. Where comments stand -/

theorem not_isComment {t : Token} (ht : t.isSignificant = true) : t.isComment = false := by
  simp only [Token.isSignificant, Bool.and_eq_true, Bool.not_eq_true'] at ht
  exact ht.2

namespace Syntax.Token

theorem eq_of_isComma {t : Token} (h : t.isComma = true) : t = .atom (.literal [',']) := by
  cases t with
  | atom a =>
    cases a with
    | literal text =>
      have htext : text = [','] := by simpa [isComma, isLiteral] using h
      rw [htext]
    | _ => cases h
  | _ => cases h

/-- Whether a token stands between words, commas counting or not. -/
def isBetween (commas : Bool) (t : Token) : Bool := t.isWhitespace || commas && t.isComma

/-- Whether tokens, comments aside, start with one that stands between words, or are none. -/
def startsApart (commas : Bool) : List Token → Bool
  | [] => true
  | t :: ts => if t.isComment then startsApart commas ts else t.isBetween commas

/-- Whether every comment outside all brackets has a token that stands between words, or an end of the
value, on one of its sides, other comments aside. What stands in front of the tokens is given. -/
def commentsApart (commas : Bool) (apart : Bool) : List Token → Bool
  | [] => true
  | t :: ts =>
    if t.isComment then (apart || startsApart commas ts) && commentsApart commas apart ts
    else commentsApart commas (t.isBetween commas) ts

theorem commentsApart_comment {commas apart : Bool} {text : List Char} {ts : List Token}
    (h : commentsApart commas apart (.atom (.comment text) :: ts) = true) :
    (apart || startsApart commas ts) = true ∧ commentsApart commas apart ts = true := by
  rwa [commentsApart, if_pos (by rfl), Bool.and_eq_true] at h

theorem commentsApart_of_isSignificant {commas apart : Bool} {t : Token} {ts : List Token}
    (ht : t.isSignificant = true) (h : commentsApart commas apart (t :: ts) = true) :
    commentsApart commas (t.isBetween commas) ts = true := by
  rwa [commentsApart, not_isComment ht, if_neg Bool.false_ne_true] at h

end Syntax.Token

/-! ## 3. The tokens -/

/-- The tokens of a value, and those of the value with a space for every comment. With `gap`, there is
more whitespace in front of the latter. -/
inductive Respaced : Bool → List Token → List Token → Prop
  | nil : Respaced false [] []
  | blank {gap : Bool} {t : Token} {ts us : List Token} (blank : t.isSignificant = false)
    (rest : Respaced true ts us) : Respaced gap (t :: ts) us
  | space (w : List Char) {ts us : List Token} (rest : Respaced false ts us) :
    Respaced true ts (.atom (.whitespace w) :: us)
  | token {t : Token} {ts us : List Token} (significant : t.isSignificant = true)
    (rest : Respaced false ts us) : Respaced false (t :: ts) (t :: us)
  | taken {t : Token} {ts us : List Token} (significant : t.isSignificant = true) (text : List Char)
    (rest : Respaced false ts us) : Respaced false (t :: .atom (.comment text) :: ts) (t :: us)

/-- Lexemes in an open bracket lead out of it again, to a token that holds all of them. The end of the
text closes it. -/
theorem nest_blankComments {cs : List Char} (hu : Unified cs)
    (hf : ∀ l ∈ Lexeme.scan cs, l.isFault = false) (frames : List Frame) (f : Frame)
    (current : List Token) : ∃ content rest, rest <:+ cs ∧ Lexeme.scan rest ⊆ Lexeme.scan cs ∧
      nest (frames ++ [f]) current (Lexeme.scan cs) =
        nest [] (f.opener.token content :: f.before) (Lexeme.scan rest) ∧
      nest (frames ++ [f]) current
          (Lexeme.scan (blankComments (Frame.brackets (frames ++ [f])) cs)) =
        nest [] (f.opener.token content :: f.before) (Lexeme.scan (blankComments [] rest)) := by
  fun_induction Lexeme.scan cs generalizing frames f current with
  | case1 =>
    refine ⟨(frames.foldl (fun content g => g.close content) current).reverse, [],
      List.suffix_refl _, by simp [Lexeme.scan_nil], ?_, ?_⟩ <;>
      simp [blankComments, Lexeme.scan_nil, nest, Frame.close]
  | case2 c rest ih =>
    obtain ⟨l, hl, hfound⟩ := finds_next hu fun m hm => hf m (List.mem_append_left _ hm)
    have hn : next c rest = ([l], (next c rest).2) := Prod.ext hl rfl
    have hu' : Unified (next c rest).2 := hu.mono (next_suffix c rest).subset
    have hf' : ∀ m ∈ Lexeme.scan (next c rest).2, m.isFault = false :=
      fun m hm => hf m (List.mem_append_right _ hm)
    have hfault : l.isFault = false := hf l (by simp [hl])
    have hopen : Frame.brackets (frames ++ [f]) ≠ [] := by simp [Frame.brackets]
    rw [scan_blankComments_open hopen hn hfault, hl, List.singleton_append]
    have hsuffix := next_suffix c rest
    -- Frames around the outermost one stay, whatever the lexeme does to the others.
    have hinside : ∀ (frames' : List Frame) (current' : List Token),
        Frame.brackets (frames' ++ [f]) = Lexeme.openAfter (Frame.brackets (frames ++ [f])) l →
        (∀ ls, nest (frames ++ [f]) current (l :: ls) = nest (frames' ++ [f]) current' ls) →
        ∃ content rest', rest' <:+ c :: rest ∧
          Lexeme.scan rest' ⊆ l :: Lexeme.scan (next c rest).2 ∧
          nest (frames ++ [f]) current (l :: Lexeme.scan (next c rest).2) =
            nest [] (f.opener.token content :: f.before) (Lexeme.scan rest') ∧
          nest (frames ++ [f]) current (l :: Lexeme.scan (blankComments
              (Lexeme.openAfter (Frame.brackets (frames ++ [f])) l) (next c rest).2)) =
            nest [] (f.opener.token content :: f.before) (Lexeme.scan (blankComments [] rest')) := by
      intro frames' current' hbrackets hnest
      obtain ⟨content, rest', hrest, hsub, htokens, hblanked⟩ := ih hu' hf' frames' f current'
      exact ⟨content, rest', hrest.trans hsuffix, List.subset_cons_of_subset l hsub,
        by rw [hnest, htokens], by rw [hnest, ← hbrackets, hblanked]⟩
    cases l with
    | atom a => exact hinside frames (.atom a :: current) rfl fun _ => by rw [nest]
    | openFunction name =>
      exact hinside (⟨.function name, current⟩ :: frames) [] rfl fun _ => by rw [nest]; rfl
    | openBlock b =>
      exact hinside (⟨.block b, current⟩ :: frames) [] rfl fun _ => by rw [nest]; rfl
    | close b =>
      cases frames with
      | nil =>
        -- Only here can the outermost bracket end, and what is left is read outside all brackets.
        by_cases hb : f.opener.bracket = b
        · refine ⟨current.reverse, _, hsuffix, List.subset_cons_self .., ?_, ?_⟩
          · rw [List.nil_append, nest, if_pos hb, Frame.close]
          · rw [List.nil_append, nest, if_pos hb, Frame.close]
            simp [Frame.brackets, Lexeme.openAfter, hb]
        · refine hinside [] (.atom (.fault (.stray b)) :: current) ?_ fun _ => ?_
          · simp [Frame.brackets, Lexeme.openAfter, hb]
          · rw [List.nil_append, nest, if_neg hb]
      | cons g frames =>
        by_cases hb : g.opener.bracket = b
        · refine hinside frames (g.close current) ?_ fun _ => ?_
          · simp [Frame.brackets, Lexeme.openAfter, hb]
          · rw [List.cons_append, nest, if_pos hb]
        · refine hinside (g :: frames) (.atom (.fault (.stray b)) :: current) ?_ fun _ => ?_
          · simp [Frame.brackets, Lexeme.openAfter, hb]
          · rw [List.cons_append, nest, if_neg hb]

section Step

variable {c : Char} {rest after : List Char} {l : Lexeme}

theorem nest_atom (a : Atom) (ls : List Lexeme) :
    nest [] [] (.atom a :: ls) = .atom a :: nest [] [] ls := by
  rw [nest, nest_nil]
  rfl

theorem nest_stray (b : Bracket) (ls : List Lexeme) :
    nest [] [] (.close b :: ls) = .atom (.fault (.stray b)) :: nest [] [] ls := by
  rw [nest, nest_nil]
  rfl

theorem nest_opener (op : Opener) (ls : List Lexeme) :
    nest [] [] (Token.openerLexeme op :: ls) = nest ([] ++ [⟨op, []⟩]) [] ls := by
  cases op <;> rw [Token.openerLexeme, nest] <;> rfl

/-- Outside all brackets a lexeme is an atom, or it opens a bracket, or it is a stray one. -/
theorem lexeme_cases (l : Lexeme) :
    (∃ a, l = .atom a) ∨ (∃ op, l = Token.openerLexeme op) ∨ ∃ b, l = .close b := by
  cases l with
  | atom a => exact .inl ⟨a, rfl⟩
  | openFunction name => exact .inr (.inl ⟨.function name, rfl⟩)
  | openBlock b => exact .inr (.inl ⟨.block b, rfl⟩)
  | close b => exact .inr (.inr ⟨b, rfl⟩)

theorem isSignificant_token (op : Opener) (content : List Token) :
    (op.token content).isSignificant = true ∧ (op.token content).isComment = false ∧
      ∀ commas, (op.token content).isBetween commas = false := by
  cases op <;> simp [Opener.token, Token.isSignificant, Token.isWhitespace, Token.isComment,
    Token.isBetween, Token.isComma, Token.isLiteral]

/-- A step that finds neither whitespace nor a comment finds what is significant. -/
theorem isSignificant_of_found {a : Atom} (h : Found (.atom a) (c :: rest) after)
    (hc : Syntax.isWhitespace c = false) (hcomment : isCommentLexeme (.atom a) = false) :
    (Token.atom a).isSignificant = true := by
  have hwhite : ∀ text, a ≠ .whitespace text := by
    rintro text rfl
    obtain ⟨d, text, rfl⟩ := List.exists_cons_of_ne_nil h.wellFormed.1
    obtain ⟨ds, hds⟩ := h.whitespace _ rfl
    obtain ⟨rfl, -⟩ := List.cons.inj hds
    rw [h.wellFormed.2 d List.mem_cons_self] at hc
    cases hc
  cases a with
  | whitespace text => exact absurd rfl (hwhite text)
  | comment text => cases hcomment
  | _ => rfl

end Step

/-- A significant token that stands between words is a comma. -/
theorem isComma_of_isBetween {commas : Bool} {t : Token} (ht : t.isSignificant = true)
    (h : t.isBetween commas = true) : t.isComma = true := by
  rw [Token.isBetween, not_isWhitespace ht, Bool.false_or, Bool.and_eq_true] at h
  exact h.2

/-- Behind a comment that stands apart, the text with spaces goes on with something that separates. -/
theorem separates_of_startsApart {commas : Bool} {cs : List Char} (hu : Unified cs)
    (hf : ∀ l ∈ Lexeme.scan cs, l.isFault = false)
    (h : Token.startsApart commas (nest [] [] (Lexeme.scan cs)) = true) :
    Separates (blankComments [] cs) := by
  cases cs with
  | nil =>
    rw [blankComments]
    exact fun c hc => nomatch hc
  | cons c rest =>
    rw [Lexeme.scan_cons] at hf h
    obtain ⟨l, hl, hfound⟩ := finds_next hu fun m hm => hf m (List.mem_append_left _ hm)
    have hn : next c rest = ([l], (next c rest).2) := Prod.ext hl rfl
    rw [hl, List.singleton_append] at h
    cases hc : Syntax.isWhitespace c with
    | true =>
      rw [blankComments_whitespace [] hc]
      exact IsGap.separates ⟨List.cons_ne_nil c _,
        List.forall_mem_cons.mpr ⟨hc, fun d hd => List.mem_takeWhile_imp hd⟩⟩ _
    | false =>
      cases hcomment : isCommentLexeme l with
      | true =>
        rw [blankComments, hl, if_pos (by simp [hcomment])]
        exact separates_cons rfl _
      | false =>
        rcases lexeme_cases l with ⟨a, rfl⟩ | ⟨op, rfl⟩ | ⟨b, rfl⟩
        -- neither white space nor a comment: of the atoms only a comma may stand here
        · have hsig := isSignificant_of_found hfound hc hcomment
          rw [nest_atom, Token.startsApart, not_isComment hsig] at h
          obtain rfl := Token.atom.inj (Token.eq_of_isComma (isComma_of_isBetween hsig h))
          obtain ⟨ds, hds⟩ := hfound.literal _ rfl
          obtain ⟨rfl, -⟩ := List.cons.inj hds
          obtain ⟨front, hfront, -⟩ := exists_take_next hn
          rw [blankComments_step hn fun _ => rfl, hfront]
          exact separates_cons rfl _
        -- a bracket or a stray end of one is no separator
        · obtain ⟨content, rest', -, -, htokens, -⟩ :=
            nest_blankComments (hu.mono (next_suffix c rest).subset)
              (fun m hm => hf m (List.mem_append_right _ hm)) [] ⟨op, []⟩ []
          rw [nest_opener, htokens, nest_nil, List.reverse_singleton, List.singleton_append,
            Token.startsApart, (isSignificant_token op content).2.1,
            (isSignificant_token op content).2.2] at h
          cases h
        · rw [nest_stray] at h
          simp [Token.startsApart, Token.isComment, Token.isBetween, Token.isWhitespace,
            Token.isComma, Token.isLiteral] at h

/-- What stands at the front of a text when it is a comment, and behind it. -/
theorem of_comment_front {commas apart : Bool} {cs x z text : List Char} (hcs : cs = '/' :: x)
    (hnext : next '/' x = ([.atom (.comment text)], z))
    (hf : ∀ l ∈ Lexeme.scan cs, l.isFault = false)
    (h : Token.commentsApart commas apart (nest [] [] (Lexeme.scan cs)) = true) :
    z <:+ cs ∧ (∀ l ∈ Lexeme.scan z, l.isFault = false) ∧
      nest [] [] (Lexeme.scan cs) = .atom (.comment text) :: nest [] [] (Lexeme.scan z) ∧
      (apart || Token.startsApart commas (nest [] [] (Lexeme.scan z))) = true ∧
      Token.commentsApart commas apart (nest [] [] (Lexeme.scan z)) = true := by
  subst hcs
  have hz := suffix_of_next hnext
  rw [scan_of_next hnext, List.singleton_append] at hf h ⊢
  rw [nest_atom] at h ⊢
  exact ⟨hz, fun l hl => hf l (List.mem_cons_of_mem _ hl), rfl, Token.commentsApart_comment h⟩

theorem isBetween_of_endsInName {commas : Bool} {a : Atom}
    (h : (Lexeme.atom a).endsInName = true) : (Token.atom a).isBetween commas = false := by
  revert h
  cases a <;> simp [Lexeme.endsInName, Token.isBetween, Token.isWhitespace, Token.isComma,
    Token.isLiteral]

/-- The tokens of a text with spaces for its comments are those of the text, respaced. That holds
behind more whitespace too. -/
def Follows (cs : List Char) : Prop :=
  Respaced false (nest [] [] (Lexeme.scan cs)) (nest [] [] (Lexeme.scan (blankComments [] cs))) ∧
    ∀ w, IsGap w → Respaced true (nest [] [] (Lexeme.scan cs))
      (nest [] [] (Lexeme.scan (w ++ blankComments [] cs)))

namespace Follows

variable {c : Char} {rest after : List Char}

theorem nil : Follows [] := by
  rw [Follows, blankComments, Lexeme.scan_nil]
  refine ⟨.nil, fun w hw => ?_⟩
  rw [scan_whitespace hw.1 hw.2 (by simp), Lexeme.scan_nil]
  exact .space w .nil

/-- What has a gap in its place follows with whitespace more. -/
theorem of_gap {a : Atom} {g : List Char} (hn : next c rest = ([.atom a], after))
    (ha : (Token.atom a).isSignificant = false) (hg : IsGap g)
    (hblank : blankComments [] (c :: rest) = g ++ blankComments [] after) (h : Follows after) :
    Follows (c :: rest) := by
  rw [Follows, scan_of_next hn, List.singleton_append, nest_atom, hblank]
  refine ⟨.blank ha (h.2 g hg), fun w hw => .blank ha ?_⟩
  rw [← List.append_assoc]
  exact h.2 _ (hw.append hg)

/-- More whitespace is a token of its own in front of what is neither whitespace nor a comment. -/
theorem of_respaced {l : Lexeme} (hn : next c rest = ([l], after))
    (hc : Syntax.isWhitespace c = false) (hl : isCommentLexeme l = false)
    (h : Respaced false (nest [] [] (Lexeme.scan (c :: rest)))
      (nest [] [] (Lexeme.scan (blankComments [] (c :: rest))))) : Follows (c :: rest) := by
  refine ⟨h, fun w hw => ?_⟩
  obtain ⟨front, hfront, -⟩ := exists_take_next hn
  rw [scan_whitespace hw.1 hw.2, nest_atom]
  · exact .space w h
  · rw [blankComments_step hn fun _ => hl, hfront]
    rintro d ⟨⟩
    exact hc

section Step

variable {commas apart : Bool} (hu : Unified (c :: rest))
  (hf : ∀ l ∈ Lexeme.scan after, l.isFault = false)
  (hlater : ∀ {ds : List Char} {apart : Bool}, ds <:+ after →
    (∀ l ∈ Lexeme.scan ds, l.isFault = false) →
    Token.commentsApart commas apart (nest [] [] (Lexeme.scan ds)) = true → Follows ds)
include hu hf hlater

/-- The step at an atom. A comment right behind it separates, or its space is taken. -/
theorem atom {a : Atom} (hn : next c rest = ([.atom a], after))
    (hc : Syntax.isWhitespace c = false) (hfault : (Lexeme.atom a).isFault = false)
    (hcomment : isCommentLexeme (.atom a) = false) (hsig : (Token.atom a).isSignificant = true)
    (h : Token.commentsApart commas apart (nest [] [] (Lexeme.scan (c :: rest))) = true) :
    Follows (c :: rest) := by
  refine of_respaced hn hc hcomment ?_
  have hafter := suffix_of_next hn
  rw [scan_of_next hn, List.singleton_append, nest_atom] at h ⊢
  replace h := Token.commentsApart_of_isSignificant hsig h
  have hends : ∀ x z text, after = '/' :: x → next '/' x = ([.atom (.comment text)], z) →
      ([] : List Bracket) = [] →
      (Lexeme.atom a).endsInName = false ∨ Separates (blankComments [] z) := by
    intro x z text hend hnext _
    refine (Bool.eq_false_or_eq_true _).symm.imp_right fun hname => ?_
    -- A name does not stand between words, so that the other side of the comment does.
    obtain ⟨hz, hfz, -, hapart, -⟩ := of_comment_front hend hnext hf h
    rw [isBetween_of_endsInName hname, Bool.false_or] at hapart
    exact separates_of_startsApart (hu.mono (hz.trans hafter).subset) hfz hapart
  -- A name that ends in an escape takes the space, and no whitespace is read there.
  rcases scan_blankComments hn hc hfault (fun _ => hcomment) hends with
    hscan | ⟨a', x, z, text, ha, -, hend, hnext, hscan⟩
  · rw [hscan, nest_atom]
    exact .token hsig (hlater (List.suffix_refl _) hf h).1
  · obtain ⟨hz, hfz, htokens, -, hapart⟩ := of_comment_front hend hnext hf h
    rw [hscan, nest_atom, htokens]
    exact .taken hsig text (hlater hz hfz hapart).1

/-- The step into a bracket, up to where the bracket is closed. -/
theorem opener {op : Opener} (hn : next c rest = ([Token.openerLexeme op], after))
    (hc : Syntax.isWhitespace c = false)
    (h : Token.commentsApart commas apart (nest [] [] (Lexeme.scan (c :: rest))) = true) :
    Follows (c :: rest) := by
  have hcomment : isCommentLexeme (Token.openerLexeme op) = false := by cases op <;> rfl
  refine of_respaced hn hc hcomment ?_
  have hafter := suffix_of_next hn
  have hopen : Lexeme.openAfter [] (Token.openerLexeme op) = Frame.brackets ([] ++ [⟨op, []⟩]) := by
    cases op <;> rfl
  have hnil : ∀ content ls, nest [] [op.token content] ls = op.token content :: nest [] [] ls :=
    fun content ls => by rw [nest_nil]; rfl
  obtain ⟨content, rest', hrest, hsub, htokens, hblanked⟩ :=
    nest_blankComments (hu.mono hafter.subset) hf [] ⟨op, []⟩ []
  rcases scan_blankComments hn hc (by cases op <;> rfl) (fun _ => hcomment)
      (fun _ _ _ _ _ _ => .inl (by cases op <;> rfl)) with hscan | ⟨a, x, z, text, ha, -⟩
  · have hsig := (isSignificant_token op content).1
    rw [scan_of_next hn, List.singleton_append, nest_opener, htokens, hnil] at h ⊢
    rw [hscan, nest_opener, hopen, hblanked, hnil]
    exact .token hsig (hlater hrest (fun l hl => hf l (hsub hl))
      (Token.commentsApart_of_isSignificant hsig h)).1
  · cases op <;> cases ha

omit hu in
/-- The step at a bracket that closes nothing. -/
theorem stray {b : Bracket} (hn : next c rest = ([.close b], after))
    (hc : Syntax.isWhitespace c = false)
    (h : Token.commentsApart commas apart (nest [] [] (Lexeme.scan (c :: rest))) = true) :
    Follows (c :: rest) := by
  refine of_respaced hn hc rfl ?_
  rw [scan_of_next hn, List.singleton_append, nest_stray] at h ⊢
  rcases scan_blankComments hn hc rfl (fun _ => rfl) (fun _ _ _ _ _ _ => .inl rfl) with
    hscan | ⟨a, x, z, text, ha, -⟩
  · rw [hscan, nest_stray]
    exact .token rfl (hlater (List.suffix_refl _) hf h).1
  · cases ha

end Step

end Follows

/-- The tokens of a text with spaces for its comments are those of the text, respaced, if every comment
stands apart. The induction is on the length of the text: a bracket is passed in one step. -/
theorem follows_of_commentsApart {commas apart : Bool} {cs : List Char} (hu : Unified cs)
    (hf : ∀ l ∈ Lexeme.scan cs, l.isFault = false)
    (h : Token.commentsApart commas apart (nest [] [] (Lexeme.scan cs)) = true) : Follows cs := by
  induction hlen : cs.length using Nat.strong_induction_on generalizing cs apart with
  | _ n ih =>
    cases cs with
    | nil => exact .nil
    | cons c rest =>
      have hscan := Lexeme.scan_cons c rest
      rw [hscan] at hf
      obtain ⟨l, hl, hfound⟩ := finds_next hu fun m hm => hf m (List.mem_append_left _ hm)
      have hn : next c rest = ([l], (next c rest).2) := Prod.ext hl rfl
      have hfault : l.isFault = false := hf l (by simp [hl])
      have hfafter : ∀ m ∈ Lexeme.scan (next c rest).2, m.isFault = false :=
        fun m hm => hf m (List.mem_append_right _ hm)
      -- A bracket is left far behind its lexeme, so that every later end of the text is asked for.
      have hlater : ∀ {ds : List Char} {apart' : Bool}, ds <:+ (next c rest).2 →
          (∀ m ∈ Lexeme.scan ds, m.isFault = false) →
          Token.commentsApart commas apart' (nest [] [] (Lexeme.scan ds)) = true → Follows ds := by
        intro ds apart' hds hfds hapart
        refine ih ds.length ?_ (hu.mono (hds.trans (next_suffix c rest)).subset) hfds hapart rfl
        have h1 := hds.length_le
        have h2 := length_next c rest
        rw [← hlen, List.length_cons]
        omega
      cases hc : Syntax.isWhitespace c with
      | true =>
        rw [hscan, next_whitespace hc, List.singleton_append, nest_atom] at h
        rw [next_whitespace hc] at hfafter hlater
        refine .of_gap (next_whitespace hc) rfl ⟨List.cons_ne_nil c _, List.forall_mem_cons.mpr
          ⟨hc, fun d hd => List.mem_takeWhile_imp hd⟩⟩ (blankComments_whitespace [] hc rest) ?_
        exact hlater (List.suffix_refl _) hfafter h
      | false =>
        cases hcomment : isCommentLexeme l with
        | true =>
          obtain ⟨-, text, htext⟩ := @next_comment c rest (by simp [hl, hcomment])
          obtain rfl : l = .atom (.comment text) := by simpa [hl] using htext
          rw [hscan, hl, List.singleton_append, nest_atom] at h
          refine .of_gap hn rfl ⟨List.cons_ne_nil ' ' [], by simp [Syntax.isWhitespace]⟩ ?_
            (hlater (List.suffix_refl _) hfafter (Token.commentsApart_comment h).2)
          rw [blankComments, hl, if_pos (by rfl)]
          rfl
        | false =>
          rcases lexeme_cases l with ⟨a, rfl⟩ | ⟨op, rfl⟩ | ⟨b, rfl⟩
          · exact .atom hu hfafter hlater hn hc hfault hcomment
              (isSignificant_of_found hfound hc hcomment) h
          · exact .opener hu hfafter hlater hn hc h
          · exact .stray hfafter hlater hn hc h

end CssExpand
