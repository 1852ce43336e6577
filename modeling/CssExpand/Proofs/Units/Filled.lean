import CssExpand.Proofs.Sheet.Phrases
import CssExpand.Proofs.Syntax.ReadBack
import CssExpand.Proofs.Units.Padded
import Mathlib

/-!
# Values with units

A value that is read back (`ReadBack`) may get a unit at every bare zero (`UnitRule.fill`). What comes
out is read back too, its tokens are those of the value with units (`ReadBack.tokens_fill`), and its
text is that of the value with something behind some digits (`ReadBack.padded_fill`).

The words of a value are another matter, since a word is trimmed and read anew. If the words stand for
themselves (`WordsAlone`), the words of the value with units are its words with units (`words_fill`).
They do if there is nothing in the value that trimming or the end of a word could change
(`PlainWords.wordsAlone`).
-/

set_option autoImplicit false

namespace CssExpand

open Syntax Value

/-! ## 1. Tokens that are read back, with units -/

/-- A dimension clashes with all that a number clashes with. -/
theorem Syntax.Joint.clash_dimension {j : Joint} (h : Joint.number.clash j) :
    Joint.dimension.clash j := by
  simp [clash, endsInName] at h ⊢
  simp [h]

theorem Syntax.Joint.clash_dimension_right (j : Joint) : j.clash .dimension = j.clash .number :=
  rfl

namespace UnitRule

theorem applyAll_eq_map (r : UnitRule) (ts : List Token) : r.applyAll ts = ts.map r.apply := by
  induction ts with
  | nil => rfl
  | cons t ts ih => rw [applyAll, ih, List.map_cons]

/-- An atom with a unit is the same one, or a number that became a dimension. -/
theorem apply_atom (r : UnitRule) (a : Atom) : r.apply (.atom a) = .atom a ∨
    ∃ n, a = .number n ∧ r.category ≠ .none ∧
      r.apply (.atom a) = .atom (.dimension n r.category.unit.toList) := by
  cases a with
  | number n =>
    rw [apply]
    split
    · next h =>
      simp only [appliesTo, Bool.and_eq_true, bne_iff_ne] at h
      exact .inr ⟨n, rfl, h.2, rfl⟩
    · exact .inl rfl
  | _ => exact .inl rfl

theorem apply_function (r : UnitRule) (name : List Char) (arguments : List Token) :
    ∃ inner, r.apply (.function name arguments) = .function name inner := by
  rw [apply]
  split
  · exact ⟨_, rfl⟩
  · exact ⟨_, rfl⟩

theorem apply_block (r : UnitRule) (b : Bracket) (content : List Token) :
    ∃ inner, r.apply (.block b content) = .block b inner := by
  cases b <;> exact ⟨_, rfl⟩

/-- What a token shows without what is inside it, and whether or not a number has a unit, stays. -/
theorem shown_apply {α : Type} (shown : Token → α)
    (hnumber : ∀ n unit, shown (.atom (.dimension n unit)) = shown (.atom (.number n)))
    (hfunction : ∀ name as bs, shown (.function name as) = shown (.function name bs))
    (hblock : ∀ b as bs, shown (.block b as) = shown (.block b bs)) (r : UnitRule) (t : Token) :
    shown (r.apply t) = shown t := by
  cases t with
  | atom a =>
    rcases r.apply_atom a with h | ⟨n, rfl, -, h⟩
    · rw [h]
    · rw [h, hnumber]
  | function name arguments =>
    obtain ⟨inner, h⟩ := r.apply_function name arguments
    rw [h, hfunction name inner arguments]
  | block b content =>
    obtain ⟨inner, h⟩ := r.apply_block b content
    rw [h, hblock b inner content]

@[simp] theorem isWhitespace_apply (r : UnitRule) (t : Token) :
    (r.apply t).isWhitespace = t.isWhitespace :=
  shown_apply _ (fun _ _ => rfl) (fun _ _ _ => rfl) (fun _ _ _ => rfl) r t

theorem isComment_apply (r : UnitRule) (t : Token) : (r.apply t).isComment = t.isComment :=
  shown_apply _ (fun _ _ => rfl) (fun _ _ _ => rfl) (fun _ _ _ => rfl) r t

theorem isSignificant_apply (r : UnitRule) (t : Token) :
    (r.apply t).isSignificant = t.isSignificant :=
  shown_apply _ (fun _ _ => rfl) (fun _ _ _ => rfl) (fun _ _ _ => rfl) r t

theorem startsWithBreak_apply (r : UnitRule) (t : Token) :
    (r.apply t).startsWithBreak = t.startsWithBreak :=
  shown_apply _ (fun _ _ => rfl) (fun _ _ _ => rfl) (fun _ _ _ => rfl) r t

theorem joint_apply (r : UnitRule) (t : Token) : (r.apply t).joint = t.joint ∨
    t.joint = .number ∧ (r.apply t).joint = .dimension := by
  cases t with
  | atom a =>
    rcases r.apply_atom a with h | ⟨n, rfl, -, h⟩
    · exact .inl (by rw [h])
    · exact .inr ⟨rfl, by rw [h]; rfl⟩
  | function name arguments =>
    obtain ⟨inner, h⟩ := r.apply_function name arguments
    exact .inl (by rw [h]; rfl)
  | block b content => cases b <;> exact .inl rfl

/-- What is kept apart stays apart. -/
theorem clash_apply (r : UnitRule) {t u : Token} (h : t.joint.clash u.joint) :
    (r.apply t).joint.clash (r.apply u).joint := by
  have hleft : (r.apply t).joint.clash u.joint := by
    rcases r.joint_apply t with ht | ⟨hn, ht⟩ <;> rw [ht]
    · exact h
    · exact Joint.clash_dimension (hn ▸ h)
  rcases r.joint_apply u with hu | ⟨hn, hu⟩ <;> rw [hu]
  · exact hleft
  · rwa [Joint.clash_dimension_right, ← hn]

mutual

theorem endsInOpenString_apply (r : UnitRule) : ∀ t : Token,
    (r.apply t).endsInOpenString = t.endsInOpenString
  | .atom a => by
    rcases r.apply_atom a with h | ⟨n, rfl, -, h⟩ <;> rw [h]
    rfl
  | .function name arguments => by
    rw [apply]
    split
    · next inner _ =>
      rw [Token.endsInOpenString, Token.endsInOpenString,
        lastEndsInOpenString_applyAll inner arguments]
    · rfl
  | .block b content => by cases b <;> rfl

theorem lastEndsInOpenString_applyAll (r : UnitRule) : ∀ ts : List Token,
    Token.lastEndsInOpenString (r.applyAll ts) = Token.lastEndsInOpenString ts
  | [] => rfl
  | [t] => endsInOpenString_apply r t
  | _ :: t :: ts => lastEndsInOpenString_applyAll r (t :: ts)

end

theorem joint_apply_reread (r : UnitRule) (t : Token) :
    (r.apply t.reread).joint = (r.apply t).joint := by
  cases t with
  | atom a => cases a <;> rfl
  | function name arguments =>
    rw [Token.reread, apply, apply]
    split <;> rfl
  | block b content => cases b <;> rfl

/-- What is written between two tokens with units does not hang on whether they were read back. -/
theorem glue_apply_reread (r : UnitRule) (t u : Token) :
    (r.apply t.reread).glue (r.apply u.reread) = (r.apply t).glue (r.apply u) := by
  simp only [Token.glue, joint_apply_reread, isLiteral_apply, Token.isLiteral_reread,
    startsWithBreak_apply, Token.startsWithBreak_reread]

mutual

/-- The rule sees no difference between a token and what it is read back as, by induction on it. -/
theorem written_apply_reread (r : UnitRule) : ∀ t : Token,
    (r.apply t.reread).written = (r.apply t).written
  | .atom a => by
    cases a with
    | dimension n unit => exact Token.written_rereadAtom (.dimension n unit)
    | _ => rfl
  | .function name arguments => by
    rw [Token.reread, apply, apply]
    split
    · next inner _ =>
      rw [Token.written, Token.written, listWritten_applyAll_listReread inner arguments,
        lastEndsInOpenString_applyAll, lastEndsInOpenString_applyAll,
        Token.lastEndsInOpenString_reread]
    · exact Token.written_reread (.function name arguments)
  | .block .curly content => Token.written_reread (.block .curly content)
  | .block .round content | .block .square content => by
    rw [Token.reread, apply, apply, Token.written, Token.written,
      listWritten_applyAll_listReread r content] <;> simp

/-- What is read back and gets units has the text of what gets units. -/
theorem listWritten_applyAll_listReread (r : UnitRule) : ∀ ts : List Token,
    Token.listWritten (r.applyAll (Token.listReread ts)) = Token.listWritten (r.applyAll ts)
  | [] => rfl
  | [t] => by
    simp only [Token.listReread, Token.join, List.append_nil, applyAll, Token.listWritten,
      Token.glueBefore]
    rw [written_apply_reread r t]
  | t :: u :: us => by
    have ih := listWritten_applyAll_listReread r (u :: us)
    have ht := written_apply_reread r t
    rw [Token.listReread, Token.join]
    rw [Token.listReread] at ih ⊢
    simp only [applyAll_eq_map, List.map_cons, List.map_append] at ih ⊢
    split
    · next hclash =>
      -- the comment stands where one is written anyway
      have hclash' := clash_apply r hclash
      have hreread : (r.apply t.reread).joint.clash (r.apply u).joint := by
        rwa [joint_apply_reread]
      have hcomment : r.apply (.atom (.comment [])) = .atom (.comment []) := rfl
      simp only [List.map_cons, List.map_nil, hcomment, List.cons_append, List.nil_append,
        Token.listWritten, Token.glueBefore, Token.glue_comment hreread, Token.comment_glue, ht,
        Token.written, Atom.written] at ih ⊢
      rw [ih]
      simp [Token.glue, hclash']
    · simp only [List.map_nil, List.nil_append, Token.listWritten, Token.glueBefore,
        glue_apply_reread, ht] at ih ⊢
      rw [ih]

end

end UnitRule

/-! ## 2. Padded text -/

namespace Syntax.Lexeme

/-- A unit is read back as it is written. -/
theorem reread_eq_of_lifts {ls ms : List Lexeme} (h : List.Forall₂ Lifts ls ms)
    (hr : ∀ l ∈ ls, l.reread = l) : ∀ m ∈ ms, m.reread = m := by
  induction h with
  | nil => simp
  | cons hl _ ih =>
    rw [List.forall_mem_cons] at hr ⊢
    refine ⟨?_, ih hr.2⟩
    cases hl with
    | same => exact hr.1
    | @unit n c hc => cases c <;> rfl

theorem Lifts.glue_eq {l' m' : Lexeme} (h : l'.Lifts m') (l : Lexeme) : glue l m' = glue l l' := by
  cases h <;> rfl

/-- What is written between a number and what follows it is written behind a unit too, or not at
all. -/
theorem Lifts.exists_pad {l' m' : Lexeme} (h : l'.Lifts m') (n : Numeral) {c : UnitCategory}
    (hc : c ≠ .none) : ∃ pad, IsPad pad ∧
      c.unit.toList ++ text (glue (.atom (.dimension n c.unit.toList)) m') =
        pad ++ text (glue (.atom (.number n)) l') := by
  rw [h.glue_eq]
  unfold glue
  split
  · next hd =>
    split
    · exact ⟨c.unit.toList, ⟨c, hc, .inl rfl⟩, rfl⟩
    · exact ⟨_, ⟨c, hc, .inr rfl⟩, (List.append_nil _).symm⟩
  · next hd =>
    split
    · next hn => exact absurd (Joint.clash_dimension hn) hd
    · exact ⟨c.unit.toList, ⟨c, hc, .inl rfl⟩, rfl⟩

/-- What is written for lexemes with units is what is written without them, and units and comments
behind some digits. -/
theorem padded_text {ls ms : List Lexeme} (h : List.Forall₂ Lifts ls ms)
    (hs : Sourced ls) : Padded (text (glued ls)) (text (glued ms)) := by
  induction h with
  | nil => exact .nil
  | @cons l m ls ms hl hls ih =>
    replace ih := ih hs.2.2.2
    have hcons := text_glued_cons l ls []
    have hcons' := text_glued_cons m ms []
    rw [List.append_nil] at hcons hcons'
    rw [hcons, hcons']
    cases hl with
    | same =>
      refine Padded.append_left _ ?_
      cases hls with
      | nil => exact .nil
      | cons hl' _ =>
        rw [after, after, hl'.glue_eq, List.append_nil, List.append_nil]
        exact ih.append_left _
    | @unit n c hc =>
      obtain ⟨init, d, hchars, hd⟩ := Numeral.exists_last_chars hs.1
      have hwritten : unitWritten c.unit.toList = c.unit.toList := by
        cases c <;> rfl
      rw [written, written, Atom.written, Atom.written, hwritten, hchars]
      simp only [List.append_assoc, List.singleton_append]
      refine Padded.append_left init ?_
      cases hls with
      | nil =>
        exact .pad hd ⟨c, hc, .inl rfl⟩ .nil
      | @cons l' m' _ _ hl' _ =>
        obtain ⟨pad, hpad, heq⟩ := hl'.exists_pad n hc
        rw [after, after, List.append_nil, List.append_nil, List.cons_append,
          ← List.append_assoc c.unit.toList, heq, List.append_assoc]
        exact .pad hd hpad (ih.append_left _)

end Syntax.Lexeme

/-! ## 3. Comments, words and bare zeros -/

open Syntax.Lexeme

namespace Syntax.Token

mutual

/-- Reading back puts in nothing but comments. -/
theorem withoutComments_reread : ∀ {t : Token}, (∀ l ∈ t.flat, l.reread = l) →
    t.reread.withoutComments = t.withoutComments
  | .atom a, h => by
    have ha : Lexeme.atom a.reread = .atom a := h (.atom a) (by simp [flat])
    rw [reread, (Lexeme.atom.inj ha)]
  | .function name arguments, h => by
    rw [reread, withoutComments, withoutComments, listWithoutComments_listReread]
    exact fun l hl => h l (by simp [flat, hl])
  | .block bracket content, h => by
    rw [reread, withoutComments, withoutComments, listWithoutComments_listReread]
    exact fun l hl => h l (by simp [flat, hl])

/-- The comments that the writer puts in go again with all the others. -/
theorem listWithoutComments_listReread : ∀ {ts : List Token}, (∀ l ∈ listFlat ts, l.reread = l) →
    listWithoutComments (listReread ts) = listWithoutComments ts
  | [], _ => rfl
  | t :: ts, h => by
    rw [listFlat, List.forall_mem_append] at h
    have hcomment : t.reread.isComment = t.isComment := by
      cases t with
      | atom a => cases a <;> rfl
      | _ => rfl
    have hjoin : listWithoutComments (t.join ts) = [] := by
      cases ts with
      | nil => rfl
      | cons u us =>
        rw [join]
        split <;> rfl
    rw [listReread, listWithoutComments, listWithoutComments, listWithoutComments_append, hjoin,
      hcomment, withoutComments_reread h.1, listWithoutComments_listReread h.2, List.nil_append]

end

mutual

theorem mem_flat_withoutComments : ∀ {t : Token} {l : Lexeme}, l ∈ t.withoutComments.flat →
    l ∈ t.flat
  | .atom a, _, h => h
  | .function name arguments, l, h => by
    simp only [withoutComments, flat, List.mem_cons, List.mem_append] at h ⊢
    exact h.imp_right (Or.imp_left mem_listFlat_listWithoutComments)
  | .block bracket content, l, h => by
    simp only [withoutComments, flat, List.mem_cons, List.mem_append] at h ⊢
    exact h.imp_right (Or.imp_left mem_listFlat_listWithoutComments)

theorem mem_listFlat_listWithoutComments : ∀ {ts : List Token} {l : Lexeme},
    l ∈ listFlat (listWithoutComments ts) → l ∈ listFlat ts
  | t :: ts, l, h => by
    rw [listWithoutComments] at h
    rw [listFlat, List.mem_append]
    split at h
    · exact .inr (mem_listFlat_listWithoutComments h)
    · rw [listFlat, List.mem_append] at h
      exact h.imp mem_flat_withoutComments mem_listFlat_listWithoutComments

end

theorem splitAt_map {separates : Token → Bool} {f : Token → Token}
    (h : ∀ t, separates (f t) = separates t) (ts : List Token) :
    splitAt separates (ts.map f) = (splitAt separates ts).map (List.map f) := by
  induction ts with
  | nil => rfl
  | cons t ts ih =>
    rw [List.map_cons, splitAt, splitAt, ih]
    cases splitAt separates ts with
    | nil => rfl
    | cons piece pieces =>
      rw [List.map_cons, h]
      cases separates t <;> rfl

end Syntax.Token

namespace UnitRule

mutual

/-- A comment is not given a unit, so it does not matter when it is taken out. -/
theorem withoutComments_apply (r : UnitRule) : ∀ t : Token,
    (r.apply t).withoutComments = r.apply t.withoutComments
  | .atom a => by
    rcases r.apply_atom a with h | ⟨n, rfl, -, h⟩ <;> rw [Token.withoutComments, h] <;> rfl
  | .function name arguments => by
    rw [apply, Token.withoutComments, apply]
    split
    · next inner _ => rw [Token.withoutComments, listWithoutComments_applyAll inner arguments]
    · rfl
  | .block .curly content => rfl
  | .block .round content | .block .square content => by
    rw [apply, Token.withoutComments, Token.withoutComments, apply,
      listWithoutComments_applyAll r content]
    · simp
    · simp

theorem listWithoutComments_applyAll (r : UnitRule) : ∀ ts : List Token,
    Token.listWithoutComments (r.applyAll ts) = r.applyAll (Token.listWithoutComments ts)
  | [] => rfl
  | t :: ts => by
    rw [applyAll, Token.listWithoutComments, Token.listWithoutComments, isComment_apply,
      withoutComments_apply r t, listWithoutComments_applyAll r ts]
    split <;> rfl

end

mutual

theorem hasBareZero_withoutComments (r : UnitRule) : ∀ t : Token,
    r.hasBareZero t.withoutComments = r.hasBareZero t
  | .atom a => by rw [Token.withoutComments]
  | .function name arguments => by
    rw [Token.withoutComments, hasBareZero, hasBareZero]
    split
    · next inner _ => exact anyBareZero_listWithoutComments inner arguments
    · rfl
  | .block .curly content => rfl
  | .block .round content | .block .square content => by
    rw [Token.withoutComments, hasBareZero, hasBareZero,
      anyBareZero_listWithoutComments r content] <;> simp

/-- No zero stands in a comment. -/
theorem anyBareZero_listWithoutComments (r : UnitRule) : ∀ ts : List Token,
    r.anyBareZero (Token.listWithoutComments ts) = r.anyBareZero ts
  | [] => rfl
  | t :: ts => by
    rw [Token.listWithoutComments, anyBareZero]
    split
    · next h =>
      have hnone : r.hasBareZero t = false := by
        cases t with
        | atom a => cases a <;> first | rfl | cases h
        | _ => cases h
      rw [hnone, Bool.false_or, anyBareZero_listWithoutComments r ts]
    · rw [anyBareZero, hasBareZero_withoutComments r t, anyBareZero_listWithoutComments r ts]

end

mutual

/-- The rule changes bare zeros and nothing else, inside of functions too. -/
theorem apply_eq_self : ∀ {r : UnitRule} {t : Token}, r.hasBareZero t = false → r.apply t = t
  | r, .atom a, h => by
    cases a with
    | number n =>
      rw [hasBareZero] at h
      rw [apply, if_neg (by simp [h])]
    | _ => rfl
  | r, .function name arguments, h => by
    rw [hasBareZero] at h
    rw [apply]
    split
    · next inner heq =>
      rw [heq] at h
      rw [applyAll_eq_self h]
    · rfl
  | r, .block .curly content, _ => rfl
  | r, .block .round content, h | r, .block .square content, h => by
    rw [apply, applyAll_eq_self (by simpa [hasBareZero] using h)]
    simp

/-- Without a bare zero nothing gets a unit. -/
theorem applyAll_eq_self : ∀ {r : UnitRule} {ts : List Token}, r.anyBareZero ts = false →
    r.applyAll ts = ts
  | _, [], _ => rfl
  | r, t :: ts, h => by
    rw [anyBareZero, Bool.or_eq_false_iff] at h
    rw [applyAll, apply_eq_self h.1, applyAll_eq_self h.2]

end

theorem splitAt_applyAll (r : UnitRule) (ts : List Token) :
    Token.splitAt Token.isWhitespace (r.applyAll ts) =
      (Token.splitAt Token.isWhitespace ts).map r.applyAll := by
  have hmap : r.applyAll = List.map r.apply := funext r.applyAll_eq_map
  rw [hmap, Token.splitAt_map r.isWhitespace_apply]

end UnitRule

/-! ## 4. Values -/

/-- A value with a unit at every bare zero. -/
def UnitRule.fill (r : UnitRule) (value : String) : String :=
  Token.write (r.applyAll (Token.ofChars value.toList))

/-- The words of a value stand for themselves: nothing is trimmed off them, and each of them is read,
alone, as it is read in the value. -/
def WordsAlone (value : String) : Prop :=
  ∀ piece ∈ Token.splitAt Token.isWhitespace (tokens value),
    Text.trim (Token.listWritten piece) = Token.listWritten piece ∧
      Token.ofChars (Token.listWritten piece) = Token.listReread piece

/-- What keeps the words of a value as they are: it has no comments, nothing is trimmed off a word, and
no backslash is alone at an end. Under these conditions the words of the value that got its units are
the words with their units. -/
structure PlainWords (value : String) : Prop where
  commentless : ∀ l ∈ Token.listFlat (Token.ofChars value.toList), isCommentLexeme l = false
  closed : closes value.toList
  trimmed : ∀ piece ∈ Token.splitAt Token.isWhitespace (tokens value),
    Text.trim (Token.listWritten piece) = Token.listWritten piece
  wordsClosed : ∀ piece ∈ Token.splitAt Token.isWhitespace (tokens value),
    closes (Token.listWritten piece)

/-- Plain words of a value that is read back stand for themselves. -/
theorem PlainWords.wordsAlone {value : String} (hp : PlainWords value) (h : ReadBack value) :
    WordsAlone value := by
  intro piece hpiece
  refine ⟨hp.trimmed piece hpiece, ?_⟩
  obtain ⟨hin, hspaceless⟩ := of_mem_splitAt hpiece
  rw [tokens, listWithoutComments_eq hp.commentless] at hin
  have hsettled := h.settled.of_isInfix hin
  have hfirm := firm_of_closes hsettled (fun t ht => hspaceless t (List.mem_of_getLast? ht))
    (hp.wordsClosed piece hpiece)
  exact hsettled.ofChars_listWritten hfirm.backslash

namespace Syntax.ReadBack

variable {value : String} (h : ReadBack value) (r : UnitRule)
include h

theorem settled_applyAll : Token.Settled (r.applyAll (Token.ofChars value.toList)) :=
  h.settled.lifted (r.lifts_applyAll _)

theorem backslash_applyAll : ∀ t ∈ (r.applyAll (Token.ofChars value.toList)).getLast?,
    t.isLiteral ['\\'] = false := by
  intro t ht
  rw [r.applyAll_eq_map, List.getLast?_map, Option.mem_map] at ht
  obtain ⟨u, hu, rfl⟩ := ht
  rw [r.isLiteral_apply]
  exact h.backslash u hu

theorem fill : ReadBack (r.fill value) :=
  (h.settled_applyAll r).readBack (h.backslash_applyAll r)
    ((Token.listHasFault_lifted (r.lifts_applyAll _)).trans h.faultless)

theorem fill_eq_self (hz : r.anyBareZero (Token.ofChars value.toList) = false) :
    r.fill value = value := by
  rw [UnitRule.fill, UnitRule.applyAll_eq_self hz, h.written]

/-- The tokens of the value with units are those of the value, with units. -/
theorem tokens_fill : tokens (r.fill value) = r.applyAll (tokens value) := by
  have hreread : ∀ l ∈ Token.listFlat (r.applyAll (Token.ofChars value.toList)), l.reread = l := by
    refine reread_eq_of_lifts (r.lifts_applyAll _) h.reread_eq
  rw [tokens, tokens, UnitRule.fill, Token.write, String.toList_ofList,
    (h.settled_applyAll r).ofChars_listWritten (h.backslash_applyAll r),
    Token.listWithoutComments_listReread hreread, r.listWithoutComments_applyAll]

theorem padded_fill : Padded value.toList (r.fill value).toList := by
  have hpadded := padded_text (r.lifts_applyAll (Token.ofChars value.toList)) h.sourced
  rw [UnitRule.fill, Token.write, String.toList_ofList]
  rwa [← Token.listWritten_eq _ h.sourced, h.listWritten_eq,
    ← Token.listWritten_eq _ (h.settled_applyAll r).sourced] at hpadded

theorem fill_eq_empty_iff : r.fill value = "" ↔ value = "" := by
  rw [← String.toList_eq_nil_iff, ← String.toList_eq_nil_iff, (h.padded_fill r).eq_nil_iff]

end Syntax.ReadBack

/-! ## 5. Words -/

section Words

variable {value : String} (h : ReadBack value) (hw : WordsAlone value) {piece : List Token}
include h hw

theorem readBack_piece (hp : piece ∈ Token.splitAt Token.isWhitespace (tokens value)) :
    ReadBack (Token.write piece) := by
  have hflat : Token.listFlat piece ⊆ Token.listFlat (Token.ofChars value.toList) := fun l hl =>
    Token.mem_listFlat_listWithoutComments ((Token.listFlat_isInfix (of_mem_splitAt hp).1).subset hl)
  exact Token.readBack_of_ofChars (hw piece hp).2 (Token.listHasFault_of_subset hflat h.faultless)
    fun l hl => h.settled.short l (hflat hl)

/-- A piece with units is written as its word with units. -/
theorem write_applyAll_piece (r : UnitRule)
    (hp : piece ∈ Token.splitAt Token.isWhitespace (tokens value)) :
    Text.trim (Token.listWritten (r.applyAll piece)) = Token.listWritten (r.applyAll piece) ∧
      Token.write (r.applyAll piece) = r.fill (Token.write piece) := by
  have hfill : r.fill (Token.write piece) = Token.write (r.applyAll piece) := by
    rw [UnitRule.fill, Token.write, Token.write, String.toList_ofList, (hw piece hp).2,
      r.listWritten_applyAll_listReread, Token.write]
  have hpadded := (readBack_piece h hw hp).padded_fill r
  rw [hfill, Token.write, Token.write, String.toList_ofList, String.toList_ofList] at hpadded
  exact ⟨hpadded.trim_eq (hw piece hp).1, hfill.symm⟩

omit h in
theorem words_eq : words value =
    ((Token.splitAt Token.isWhitespace (tokens value)).map Token.write).filter (!·.isEmpty) := by
  rw [words, pieces]
  congr 1
  refine List.map_congr_left fun piece hp => ?_
  rw [(hw piece hp).1, Token.write]

theorem readBack_of_mem_words {w : String} (hmem : w ∈ words value) : ReadBack w := by
  rw [words_eq hw] at hmem
  obtain ⟨piece, hp, rfl⟩ := List.mem_map.mp (List.mem_of_mem_filter hmem)
  exact readBack_piece h hw hp

/-- The words of a value with units are its words, with units. -/
theorem words_fill (r : UnitRule) : words (r.fill value) = (words value).map r.fill := by
  have hpieces : pieces Token.isWhitespace (tokens (r.fill value)) =
      ((Token.splitAt Token.isWhitespace (tokens value)).map Token.write).map r.fill := by
    rw [pieces, h.tokens_fill r, r.splitAt_applyAll, List.map_map, List.map_map]
    refine List.map_congr_left fun piece hp => ?_
    obtain ⟨htrim, hfill⟩ := write_applyAll_piece h hw r hp
    rw [Function.comp_apply, Function.comp_apply, htrim, ← hfill, Token.write]
  rw [words, hpieces, words_eq hw, List.filter_map]
  congr 1
  refine List.filter_congr fun w hmem => ?_
  obtain ⟨piece, hp, rfl⟩ := List.mem_map.mp hmem
  have hempty := (readBack_piece h hw hp).fill_eq_empty_iff r
  rw [← String.isEmpty_iff, ← String.isEmpty_iff] at hempty
  rw [Function.comp_apply, Bool.eq_iff_iff.mpr hempty]

end Words

end CssExpand
