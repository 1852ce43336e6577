import CssExpand.Proofs.Value.Legible
import Mathlib

/-!
# Tokens without their comments

The tokens of a value lose their comments before it is taken apart, and what is left need not be the
tokens of any source. Whitespace may stand beside whitespace, and two tokens that a comment kept apart
may run together. The first is harmless: whitespace put together is written as it was
(`listWritten_listMerged`). Where the second does not happen (`runsTogether`), what is left, with its
whitespace put together, is as it may stand in a source again (`Sourced.uncommented`), and is read back.
-/

set_option autoImplicit false

namespace CssExpand

open Syntax Value

/-! ## 1. Whitespace put together -/

namespace Syntax

/-- A lexeme in front of others, in one with whitespace there if it is whitespace itself. -/
def Lexeme.mergeOnto : Lexeme → List Lexeme → List Lexeme
  | .atom (.whitespace s), .atom (.whitespace t) :: ls => .atom (.whitespace (s ++ t)) :: ls
  | l, ls => l :: ls

/-- Lexemes with whitespace that stands side by side put together. -/
def Lexeme.merged : List Lexeme → List Lexeme
  | [] => []
  | l :: ls => l.mergeOnto (merged ls)

/-- A token in front of others, in one with whitespace there if it is whitespace itself. -/
def Token.mergeOnto : Token → List Token → List Token
  | .atom (.whitespace s), .atom (.whitespace t) :: ts => .atom (.whitespace (s ++ t)) :: ts
  | t, ts => t :: ts

mutual

/-- A token with whitespace that stands side by side in it put together. -/
def Token.merged : Token → Token
  | .atom a => .atom a
  | .function name arguments => .function name (listMerged arguments)
  | .block b content => .block b (listMerged content)

/-- Tokens with whitespace that stands side by side put together, at any depth. -/
def Token.listMerged : List Token → List Token
  | [] => []
  | t :: ts => t.merged.mergeOnto (listMerged ts)

end

namespace Lexeme

theorem exists_of_isWhitespace {l : Lexeme} (h : l.isWhitespace = true) :
    ∃ text, l = .atom (.whitespace text) := by
  cases l with
  | atom a =>
    cases a with
    | whitespace text => exact ⟨text, rfl⟩
    | _ => cases h
  | _ => cases h

theorem mergeOnto_of_not_isWhitespace {l : Lexeme} (h : l.isWhitespace = false) (ls : List Lexeme) :
    l.mergeOnto ls = l :: ls := by
  cases l with
  | atom a =>
    cases a with
    | whitespace text => cases h
    | _ => rfl
  | _ => rfl

theorem mergeOnto_cons {m : Lexeme} (h : m.isWhitespace = false) (l : Lexeme) (ls : List Lexeme) :
    l.mergeOnto (m :: ls) = l :: m :: ls := by
  unfold mergeOnto
  split
  · next heq =>
    obtain ⟨rfl, -⟩ := List.cons.inj heq
    cases h
  · rfl

theorem mergeOnto_nil (l : Lexeme) : l.mergeOnto [] = [l] := by
  unfold mergeOnto
  split
  · next heq => cases heq
  · rfl

/-- Nothing is put together across something other than whitespace. -/
theorem merged_append_cons {m : Lexeme} (h : m.isWhitespace = false) (ls ms : List Lexeme) :
    merged (ls ++ m :: ms) = merged ls ++ m :: merged ms := by
  induction ls with
  | nil => exact mergeOnto_of_not_isWhitespace h (merged ms)
  | cons l ls ih =>
    rw [List.cons_append, merged, ih, merged]
    cases hls : merged ls with
    | nil => rw [List.nil_append, mergeOnto_cons h, mergeOnto_nil, List.singleton_append]
    | cons l' ls' =>
      unfold mergeOnto
      split <;> simp_all

/-- Putting together makes nothing new but whitespace. -/
theorem mem_merged {l : Lexeme} {ls : List Lexeme} (h : l ∈ merged ls) :
    (∃ text, l = .atom (.whitespace text)) ∨ l ∈ ls := by
  induction ls with
  | nil => exact .inr h
  | cons m ls ih =>
    rw [merged] at h
    unfold mergeOnto at h
    split at h
    · next hls =>
      rcases List.mem_cons.mp h with rfl | h
      · exact .inl ⟨_, rfl⟩
      · exact (ih (hls ▸ List.mem_cons_of_mem _ h)).imp_right (List.mem_cons_of_mem _)
    · rcases List.mem_cons.mp h with rfl | h
      · exact .inr List.mem_cons_self
      · exact (ih h).imp_right (List.mem_cons_of_mem _)

/-- Between brackets lexemes are put together by themselves. -/
theorem merged_brackets {l m : Lexeme} (hl : l.isWhitespace = false) (hm : m.isWhitespace = false)
    (ls ms : List Lexeme) :
    merged (l :: (ls ++ m :: ms)) = l :: (merged ls ++ m :: merged ms) := by
  rw [merged, mergeOnto_of_not_isWhitespace hl, merged_append_cons hm]

end Lexeme

namespace Token

theorem mergeOnto_of_not_isWhitespace {t : Token} (h : t.isWhitespace = false) (ts : List Token) :
    t.mergeOnto ts = t :: ts := by
  cases t with
  | atom a =>
    cases a with
    | whitespace text => cases h
    | _ => rfl
  | _ => rfl

/-- Merging whitespace is the same on tokens and on their lexemes: only a first token that is
whitespace itself is merged. -/
theorem listFlat_mergeOnto (a : Atom) (ts : List Token) :
    listFlat (mergeOnto (.atom a) ts) = Lexeme.mergeOnto (.atom a) (listFlat ts) := by
  cases ha : (Token.atom a).isWhitespace with
  | false =>
    have hl : (Lexeme.atom a).isWhitespace = false := by
      cases a <;> first | rfl | cases ha
    rw [mergeOnto_of_not_isWhitespace ha, Lexeme.mergeOnto_of_not_isWhitespace hl]
    rfl
  | true =>
    cases a with
    | whitespace text =>
      cases ts with
      | nil => rfl
      | cons u us =>
        cases u with
        | atom b => cases b <;> rfl
        | function name arguments => rfl
        | block b content => rfl
    | _ => cases ha

/-- Putting whitespace together is the same for tokens and for their lexemes. -/
theorem listFlat_listMerged : ∀ ts : List Token,
    listFlat (listMerged ts) = Lexeme.merged (listFlat ts)
  | [] => rfl
  | .atom a :: ts => by
    rw [listMerged, merged, listFlat_mergeOnto, listFlat_listMerged ts]
    rfl
  | .function name arguments :: ts => by
    have hflat : ∀ as us : List Token, listFlat (.function name as :: us) =
        .openFunction name :: (listFlat as ++ .close .round :: listFlat us) := by simp [listFlat, flat]
    rw [listMerged, merged, mergeOnto_of_not_isWhitespace rfl, hflat, hflat,
      Lexeme.merged_brackets rfl rfl, listFlat_listMerged arguments, listFlat_listMerged ts]
  | .block b content :: ts => by
    have hflat : ∀ as us : List Token, listFlat (.block b as :: us) =
        .openBlock b :: (listFlat as ++ .close b :: listFlat us) := by simp [listFlat, flat]
    rw [listMerged, merged, mergeOnto_of_not_isWhitespace rfl, hflat, hflat,
      Lexeme.merged_brackets rfl rfl, listFlat_listMerged content, listFlat_listMerged ts]

/-! ## 2. Writing -/

mutual

theorem endsInOpenString_eq_false : ∀ {t : Token}, t.hasFault = false → t.endsInOpenString = false
  | .atom a, h => by
    cases a with
    | fault kind => cases h
    | _ => rfl
  | .function name arguments, h => lastEndsInOpenString_eq_false h
  | .block b content, _ => rfl

/-- No string is open at the end of tokens without faults. -/
theorem lastEndsInOpenString_eq_false : ∀ {ts : List Token}, listHasFault ts = false →
    lastEndsInOpenString ts = false
  | [], _ => rfl
  | [t], h => endsInOpenString_eq_false (t := t) (by simpa [listHasFault] using h)
  | t :: u :: us, h => by
    rw [listHasFault, Bool.or_eq_false_iff] at h
    exact @lastEndsInOpenString_eq_false (u :: us) h.2

end

theorem whitespace_glueBefore (text : List Char) (ts : List Token) :
    glueBefore (.atom (.whitespace text)) ts = [] := by
  cases ts with
  | nil => rfl
  | cons t ts => exact glue_eq_nil (Joint.not_clash_left rfl (by simp [joint, Atom.joint]) _) rfl

theorem listWritten_whitespace_cons (text : List Char) (ts : List Token) :
    listWritten (.atom (.whitespace text) :: ts) = text ++ listWritten ts := by
  rw [listWritten, whitespace_glueBefore, List.append_nil]
  rfl

theorem merged_joint (t : Token) : t.merged.joint = t.joint := by
  cases t with
  | atom a => rfl
  | function name arguments => rfl
  | block b content => cases b <;> rfl

@[simp] theorem merged_isWhitespace (t : Token) : t.merged.isWhitespace = t.isWhitespace := by
  cases t <;> rfl

@[simp] theorem merged_isLiteral (t : Token) (text : List Char) :
    t.merged.isLiteral text = t.isLiteral text := by
  cases t <;> rfl

/-- The first token shows the same once tokens are put together. -/
theorem exists_mergeOnto {u : Token} (h : Lexeme.atom (.whitespace []) ∉ u.flat) (us : List Token) :
    ∃ v vs, u.merged.mergeOnto us = v :: vs ∧ v.joint = u.joint ∧
      v.startsWithBreak = u.startsWithBreak := by
  cases hu : u.isWhitespace with
  | false =>
    refine ⟨u.merged, us, mergeOnto_of_not_isWhitespace (by rwa [merged_isWhitespace]) us,
      merged_joint u, ?_⟩
    cases u <;> rfl
  | true =>
    obtain ⟨text, rfl⟩ : ∃ text, u = .atom (.whitespace text) := by
      cases u with
      | atom a =>
        cases a with
        | whitespace text => exact ⟨text, rfl⟩
        | _ => cases hu
      | _ => cases hu
    obtain ⟨c, rest, rfl⟩ := List.exists_cons_of_ne_nil (l := text) (by
      rintro rfl
      exact h (by simp [flat]))
    rw [merged]
    unfold mergeOnto
    split
    · next heq =>
      obtain rfl := Atom.whitespace.inj (Token.atom.inj heq)
      exact ⟨_, _, rfl, rfl, by by_cases hc : c = '\n' <;> simp [startsWithBreak, hc]⟩
    · exact ⟨_, _, rfl, rfl, rfl⟩

/-- What is written behind a token is the same once the tokens there are put together. -/
theorem merged_glueBefore (t : Token) {us : List Token}
    (h : Lexeme.atom (.whitespace []) ∉ listFlat us) :
    t.merged.glueBefore (listMerged us) = t.glueBefore us := by
  cases us with
  | nil => rfl
  | cons u us =>
    rw [listFlat, List.mem_append, not_or] at h
    obtain ⟨v, vs, hv, hjoint, hbreak⟩ := exists_mergeOnto h.1 (listMerged us)
    rw [listMerged, hv, glueBefore, glueBefore, glue, merged_joint, hjoint, merged_isLiteral, hbreak,
      glue]

/-- Merging brings no fault. -/
theorem faultless_listMerged {ts : List Token} (h : listHasFault ts = false) :
    listHasFault (listMerged ts) = false := by
  have hmerged : ∀ ls : List Lexeme,
      (Lexeme.merged ls).any Lexeme.isFault = ls.any Lexeme.isFault := by
    intro ls
    induction ls with
    | nil => rfl
    | cons l ls ih =>
      rw [List.any_cons, ← ih, Lexeme.merged]
      unfold Lexeme.mergeOnto
      split
      · next hls => rw [hls]; rfl
      · rfl
  rw [← any_isFault_listFlat, listFlat_listMerged, hmerged, any_isFault_listFlat, h]

mutual

theorem written_merged : ∀ {t : Token}, Lexeme.atom (.whitespace []) ∉ t.flat →
    t.hasFault = false → t.merged.written = t.written
  | .atom a, _, _ => rfl
  | .function name arguments, hw, hf => by
    have hw' : Lexeme.atom (.whitespace []) ∉ listFlat arguments :=
      fun h => hw (List.mem_cons_of_mem _ (List.mem_append_left _ h))
    rw [merged, written, written, listWritten_listMerged hw' hf, lastEndsInOpenString_eq_false hf,
      lastEndsInOpenString_eq_false (faultless_listMerged hf)]
  | .block b content, hw, hf => by
    have hw' : Lexeme.atom (.whitespace []) ∉ listFlat content :=
      fun h => hw (List.mem_cons_of_mem _ (List.mem_append_left _ h))
    rw [merged, written, written, listWritten_listMerged hw' hf]

/-- Whitespace that is put together is written as it was. -/
theorem listWritten_listMerged : ∀ {ts : List Token}, Lexeme.atom (.whitespace []) ∉ listFlat ts →
    listHasFault ts = false → listWritten (listMerged ts) = listWritten ts
  | [], _, _ => rfl
  | t :: ts, hw, hf => by
    rw [listFlat, List.mem_append, not_or] at hw
    rw [listHasFault, Bool.or_eq_false_iff] at hf
    have ht := written_merged hw.1 hf.1
    have hts := listWritten_listMerged hw.2 hf.2
    have hglue := merged_glueBefore t hw.2
    rw [listMerged, listWritten, ← ht, ← hts, ← hglue]
    unfold mergeOnto
    split
    · next s s' us hmerged hrest =>
      rw [hmerged, hrest, listWritten_whitespace_cons, listWritten_whitespace_cons,
        whitespace_glueBefore, List.append_nil, List.append_assoc]
      rfl
    · rfl

end

end Token

/-! ## 3. Lexemes of a source -/

namespace Lexeme

/-- Whether two lexemes that a comment keeps apart run together without it, although the writer puts
nothing between them. -/
def fuses : Lexeme → Lexeme → Bool
  | .atom (.number _), .atom (.literal t) => t == ['%'] || t == ['-', '-', '>']
  | .atom (.literal s), .atom (.literal t) =>
    ((s == ['-'] || s == ['#']) && (t == ['-'] || t == ['-', '-', '>'])) ||
      (s == ['@'] && t == ['-', '-', '>']) || (s == ['/'] && t == ['*', '=']) ||
      (s == ['|'] && (t == ['|', '='] || t == ['|', '|']))
  | _, _ => false

/-- Whether two neighbours among lexemes run together. -/
def runsTogether : List Lexeme → Bool
  | l :: l' :: ls => l.fuses l' || runsTogether (l' :: ls)
  | _ => false

/-- The lexemes that are no comments, with whitespace put together. -/
def uncommented (ls : List Lexeme) : List Lexeme := merged (ls.filter (!isCommentLexeme ·))

theorem uncommented_cons {l : Lexeme} (h : isCommentLexeme l = false) (ls : List Lexeme) :
    uncommented (l :: ls) = l.mergeOnto (uncommented ls) := by
  rw [uncommented, List.filter_cons_of_pos (by rw [h]; rfl)]
  rfl

theorem not_isWhitespace_of_isString {l : Lexeme} (h : l.isString = true) : l.isWhitespace = false := by
  cases l with
  | atom a =>
    cases a with
    | string value closed => rfl
    | _ => cases h
  | _ => cases h

theorem not_isComment_of_isString {l : Lexeme} (h : l.isString = true) :
    isCommentLexeme l = false := by
  cases l with
  | atom a =>
    cases a with
    | string value closed => rfl
    | _ => cases h
  | _ => cases h

theorem uncommented_string {l : Lexeme} (h : l.isString = true) (ls : List Lexeme) :
    uncommented (l :: ls) = l :: uncommented ls := by
  rw [uncommented_cons (not_isComment_of_isString h),
    mergeOnto_of_not_isWhitespace (not_isWhitespace_of_isString h)]

/-- Where a string comes first, or behind whitespace, it still does without the comments. -/
theorem StartsQuoted.uncommented {ls : List Lexeme} (h : StartsQuoted ls) :
    StartsQuoted (uncommented ls) := by
  cases ls with
  | nil => trivial
  | cons l ls =>
    rcases h with hl | ⟨hl, hnext⟩
    · rw [uncommented_string hl]
      exact .inl hl
    · obtain ⟨text, rfl⟩ := exists_of_isWhitespace hl
      rw [uncommented_cons rfl]
      cases ls with
      | nil =>
        show StartsQuoted (mergeOnto _ [])
        rw [mergeOnto_nil]
        exact .inr ⟨hl, fun _ h => nomatch h⟩
      | cons l' ls =>
        have hl' : l'.isString := hnext l' rfl
        rw [uncommented_string hl', mergeOnto_cons (not_isWhitespace_of_isString hl')]
        exact .inr ⟨hl, fun m hm => by
          obtain rfl : l' = m := Option.some.inj hm
          exact hl'⟩

/-- Two lexemes meet if they do not run together and a backslash has its line break behind it. -/
theorem meets_of_not_fuses {l l' : Lexeme} (h : l.fuses l' = false)
    (hw : l.isWhitespace = true → l'.isWhitespace = false)
    (hb : l = .atom (.literal ['\\']) → ∃ t, l' = .atom (.whitespace ('\n' :: t))) : l.Meets l' where
  whitespace t u hl hl' := by
    subst hl hl'
    exact absurd (hw rfl) (by simp [isWhitespace])
  number n hl := by
    subst hl
    constructor <;> intro hl' <;> subst hl' <;> simp [fuses] at h
  hyphen hl := by
    obtain rfl | rfl := hl <;> constructor <;> intro hl' <;> subst hl' <;> simp [fuses] at h
  at_sign hl hl' := by
    subst hl hl'
    simp [fuses] at h
  slash hl hl' := by
    subst hl hl'
    simp [fuses] at h
  bar hl := by
    subst hl
    constructor <;> intro hl' <;> subst hl' <;> simp [fuses] at h
  backslash := hb

theorem fuses_of_runsTogether {l l' : Lexeme} {ls : List Lexeme}
    (h : runsTogether (l :: l' :: ls) = false) :
    l.fuses l' = false ∧ runsTogether (l' :: ls) = false := by
  rwa [runsTogether, Bool.or_eq_false_iff] at h

theorem runsTogether_tail {l : Lexeme} {ls : List Lexeme} (h : runsTogether (l :: ls) = false) :
    runsTogether ls = false := by
  cases ls with
  | nil => rfl
  | cons l' ls => exact (fuses_of_runsTogether h).2

/-- Whitespace in front of the whitespace of a source is with it whitespace of a source. -/
theorem Sourced.whitespace_append {s t : List Char} {ls : List Lexeme}
    (hs : WellFormed (.atom (.whitespace s))) (h : Sourced (.atom (.whitespace t) :: ls)) :
    Sourced (.atom (.whitespace (s ++ t)) :: ls) := by
  obtain ⟨ht, hmeets, -, hls⟩ := h
  refine ⟨⟨?_, ?_⟩, fun l' hl' => ?_, nofun, hls⟩
  · exact List.append_ne_nil_of_left_ne_nil hs.1 t
  · exact List.forall_mem_append.mpr ⟨hs.2, ht.2⟩
  · have hw := (hmeets l' hl').whitespace t
    refine ⟨fun _ u _ => hw u rfl, nofun, ?_, nofun, nofun, nofun, nofun⟩
    rintro (h | h) <;> cases h

/-- Lexemes of a source are, without their comments, lexemes of a source again, as long as nothing
runs together. -/
theorem Sourced.uncommented {ls : List Lexeme} (h : Sourced ls)
    (hr : runsTogether (Lexeme.uncommented ls) = false) : Sourced (Lexeme.uncommented ls) := by
  induction ls with
  | nil => trivial
  | cons l ls ih =>
    obtain ⟨hwf, hmeets, hquoted, hls⟩ := h
    cases hl : isCommentLexeme l with
    | true =>
      have hskip : Lexeme.uncommented (l :: ls) = Lexeme.uncommented ls := by
        rw [Lexeme.uncommented, List.filter_cons_of_neg (by simp [hl])]
        rfl
      rw [hskip] at hr ⊢
      exact ih hls hr
    | false =>
      -- A backslash has a line break behind it, which no comment can take away.
      have hback : l = .atom (.literal ['\\']) → ∀ l' ∈ (Lexeme.uncommented ls).head?,
          ∃ t, l' = .atom (.whitespace ('\n' :: t)) := by
        intro hl l' hl'
        cases ls with
        | nil => cases hl'
        | cons m ls =>
          obtain ⟨t, rfl⟩ := (hmeets m rfl).backslash hl
          rw [uncommented_cons rfl] at hl'
          unfold mergeOnto at hl'
          split at hl'
          · next heq _ =>
            obtain rfl := Atom.whitespace.inj (Lexeme.atom.inj heq)
            exact ⟨_, (Option.some.inj hl').symm⟩
          · exact ⟨_, (Option.some.inj hl').symm⟩
      have hquoted' : ∀ name, l = .openFunction name → Text.asciiLower name = ['u', 'r', 'l'] →
          StartsQuoted (Lexeme.uncommented ls) :=
        fun name hname hlower => (hquoted name hname hlower).uncommented
      rw [uncommented_cons hl] at hr ⊢
      generalize Lexeme.uncommented ls = us at hr hback hquoted' ih ⊢
      unfold mergeOnto at hr ⊢
      split at hr
      -- Two pieces of whitespace that a comment kept apart become one.
      · next s t us =>
        refine Sourced.whitespace_append hwf (ih hls ?_)
        cases us with
        | nil => rfl
        | cons u us => exact hr
      · next hne =>
        refine ⟨hwf, fun l' hl' => ?_, hquoted', ih hls (runsTogether_tail hr)⟩
        cases us with
        | nil => cases hl'
        | cons u us =>
          obtain rfl : u = l' := Option.some.inj hl'
          refine meets_of_not_fuses (fuses_of_runsTogether hr).1 ?_ fun hl => hback hl u rfl
          intro hw
          refine Bool.eq_false_iff.mpr fun hu => ?_
          obtain ⟨s, rfl⟩ := exists_of_isWhitespace hw
          obtain ⟨t, rfl⟩ := exists_of_isWhitespace hu
          exact hne s t us rfl rfl

end Lexeme

/-! ## 4. Tokens of a source -/

namespace Token

theorem flat_of_isComment {t : Token} (h : t.isComment = true) :
    ∃ text, t = .atom (.comment text) := by
  cases t with
  | atom a =>
    cases a with
    | comment text => exact ⟨text, rfl⟩
    | _ => cases h
  | _ => cases h

mutual

theorem flat_withoutComments : ∀ {t : Token}, t.isComment = false →
    t.withoutComments.flat = t.flat.filter (!isCommentLexeme ·)
  | .atom a, h => by
    have ha : isCommentLexeme (.atom a) = false := by
      cases a <;> first | rfl | cases h
    simp [withoutComments, flat, ha]
  | .function name arguments, _ => by
    simp [withoutComments, flat, isCommentLexeme, listFlat_listWithoutComments arguments]
  | .block bracket content, _ => by
    simp [withoutComments, flat, isCommentLexeme, listFlat_listWithoutComments content]

/-- The lexemes of tokens without their comments are their lexemes without the comments. -/
theorem listFlat_listWithoutComments : ∀ ts : List Token,
    listFlat (listWithoutComments ts) = (listFlat ts).filter (!isCommentLexeme ·)
  | [] => rfl
  | t :: ts => by
    rw [listFlat, List.filter_append, listWithoutComments, ← listFlat_listWithoutComments ts]
    cases ht : t.isComment with
    | true =>
      obtain ⟨text, rfl⟩ := flat_of_isComment ht
      rfl
    | false => rw [← flat_withoutComments ht]; rfl

end

/-- Tokens of a source are, without their comments and with whitespace put together, tokens of a
source that are read back, unless something runs together or is misread. -/
theorem settled_listMerged {ts : List Token} (hs : Lexeme.Sourced (listFlat ts))
    (hshort : ∀ l ∈ listFlat ts, l.overlong? = none)
    (hr : Lexeme.runsTogether (listFlat (listMerged (listWithoutComments ts))) = false)
    (hm : listMisread (listMerged (listWithoutComments ts)) = false) :
    Settled (listMerged (listWithoutComments ts)) := by
  have hflat : listFlat (listMerged (listWithoutComments ts)) = Lexeme.uncommented (listFlat ts) := by
    rw [listFlat_listMerged, listFlat_listWithoutComments]
    rfl
  refine ⟨hflat ▸ hs.uncommented (hflat ▸ hr), hm, fun l hl => ?_⟩
  rw [listFlat_listMerged, listFlat_listWithoutComments] at hl
  obtain ⟨text, rfl⟩ | hmem := Lexeme.mem_merged hl
  · rfl
  · exact hshort l (List.mem_of_mem_filter hmem)

theorem joint_withoutComments (t : Token) : t.withoutComments.joint = t.joint := by
  cases t with
  | atom a => rfl
  | function name arguments => rfl
  | block b content => cases b <;> rfl

@[simp] theorem isLiteral_withoutComments (t : Token) (text : List Char) :
    t.withoutComments.isLiteral text = t.isLiteral text := by
  cases t <;> rfl

theorem startsWithBreak_withoutComments (t : Token) :
    t.withoutComments.startsWithBreak = t.startsWithBreak := by
  cases t <;> rfl

@[simp] theorem isComment_reread (t : Token) : t.reread.isComment = t.isComment := by
  cases t with
  | atom a => cases a <;> rfl
  | _ => rfl

/-- What tokens are read back as loses the comments that the writer put in. -/
theorem listWithoutComments_listReread_cons {t : Token} (h : t.isComment = false) (ts : List Token) :
    listWithoutComments (listReread (t :: ts)) =
      t.reread.withoutComments :: listWithoutComments (listReread ts) := by
  have hjoin : listWithoutComments (t.join ts) = [] := by
    cases ts with
    | nil => rfl
    | cons u us =>
      rw [join]
      split <;> rfl
  rw [listReread, listWithoutComments, isComment_reread, h, listWithoutComments_append, hjoin]
  rfl

theorem isComment_of_flat {t : Token} (h : ∀ l ∈ t.flat, isCommentLexeme l = false) :
    t.isComment = false := by
  refine Bool.eq_false_iff.mpr fun ht => ?_
  obtain ⟨text, rfl⟩ := flat_of_isComment ht
  cases h (.atom (.comment text)) List.mem_cons_self

theorem lastEndsInOpenString_listWithoutComments {ts : List Token} (h : listHasFault ts = false) :
    lastEndsInOpenString (listWithoutComments (listReread ts)) = false := by
  refine lastEndsInOpenString_eq_false (listHasFault_of_subset ?_ (faultless_listReread h))
  rw [listFlat_listWithoutComments]
  exact List.filter_subset_self _

mutual

/-- The writer keeps tokens apart by empty comments. Taken out again, they leave the text that was
written. -/
theorem written_withoutComments_reread : ∀ {t : Token}, (∀ l ∈ t.flat, isCommentLexeme l = false) →
    t.hasFault = false → t.reread.withoutComments.written = t.written
  | .atom a, _, _ => written_rereadAtom a
  | .function name arguments, hc, hf => by
    have harguments : ∀ l ∈ listFlat arguments, isCommentLexeme l = false :=
      fun l hl => hc l (List.mem_cons_of_mem _ (List.mem_append_left _ hl))
    rw [reread, withoutComments, written, written,
      listWritten_listWithoutComments_listReread harguments hf,
      lastEndsInOpenString_listWithoutComments hf, lastEndsInOpenString_eq_false hf]
  | .block b content, hc, hf => by
    have hcontent : ∀ l ∈ listFlat content, isCommentLexeme l = false :=
      fun l hl => hc l (List.mem_cons_of_mem _ (List.mem_append_left _ hl))
    rw [reread, withoutComments, written, written,
      listWritten_listWithoutComments_listReread hcontent hf]

/-- Without the comments that the writer put in, tokens that are read back are written as they were:
the writer puts them in again. -/
theorem listWritten_listWithoutComments_listReread : ∀ {ts : List Token},
    (∀ l ∈ listFlat ts, isCommentLexeme l = false) → listHasFault ts = false →
    listWritten (listWithoutComments (listReread ts)) = listWritten ts
  | [], _, _ => rfl
  | t :: ts, hc, hf => by
    rw [listFlat, List.forall_mem_append] at hc
    rw [listHasFault, Bool.or_eq_false_iff] at hf
    have hglue : t.reread.withoutComments.glueBefore (listWithoutComments (listReread ts)) =
        t.glueBefore ts := by
      cases ts with
      | nil => rfl
      | cons u us =>
        rw [listFlat, List.forall_mem_append] at hc
        rw [listWithoutComments_listReread_cons (isComment_of_flat hc.2.1), glueBefore, glueBefore,
          glue, joint_withoutComments, joint_withoutComments, isLiteral_withoutComments,
          startsWithBreak_withoutComments, ← glue, glue_reread]
    rw [listWithoutComments_listReread_cons (isComment_of_flat hc.1), listWritten, hglue,
      written_withoutComments_reread hc.1 hf.1,
      listWritten_listWithoutComments_listReread hc.2 hf.2, listWritten]

end

end Token

end Syntax

end CssExpand
