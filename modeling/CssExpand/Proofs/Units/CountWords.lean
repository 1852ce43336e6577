import CssExpand.Proofs.Longhands.Units
import CssExpand.Proofs.Units.Marked
import Mathlib

/-!
# The iteration count of a layer

The slots of an animation come from the words of its layers, as texts. The token that is kept for a
count comes from the tokens of the whole value: it is the first number of the layer that is written like
the count, wherever it stands. The two agree if in every layer whose count is a zero the first word with
such a number is that number alone (`CountLeads`), and only then: from any other word the zero of the
count would be a time (`countOf_wordsBut_iff`).

A layer with units is the layer with units at all tokens but one (`UnitRule.applyBut`), and so are its
words (`UnitRule.splitAt_applyBut`). What is left is a fact about lists: the first element of a kind is
still the first one if nothing becomes of that kind (`find?_mapBut`).
-/

set_option autoImplicit false

namespace CssExpand

open Syntax Value

/-! ## 1. All elements but one -/

section MapBut

variable {α β : Type} {p q : α → Bool} {f g : α → α}

/-- A list with its elements changed by `f`, but for the first that satisfies `p`, which `g` changes. -/
def mapBut (p : α → Bool) (f g : α → α) : List α → List α
  | [] => []
  | x :: xs => if p x then g x :: xs.map f else f x :: mapBut p f g xs

theorem mapBut_eq_map {xs : List α} (h : ∀ x ∈ xs, p x = true → g x = f x) :
    mapBut p f g xs = xs.map f := by
  induction xs with
  | nil => rfl
  | cons x xs ih =>
    rw [List.forall_mem_cons] at h
    rw [mapBut, List.map_cons, ih h.2]
    split
    · next hx => rw [h.1 hx]
    · rfl

theorem map_mapBut {k : α → β} {xs : List α} (hf : ∀ x ∈ xs, k (f x) = k x)
    (hg : ∀ x ∈ xs, k (g x) = k x) : (mapBut p f g xs).map k = xs.map k := by
  induction xs with
  | nil => rfl
  | cons x xs ih =>
    rw [List.forall_mem_cons] at hf hg
    rw [mapBut]
    split
    · rw [List.map_cons, List.map_cons, hg.1, List.map_map]
      congr 1
      exact List.map_congr_left fun y hy => hf.2 y hy
    · rw [List.map_cons, List.map_cons, hf.1, ih hf.2 hg.2]

/-- What comes out is `f` of an element, or `g` of the one element that is left out. -/
theorem mem_mapBut {xs : List α} {y : α} (h : y ∈ mapBut p f g xs) :
    (∃ x ∈ xs, y = f x) ∨ ∃ x, xs.find? p = some x ∧ y = g x := by
  induction xs with
  | nil => cases h
  | cons x xs ih =>
    rw [mapBut] at h
    split at h
    · next hx =>
      rcases List.mem_cons.mp h with rfl | h
      · exact .inr ⟨x, List.find?_cons_of_pos hx, rfl⟩
      · obtain ⟨z, hz, rfl⟩ := List.mem_map.mp h
        exact .inl ⟨z, List.mem_cons_of_mem x hz, rfl⟩
    · next hx =>
      rcases List.mem_cons.mp h with rfl | h
      · exact .inl ⟨x, List.mem_cons_self, rfl⟩
      · refine (ih h).imp (fun ⟨z, hz, hy⟩ => ⟨z, List.mem_cons_of_mem x hz, hy⟩) ?_
        exact fun ⟨z, hz, hy⟩ => ⟨z, by rw [List.find?_cons_of_neg hx, hz], hy⟩

/-- The first element that satisfies `q` stays the first one, if no other comes to satisfy it and it is
not changed itself. -/
theorem find?_mapBut {xs : List α} (hf : ∀ x ∈ xs, q (f x) = true → f x = x)
    (hq : ∀ x, xs.find? q = some x → p x = false → f x = x)
    (hp : ∀ x, xs.find? p = some x → q x = true ∧ g x = x) :
    (mapBut p f g xs).find? q = xs.find? q := by
  induction xs with
  | nil => rfl
  | cons x xs ih =>
    rw [List.forall_mem_cons] at hf
    cases hpx : p x with
    | true =>
      obtain ⟨hqx, hgx⟩ := hp x (List.find?_cons_of_pos hpx)
      rw [mapBut, if_pos hpx, hgx, List.find?_cons_of_pos hqx, List.find?_cons_of_pos hqx]
    | false =>
      rw [mapBut, if_neg (by simp [hpx])]
      cases hqx : q x with
      | true =>
        have hfx := hq x (List.find?_cons_of_pos hqx) hpx
        rw [hfx, List.find?_cons_of_pos hqx, List.find?_cons_of_pos hqx]
      | false =>
        have hqfx : q (f x) = false := by
          refine Bool.eq_false_iff.mpr fun hqfx => ?_
          rw [hf.1 hqfx, hqx] at hqfx
          cases hqfx
        have hneg : ∀ {r : α → Bool} {y : α}, r y = false → ¬ r y = true := fun h => by simp [h]
        rw [List.find?_cons_of_neg (hneg hqx)] at hq
        rw [List.find?_cons_of_neg (hneg hpx)] at hp
        rw [List.find?_cons_of_neg (hneg hqfx), List.find?_cons_of_neg (hneg hqx), ih hf.2 hq hp]

end MapBut

/-! ## 2. Layers and words of the tokens -/

namespace UnitRule

/-- The tokens of a layer with units, but for the first number that is written like the count. -/
def applyBut (r : UnitRule) (count : Option String) (ts : List Token) : List Token :=
  mapBut (Token.isWrittenAs count) r.apply id ts

/-- The layers of a value with units, each but for its count. -/
def applyLayers (r : UnitRule) : Option String → List (Option String) → List (List Token) →
    List (List Token)
  | _, _, [] => []
  | count, later, layer :: ls =>
    r.applyBut count layer :: r.applyLayers later.head?.join later.tail ls

theorem applyBut_cons (r : UnitRule) (count : Option String) (t : Token) (ts : List Token) :
    r.applyBut count (t :: ts) =
      if t.isWrittenAs count then t :: r.applyAll ts else r.apply t :: r.applyBut count ts := by
  rw [applyBut, mapBut, applyAll_eq_map]
  rfl

@[simp] theorem applyBut_none (r : UnitRule) (ts : List Token) :
    r.applyBut none ts = r.applyAll ts := by
  rw [applyBut, applyAll_eq_map]
  refine mapBut_eq_map fun t _ h => ?_
  cases t with
  | atom a => cases a <;> cases h
  | _ => cases h

/-- Leaving out the first token with a given text is marking that token. -/
theorem applyBut_eq_applyMarked (r : UnitRule) (count : Option String) (ts : List Token) :
    ∃ marked : List (Token × Bool), marked.map Prod.fst = ts ∧
      r.applyBut count ts = r.applyMarked marked := by
  induction ts with
  | nil => exact ⟨[], rfl, rfl⟩
  | cons t ts ih =>
    rw [applyBut_cons]
    split
    · refine ⟨(t, true) :: ts.map fun t => (t, false), ?_, ?_⟩
      · rw [List.map_cons, List.map_map]
        exact congrArg _ (List.map_id ts)
      · rw [applyAll_eq_map, applyMarked, List.map_cons, List.map_map]
        rfl
    · obtain ⟨marked, hm, heq⟩ := ih
      exact ⟨(t, false) :: marked, by rw [List.map_cons, hm], by rw [heq]; rfl⟩

theorem splitAt_cons_of_separates {separates : Token → Bool} {t : Token} (ht : separates t = true)
    (ts : List Token) : Token.splitAt separates (t :: ts) = [] :: Token.splitAt separates ts :=
  @splitAt_append separates [] t (List.forall_mem_nil _) ht ts

theorem isWrittenAs_withoutComments (count : Option String) (t : Token) :
    t.withoutComments.isWrittenAs count = t.isWrittenAs count := by
  cases t <;> rfl

/-- The layers of the tokens that got units are the layers with units, each but for its count. -/
theorem splitAt_applyMarked (r : UnitRule) (count : Option String) (later : List (Option String))
    (ts : List Token) :
    Token.splitAt Token.isComma
        (Token.listWithoutComments (r.applyMarked (ts.zip (markCounts count later ts)))) =
      r.applyLayers count later (Token.splitAt Token.isComma (Token.listWithoutComments ts)) := by
  induction ts generalizing count later with
  | nil => rfl
  | cons t ts ih =>
    rw [markCounts_cons, Token.listWithoutComments]
    cases hcomment : t.isComment with
    | true =>
      obtain ⟨hcount, -, hplain, -⟩ := r.plain_of_separator count (.inr (.inl hcomment))
      rw [isComma_of_isComment hcomment, hcount, if_neg Bool.false_ne_true, applyMarked_cons,
        if_neg Bool.false_ne_true, hplain, Token.listWithoutComments, hcomment, if_pos rfl,
        if_neg Bool.false_ne_true, ih, if_pos rfl]
    | false =>
      rw [if_neg Bool.false_ne_true]
      cases hcomma : t.isComma with
      | true =>
        obtain ⟨-, -, hplain, hbare⟩ := r.plain_of_separator count (.inr (.inr hcomma))
        have hsplit := splitAt_cons_of_separates hcomma
        rw [if_pos rfl, applyMarked_cons, if_neg Bool.false_ne_true, hplain,
          Token.listWithoutComments, hcomment, if_neg Bool.false_ne_true, hbare, hsplit, hsplit, ih,
          applyLayers]
        rfl
      | false =>
        have hcomma' : t.withoutComments.isComma = false := by
          cases t <;> exact hcomma
        -- the first layer of the rest, with the token at hand in front
        obtain ⟨layer, ls, hls, hcons⟩ := splitAt_cons Token.isComma hcomma'
          (Token.listWithoutComments ts)
        rw [if_neg Bool.false_ne_true, applyMarked_cons, hcons, applyLayers, applyBut_cons,
          isWrittenAs_withoutComments]
        cases hcount : t.isWrittenAs count with
        | true =>
          replace ih := ih none later
          rw [hls, applyLayers, applyBut_none] at ih
          rw [if_pos rfl, if_pos rfl, if_pos rfl, Token.listWithoutComments, hcomment,
            if_neg Bool.false_ne_true, Token.splitAt, ih, hcomma']
          rfl
        | false =>
          replace ih := ih count later
          rw [hls, applyLayers] at ih
          rw [if_neg Bool.false_ne_true, if_neg Bool.false_ne_true, if_neg Bool.false_ne_true,
            Token.listWithoutComments, isComment_apply, hcomment, if_neg Bool.false_ne_true,
            r.withoutComments_apply, Token.splitAt, ih, r.isComma_apply, hcomma']
          rfl

/-- The words of a layer with units are its words with units, but for the first with a number that is
written like the count. -/
theorem splitAt_applyBut (r : UnitRule) (count : Option String) (ts : List Token) :
    Token.splitAt Token.isWhitespace (r.applyBut count ts) =
      mapBut (·.any (Token.isWrittenAs count)) r.applyAll (r.applyBut count)
        (Token.splitAt Token.isWhitespace ts) := by
  induction ts with
  | nil => rfl
  | cons t ts ih =>
    rw [applyBut_cons]
    cases hspace : t.isWhitespace with
    | true =>
      obtain ⟨hcount, -, hplain, -⟩ := r.plain_of_separator count (.inl hspace)
      have hsplit := splitAt_cons_of_separates hspace
      rw [hcount, if_neg Bool.false_ne_true, hplain, hsplit, hsplit, ih]
      rfl
    | false =>
      -- if the count is here, all other words get units, and else whichever word it is in is kept
      obtain ⟨word, ws, hws, hcons⟩ := splitAt_cons Token.isWhitespace hspace ts
      rw [hcons, mapBut, List.any_cons]
      cases hcount : t.isWrittenAs count with
      | true =>
        have hall := r.splitAt_applyAll ts
        rw [hws, List.map_cons] at hall
        rw [if_pos rfl, Bool.true_or, if_pos rfl, Token.splitAt, hall, hspace, applyBut_cons, hcount]
        rfl
      | false =>
        rw [hws, mapBut] at ih
        rw [if_neg Bool.false_ne_true, Bool.false_or, applyBut_cons, hcount, if_neg Bool.false_ne_true]
        split
        · next hany =>
          rw [if_pos hany] at ih
          rw [Token.splitAt, ih, r.isWhitespace_apply, hspace]
          rfl
        · next hany =>
          rw [if_neg hany] at ih
          rw [Token.splitAt, ih, r.isWhitespace_apply, hspace]
          rfl

end UnitRule

/-! ## 3. Tokens that stand for themselves -/

mutual

/-- Taking comments out leaves none, at any depth. -/
theorem Syntax.Token.commentless_withoutComments : ∀ {t : Token}, t.isComment = false →
    ∀ l ∈ t.withoutComments.flat, isCommentLexeme l = false
  | .atom a, ht, l, h => by
    obtain rfl : l = .atom a := List.mem_singleton.mp h
    cases a with
    | comment text => cases ht
    | _ => rfl
  | .function name arguments, _, l, h => by
    rw [withoutComments, flat, List.mem_cons, List.mem_append, List.mem_singleton] at h
    rcases h with rfl | h | rfl
    · rfl
    · exact commentless_listWithoutComments h
    · rfl
  | .block bracket content, _, l, h => by
    rw [withoutComments, flat, List.mem_cons, List.mem_append, List.mem_singleton] at h
    rcases h with rfl | h | rfl
    · rfl
    · exact commentless_listWithoutComments h
    · rfl

theorem Syntax.Token.commentless_listWithoutComments : ∀ {ts : List Token} {l : Lexeme},
    l ∈ listFlat (listWithoutComments ts) → isCommentLexeme l = false
  | t :: ts, l, h => by
    rw [listWithoutComments] at h
    split at h
    · exact commentless_listWithoutComments h
    · next ht =>
      rw [listFlat, List.mem_append] at h
      rcases h with h | h
      · exact commentless_withoutComments (Bool.eq_false_iff.mpr ht) l h
      · exact commentless_listWithoutComments h

end

theorem Syntax.Lexeme.commentless_of_lifts {ls ms : List Lexeme} (h : List.Forall₂ Lifts ls ms)
    (hl : ∀ l ∈ ls, isCommentLexeme l = false) : ∀ m ∈ ms, isCommentLexeme m = false := by
  induction h with
  | nil => exact hl
  | cons hlift _ ih =>
    rw [List.forall_mem_cons] at hl ⊢
    refine ⟨?_, ih hl.2⟩
    cases hlift with
    | same => exact hl.1
    | unit => rfl

/-- Nothing is trimmed off the text of some tokens, and no backslash is alone at its end. -/
def IsTrimmed (ts : List Token) : Prop :=
  Text.trim (Token.listWritten ts) = Token.listWritten ts ∧
    ∀ t ∈ ts.getLast?, t.isLiteral ['\\'] = false

instance (ts : List Token) : Decidable (IsTrimmed ts) :=
  inferInstanceAs (Decidable (_ ∧ _))

/-- Tokens without comments whose text, alone, has just these tokens. For such tokens it does not
matter whether words are compared by their tokens or by their texts. -/
structure Stands (ts : List Token) : Prop where
  settled : Token.Settled ts
  faultless : Token.listHasFault ts = false
  commentless : ∀ l ∈ Token.listFlat ts, isCommentLexeme l = false
  respelled : ∀ l ∈ Token.listFlat ts, l.reread = l
  trimmed : IsTrimmed ts

namespace Stands

variable {ts us : List Token} (h : Stands ts)
include h

/-- A part stands for itself if nothing is trimmed off it. -/
theorem of_isInfix (hin : us <:+: ts) (ht : IsTrimmed us) : Stands us := by
  have hflat := (Token.listFlat_isInfix hin).subset
  exact ⟨h.settled.of_isInfix hin, Token.listHasFault_of_subset hflat h.faultless,
    fun l hl => h.commentless l (hflat hl), fun l hl => h.respelled l (hflat hl), ht⟩

theorem readBack : ReadBack (Token.write ts) := h.settled.readBack h.trimmed.2 h.faultless

theorem tokens_write : tokens (Token.write ts) = ts := by
  rw [tokens, Token.write, String.toList_ofList, h.settled.ofChars_listWritten h.trimmed.2,
    Token.listWithoutComments_listReread h.respelled, listWithoutComments_eq h.commentless]

theorem anyBareZero_ofChars (r : UnitRule) :
    r.anyBareZero (Token.ofChars (Token.write ts).toList) = r.anyBareZero ts := by
  rw [Token.write, String.toList_ofList, h.settled.ofChars_listWritten h.trimmed.2,
    r.anyBareZero_listReread]

theorem padded (r : UnitRule) (count : Option String) :
    Padded (Token.listWritten ts) (Token.listWritten (r.applyBut count ts)) := by
  obtain ⟨marked, rfl, heq⟩ := r.applyBut_eq_applyMarked count ts
  have hlifts := r.lifts_applyMarked marked
  rw [heq, Token.listWritten_eq _ h.settled.sourced,
    Token.listWritten_eq _ (h.settled.lifted hlifts).sourced]
  exact Lexeme.padded_text hlifts h.settled.sourced

/-- With units at all but one of its numbers, the text has these tokens with units. -/
theorem applyBut (r : UnitRule) (count : Option String) : Stands (r.applyBut count ts) := by
  have htrim := (h.padded r count).trim_eq h.trimmed.1
  obtain ⟨marked, rfl, heq⟩ := r.applyBut_eq_applyMarked count ts
  have hlifts := r.lifts_applyMarked marked
  rw [heq] at htrim ⊢
  exact ⟨h.settled.lifted hlifts, (Token.listHasFault_lifted hlifts).trans h.faultless,
    Lexeme.commentless_of_lifts hlifts h.commentless,
    Lexeme.reread_eq_of_lifts hlifts h.respelled, htrim, r.backslash_applyMarked h.trimmed.2⟩

theorem applyAll (r : UnitRule) : Stands (r.applyAll ts) := r.applyBut_none ts ▸ h.applyBut r none

end Stands

/-! ## 4. Words that are counts -/

/-- Whether the text of some tokens is a number of iterations. -/
def isCountWord (ts : List Token) : Bool := AnimationWord.ofWord (Token.write ts) == .iterationCount

/-- The slot of the count holds the first word that counts: a later one never takes its place. -/
theorem Animation.iterationCount_ofWords (ws : List String) :
    (ofWords ws).iterationCount = ws.find? fun w => AnimationWord.ofWord w == .iterationCount := by
  have hfold : ∀ a : Animation, (ws.foldl add a).iterationCount =
      a.iterationCount.or (ws.find? fun w => AnimationWord.ofWord w == .iterationCount) := by
    induction ws with
    | nil => exact fun a => (Option.or_none).symm
    | cons w ws ih =>
      intro a
      rw [List.foldl_cons, ih, add, List.find?_cons]
      cases AnimationWord.ofWord w with
      | iterationCount => cases a.iterationCount <;> rfl
      | time => cases a.duration <;> rfl
      | _ => rfl
  exact hfold {}

/-- A count is `infinite` or a number. -/
theorem of_isCountWord {ts : List Token} (h : isCountWord ts = true) :
    isOneOf ["infinite"] (Token.write ts) = true ∨ ∃ n, number? (Token.write ts) = some n := by
  have hcount : Animation.isCount (Token.write ts) = true := by
    rw [isCountWord, AnimationWord.ofWord] at h
    by_contra hno
    rw [Bool.not_eq_true] at hno
    rw [hno] at h
    revert h
    repeat' split
    all_goals simp_all
  rw [Animation.isCount, Bool.or_eq_true] at hcount
  refine hcount.imp_right fun hn => ?_
  cases hnumber : number? (Token.write ts) with
  | none =>
    rw [hnumber] at hn
    cases hn
  | some n => exact ⟨n, rfl⟩

theorem not_isOneOf_infinite {w : String} (h : ¬Digitless w.toList) : isOneOf ["infinite"] w = false :=
  isOneOf_eq_false (digitless_of_all (by decide +kernel)) h

section Words

variable {ts : List Token} (h : Stands ts) (hw : ∀ t ∈ ts, t.isWhitespace = false)
include h hw

/-- Tokens without whitespace are a number, as a word, if there is one of them and it is a number. -/
theorem number?_write_iff {n : Numeral} :
    number? (Token.write ts) = some n ↔ ts = [.atom (.number n)] := by
  have hsignificant : ts.filter Token.isSignificant = ts := by
    refine List.filter_eq_self.mpr fun t ht => ?_
    rw [Token.isSignificant, hw t ht, Bool.not_false, Bool.true_and, Bool.not_eq_true']
    cases t with
    | atom a =>
      cases a with
      | comment text =>
        cases h.commentless _ (Token.mem_listFlat ht (List.mem_singleton.mpr rfl))
      | _ => rfl
    | _ => rfl
  rw [number?, loneToken?, h.tokens_write, hsignificant]
  constructor
  · intro hn
    split at hn
    · next m hm =>
      obtain rfl := Option.some.inj hn
      split at hm
      · cases hm
      · next t => exact congrArg (fun t => [t]) (Option.some.inj hm)
      · cases hm
    · cases hn
  · rintro rfl
    rfl

/-- A count that would get a unit is a zero. -/
theorem isCountWord_cases (r : UnitRule) (hq : isCountWord ts = true) :
    r.anyBareZero ts = false ∨ ∃ n, ts = [.atom (.number n)] ∧ n.isZero = true := by
  rcases of_isCountWord hq with hinfinite | ⟨n, hn⟩
  · refine .inl (Bool.eq_false_iff.mpr fun hz => ?_)
    rw [← h.anyBareZero_ofChars] at hz
    rw [not_isOneOf_infinite (not_digitless_of_anyBareZero hz)] at hinfinite
    cases hinfinite
  · obtain rfl := (number?_write_iff h hw).mp hn
    cases hz : n.isZero with
    | true => exact .inr ⟨n, rfl, hz⟩
    | false =>
      refine .inl ?_
      rw [UnitRule.anyBareZero, UnitRule.hasBareZero, UnitRule.appliesTo, hz]
      rfl

/-- With units, nothing becomes a count. -/
theorem applyAll_of_isCountWord (r : UnitRule) (hq : isCountWord (r.applyAll ts) = true) :
    r.applyAll ts = ts := by
  rcases of_isCountWord hq with hinfinite | ⟨n, hn⟩
  · refine UnitRule.applyAll_eq_self (Bool.eq_false_iff.mpr fun hz => ?_)
    rw [← h.anyBareZero_ofChars] at hz
    have hdigit := not_digitless_of_anyBareZero hz
    have hpadded := h.padded r none
    rw [r.applyBut_none] at hpadded
    rw [Token.write, String.toList_ofList] at hdigit
    rw [not_isOneOf_infinite] at hinfinite
    · cases hinfinite
    · rw [Token.write, String.toList_ofList]
      exact hpadded.not_digitless hdigit
  · have hw' : ∀ t ∈ r.applyAll ts, t.isWhitespace = false := by
      rw [r.applyAll_eq_map, List.forall_mem_map]
      exact fun t ht => (r.isWhitespace_apply t).trans (hw t ht)
    have hone := (number?_write_iff (h.applyAll r) hw').mp hn
    rw [r.applyAll_eq_map, List.map_eq_singleton_iff] at hone
    obtain ⟨t, rfl, ht⟩ := hone
    rw [r.applyAll_eq_map, List.map_singleton]
    cases t with
    | atom a =>
      rcases r.apply_atom a with ha | ⟨m, rfl, -, ha⟩
      · rw [ha]
      · rw [ha] at ht
        cases ht
    | function name arguments =>
      obtain ⟨inner, ha⟩ := r.apply_function name arguments
      rw [ha] at ht
      cases ht
    | block b content =>
      obtain ⟨inner, ha⟩ := r.apply_block b content
      rw [ha] at ht
      cases ht

end Words

/-! ## 5. The count of a layer -/

/-- The iteration count of a layer with these words. -/
def countOf (ws : List (List Token)) : Option String := (ws.find? isCountWord).map Token.write

/-- If the count is a zero, the first word with a number that is written like it is that number alone. -/
def CountLeads (ws : List (List Token)) : Prop :=
  ∀ count ∈ countOf ws, isZero count = true →
    ∀ word ∈ ws.find? (·.any (Token.isWrittenAs (some count))), word.length = 1

instance (ws : List (List Token)) : Decidable (CountLeads ws) :=
  inferInstanceAs (Decidable (∀ count ∈ countOf ws, _ → _))

/-- Words that stand for themselves. -/
def AreWords (ws : List (List Token)) : Prop :=
  ∀ word ∈ ws, Stands word ∧ ∀ t ∈ word, t.isWhitespace = false

theorem Syntax.Token.write_number (n : Numeral) :
    write [.atom (.number n)] = String.ofList n.chars :=
  congrArg String.ofList (by simp [listWritten, glueBefore, written, Atom.written])

theorem Syntax.Token.of_isWrittenAs {count : Option String} {t : Token}
    (h : t.isWrittenAs count = true) :
    ∃ n, t = .atom (.number n) ∧ count = some (Token.write [t]) := by
  cases t with
  | atom a =>
    cases a with
    | number n =>
      refine ⟨n, rfl, ?_⟩
      rw [write_number]
      exact eq_of_beq h
    | _ => cases h
  | _ => cases h

/-- A number, written, is that number. -/
theorem tokens_write_number {ts : List Token} (h : Token.Settled ts) {n : Numeral}
    (hn : .atom (.number n) ∈ ts) :
    tokens (Token.write [.atom (.number n)]) = [.atom (.number n)] := by
  obtain ⟨front, back, rfl⟩ := List.append_of_mem hn
  have hsettled : Token.Settled [.atom (.number n)] := h.of_isInfix ⟨front, back, by simp⟩
  have hlast : ∀ t ∈ [Token.atom (.number n)].getLast?, t.isLiteral ['\\'] = false := by
    rintro _ ⟨⟩
    rfl
  rw [tokens, Token.write, String.toList_ofList, hsettled.ofChars_listWritten hlast]
  rfl

/-- The words of a layer with units, all but one number that is written like the count. -/
def UnitRule.wordsBut (r : UnitRule) (count : Option String) (ws : List (List Token)) :
    List (List Token) :=
  mapBut (·.any (Token.isWrittenAs count)) r.applyAll (r.applyBut count) ws

section Layer

variable {ws : List (List Token)} (h : AreWords ws) (r : UnitRule)
include h

/-- Where the count is no zero, or there is none, all words get units. -/
theorem wordsBut_of_not_isZero (hz : (countOf ws).all (!isZero ·) = true) :
    r.wordsBut (countOf ws) ws = ws.map r.applyAll := by
  -- a number that is written like the count is no zero, so to keep it or not is the same
  refine mapBut_eq_map fun word hword _ => ?_
  rw [r.applyAll_eq_map]
  refine mapBut_eq_map fun t ht hwritten => ?_
  obtain ⟨n, rfl, hcount⟩ := Token.of_isWrittenAs hwritten
  have htokens := tokens_write_number (h word hword).1.settled ht
  have hnonzero : n.isZero = false := by
    rw [hcount, Option.all_some, Bool.not_eq_true', isZero, number?, loneToken?, htokens] at hz
    exact hz
  rw [UnitRule.apply, UnitRule.appliesTo, hnonzero]
  rfl

/-- A count that is no zero, or none, is kept whatever else is. -/
theorem countOf_wordsBut_of_not_isZero (hz : (countOf ws).all (!isZero ·) = true) :
    countOf (r.wordsBut (countOf ws) ws) = countOf ws := by
  have hmap : r.wordsBut (countOf ws) ws = mapBut (fun _ => false) r.applyAll id ws :=
    (wordsBut_of_not_isZero h r hz).trans (mapBut_eq_map fun _ _ hno => by cases hno).symm
  rw [hmap, countOf, find?_mapBut]
  · rfl
  · exact fun word hword => applyAll_of_isCountWord (h word hword).1 (h word hword).2 r
  · intro word hfind _
    obtain ⟨hstands, hspaceless⟩ := h word (List.mem_of_find?_eq_some hfind)
    rcases isCountWord_cases hstands hspaceless r (List.find?_some hfind) with hno | ⟨n, rfl, hzero⟩
    · exact UnitRule.applyAll_eq_self hno
    · rw [countOf, hfind, Option.map_some, Option.all_some, isZero,
        (number?_write_iff hstands hspaceless).mpr rfl, Option.any_some, hzero] at hz
      cases hz
  · intro word hfind
    cases List.find?_some hfind

/-- A zero that leads is kept. -/
theorem countOf_wordsBut_of_leads (hleads : CountLeads ws) {count : String}
    (hcount : countOf ws = some count) (hz : isZero count = true) :
    countOf (r.wordsBut (some count) ws) = some count := by
  obtain ⟨first, hfirst, hwrite⟩ := Option.map_eq_some_iff.mp hcount
  have hfind : (r.wordsBut (some count) ws).find? isCountWord = ws.find? isCountWord := by
    -- nothing becomes a count, no count before the one that is kept is changed, and that one is not
    refine find?_mapBut ?_ ?_ ?_
    · exact fun word hword => applyAll_of_isCountWord (h word hword).1 (h word hword).2 r
    · intro word hfind hunwritten
      obtain ⟨hstands, hspaceless⟩ := h word (List.mem_of_find?_eq_some hfind)
      rcases isCountWord_cases hstands hspaceless r (List.find?_some hfind) with hno | ⟨n, rfl, -⟩
      · exact UnitRule.applyAll_eq_self hno
      · obtain rfl := Option.some.inj (hfirst.symm.trans hfind)
        rw [List.any_cons, Token.isWrittenAs, ← hwrite, Token.write_number, beq_self_eq_true]
          at hunwritten
        cases hunwritten
    · intro word hfind
      obtain ⟨t, rfl⟩ := List.length_eq_one_iff.mp (hleads count hcount hz word hfind)
      have hwritten : t.isWrittenAs (some count) = true := by
        simpa using List.find?_some hfind
      obtain ⟨n, rfl, heq⟩ := Token.of_isWrittenAs hwritten
      refine ⟨?_, ?_⟩
      · rw [isCountWord, ← Option.some.inj heq, ← hwrite]
        exact List.find?_some (p := isCountWord) hfirst
      · rw [UnitRule.applyBut_cons, if_pos hwritten]
        rfl
  rw [countOf, hfind, hfirst, Option.map_some, hwrite]

/-- A zero that does not lead is lost. -/
theorem leads_of_countOf_wordsBut (hc : r.category ≠ .none)
    (heq : countOf (r.wordsBut (countOf ws) ws) = countOf ws) : CountLeads ws := by
  intro count hcount hz word hword
  rw [hcount] at heq
  obtain ⟨kept, hkept, hwrite⟩ := Option.map_eq_some_iff.mp heq
  obtain ⟨n, hn, hzero⟩ : ∃ n, number? count = some n ∧ n.isZero = true := by
    rw [isZero] at hz
    cases hn : number? count with
    | none =>
      rw [hn] at hz
      cases hz
    | some n =>
      rw [hn] at hz
      exact ⟨n, rfl, hz⟩
  -- the count is one number when it is read again, so the word it is in is that number alone
  have hspaceless : ∀ word' ∈ ws, ∀ c, ∀ t ∈ r.applyBut c word', t.isWhitespace = false := by
    intro word' hmem c t ht
    rcases mem_mapBut ht with ⟨u, hu, rfl⟩ | ⟨u, hfind, rfl⟩
    · exact (r.isWhitespace_apply u).trans ((h word' hmem).2 u hu)
    · exact (h word' hmem).2 _ (List.mem_of_find?_eq_some hfind)
  have hnumber : ∀ word' ∈ ws, ∀ c, kept = r.applyBut c word' → kept = [.atom (.number n)] := by
    rintro word' hmem c rfl
    rw [← hwrite] at hn
    exact (number?_write_iff ((h word' hmem).1.applyBut r c) (hspaceless word' hmem c)).mp hn
  rcases mem_mapBut (List.mem_of_find?_eq_some hkept) with ⟨word', hmem, happly⟩ | ⟨word', hfind, hbut⟩
  · -- the zero would have got a unit
    have hsingle := hnumber word' hmem none (happly.trans (r.applyBut_none word').symm)
    have hdone := r.anyBareZero_applyAll word'
    rw [← happly, hsingle, UnitRule.anyBareZero, UnitRule.hasBareZero, UnitRule.appliesTo, hzero]
      at hdone
    simp [hc] at hdone
  · -- it is in the word in which a number was kept, and that word has as many tokens as before
    obtain rfl := Option.some.inj (hword.symm.trans hfind)
    have hsingle := hnumber word (List.mem_of_find?_eq_some hword) (some count) hbut
    have hshape : (r.applyBut (some count) word).map (fun _ => ()) = word.map fun _ => () :=
      map_mapBut (fun _ _ => rfl) fun _ _ => rfl
    have hlength := congrArg List.length hshape
    rw [List.length_map, List.length_map, ← hbut, hsingle] at hlength
    exact hlength.symm

/-- The count is kept if it leads, and only then. -/
theorem countOf_wordsBut_iff (hc : r.category ≠ .none) :
    countOf (r.wordsBut (countOf ws) ws) = countOf ws ↔ CountLeads ws := by
  refine ⟨leads_of_countOf_wordsBut h r hc, fun hleads => ?_⟩
  cases hz : (countOf ws).all (!isZero ·) with
  | true => exact countOf_wordsBut_of_not_isZero h r hz
  | false =>
    cases hcount : countOf ws with
    | none =>
      rw [hcount] at hz
      cases hz
    | some count =>
      rw [hcount, Option.all_some, Bool.not_eq_false'] at hz
      exact countOf_wordsBut_of_leads h r hleads hcount hz

end Layer

end CssExpand
