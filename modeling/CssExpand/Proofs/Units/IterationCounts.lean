import CssExpand.Proofs.Units.CountWords
import Mathlib

/-!
# Adding units to an animation

The counts of an animation are those of the texts of its layers (`countWords?_eq`). A text has the words
that its tokens have, unless something is lost where it is trimmed (`LayerStands`). So an animation has
the counts that it had, after units were added, if the count of each layer leads (`CountsLead`), and only
then (`withUnits_counts_iff`).
-/

set_option autoImplicit false

namespace CssExpand

open Syntax Value

/-! ## 1. The text of a layer -/

theorem exists_trim (ts : List Token) : ∃ front back, ts = front ++ Token.trim ts ++ back ∧
    (∀ t ∈ front, t.isWhitespace = true) ∧ ∀ t ∈ back, t.isWhitespace = true := by
  refine ⟨ts.takeWhile Token.isWhitespace,
    ((ts.dropWhile Token.isWhitespace).reverse.takeWhile Token.isWhitespace).reverse, ?_,
    fun t => List.mem_takeWhile_imp, fun t ht => List.mem_takeWhile_imp (List.mem_reverse.mp ht)⟩
  rw [List.append_assoc, Token.trim, ← List.reverse_append, List.takeWhile_append_dropWhile,
    List.reverse_reverse, List.takeWhile_append_dropWhile]

theorem glueBefore_of_whitespace {t : Token} (ht : t.isWhitespace = true) (us : List Token) :
    t.glueBefore us = [] := by
  cases t with
  | atom a =>
    cases a with
    | whitespace text =>
      cases us with
      | nil => rfl
      | cons u us =>
        exact glue_eq_nil (Joint.not_clash_left rfl (by simp [Token.joint, Atom.joint]) _) rfl
    | _ => cases ht
  | _ => cases ht

theorem glueBefore_whitespace {t : Token} (ht : t.isLiteral ['\\'] = false) {us : List Token}
    (hw : ∀ u ∈ us, u.isWhitespace = true) : t.glueBefore us = [] := by
  cases us with
  | nil => rfl
  | cons u us =>
    refine glue_eq_nil ?_ ht
    have hu := hw u List.mem_cons_self
    cases u with
    | atom a =>
      cases a with
      | whitespace text => exact Joint.not_clash_other t.joint
      | _ => cases hu
    | _ => cases hu

/-- Whitespace is written as blanks. -/
theorem isBlank_of_whitespace {ts : List Token} (hs : Token.Settled ts)
    (hw : ∀ t ∈ ts, t.isWhitespace = true) : ∀ c ∈ Token.listWritten ts, Text.isBlank c = true := by
  induction ts with
  | nil => exact fun c hc => nomatch hc
  | cons t ts ih =>
    rw [List.forall_mem_cons] at hw
    intro c hc
    rw [Token.listWritten, glueBefore_of_whitespace hw.1, List.append_nil, List.mem_append] at hc
    rcases hc with hc | hc
    · cases t with
      | atom a =>
        cases a with
        | whitespace text =>
          refine Bool.not_eq_false _ ▸ fun hblank => ?_
          have hspace := hs.sourced.1.2 c hc
          rw [isWhitespace_of_not_isBlank hblank] at hspace
          cases hspace
        | _ => cases hw.1
      | _ => cases hw.1
    · exact ih (hs.of_isInfix (List.suffix_cons t ts).isInfix) hw.2 c hc

theorem trim_append_blanks {front cs back : List Char} (hf : ∀ c ∈ front, Text.isBlank c = true)
    (hb : ∀ c ∈ back, Text.isBlank c = true) (h : Text.trim cs = cs) :
    Text.trim (front ++ cs ++ back) = cs := by
  obtain ⟨hfirst, hlast⟩ := ends_of_trim h
  have hback : ∀ c ∈ back.reverse, Text.isBlank c = true := fun c hc => hb c (List.mem_reverse.mp hc)
  rw [Text.trim, List.append_assoc, List.dropWhile_append_of_pos hf]
  cases cs with
  | nil => rw [List.nil_append, List.dropWhile_eq_nil_iff.mpr hb]; rfl
  | cons c cs =>
    have hfront : (c :: cs ++ back).dropWhile Text.isBlank = c :: cs ++ back :=
      dropWhile_eq_self hfirst
    rw [hfront, List.reverse_append, List.dropWhile_append_of_pos hback,
      dropWhile_eq_self (by rwa [List.head?_reverse]), List.reverse_reverse]

/-- The text of a layer is that of the tokens between the whitespace at its ends. -/
theorem trim_listWritten {front ts back : List Token} (hs : Token.Settled (front ++ ts ++ back))
    (hf : ∀ t ∈ front, t.isWhitespace = true) (hb : ∀ t ∈ back, t.isWhitespace = true)
    (h : IsTrimmed ts) :
    Text.trim (Token.listWritten (front ++ ts ++ back)) = Token.listWritten ts := by
  rw [listWritten_append, listWritten_append]
  · exact trim_append_blanks (isBlank_of_whitespace hs.left.left hf)
      (isBlank_of_whitespace hs.right hb) h.1
  · exact fun t ht => glueBefore_of_whitespace (hf t (List.mem_of_getLast? ht)) _
  · intro t ht
    refine glueBefore_whitespace ?_ hb
    rw [List.getLast?_append] at ht
    cases hlast : ts.getLast? with
    | some u =>
      rw [hlast] at ht
      obtain rfl := Option.some.inj ht
      exact h.2 u hlast
    | none =>
      rw [hlast] at ht
      have hspace := hf t (List.mem_of_getLast? ht)
      cases t with
      | atom a => cases a <;> first | rfl | cases hspace
      | _ => rfl

namespace UnitRule

theorem applyBut_whitespace_append (r : UnitRule) (count : Option String) {front : List Token}
    (hf : ∀ t ∈ front, t.isWhitespace = true) (ts : List Token) :
    r.applyBut count (front ++ ts) = front ++ r.applyBut count ts := by
  induction front with
  | nil => rfl
  | cons t front ih =>
    rw [List.forall_mem_cons] at hf
    obtain ⟨hcount, -, hplain, -⟩ := r.plain_of_separator count (.inl hf.1)
    rw [List.cons_append, applyBut_cons, hcount, if_neg Bool.false_ne_true, hplain, ih hf.2,
      List.cons_append]

theorem applyBut_append_whitespace (r : UnitRule) (count : Option String) (ts : List Token)
    {back : List Token} (hb : ∀ t ∈ back, t.isWhitespace = true) :
    r.applyBut count (ts ++ back) = r.applyBut count ts ++ back := by
  induction ts generalizing count with
  | nil =>
    have h := r.applyBut_whitespace_append count hb []
    rw [List.append_nil] at h
    exact h.trans (List.append_nil back)
  | cons t ts ih =>
    rw [List.cons_append, applyBut_cons, applyBut_cons]
    split
    · rw [← applyBut_none, ih none, applyBut_none, List.cons_append]
    · rw [ih count, List.cons_append]

end UnitRule

/-- The text of a layer. -/
def layerText (layer : List Token) : String := String.ofList (Text.trim (Token.listWritten layer))

/-- The words of a layer, as tokens. -/
def layerWords (layer : List Token) : List (List Token) :=
  Token.splitAt Token.isWhitespace (Token.trim layer)

/-- The iteration count of a layer that has any words. -/
def layerCount? (layer : String) : Option (Option String) :=
  match words layer with
  | [] => none
  | ws => some (Animation.ofWords ws).iterationCount

/-- The texts of a layer and of its words stand for their tokens. -/
structure LayerStands (layer : List Token) : Prop where
  settled : Token.Settled layer
  stands : Stands (Token.trim layer)
  words : ∀ word ∈ layerWords layer, IsTrimmed word

theorem Stands.areWords {ts : List Token} (h : Stands ts)
    (hw : ∀ word ∈ Token.splitAt Token.isWhitespace ts, IsTrimmed word) :
    AreWords (Token.splitAt Token.isWhitespace ts) := fun word hword =>
  ⟨h.of_isInfix (of_mem_splitAt hword).1 (hw word hword), (of_mem_splitAt hword).2⟩

theorem AreWords.wordsBut {ws : List (List Token)} (h : AreWords ws) (r : UnitRule)
    (count : Option String) : AreWords (r.wordsBut count ws) := by
  have hbut : ∀ word ∈ ws, ∀ c, Stands (r.applyBut c word) ∧
      ∀ t ∈ r.applyBut c word, t.isWhitespace = false := by
    refine fun word hword c => ⟨(h word hword).1.applyBut r c, fun t ht => ?_⟩
    rcases mem_mapBut ht with ⟨u, hu, rfl⟩ | ⟨u, hfind, rfl⟩
    · exact (r.isWhitespace_apply u).trans ((h word hword).2 u hu)
    · exact (h word hword).2 _ (List.mem_of_find?_eq_some hfind)
  intro word hword
  rcases mem_mapBut hword with ⟨word', hmem, rfl⟩ | ⟨word', hfind, rfl⟩
  · exact r.applyBut_none word' ▸ hbut word' hmem none
  · exact hbut word' (List.mem_of_find?_eq_some hfind) count

/-- The words of a text are the texts of its words. -/
theorem Stands.words_write {ts : List Token} (h : Stands ts)
    (hw : AreWords (Token.splitAt Token.isWhitespace ts)) : Value.words (Token.write ts) =
      ((Token.splitAt Token.isWhitespace ts).map Token.write).filter (!·.isEmpty) := by
  rw [Value.words, pieces, h.tokens_write]
  congr 1
  refine List.map_congr_left fun word hword => ?_
  rw [(hw word hword).1.trimmed.1, Token.write]

/-- The count of a text whose words stand for themselves. -/
theorem layerCount?_write {ts : List Token} (h : Stands ts)
    (hw : AreWords (Token.splitAt Token.isWhitespace ts)) : layerCount? (Token.write ts) =
      if (Token.splitAt Token.isWhitespace ts).all fun word => (Token.write word).isEmpty then none
      else some (countOf (Token.splitAt Token.isWhitespace ts)) := by
  have hwords := h.words_write hw
  -- the words that are left out are empty, and none of them is a count
  have hempty : AnimationWord.ofWord "" ≠ .iterationCount := by decide +kernel
  have hcount : (Animation.ofWords (words (Token.write ts))).iterationCount =
      countOf (Token.splitAt Token.isWhitespace ts) := by
    rw [Animation.iterationCount_ofWords, hwords, List.find?_filter, List.find?_map, countOf]
    congr 2
    funext word
    rw [Function.comp_apply, isCountWord]
    cases he : (Token.write word).isEmpty with
    | false => simp [beq_eq_decide]
    | true => rw [String.isEmpty_iff.mp he]; simpa using hempty
  rw [← hcount, layerCount?]
  split
  · next hnil =>
    rw [hwords, List.filter_eq_nil_iff, List.forall_mem_map] at hnil
    rw [if_pos (List.all_eq_true.mpr fun word hword => by simpa using hnil word hword)]
  · next hnil =>
    rw [if_neg]
    intro hall
    refine hnil ?_
    rw [hwords, List.filter_eq_nil_iff, List.forall_mem_map]
    exact fun word hword => by simpa using List.all_eq_true.mp hall word hword

/-- A word is empty with units if it is without. -/
theorem all_isEmpty_wordsBut {ws : List (List Token)} (h : AreWords ws) (r : UnitRule)
    (count : Option String) :
    ((r.wordsBut count ws).all fun word => (Token.write word).isEmpty) =
      ws.all fun word => (Token.write word).isEmpty := by
  have hkeep : ∀ word ∈ ws, ∀ c,
      (Token.write (r.applyBut c word)).isEmpty = (Token.write word).isEmpty := by
    intro word hword c
    have hnil := ((h word hword).1.padded r c).eq_nil_iff
    rw [Bool.eq_iff_iff, String.isEmpty_iff, String.isEmpty_iff, ← String.toList_eq_nil_iff,
      ← String.toList_eq_nil_iff, Token.write, Token.write, String.toList_ofList,
      String.toList_ofList, hnil]
  have hmap : (r.wordsBut count ws).map (fun word => (Token.write word).isEmpty) =
      ws.map fun word => (Token.write word).isEmpty :=
    map_mapBut (fun word hword => by rw [← r.applyBut_none]; exact hkeep word hword none)
      fun word hword => hkeep word hword count
  have hall := congrArg (List.all · id) hmap
  rwa [List.all_map, List.all_map] at hall

namespace LayerStands

variable {layer : List Token} (h : LayerStands layer)
include h

theorem layerText_eq : layerText layer = Token.write (Token.trim layer) := by
  obtain ⟨front, back, hlayer, hf, hb⟩ := exists_trim layer
  have hsettled := h.settled
  rw [hlayer] at hsettled
  rw [layerText]
  conv_lhs => rw [hlayer]
  rw [trim_listWritten hsettled hf hb h.stands.trimmed, Token.write]

/-- Whatever whitespace is at its ends, the text of a layer with units is that of what is between. -/
theorem layerText_applyBut (r : UnitRule) (count : Option String) :
    layerText (r.applyBut count layer) = Token.write (r.applyBut count (Token.trim layer)) := by
  obtain ⟨front, back, hlayer, hf, hb⟩ := exists_trim layer
  obtain ⟨marked, hm, heq⟩ := r.applyBut_eq_applyMarked count layer
  have hlifted := (hm.symm ▸ h.settled).lifted (r.lifts_applyMarked marked)
  have happend : r.applyBut count layer = front ++ r.applyBut count (Token.trim layer) ++ back := by
    conv_lhs => rw [hlayer, List.append_assoc]
    rw [r.applyBut_whitespace_append count hf, r.applyBut_append_whitespace count _ hb,
      List.append_assoc]
  rw [← heq, happend] at hlifted
  rw [layerText, happend, trim_listWritten hlifted hf hb (h.stands.applyBut r count).trimmed,
    Token.write]

theorem areWords : AreWords (layerWords layer) := h.stands.areWords h.words

theorem areWords_applyBut (r : UnitRule) (count : Option String) :
    AreWords (Token.splitAt Token.isWhitespace (r.applyBut count (Token.trim layer))) := by
  rw [r.splitAt_applyBut]
  exact h.areWords.wordsBut r count

/-- The count of a layer is that of its words. -/
theorem countOf_layerWords {count : Option String}
    (hcount : layerCount? (layerText layer) = some count) : countOf (layerWords layer) = count := by
  rw [h.layerText_eq, layerCount?_write h.stands h.areWords] at hcount
  split at hcount
  · cases hcount
  · exact Option.some.inj hcount

/-- A layer with units has a count if it has one without. -/
theorem layerCount?_applyBut (r : UnitRule) {count : Option String}
    (hcount : layerCount? (layerText layer) = some count) :
    layerCount? (layerText (r.applyBut count layer)) =
      some (countOf (r.wordsBut count (layerWords layer))) := by
  rw [h.layerText_eq, layerCount?_write h.stands h.areWords] at hcount
  rw [h.layerText_applyBut, layerCount?_write (h.stands.applyBut r count) (h.areWords_applyBut r count),
    r.splitAt_applyBut, ← UnitRule.wordsBut, ← layerWords, all_isEmpty_wordsBut h.areWords r count]
  split at hcount
  · cases hcount
  · next hfull => exact if_neg hfull

/-- A layer with units at all numbers but the count has the same count if that leads, and only then. -/
theorem countOf_wordsBut_iff {r : UnitRule} (hc : r.category ≠ .none) {count : Option String}
    (hcount : layerCount? (layerText layer) = some count) :
    countOf (r.wordsBut count (layerWords layer)) = count ↔ CountLeads (layerWords layer) := by
  obtain rfl := h.countOf_layerWords hcount
  exact CssExpand.countOf_wordsBut_iff h.areWords r hc

end LayerStands

/-! ## 2. Values -/

/-- The layers of a value and their words stand for themselves: comments aside, nothing in them is
misread, and nothing is trimmed off them. A layer is trimmed and written before it is read for its
count, and each word of it once more. -/
structure LayersStand (value : String) : Prop where
  settled : Token.Settled (tokens value)
  respelled : ∀ l ∈ Token.listFlat (Token.ofChars value.toList), l.reread = l
  trimmed : ∀ layer ∈ Token.splitAt Token.isComma (tokens value), IsTrimmed (Token.trim layer) ∧
    ∀ word ∈ layerWords layer, IsTrimmed word

/-- In every layer with a zero for its count, the first word with a number that is written like it is
that number alone. -/
def CountsLead (value : String) : Prop :=
  ∀ layer ∈ Token.splitAt Token.isComma (tokens value), CountLeads (layerWords layer)

instance (value : String) : Decidable (CountsLead value) :=
  inferInstanceAs (Decidable (∀ layer ∈ _, _))

/-- The words of one layer of a value stand where they are read. -/
theorem LayersStand.layerStands {value : String} (h : LayersStand value)
    (hf : Token.listHasFault (Token.ofChars value.toList) = false) {layer : List Token}
    (hlayer : layer ∈ Token.splitAt Token.isComma (tokens value)) : LayerStands layer := by
  have hinfix := (of_mem_splitAt hlayer).1
  have htrim := (trim_isInfix layer).trans hinfix
  have hflat := (Token.listFlat_isInfix htrim).subset
  have hsource : ∀ l ∈ Token.listFlat (Token.trim layer),
      l ∈ Token.listFlat (Token.ofChars value.toList) := fun l hl =>
    Token.mem_listFlat_listWithoutComments (hflat hl)
  obtain ⟨hlayertrim, hwords⟩ := h.trimmed layer hlayer
  exact ⟨h.settled.of_isInfix hinfix, ⟨h.settled.of_isInfix htrim,
    Token.listHasFault_of_subset hsource hf,
    fun l hl => Token.commentless_listWithoutComments (hflat hl),
    fun l hl => h.respelled l (hsource l hl), hlayertrim⟩, hwords⟩

theorem map_mapM {α β γ : Type} (f : β → γ) (g : α → Option β) (xs : List α) :
    (xs.mapM g).map (List.map f) = xs.mapM fun x => (g x).map f := by
  induction xs with
  | nil => rfl
  | cons x xs ih =>
    rw [List.mapM_cons, List.mapM_cons, ← ih]
    cases g x with
    | none => rfl
    | some y => cases xs.mapM g <;> rfl

theorem layersOf_animation (value : String) : Shorthand.animation.layersOf value = layers value :=
  rfl

/-- The counts of a value are those of its layers. -/
theorem countWords?_eq {value : String} (h : Text.isBlankText value = false) : countWords? value =
    ((Token.splitAt Token.isComma (tokens value)).map layerText).mapM layerCount? := by
  have hlayers : Shorthand.animation.layersOf value =
      (Token.splitAt Token.isComma (tokens value)).map layerText := by
    rw [layersOf_animation, layers, h, if_neg Bool.false_ne_true]
    rfl
  have hslot : ∀ layer, (Shorthand.animation.slotsOfLayer? layer).map
      (fun slots => slots[countSlot]?.join) = layerCount? layer := by
    intro layer
    rw [Shorthand.slotsOfLayer?, layerCount?]
    cases words layer with
    | nil => rfl
    | cons w ws => rfl
  rw [countWords?, Shorthand.layerSlots?, hlayers]
  split
  · next hnil => exact absurd (List.map_eq_nil_iff.mp hnil) (splitAt_ne_nil _ _)
  · rw [map_mapM]
    simp only [hslot]

/-- The layers with units have the same counts if these lead, and only then. -/
theorem mapM_layerCount?_iff {r : UnitRule} (hc : r.category ≠ .none) {ls : List (List Token)}
    (h : ∀ layer ∈ ls, LayerStands layer) {counts : List (Option String)}
    (hcounts : (ls.map layerText).mapM layerCount? = some counts) :
    ((r.applyLayers counts.head?.join counts.tail ls).map layerText).mapM layerCount? = some counts ↔
      ∀ layer ∈ ls, CountLeads (layerWords layer) := by
  induction ls generalizing counts with
  | nil => exact iff_of_true hcounts (List.forall_mem_nil _)
  | cons layer ls ih =>
    rw [List.forall_mem_cons] at h
    rw [List.map_cons, List.mapM_cons] at hcounts
    obtain ⟨count, hcount, hcounts⟩ := Option.bind_eq_some_iff.mp hcounts
    obtain ⟨later, hlater, heq⟩ := Option.bind_eq_some_iff.mp hcounts
    obtain rfl := Option.some.inj heq
    rw [List.forall_mem_cons, ← h.1.countOf_wordsBut_iff hc hcount, ← ih h.2 hlater,
      UnitRule.applyLayers, List.map_cons, List.mapM_cons, List.head?_cons, List.tail_cons,
      Option.join_some, h.1.layerCount?_applyBut r hcount]
    constructor
    · intro hall
      obtain ⟨_, ⟨⟩, hall⟩ := Option.bind_eq_some_iff.mp hall
      obtain ⟨later', hlater', heq⟩ := Option.bind_eq_some_iff.mp hall
      obtain ⟨hcount', rfl⟩ := List.cons.inj (Option.some.inj heq)
      exact ⟨hcount', hlater'⟩
    · rintro ⟨hcount', hlater'⟩
      rw [hcount', hlater']
      rfl

/-- The tokens of an animation, each with whether it is kept for a count. -/
def markedTokens (value : String) (counts : List (Option String)) : List (Token × Bool) :=
  (Token.ofChars value.toList).zip
    (markCounts counts.head?.join counts.tail (Token.ofChars value.toList))

theorem map_fst_markedTokens (value : String) (counts : List (Option String)) :
    (markedTokens value counts).map Prod.fst = Token.ofChars value.toList :=
  List.map_fst_zip (Nat.le_of_eq (length_markCounts ..).symm)

/-- Where a zero got a unit there is a digit, so the text is not blank. -/
theorem not_isBlankText_applyMarked {value : String} (h : ReadAgain value) {r : UnitRule}
    {marked : List (Token × Bool)} (hm : marked.map Prod.fst = Token.ofChars value.toList)
    (hany : r.anyUnmarked marked = true) :
    Text.isBlankText (Token.write (r.applyMarked marked)) = false := by
  have hzero : r.anyBareZero (Token.ofChars value.toList) = true :=
    hm ▸ UnitRule.anyBareZero_of_anyUnmarked hany
  have hdigit : ¬Digitless (Token.listWritten (Token.ofChars value.toList)) := by
    have hread := h.settled.ofChars_listWritten (Token.backslash_ofChars h.faultless)
    have hwritten : r.anyBareZero
        (Token.ofChars (Token.write (Token.ofChars value.toList)).toList) = true := by
      rw [Token.write, String.toList_ofList, hread, r.anyBareZero_listReread, hzero]
    have hno := not_digitless_of_anyBareZero hwritten
    rwa [Token.write, String.toList_ofList] at hno
  have hpadded := Lexeme.padded_text (lifts_marked r hm) h.settled.sourced
  rw [← Token.listWritten_eq _ h.settled.sourced,
    ← Token.listWritten_eq _ (h.settled_applyMarked r hm).sourced] at hpadded
  refine Bool.eq_false_iff.mpr fun hblank => hpadded.not_digitless hdigit ?_
  have hdigitless := digitless_of_isBlankText hblank
  rwa [Token.write, String.toList_ofList] at hdigitless

/-- The layers of an animation with units are its layers with units, each but for its count. -/
theorem splitAt_tokens_markedTokens {value : String} (h : ReadAgain value) (hl : LayersStand value)
    (r : UnitRule) (counts : List (Option String)) :
    Token.splitAt Token.isComma (tokens (Token.write (r.applyMarked (markedTokens value counts)))) =
      r.applyLayers counts.head?.join counts.tail (Token.splitAt Token.isComma (tokens value)) := by
  have hm := map_fst_markedTokens value counts
  rw [tokens, h.ofChars_applyMarked r hm, Token.listWithoutComments_listReread, markedTokens,
    r.splitAt_applyMarked]
  · rfl
  · exact Lexeme.reread_eq_of_lifts (lifts_marked r hm) hl.respelled

/-- A value without words has no counts. -/
theorem not_isBlankText_of_countWords? {value : String} {counts : List (Option String)}
    (h : countWords? value = some counts) : Text.isBlankText value = false := by
  refine Bool.eq_false_iff.mpr fun hblank => ?_
  rw [countWords?, Shorthand.layerSlots?, layersOf_animation, layers, hblank] at h
  cases h

/-- An animation with units has the iteration counts that it had if these lead, and only then. -/
theorem countWords?_markedTokens_iff {value : String} (h : ReadAgain value) (hl : LayersStand value)
    {r : UnitRule} (hc : r.category ≠ .none) {counts : List (Option String)}
    (hcounts : countWords? value = some counts)
    (hany : r.anyUnmarked (markedTokens value counts) = true) :
    countWords? (Token.write (r.applyMarked (markedTokens value counts))) = some counts ↔
      CountsLead value := by
  have hblank := not_isBlankText_applyMarked h (map_fst_markedTokens value counts) hany
  rw [countWords?_eq (not_isBlankText_of_countWords? hcounts)] at hcounts
  rw [countWords?_eq hblank, splitAt_tokens_markedTokens h hl]
  exact mapM_layerCount?_iff hc (fun layer hlayer => hl.layerStands h.faultless hlayer) hcounts

/-! ## 3. Adding units -/

/-- The value of a declaration after what is decided about it. -/
def Decision.valueAfter (value : String) : Decision → String
  | .replace [(_, value')] => value'
  | _ => value

/-- Adding units keeps the iteration count of every layer of an animation if in each layer whose count
is a zero the first word with a number that is written like it is that number alone. Where it is not, a
count is lost, unless the value is not changed at all.

The pass looks for the count by its text, in the tokens of the layer from left to right, and spares the
first number that reads like it. In `0/0 0` that is a number within another word. -/
theorem withUnits_counts_iff {ignored : Ignored} {prop value : String} {d : Decision}
    (ha : Text.lower prop = "animation")
    (hf : Token.listHasFault (Token.ofChars value.toList) = false)
    (hmisread : Token.listMisread (Token.ofChars value.toList) = false) (hl : LayersStand value)
    (h : (Revision.units ignored).run prop value = .ok d) :
    countWords? (d.valueAfter value) = countWords? value ↔
      (∃ reason, d = .keep reason) ∨ CountsLead value := by
  cases d with
  | keep reason => exact iff_of_true rfl (.inl ⟨reason, rfl⟩)
  | replace pairs =>
    obtain ⟨hc, -, haccepted, kept, hkept, hany, rfl⟩ := of_run_units_replace h
    rw [keptTokens?_of_animation ha] at hkept
    rw [ha] at hany
    obtain ⟨counts, hcounts, rfl⟩ := Option.map_eq_some_iff.mp hkept
    have hcategory : (UnitRule.ofProperty (Text.lower prop)).category ≠ .none := by
      rwa [UnitRule.ofProperty, UnitCategory.ofProperty_lower]
    rw [ha] at hcategory
    have hread : ReadAgain value := ⟨Token.settled_parse haccepted hf hmisread, hf⟩
    rw [hcounts, Decision.valueAfter, ha, ← markedTokens,
      countWords?_markedTokens_iff hread hl hcategory hcounts hany]
    refine ⟨.inr, fun hor => hor.resolve_left ?_⟩
    rintro ⟨reason, hreason⟩
    cases hreason

/-- The value of the test below, whose layers are `x 0 0` and `y`. -/
theorem layersStand_twoZeros : LayersStand "x 0 0,y" := by
  have htokens : tokens "x 0 0,y" = Token.ofChars "x 0 0,y".toList :=
    listWithoutComments_eq (by decide +kernel)
  refine ⟨?_, by decide +kernel, by decide +kernel⟩
  rw [htokens]
  exact Token.settled_parse (by decide +kernel) (by decide +kernel) (by decide +kernel)

/-- The first of two zeros is the count, and stays one. -/
theorem withUnits_counts_iff_twoZeros :
    Text.lower "animation" = "animation" ∧
      Token.listHasFault (Token.ofChars "x 0 0,y".toList) = false ∧
      Token.listMisread (Token.ofChars "x 0 0,y".toList) = false ∧ LayersStand "x 0 0,y" ∧
      (Revision.units .nothing).run "animation" "x 0 0,y" =
        .ok (.replace [("animation", "x 0 0s,y")]) ∧
      countWords? "x 0 0s,y" = countWords? "x 0 0,y" := by
  have ha : Text.lower "animation" = "animation" := by decide +kernel
  have hf : Token.listHasFault (Token.ofChars "x 0 0,y".toList) = false := by decide +kernel
  have hmisread : Token.listMisread (Token.ofChars "x 0 0,y".toList) = false := by decide +kernel
  have h : (Revision.units .nothing).run "animation" "x 0 0,y" =
      .ok (.replace [("animation", "x 0 0s,y")]) := by decide +kernel
  exact ⟨ha, hf, hmisread, layersStand_twoZeros, h,
    (withUnits_counts_iff ha hf hmisread layersStand_twoZeros h).mpr (.inr (by decide +kernel))⟩

/-- The first zero of `0/0` is kept in place of the count, which becomes a time. -/
theorem withUnits_loses_count :
    (Revision.units .nothing).run "animation" "0/0 0" =
        .ok (.replace [("animation", "0/0s 0s")]) ∧
      countWords? "0/0 0" = some [some "0"] ∧ countWords? "0/0s 0s" = some [none] :=
  ⟨by decide +kernel, by decide +kernel, by decide +kernel⟩

end CssExpand
