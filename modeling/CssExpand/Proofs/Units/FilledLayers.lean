import CssExpand.Proofs.Shorthand.SameSlots
import CssExpand.Proofs.Units.FilledRows
import CssExpand.Proofs.Units.SameKinds
import Mathlib

/-!
# Layers with units

What a value with units is read as, layer by layer and word by word. Where every bare zero gets a unit,
the words of each layer are those of the layer before, with units (`words_layers_fill`). An animation
keeps one number in each layer, and if it is written in rows whose counts lead, that number is the
word of the count: all other words get units (`CountsOnce.write_wordsBut`), and what is written is rows
again (`Value.InRows.write_markedTokens`).
-/

set_option autoImplicit false

namespace CssExpand

open Syntax Value

/-! ## 1. Layers that stand for themselves -/

/-- A word that stands for itself, with units, is written as its text with units. -/
theorem Stands.write_applyAll {word : List Token} (h : Stands word) (r : UnitRule) :
    Token.write (r.applyAll word) = r.fill (Token.write word) := by
  rw [UnitRule.fill, Token.write, Token.write, Token.write, String.toList_ofList,
    h.settled.ofChars_listWritten h.trimmed.2, r.listWritten_applyAll_listReread]

namespace LayerStands

variable {layer : List Token} (h : LayerStands layer)
include h

theorem words_layerText : Value.words (layerText layer) =
    ((layerWords layer).map Token.write).filter (!·.isEmpty) := by
  rw [h.layerText_eq, h.stands.words_write h.areWords, layerWords]

theorem words_applyBut (r : UnitRule) (count : Option String) :
    Value.words (layerText (r.applyBut count layer)) =
      ((r.wordsBut count (layerWords layer)).map Token.write).filter (!·.isEmpty) := by
  rw [h.layerText_applyBut, (h.stands.applyBut r count).words_write (h.areWords_applyBut r count),
    r.splitAt_applyBut, UnitRule.wordsBut, layerWords]

/-- The words of a layer with units are its words, with units. -/
theorem words_applyAll (r : UnitRule) : Value.words (layerText (r.applyAll layer)) =
    (Value.words (layerText layer)).map r.fill := by
  have hall : r.wordsBut none (layerWords layer) = (layerWords layer).map r.applyAll :=
    mapBut_eq_map fun word _ _ => r.applyBut_none word
  have hwrite : ((layerWords layer).map r.applyAll).map Token.write =
      ((layerWords layer).map Token.write).map r.fill := by
    rw [List.map_map, List.map_map]
    exact List.map_congr_left fun word hword => (h.areWords word hword).1.write_applyAll r
  rw [← r.applyBut_none, h.words_applyBut, hall, hwrite, h.words_layerText, List.filter_map]
  congr 1
  refine List.filter_congr fun w hw => ?_
  obtain ⟨word, hword, rfl⟩ := List.mem_map.mp hw
  rw [Function.comp_apply, (h.areWords word hword).1.readBack.isEmpty_fill]

theorem readBack_of_mem_words {w : String} (hw : w ∈ Value.words (layerText layer)) : ReadBack w := by
  rw [h.words_layerText] at hw
  obtain ⟨word, hword, rfl⟩ := List.mem_map.mp (List.mem_of_mem_filter hw)
  exact (h.areWords word hword).1.readBack

end LayerStands

/-! ## 2. Values with units at all zeros -/

theorem layers_eq {value : String} (h : Text.isBlankText value = false) :
    layers value = (Token.splitAt Token.isComma (tokens value)).map layerText := by
  rw [layers, h, if_neg Bool.false_ne_true]
  rfl

theorem UnitRule.applyLayers_nil (r : UnitRule) (ls : List (List Token)) :
    r.applyLayers none [] ls = ls.map r.applyAll := by
  induction ls with
  | nil => rfl
  | cons layer ls ih =>
    rw [applyLayers, applyBut_none, List.map_cons, ← ih]
    rfl

/-- Without counts no token is kept. -/
theorem markedTokens_nil (value : String) : markedTokens value [] =
    (Token.ofChars value.toList).zip ((Token.ofChars value.toList).map fun _ => false) := by
  have hmarks : ∀ ts : List Token, markCounts none [] ts = ts.map fun _ => false := by
    intro ts
    induction ts with
    | nil => rfl
    | cons t ts ih =>
      have hnone : t.isWrittenAs none = false := by
        cases t with
        | atom a => cases a <;> rfl
        | _ => rfl
      rw [markCounts_cons, hnone, if_neg Bool.false_ne_true, List.map_cons, ← ih]
      exact ite_self _
  exact congrArg (List.zip _) (hmarks _)

section Fill

variable {value : String} (h : ReadAgain value) (hl : LayersStand value) (r : UnitRule)
  (hany : r.anyBareZero (Token.ofChars value.toList) = true)
include h hl hany

/-- The layers of a value with units are its layers, with units. -/
theorem layers_fill : layers (r.fill value) =
    (Token.splitAt Token.isComma (tokens value)).map (layerText ∘ r.applyAll) := by
  have hm := map_fst_markedTokens value []
  obtain ⟨hunmarked, hfill⟩ := r.unmarked (Token.ofChars value.toList)
  rw [← markedTokens_nil] at hunmarked hfill
  have hblank := not_isBlankText_applyMarked h hm (hunmarked.trans hany)
  have hsplit := splitAt_tokens_markedTokens h hl r []
  rw [hfill, ← UnitRule.fill] at hblank hsplit
  rw [layers_eq hblank, hsplit, ← List.map_map]
  exact congrArg (List.map layerText) (r.applyLayers_nil _)

theorem words_layers_fill : (layers (r.fill value)).map words =
    (layers value).map fun layer => (words layer).map r.fill := by
  have hblank : Text.isBlankText value = false := Bool.eq_false_iff.mpr fun hblank =>
    not_digitless_of_anyBareZero hany (digitless_of_isBlankText hblank)
  rw [layers_fill h hl r hany, layers_eq hblank, List.map_map, List.map_map]
  exact List.map_congr_left fun layer hlayer =>
    (hl.layerStands h.faultless hlayer).words_applyAll r

theorem readBack_layers_fill : ∀ layer ∈ layers (r.fill value),
    ReadBack layer ∧ ∀ w ∈ words layer, ReadBack w := by
  intro text htext
  rw [layers_fill h hl r hany] at htext
  obtain ⟨layer, hlayer, rfl⟩ := List.mem_map.mp htext
  rw [Function.comp_apply, ← r.applyBut_none]
  exact (hl.layerStands h.faultless hlayer).readBack_applyBut r none

end Fill

theorem LayersStand.readBack_of_mem_words {value : String} (hl : LayersStand value)
    (hf : Token.listHasFault (Token.ofChars value.toList) = false) :
    ∀ layer ∈ layers value, ∀ w ∈ words layer, ReadBack w := by
  intro text htext w hw
  rw [layers] at htext
  split at htext
  · cases htext
  · obtain ⟨layer, hlayer, rfl⟩ := List.mem_map.mp htext
    exact (hl.layerStands hf hlayer).readBack_of_mem_words hw

/-! ## 3. Rows with a number that is kept -/

theorem mapBut_append {α : Type} (p : α → Bool) (f g : α → α) (xs ys : List α) :
    mapBut p f g (xs ++ ys) =
      if xs.any p then mapBut p f g xs ++ ys.map f else xs.map f ++ mapBut p f g ys := by
  induction xs with
  | nil => rfl
  | cons x xs ih =>
    rw [List.cons_append, mapBut, mapBut, List.any_cons, List.map_cons]
    cases p x with
    | true => simp
    | false =>
      rw [Bool.false_or, if_neg Bool.false_ne_true, if_neg Bool.false_ne_true, ih]
      split <;> rfl

namespace Value

theorem separated_cons {s : Token} (chunk : List Token) {chunks : List (List Token)}
    (h : chunks ≠ []) : separated s (chunk :: chunks) = chunk ++ s :: separated s chunks := by
  obtain ⟨c, cs, rfl⟩ := List.exists_cons_of_ne_nil h
  rw [separated, separated, List.flatMap_cons, List.cons_append]

end Value

namespace UnitRule

variable {count : Option String}

theorem applyBut_append (r : UnitRule) (count : Option String) (as bs : List Token) :
    r.applyBut count (as ++ bs) = if as.any (Token.isWrittenAs count)
      then r.applyBut count as ++ r.applyAll bs else r.applyAll as ++ r.applyBut count bs := by
  rw [applyBut, mapBut_append, applyAll_eq_map, applyAll_eq_map]
  rfl

theorem wordsBut_ne_nil (r : UnitRule) {chunks : List (List Token)} (h : chunks ≠ []) :
    r.wordsBut count chunks ≠ [] := by
  obtain ⟨c, cs, rfl⟩ := List.exists_cons_of_ne_nil h
  rw [wordsBut, mapBut]
  split <;> exact List.cons_ne_nil _ _

/-- Between separators the number that is kept is in one of the chunks. -/
theorem applyBut_separated (r : UnitRule) {s : Token} (hs : s.isWrittenAs count = false)
    (ha : r.apply s = s) (chunks : List (List Token)) :
    r.applyBut count (separated s chunks) = separated s (r.wordsBut count chunks) := by
  induction chunks with
  | nil => rfl
  | cons c cs ih =>
    by_cases hne : cs = []
    · subst hne
      have hone : ∀ c, separated s [c] = c := fun c => List.append_nil c
      rw [wordsBut, mapBut, hone]
      split
      · rw [List.map_nil, hone]
      · next hno =>
        have hrest := r.applyBut_append count c []
        rw [if_neg hno, List.append_nil] at hrest
        rw [hrest, mapBut, hone]
        exact List.append_nil _
    · rw [separated_cons c hne, applyBut_append, wordsBut, mapBut, applyBut_cons, hs,
        if_neg Bool.false_ne_true, ih, ha, applyAll, ha, applyAll_separated r ha]
      split
      · rw [separated_cons _ (by simpa using hne)]
      · rw [← separated_cons _ (r.wordsBut_ne_nil hne), wordsBut]

/-- The number that is kept is in front of the first comma. -/
theorem applyMarked_append (r : UnitRule) {later : List (Option String)} {chunk : List Token}
    (hc : ∀ t ∈ chunk, t.isComma = false) (rest : List Token) :
    r.applyMarked ((chunk ++ rest).zip (markCounts count later (chunk ++ rest))) =
      r.applyBut count chunk ++ r.applyMarked (rest.zip
        (markCounts (if chunk.any (Token.isWrittenAs count) then none else count) later rest)) := by
  induction chunk generalizing count with
  | nil => rfl
  | cons t chunk ih =>
    rw [List.forall_mem_cons] at hc
    rw [List.cons_append, markCounts_cons, hc.1, if_neg Bool.false_ne_true, applyMarked_cons, ih hc.2,
      applyBut_cons, List.any_cons]
    cases t.isWrittenAs count with
    | true => simp [applyBut_none]
    | false => simp

/-- Layers between commas keep their counts one by one. -/
theorem applyMarked_separated (r : UnitRule) {later : List (Option String)}
    {chunks : List (List Token)} (hc : ∀ c ∈ chunks, ∀ t ∈ c, t.isComma = false) :
    r.applyMarked ((separated commaToken chunks).zip
        (markCounts count later (separated commaToken chunks))) =
      separated commaToken (r.applyLayers count later chunks) := by
  induction chunks generalizing count later with
  | nil => rfl
  | cons c cs ih =>
    rw [List.forall_mem_cons] at hc
    by_cases hne : cs = []
    · subst hne
      exact r.applyMarked_append hc.1 []
    · have hne' : r.applyLayers later.head?.join later.tail cs ≠ [] := by
        obtain ⟨d, ds, rfl⟩ := List.exists_cons_of_ne_nil hne
        exact List.cons_ne_nil _ _
      rw [separated_cons c hne, r.applyMarked_append hc.1, applyLayers, separated_cons _ hne',
        ← ih hc.2]
      rfl

/-- Layers with a count each. -/
theorem applyLayers_map (r : UnitRule) {α : Type} (countFor : α → Option String)
    (layer : α → List Token) (rows : List α) :
    r.applyLayers (rows.map countFor).head?.join (rows.map countFor).tail (rows.map layer) =
      rows.map fun row => r.applyBut (countFor row) (layer row) := by
  induction rows with
  | nil => rfl
  | cons row rows ih =>
    rw [List.map_cons, List.map_cons, applyLayers, List.map_cons, List.head?_cons, List.tail_cons,
      Option.join_some, ih]

end UnitRule

/-! ## 4. Rows of an animation -/

theorem Value.IsWord.stands {w : String} (h : IsWord w) (hi : checkIntegers w = .ok ()) :
    Stands (Token.ofChars w.toList) where
  settled := (h.readBack hi).settled
  faultless := h.faultless
  commentless _ hl := Token.commentless_listWithoutComments (h.commentless.symm ▸ hl)
  respelled := (h.readBack hi).reread_eq
  trimmed := isTrimmed_of_isWord h

theorem areWords_rowWords {row : List String}
    (h : ∀ w ∈ row, IsWord w ∧ checkIntegers w = .ok ()) : AreWords (rowWords row) := by
  rw [AreWords, rowWords, List.forall_mem_map]
  exact fun w hw => ⟨(h w hw).1.stands (h w hw).2, fun t ht =>
    not_isWhitespace ((h w hw).1.significant t ht)⟩

/-- A word with units, unless it is an iteration count. -/
def UnitRule.fillBut (r : UnitRule) (w : String) : String :=
  if AnimationWord.ofWord w = .iterationCount then w else r.fill w

/-- The layers of rows, with a number kept in each of them. -/
theorem applyLayers_layerTokens (r : UnitRule) (countFor : List String → Option String)
    (rows : List (List String)) :
    r.applyLayers (rows.map countFor).head?.join (rows.map countFor).tail (layerTokens rows) =
      layerPieces (rows.map fun row => r.wordsBut (countFor row) (rowWords row)) := by
  cases rows with
  | nil => rfl
  | cons row rows =>
    have hrow : ∀ row, r.applyBut (countFor row) (rowTokens row) =
        separated spaceToken (r.wordsBut (countFor row) (rowWords row)) := fun row =>
      r.applyBut_separated rfl rfl _
    have hspace : ∀ row, r.applyBut (countFor row) (spaceToken :: rowTokens row) =
        spaceToken :: separated spaceToken (r.wordsBut (countFor row) (rowWords row)) := fun row => by
      rw [r.applyBut_cons, ← hrow]
      rfl
    rw [List.map_cons, layerTokens, UnitRule.applyLayers, List.head?_cons, List.tail_cons,
      Option.join_some, r.applyLayers_map, List.map_cons, layerPieces, List.map_map, hrow]
    congr 1
    exact List.map_congr_left fun row _ => hspace row

/-- Rows with a number kept in each of them are written as rows. -/
theorem Value.InRows.write_markedTokens {value : String} {rows : List (List String)}
    (h : InRows value rows) (hl : ∀ row ∈ rows, IsLayer row) (r : UnitRule)
    (countFor : List String → Option String) :
    Token.write (r.applyMarked (markedTokens value (rows.map countFor))) =
      layered (rows.map fun row => (r.wordsBut (countFor row) (rowWords row)).map Token.write) := by
  have hplain : ∀ row ∈ rows.map fun row => r.wordsBut (countFor row) (rowWords row),
      ∀ word ∈ row, EndsPlain word := by
    rw [List.forall_mem_map]
    intro row hrow word hword
    exact ((areWords_rowWords (h.words row hrow)).wordsBut r _ word hword).1.trimmed.2
  rw [markedTokens, h.ofChars, r.applyMarked_separated (commaless_layerTokens hl),
    applyLayers_layerTokens, write_layerPieces hplain, List.map_map]
  rfl

/-- The words of layers with a number kept in each of them. -/
theorem words_applyLayers (r : UnitRule) (countFor : List String → Option String)
    {ls : List (List Token)} {rows : List (List String)} (h : ∀ layer ∈ ls, LayerStands layer)
    (hwords : ls.map layerWords = rows.map rowWords) :
    ((r.applyLayers (rows.map countFor).head?.join (rows.map countFor).tail ls).map layerText).map
        Value.words =
      rows.map fun row =>
        ((r.wordsBut (countFor row) (rowWords row)).map Token.write).filter (!·.isEmpty) := by
  induction ls generalizing rows with
  | nil =>
    obtain rfl := List.map_eq_nil_iff.mp hwords.symm
    rfl
  | cons layer ls ih =>
    obtain ⟨row, rows, rfl, hrow, hrows⟩ := List.map_eq_cons_iff.mp hwords.symm
    rw [List.forall_mem_cons] at h
    rw [List.map_cons, UnitRule.applyLayers, List.head?_cons, List.tail_cons, Option.join_some,
      List.map_cons, List.map_cons, List.map_cons, h.1.words_applyBut, ← hrow, ih h.2 hrows.symm]

/-! ## 5. The word that is kept -/

/-- A row of words with one iteration count among them. -/
structure CountsOnce (front : List String) (count : String) (back : List String) : Prop where
  words : ∀ w ∈ front ++ count :: back, IsWord w ∧ checkIntegers w = .ok ()
  count : AnimationWord.ofWord count = .iterationCount
  others : ∀ w ∈ front ++ back, AnimationWord.ofWord w ≠ .iterationCount

namespace CountsOnce

variable {front back : List String} {count : String} (h : CountsOnce front count back)
include h

theorem written : ∀ w ∈ front ++ count :: back, Token.write (Token.ofChars w.toList) = w :=
  fun w hw => ((h.words w hw).1.readBack (h.words w hw).2).written

omit h in
theorem rowWords_eq : rowWords (front ++ count :: back) =
    rowWords front ++ Token.ofChars count.toList :: rowWords back := by
  rw [rowWords, List.map_append, List.map_cons]
  rfl

theorem isCountWord : isCountWord (Token.ofChars count.toList) = true := by
  rw [CssExpand.isCountWord, h.written count (by simp), h.count]
  rfl

theorem countOf_eq : countOf (rowWords (front ++ count :: back)) = some count := by
  have hnone : (rowWords front).find? CssExpand.isCountWord = none := by
    rw [List.find?_eq_none, rowWords, List.forall_mem_map]
    intro w hw
    rw [CssExpand.isCountWord, h.written w (List.mem_append_left _ hw), beq_iff_eq]
    exact h.others w (List.mem_append_left _ hw)
  rw [countOf, rowWords_eq, List.find?_append, hnone, Option.none_or,
    List.find?_cons_of_pos h.isCountWord, Option.map_some, h.written count (by simp)]

/-- The count is a number if it is read as one. -/
theorem number?_iff {n : Numeral} :
    number? count = some n ↔ Token.ofChars count.toList = [.atom (.number n)] := by
  obtain ⟨hstands, hspaceless⟩ := areWords_rowWords h.words (Token.ofChars count.toList)
    (by simp [rowWords])
  have hnumber := number?_write_iff hstands hspaceless (n := n)
  rwa [h.written count (by simp)] at hnumber

/-- A count that is no zero has no place for a unit. -/
theorem applyAll_of_not_isZero (r : UnitRule) (hz : isZero count = false) :
    r.applyAll (Token.ofChars count.toList) = Token.ofChars count.toList := by
  obtain ⟨hstands, hspaceless⟩ := areWords_rowWords h.words (Token.ofChars count.toList)
    (by simp [rowWords])
  rcases isCountWord_cases hstands hspaceless r h.isCountWord with hno | ⟨n, hn, hzero⟩
  · exact UnitRule.applyAll_eq_self hno
  · rw [isZero, h.number?_iff.mpr hn, Option.any_some, hzero] at hz
    cases hz

/-- The first word with a number like a count that leads is that count. -/
theorem front_unwritten (hleads : CountLeads (rowWords (front ++ count :: back)))
    (hz : isZero count = true) :
    (rowWords front).any (·.any (Token.isWrittenAs (some count))) = false := by
  refine Bool.eq_false_iff.mpr fun hany => ?_
  obtain ⟨word, hfind⟩ := Option.isSome_iff_exists.mp
    (List.find?_isSome.mpr (List.any_eq_true.mp hany))
  have hfirst := hleads count h.countOf_eq hz word
    (by rw [rowWords_eq, List.find?_append, hfind]; rfl)
  obtain ⟨t, rfl⟩ := List.length_eq_one_iff.mp hfirst
  obtain ⟨w, hw, hword⟩ := List.mem_map.mp (List.mem_of_find?_eq_some hfind)
  obtain ⟨-, -, htext⟩ := Token.of_isWrittenAs (t := t) (by simpa using List.find?_some hfind)
  rw [← hword, h.written w (List.mem_append_left _ hw)] at htext
  exact h.others w (List.mem_append_left _ hw) (Option.some.inj htext ▸ h.count)

/-- Where the count leads, all words but the count get units. -/
theorem wordsBut_eq (r : UnitRule) (hleads : CountLeads (rowWords (front ++ count :: back))) :
    r.wordsBut (some count) (rowWords (front ++ count :: back)) =
      (rowWords front).map r.applyAll ++ Token.ofChars count.toList ::
        (rowWords back).map r.applyAll := by
  cases hz : isZero count with
  | false =>
    rw [← h.countOf_eq, wordsBut_of_not_isZero (areWords_rowWords h.words) r
      (by rw [h.countOf_eq, Option.all_some, hz]; rfl), rowWords_eq, List.map_append, List.map_cons,
      h.applyAll_of_not_isZero r hz]
  | true =>
    obtain ⟨n, hn, -⟩ := (Option.any_eq_true _ _).mp hz
    have htokens := h.number?_iff.mp hn
    have hwritten : (Token.atom (.number n)).isWrittenAs (some count) = true := by
      have htext := h.written count (by simp)
      rw [htokens, Token.write_number] at htext
      rw [Token.isWrittenAs, htext, beq_self_eq_true]
    rw [rowWords_eq, UnitRule.wordsBut, mapBut_append, h.front_unwritten hleads hz,
      if_neg Bool.false_ne_true, mapBut, htokens, List.any_cons, hwritten, Bool.true_or, if_pos rfl,
      r.applyBut_cons, if_pos hwritten, UnitRule.applyAll]

theorem write_wordsBut (r : UnitRule) (hleads : CountLeads (rowWords (front ++ count :: back))) :
    (r.wordsBut (some count) (rowWords (front ++ count :: back))).map Token.write =
      (front ++ count :: back).map r.fillBut := by
  have hothers := List.forall_mem_append.mp h.others
  have hfill : ∀ ws : List String, (∀ w ∈ ws, AnimationWord.ofWord w ≠ .iterationCount) →
      ((rowWords ws).map r.applyAll).map Token.write = ws.map r.fillBut := by
    intro ws hws
    rw [rowWords, List.map_map, List.map_map]
    exact List.map_congr_left fun w hw => (if_neg (hws w hw)).symm
  have hkept : r.fillBut count = count := if_pos h.count
  rw [h.wordsBut_eq r hleads, List.map_append, List.map_cons, h.written count (by simp),
    hfill front hothers.1, hfill back hothers.2, List.map_append, List.map_cons, hkept]

end CountsOnce

end CssExpand
