import CssExpand.Proofs.Units.FilledLayers
import Mathlib

/-!
# Completed values with units

A completed value is written in rows of words, one for each layer, and with units it is the rows of
these words with units (`Completes.fill`, `Completes.fillBut`). A word is of the same kind with its
units, except for a zero, which is no time and no length for some shorthands before it has one. So it is
enough to look where zeros can be: not in the row of a completed transition, unless a zero is its
property (`Completes.not_isZero_transition`), and in the row of a completed animation only as its count,
which is kept. A value that is not completed has its words in layers as it stands (`WordsStand`), and
is no more completed with units than without (`complete_fill_eq_none`).
-/

set_option autoImplicit false

namespace CssExpand

open Syntax Value

/-! ## 1. Words without overlong integers -/

theorem Value.IsWord.checkIntegers_iff {w : String} (h : IsWord w) : checkIntegers w = .ok () ↔
    ∀ l ∈ Token.listFlat (Token.ofChars w.toList), l.overlong? = none :=
  checkIntegers_of_scan h.unified h.scan

theorem admits_checkIntegers : Admits fun w => checkIntegers w = .ok () where
  stock w hw := (readBack_of_isLegible (isLegible_stockWords w hw).1).accepted
  slash w hw hi := by
    have hnormal : IsWord "normal" :=
      isWord_of_isLegible (isLegible_stockWords "normal" (by simp [stockWords])).1
    have hword := hw.slash hnormal (by decide)
    have htokens := (Legible.slash hw hnormal (by decide)).ofChars_eq
    have htext : (w ++ "/" ++ "normal").toList = w.toList ++ '/' :: "normal".toList := by simp
    rw [hword.checkIntegers_iff, htext, htokens, Token.listFlat_append, Token.listFlat]
    simp only [List.forall_mem_append]
    refine ⟨hw.checkIntegers_iff.mp hi, short_separator _ (by simp),
      hnormal.checkIntegers_iff.mp ?_⟩
    exact (readBack_of_isLegible (isLegible_stockWords "normal" (by simp [stockWords])).1).accepted

/-! ## 2. Values that stand for themselves -/

namespace Shorthand

variable {s : Shorthand} {value : String}

theorem layersOf_of_layered (hl : s.layered = true) (value : String) :
    s.layersOf value = layers value := if_pos hl

theorem layersOf_of_not_layered (hl : s.layered = false) (value : String) :
    s.layersOf value = [value] := if_neg (by simp [hl])

/-- A value is read back, and so are its layers and their words. -/
structure ReadsBack (s : Shorthand) (value : String) : Prop where
  whole : ReadBack value
  layers : ∀ layer ∈ s.layersOf value, ReadBack layer ∧ ∀ w ∈ words layer, ReadBack w

theorem ReadsBack.check (h : s.ReadsBack value) (hs : s ∈ Registry.standard) (hn : s.name ≠ "font") :
    s.check value = .ok () := by
  have hlayers := checkLayers_of_readBack (reads_subset_words hs hn) h.layers
  rw [Shorthand.check, h.whole.accepted, hlayers]
  exact ite_self _

/-- The words of a value stand for themselves, in layers if the shorthand has layers. -/
def WordsStand (s : Shorthand) (value : String) : Prop :=
  if s.layered then LayersStand value else ReadBack value ∧ WordsAlone value

/-- The words of a value with units are its words, with units. -/
theorem WordsStand.fill (hw : s.WordsStand value) (h : ReadAgain value) (r : UnitRule)
    (hany : r.anyBareZero (Token.ofChars value.toList) = true) :
    (s.layersOf (r.fill value)).map words =
        (s.layersOf value).map (fun layer => (words layer).map r.fill) ∧
      s.ReadsBack (r.fill value) := by
  rw [WordsStand] at hw
  cases hl : s.layered with
  | true =>
    rw [if_pos hl] at hw
    have hread : ReadBack (r.fill value) := by
      have hm := map_fst_markedTokens value []
      have hfill := (r.unmarked (Token.ofChars value.toList)).2
      rw [← markedTokens_nil] at hfill
      rw [UnitRule.fill, ← hfill]
      exact h.readBack_applyMarked r hm
    rw [layersOf_of_layered hl, layersOf_of_layered hl]
    refine ⟨words_layers_fill h hw r hany, hread, ?_⟩
    rw [layersOf_of_layered hl]
    exact readBack_layers_fill h hw r hany
  | false =>
    obtain ⟨hread, halone⟩ := (if_neg (by simp [hl])).mp hw
    have hwords := words_fill hread halone r
    rw [layersOf_of_not_layered hl, layersOf_of_not_layered hl]
    refine ⟨congrArg (List.cons · []) hwords, hread.fill r, ?_⟩
    rw [layersOf_of_not_layered hl, List.forall_mem_singleton, hwords, List.forall_mem_map]
    exact ⟨hread.fill r, fun w hmem => (readBack_of_mem_words hread halone hmem).fill r⟩

theorem WordsStand.readBack_of_mem (hw : s.WordsStand value)
    (hf : Token.listHasFault (Token.ofChars value.toList) = false) :
    ∀ layer ∈ s.layersOf value, ∀ w ∈ words layer, ReadBack w := by
  rw [WordsStand] at hw
  cases hl : s.layered with
  | true =>
    rw [if_pos hl] at hw
    rw [layersOf_of_layered hl]
    exact hw.readBack_of_mem_words hf
  | false =>
    obtain ⟨hread, halone⟩ := (if_neg (by simp [hl])).mp hw
    rw [layersOf_of_not_layered hl, List.forall_mem_singleton]
    exact fun w hmem => readBack_of_mem_words hread halone hmem

/-! ## 3. Completed values -/

namespace Completes

variable {rows : List (List String)}
  (h : s.Completes (fun w => checkIntegers w = .ok ()) value rows)
include h

theorem isLayer (hl : s.layered = true) : ∀ row ∈ rows, IsLayer row := by
  intro row hrow
  obtain ⟨slots, hslots⟩ := h.isRow row hrow
  exact ⟨hslots.ne_nil, fun w hw => ⟨(h.writes row hrow w hw).1, (h.writes row hrow w hw).2.1 hl⟩⟩

theorem exists_eq_singleton (hl : s.layered = false) : ∃ row, rows = [row] := by
  refine List.length_eq_one_iff.mp ?_
  rw [← List.length_map (f := spaced), ← h.layersOf, layersOf_of_not_layered hl]
  rfl

theorem isWord : ∀ row ∈ rows, ∀ w ∈ row, IsWord w ∧ checkIntegers w = .ok () :=
  fun row hrow w hw => ⟨(h.writes row hrow w hw).1, (h.writes row hrow w hw).2.2⟩

theorem readBack_of_mem : ∀ row ∈ rows, ∀ w ∈ row, ReadBack w :=
  fun row hrow w hw => (h.isWord row hrow w hw).1.readBack (h.isWord row hrow w hw).2

theorem inRows : InRows (Value.layered rows) rows := by
  cases hl : s.layered with
  | true => exact .of_isLayer (h.isLayer hl) fun row hrow w hw => (h.isWord row hrow w hw).2
  | false =>
    obtain ⟨row, rfl⟩ := h.exists_eq_singleton hl
    exact .of_row (fun w hw => (h.isWord row List.mem_cons_self w hw).1)
      fun w hw => (h.isWord row List.mem_cons_self w hw).2

theorem wordsStand : s.WordsStand (Value.layered rows) := by
  rw [WordsStand]
  cases hl : s.layered with
  | true => exact if_pos rfl ▸ h.inRows.layersStand h.ne_nil (h.isLayer hl)
  | false =>
    obtain ⟨row, rfl⟩ := h.exists_eq_singleton hl
    obtain ⟨slots, hslots⟩ := h.isRow row List.mem_cons_self
    exact if_neg Bool.false_ne_true ▸ ⟨h.inRows.readBack, h.inRows.wordsAlone hslots.ne_nil⟩

theorem readsBack : s.ReadsBack (Value.layered rows) where
  whole := h.inRows.readBack
  layers := by
    rw [h.layersOf, List.forall_mem_map]
    intro row hrow
    have hword := h.isWord row hrow
    have hone : ReadBack (Value.layered [row]) :=
      (InRows.of_row (fun w hw => (hword w hw).1) fun w hw => (hword w hw).2).readBack
    rw [words_spaced fun w hw => (hword w hw).1]
    refine ⟨?_, h.readBack_of_mem row hrow⟩
    simpa [Value.layered] using hone

/-- With units at all bare zeros, rows are rows again. -/
theorem fill (r : UnitRule) (hany : r.anyBareZero (Token.ofChars (Value.layered rows).toList) = true) :
    r.fill (Value.layered rows) = Value.layered (rows.map (List.map r.fill)) ∧
      (s.layersOf (r.fill (Value.layered rows))).map words = rows.map (List.map r.fill) ∧
      s.ReadsBack (r.fill (Value.layered rows)) := by
  obtain ⟨hwords, hread⟩ := h.wordsStand.fill h.inRows.readBack.readAgain r hany
  refine ⟨h.inRows.fill_eq r, hwords.trans ?_, hread⟩
  conv_rhs => rw [← h.words_eq]
  rw [List.map_map]
  rfl

end Completes

end Shorthand

/-! ## 4. Words in their slots -/

/-- The defaults that are no numbers. -/
def plainDefaults : List String :=
  ["none", "0s", "ease", "normal", "running", "all", "medium", "currentcolor", "inset"]

/-- Whether a token is an atom and no number. -/
def isPlainAtom : Token → Bool
  | .atom (.number _) => false
  | .atom _ => true
  | _ => false

/-- A unit is put behind a number only. -/
theorem UnitRule.anyBareZero_of_isPlainAtom (r : UnitRule) {ts : List Token}
    (h : ∀ t ∈ ts, isPlainAtom t = true) : r.anyBareZero ts = false := by
  induction ts with
  | nil => rfl
  | cons t ts ih =>
    rw [List.forall_mem_cons] at h
    have ht : r.hasBareZero t = false := by
      cases t with
      | atom a => cases a <;> first | rfl | cases h.1
      | function => cases h.1
      | block => cases h.1
    rw [anyBareZero, ht, ih h.2]
    rfl

theorem UnitRule.fill_plainDefaults (r : UnitRule) : ∀ w ∈ plainDefaults, r.fill w = w := by
  have h : (plainDefaults.all fun w =>
      isLegible w && (Token.ofChars w.toList).all isPlainAtom) = true := by
    rw [plainDefaults]
    cbv
  intro w hw
  have hplain := List.all_eq_true.mp h w hw
  rw [Bool.and_eq_true, List.all_eq_true] at hplain
  exact (readBack_of_isLegible hplain.1).fill_eq_self r (r.anyBareZero_of_isPlainAtom hplain.2)

theorem UnitRule.fill_empty (r : UnitRule) : r.fill "" = "" := by
  have h : Token.ofChars "".toList = [] := by cbv
  rw [fill, h]
  rfl

namespace Shorthand

variable {s : Shorthand} {g : String → String} {slots : Slots}

theorem openAlike_of_defaults (h : ∀ d ∈ s.defaults, g d = d) : s.OpenAlike g slots :=
  fun slot hslot _ => h slot.2 (List.of_mem_zip hslot).2

/-- The known shorthands whose zeros get units. -/
theorem cases_of_category (hs : s ∈ Registry.standard) (hc : UnitCategory.ofProperty s.name ≠ .none) :
    s = .animation ∨ s = .transition ∨ s = .boxShadow ∨ s = .gap ∨ s = .outline := by
  have hnone : ∀ name ∈ ["flex", "list-style", "font"], UnitCategory.ofProperty name = .none := by
    decide +kernel
  simp only [Registry.standard, List.mem_cons, List.not_mem_nil, or_false] at hs
  rcases hs with rfl | rfl | rfl | rfl | rfl | rfl | rfl | rfl
  · exact .inl rfl
  · exact .inr (.inl rfl)
  · exact .inr (.inr (.inl rfl))
  · exact absurd (hnone "flex" (by simp)) hc
  · exact .inr (.inr (.inr (.inl rfl)))
  · exact absurd (hnone "list-style" (by simp)) hc
  · exact absurd (hnone "font" (by simp)) hc
  · exact .inr (.inr (.inr (.inr rfl)))

/-- The rule of a shorthand. -/
def rule (s : Shorthand) : UnitRule := UnitRule.ofProperty s.name

theorem rule_outline : Shorthand.outline.rule = lengthRule := by decide +kernel

/-- Words that are read back are sorted alike with units, except in an animation, and in a transition
that has a zero among them. -/
theorem sortsAlike_fill (hs : s ∈ Registry.standard) (hc : UnitCategory.ofProperty s.name ≠ .none)
    (ha : s.name ≠ "animation") {ws : List String} (h : ∀ w ∈ ws, ReadBack w)
    (hz : s.name = "transition" → ∀ w ∈ ws, isZero w = false) : s.SortsAlike s.rule.fill ws := by
  have hkeyword : ∀ w ∈ ws, ∀ keywords ∈ [["none"], ["inset"], ["auto"], wideKeywords],
      isOneOf keywords (s.rule.fill w) = isOneOf keywords w := by
    have hdigitless : ([["none"], ["inset"], ["auto"], wideKeywords].all fun keywords =>
        keywords.all fun k => k.toList.all (!·.isDigit)) = true := by decide +kernel
    exact fun w hw keywords hk => (h w hw).isOneOf_fill _
      (digitless_of_all (List.all_eq_true.mp hdigitless keywords hk))
  rcases cases_of_category hs hc with rfl | rfl | rfl | rfl | rfl
  · exact absurd rfl ha
  · exact sortsAlike_transition fun w hw => (h w hw).transitionWord_fill _ (hz rfl w hw)
  · exact sortsAlike_boxShadow (UnitRule.fill_plainDefaults _ "inset" (by simp [plainDefaults]))
      fun w hw => ⟨hkeyword w hw _ (by simp), hkeyword w hw _ (by simp), (h w hw).yieldsNumber_fill _⟩
  · exact sortsAlike_gap _ ws
  · refine sortsAlike_outline fun w hw =>
      ⟨hkeyword w hw _ (by simp), hkeyword w hw _ (by simp), ?_⟩
    rw [rule_outline]
    exact (h w hw).ofWord_fill

/-- Where a slot is left open there is no zero to fill it, but in a box shadow, and there the row has
all its lengths. -/
theorem openAlike_fill (hs : s ∈ Registry.standard) (hc : UnitCategory.ofProperty s.name ≠ .none)
    (ha : s.name ≠ "animation") {row : List String} (h : s.IsRow row slots)
    (hne : ∀ w ∈ row, w.isEmpty = false) : s.OpenAlike s.rule.fill slots := by
  have hplain := s.rule.fill_plainDefaults
  rcases cases_of_category hs hc with rfl | rfl | rfl | rfl | rfl
  · exact absurd rfl ha
  · exact openAlike_of_defaults fun d hd => hplain d (by revert d; decide)
  · exact openAlike_boxShadow h hne (hplain "currentcolor" (by simp [plainDefaults]))
      (UnitRule.fill_empty _)
  · exact openAlike_of_defaults fun d hd => hplain d (by revert d; decide)
  · exact openAlike_of_defaults fun d hd => hplain d (by revert d; decide)

end Shorthand

/-- A value that is not classified is not classified with units either. -/
theorem Shorthand.complete_fill_eq_none {s : Shorthand} (hs : s ∈ Registry.standard)
    (hc : UnitCategory.ofProperty s.name ≠ .none) (ha : s.name ≠ "animation") {value : String}
    (h : ReadAgain value) (hw : s.WordsStand value)
    (hany : s.rule.anyBareZero (Token.ofChars value.toList) = true) (hnone : s.complete value = none) :
    s.complete (s.rule.fill value) = none := by
  refine complete_eq_none_of_length (hw.fill h s.rule hany).1 (fun layer hlayer => ?_) hnone
  by_cases ht : s.name = "transition"
  · -- any words are assigned to the slots of a transition
    rcases cases_of_category hs hc with rfl | rfl | rfl | rfl | rfl
    · exact absurd rfl ha
    · rfl
    all_goals simp [boxShadow, gap, outline] at ht
  · have hsorts := s.sortsAlike_fill hs hc ha (hw.readBack_of_mem h.faultless layer hlayer)
      fun htransition => absurd htransition ht
    rw [SortsAlike] at hsorts
    rw [hsorts, Option.map_map]
    exact congrFun (congrArg _ (funext fun slots => List.length_map _)) _

/-! ## 5. Transitions -/

theorem nonempty_words (value : String) : ∀ w ∈ words value, w.isEmpty = false :=
  fun w hw => by simpa using List.of_mem_filter hw

/-- No word of a completed transition is a zero unless a zero is the property of a layer. -/
theorem Shorthand.Completes.not_isZero_transition {p : String → Prop} {value : String}
    {rows : List (List String)} (h : Shorthand.transition.Completes p value rows)
    (hz : ∀ layer ∈ layers value, ∀ w ∈ (Transition.ofWords (words layer)).property,
      isZero w = false) : ∀ row ∈ rows, ∀ w ∈ row, isZero w = false := by
  intro row hrow w hw
  obtain ⟨layer, hlayer, slots, hslots, rfl⟩ := h.origin row hrow
  obtain ⟨-, hassign, -⟩ := slotsOfLayer?_eq_some.mp hslots
  obtain rfl := Option.some.inj hassign
  obtain ⟨duration, timing, delay, hfull, hfill⟩ := Transition.exists_fill stocked_nonempty
    (Transition.sorted_ofWords (nonempty_words layer))
  have hother : ∀ v, TransitionWord.ofWord v ≠ .property → isZero v = false := fun v hv =>
    Bool.eq_false_iff.mpr fun hzero => hv (TransitionWord.ofWord_of_isZero hzero)
  have hall : ∀ v ∈ [(Transition.ofWords (words layer)).property.getD "all", duration, timing, delay],
      isZero v = false := by
    simp only [List.forall_mem_cons]
    refine ⟨getD_cases (hz layer hlayer) (by cbv), hother _ ?_, hother _ ?_, hother _ ?_, by simp⟩
    · rw [hfull.duration.2]; exact TransitionWord.noConfusion
    · rw [hfull.timing.2]; exact TransitionWord.noConfusion
    · rw [hfull.delay.2]; exact TransitionWord.noConfusion
  have hmem := List.mem_of_mem_filter hw
  change w ∈ Shorthand.transition.fill (Transition.ofWords (words layer)).slots at hmem
  rw [hfill] at hmem
  exact hall w hmem

/-! ## 6. Animations -/

theorem ofWord_fillBut {w : String} (h : ReadBack w) (r : UnitRule) :
    AnimationWord.ofWord (r.fillBut w) = AnimationWord.ofWord w := by
  rw [UnitRule.fillBut]
  split
  · rfl
  · next hno =>
    refine h.animationWord_fill r (Bool.eq_false_iff.mpr fun hz => hno ?_)
    exact AnimationWord.ofWord_of_isZero hz

theorem isEmpty_fillBut {w : String} (h : ReadBack w) (r : UnitRule) :
    (r.fillBut w).isEmpty = w.isEmpty := by
  rw [UnitRule.fillBut]
  split
  · rfl
  · exact h.isEmpty_fill r

theorem UnitRule.fillBut_defaults (r : UnitRule) :
    ∀ d ∈ Shorthand.animation.defaults, r.fillBut d = d := by
  intro d hd
  rw [fillBut]
  split
  · rfl
  · next hno =>
    -- the only default that is a number is an iteration count
    have hplain : ∀ d ∈ Shorthand.animation.defaults, d ≠ "1" → d ∈ plainDefaults := by decide
    refine r.fill_plainDefaults d (hplain d hd ?_)
    rintro rfl
    exact hno ofWord_1

/-- The counts that are told apart are those of the layers. -/
theorem LayersStand.counts_eq {value : String} (hl : LayersStand value)
    (hf : Token.listHasFault (Token.ofChars value.toList) = false) {counts : List (Option String)}
    (hcounts : countWords? value = some counts) :
    counts = (Token.splitAt Token.isComma (tokens value)).map fun layer =>
      countOf (layerWords layer) := by
  rw [countWords?_eq (not_isBlankText_of_countWords? hcounts), mapM_eq_some,
    List.forall₂_map_left_iff] at hcounts
  have hlayers := (List.forall₂_and_left _ _).mpr
    ⟨fun layer hlayer => hl.layerStands hf hlayer, hcounts⟩
  have heq := List.forall₂_map_left_iff.mpr
    (hlayers.imp fun layer count h => h.1.countOf_layerWords h.2)
  rw [List.forall₂_eq_eq_eq] at heq
  exact heq.symm

namespace Shorthand.Completes

variable {value : String} {rows : List (List String)}
  (h : Shorthand.animation.Completes (fun w => checkIntegers w = .ok ()) value rows)
include h

/-- A completed animation has one iteration count in each row. -/
theorem exists_countsOnce : ∀ row ∈ rows, ∃ front count back,
    row = front ++ count :: back ∧ CountsOnce front count back := by
  intro row hrow
  obtain ⟨layer, hlayer, slots, hslots, heq⟩ := h.origin row hrow
  obtain ⟨-, hassign, -⟩ := slotsOfLayer?_eq_some.mp hslots
  obtain rfl := Option.some.inj hassign
  obtain ⟨name, duration, timing, delay, count, direction, fill, play, hfull, hfill⟩ :=
    Animation.exists_fill stocked_nonempty
      (Animation.sorted_ofWords (nonempty_words layer))
  have hrow' : row = [name, duration, timing, delay] ++ count :: [direction, fill, play] := by
    have hnonempty : ∀ v ∈ Shorthand.animation.fill (Animation.ofWords (words layer)).slots,
        v.isEmpty = false := by
      rw [hfill]
      simp only [List.forall_mem_cons]
      exact ⟨hfull.name.1, hfull.duration.1, hfull.timing.1, hfull.delay.1, hfull.count.1,
        hfull.direction.1, hfull.fill.1, hfull.play.1, by simp⟩
    rw [← heq]
    exact (row_eq_fill hnonempty).trans hfill
  refine ⟨_, _, _, hrow', hrow' ▸ h.isWord row hrow, hfull.count.2, ?_⟩
  have hname : AnimationWord.ofWord name ≠ .iterationCount := by
    rcases hfull.name.2 with hname | rfl
    · rw [hname]; exact AnimationWord.noConfusion
    · rw [ofWord_none]; exact AnimationWord.noConfusion
  simp only [List.cons_append, List.nil_append, List.forall_mem_cons]
  refine ⟨hname, ?_, ?_, ?_, ?_, ?_, ?_, by simp⟩
  · rw [hfull.duration.2]; exact AnimationWord.noConfusion
  · rw [hfull.timing.2]; exact AnimationWord.noConfusion
  · rw [hfull.delay.2]; exact AnimationWord.noConfusion
  · rw [hfull.direction.2]; exact AnimationWord.noConfusion
  · rw [hfull.fill.2]; exact AnimationWord.noConfusion
  · rw [hfull.play.2]; exact AnimationWord.noConfusion

/-- With units at all bare zeros but the counts, the rows of an animation are rows again. -/
theorem fillBut (r : UnitRule) (hleads : CountsLead (Value.layered rows))
    {counts : List (Option String)} (hcounts : countWords? (Value.layered rows) = some counts)
    (hany : r.anyUnmarked (markedTokens (Value.layered rows) counts) = true) {text : String}
    (htext : text = Token.write (r.applyMarked (markedTokens (Value.layered rows) counts))) :
    text = Value.layered (rows.map (List.map r.fillBut)) ∧
      (Shorthand.animation.layersOf text).map words = rows.map (List.map r.fillBut) ∧
      Shorthand.animation.ReadsBack text := by
  have hlayer := h.isLayer rfl
  have hagain := h.inRows.readBack.readAgain
  have hstands := h.inRows.layersStand h.ne_nil hlayer
  have hsplit : Token.splitAt Token.isComma (tokens (Value.layered rows)) = layerTokens rows := by
    rw [tokens_layered hlayer, splitAt_layerTokens h.ne_nil hlayer]
  have hwords := map_layerWords_layerTokens hlayer
  -- the counts the pass keeps are those of the written rows, layer by layer
  have hrowCounts : counts = rows.map fun row => countOf (rowWords row) := by
    have hmap : (layerTokens rows).map (fun layer => countOf (layerWords layer)) =
        ((layerTokens rows).map layerWords).map countOf := by rw [List.map_map]; rfl
    rw [hstands.counts_eq hagain.faultless hcounts, hsplit, hmap, hwords, List.map_map]
    rfl
  -- in a row the count is one word, and it leads: filling the others is `fillBut`
  have hrow : ∀ row ∈ rows, (r.wordsBut (countOf (rowWords row)) (rowWords row)).map Token.write =
      row.map r.fillBut := by
    intro row hmem
    obtain ⟨front, count, back, rfl, honce⟩ := h.exists_countsOnce row hmem
    rw [CountsLead, hsplit, ← List.forall_mem_map (f := layerWords), hwords] at hleads
    rw [honce.countOf_eq]
    exact honce.write_wordsBut r (hleads _ (List.mem_map_of_mem hmem))
  have hread := hagain.readBack_applyMarked r (map_fst_markedTokens (Value.layered rows) counts)
  have hblank := not_isBlankText_applyMarked hagain (map_fst_markedTokens _ _) hany
  have hlayers := layers_eq hblank
  rw [splitAt_tokens_markedTokens hagain hstands r counts, hsplit] at hlayers
  rw [← htext] at hread hlayers
  have hlayerStands : ∀ layer ∈ layerTokens rows, LayerStands layer := fun layer hmem =>
    hstands.layerStands hagain.faultless (hsplit ▸ hmem)
  refine ⟨?_, ?_, hread, ?_⟩
  · rw [htext, hrowCounts, h.inRows.write_markedTokens hlayer r fun row => countOf (rowWords row)]
    exact congrArg Value.layered (List.map_congr_left hrow)
  · rw [layersOf_animation, hlayers, hrowCounts,
      words_applyLayers r (fun row => countOf (rowWords row)) hlayerStands hwords]
    refine List.map_congr_left fun row hmem => ?_
    rw [hrow row hmem, List.filter_eq_self, List.forall_mem_map]
    intro w hw
    rw [isEmpty_fillBut (h.readBack_of_mem row hmem w hw), (h.isWord row hmem w hw).1.isEmpty_eq]
    rfl
  · rw [layersOf_animation, hlayers, List.forall_mem_map]
    intro layer hmem
    obtain ⟨layer', hmem', c, rfl⟩ := UnitRule.mem_applyLayers hmem
    exact (hlayerStands layer' hmem').readBack_applyBut r c

end Shorthand.Completes

end CssExpand
