import CssExpand.Proofs.Units.IterationCounts
import Mathlib

/-!
# Adding units twice

A value that got its units has none left to get: no dimension is a bare zero, and no zero comes or goes
when the text is read again. In an animation one number of each layer is kept, and the second time it is
told again which one, from the words as they are now. If the count of a layer is what it was, its number
is found where it was. If the count was lost, the number that was kept for it is a bare zero like any
other. So the second time nothing is changed if the counts lead (`CountsLead`), and only then
(`withUnits_twice_iff`).

The proof goes by layers: what is left to do in a value is what is left in its layers
(`UnitRule.anyUnmarked_eq_anyLayers`), each with its count.
-/

set_option autoImplicit false

namespace CssExpand

open Syntax Value

/-! ## 1. What is left in a layer -/

namespace UnitRule

variable {r : UnitRule} {count count' : Option String} {ts : List Token}

/-- Whether a layer has a bare zero besides the first number that is written like the count. -/
def anyBut (r : UnitRule) (count : Option String) : List Token → Bool
  | [] => false
  | t :: ts => if t.isWrittenAs count then r.anyBareZero ts else r.hasBareZero t || r.anyBut count ts

/-- Whether a layer of a value has a bare zero besides its count. -/
def anyLayers (r : UnitRule) : Option String → List (Option String) → List (List Token) → Bool
  | _, _, [] => false
  | count, later, layer :: ls =>
    r.anyBut count layer || r.anyLayers later.head?.join later.tail ls

theorem anyBut_none (r : UnitRule) (ts : List Token) : r.anyBut none ts = r.anyBareZero ts := by
  induction ts with
  | nil => rfl
  | cons t ts ih =>
    have hnone : t.isWrittenAs none = false := by
      cases t with
      | atom a => cases a <;> rfl
      | _ => rfl
    rw [anyBut, hnone, if_neg Bool.false_ne_true, ih, anyBareZero]

theorem anyBareZero_of_anyBut (h : r.anyBut count ts = true) : r.anyBareZero ts = true := by
  induction ts with
  | nil => cases h
  | cons t ts ih =>
    rw [anyBut] at h
    rw [anyBareZero, Bool.or_eq_true]
    split at h
    · exact .inr h
    · exact (Bool.or_eq_true _ _ ▸ h).imp_right ih

/-- What is left to do in a value is what is left in its layers. -/
theorem anyUnmarked_eq_anyLayers (r : UnitRule) (count : Option String)
    (later : List (Option String)) (ts : List Token) :
    r.anyUnmarked (ts.zip (markCounts count later ts)) =
      r.anyLayers count later (Token.splitAt Token.isComma (Token.listWithoutComments ts)) := by
  induction ts generalizing count later with
  | nil => rfl
  | cons t ts ih =>
    rw [markCounts_cons, Token.listWithoutComments]
    cases hcomment : t.isComment with
    | true =>
      obtain ⟨hcount, hzero, -, -⟩ := r.plain_of_separator count (.inr (.inl hcomment))
      rw [isComma_of_isComment hcomment, hcount, if_neg Bool.false_ne_true, anyUnmarked_cons, hzero,
        if_neg Bool.false_ne_true, ih, if_pos rfl]
      rfl
    | false =>
      rw [if_neg Bool.false_ne_true]
      cases hcomma : t.isComma with
      | true =>
        obtain ⟨-, hzero, -, hbare⟩ := r.plain_of_separator count (.inr (.inr hcomma))
        rw [if_pos rfl, anyUnmarked_cons, hbare, hzero, splitAt_cons_of_separates hcomma, ih,
          anyLayers]
        rfl
      | false =>
        have hcomma' : t.withoutComments.isComma = false := by
          cases t <;> exact hcomma
        obtain ⟨layer, ls, hls, hcons⟩ := splitAt_cons Token.isComma hcomma'
          (Token.listWithoutComments ts)
        rw [if_neg Bool.false_ne_true, anyUnmarked_cons, ih, hls, hcons, anyLayers, anyLayers, anyBut,
          isWrittenAs_withoutComments, hasBareZero_withoutComments]
        cases hcount : t.isWrittenAs count with
        | true => rw [if_pos rfl, if_pos rfl, anyBut_none]; rfl
        | false => rw [if_neg Bool.false_ne_true, if_neg Bool.false_ne_true, Bool.or_assoc]; rfl

/-- A number with a unit is no number. -/
theorem isWrittenAs_apply (r : UnitRule) {t : Token} (h : t.isWrittenAs count = false) :
    (r.apply t).isWrittenAs count = false := by
  cases t with
  | atom a =>
    rcases r.apply_atom a with ha | ⟨n, rfl, -, ha⟩ <;> rw [ha]
    · exact h
    · rfl
  | function name arguments =>
    obtain ⟨inner, ha⟩ := r.apply_function name arguments
    rw [ha]
    rfl
  | block b content =>
    obtain ⟨inner, ha⟩ := r.apply_block b content
    rw [ha]
    rfl

/-- With its units a layer has none left to get. -/
theorem anyBut_applyBut (r : UnitRule) (count : Option String) (ts : List Token) :
    r.anyBut count (r.applyBut count ts) = false := by
  induction ts with
  | nil => rfl
  | cons t ts ih =>
    rw [applyBut_cons]
    cases h : t.isWrittenAs count with
    | true => rw [if_pos rfl, anyBut, if_pos h, r.anyBareZero_applyAll]
    | false =>
      rw [if_neg Bool.false_ne_true, anyBut, r.isWrittenAs_apply h, if_neg Bool.false_ne_true,
        r.hasBareZero_apply, ih]
      rfl

/-- The zero that was kept for a count is left if the count is another one now. -/
theorem anyBut_applyBut_of_find? (hne : count' ≠ count) {t : Token}
    (ht : ts.find? (Token.isWrittenAs count) = some t) (hz : r.hasBareZero t = true) :
    r.anyBut count' (r.applyBut count ts) = true := by
  induction ts with
  | nil => cases ht
  | cons u ts ih =>
    rw [applyBut_cons]
    cases hu : u.isWrittenAs count with
    | true =>
      -- a number is written like one count only
      rw [List.find?_cons_of_pos hu] at ht
      obtain rfl := Option.some.inj ht
      have hother : u.isWrittenAs count' = false := by
        refine Bool.eq_false_iff.mpr fun hu' => hne ?_
        obtain ⟨_, -, heq⟩ := Token.of_isWrittenAs hu
        obtain ⟨_, -, heq'⟩ := Token.of_isWrittenAs hu'
        rw [heq, heq']
      rw [if_pos rfl, anyBut, hother, if_neg Bool.false_ne_true, hz, Bool.true_or]
    | false =>
      rw [List.find?_cons_of_neg (by simp [hu])] at ht
      have hleft := ih ht
      rw [if_neg Bool.false_ne_true, anyBut]
      split
      · exact anyBareZero_of_anyBut hleft
      · rw [hleft, Bool.or_true]

end UnitRule

namespace LayerStands

variable {layer : List Token} (h : LayerStands layer)
include h

/-- The number that is kept for a count that does not lead is a bare zero. -/
theorem exists_of_not_countLeads {count : Option String}
    (hcount : countOf (layerWords layer) = count) (hleads : ¬CountLeads (layerWords layer)) :
    ∃ n : Numeral, layer.find? (Token.isWrittenAs count) = some (.atom (.number n)) ∧
      n.isZero = true := by
  rw [CountLeads, hcount] at hleads
  push Not at hleads
  obtain ⟨text, rfl, hz, word, hword, -⟩ := hleads
  -- the word is a part of the layer, so the layer has such a number too
  have hany : word.any (Token.isWrittenAs (some text)) = true := by
    simpa using List.find?_some hword
  obtain ⟨u, hu, hwritten⟩ := List.any_eq_true.mp hany
  have hinfix := (of_mem_splitAt (List.mem_of_find?_eq_some hword)).1.trans (trim_isInfix layer)
  obtain ⟨t, ht⟩ : ∃ t, layer.find? (Token.isWrittenAs (some text)) = some t :=
    Option.isSome_iff_exists.mp (List.find?_isSome.mpr ⟨u, hinfix.subset hu, hwritten⟩)
  obtain ⟨n, rfl, heq⟩ := Token.of_isWrittenAs (List.find?_some ht)
  refine ⟨n, ht, ?_⟩
  have htokens := tokens_write_number h.settled (List.mem_of_find?_eq_some ht)
  rw [Option.some.inj heq, isZero, number?, loneToken?, htokens] at hz
  exact hz

/-- In a layer with units nothing is left to do if its count leads, and only then. -/
theorem anyBut_applyBut_iff {r : UnitRule} (hc : r.category ≠ .none) {count : Option String}
    (hcount : layerCount? (layerText layer) = some count) :
    r.anyBut (countOf (r.wordsBut count (layerWords layer))) (r.applyBut count layer) = false ↔
      CountLeads (layerWords layer) := by
  constructor
  · intro hdone
    by_contra hleads
    obtain ⟨n, hn, hz⟩ := h.exists_of_not_countLeads (h.countOf_layerWords hcount) hleads
    have hzero : r.hasBareZero (.atom (.number n)) = true := by
      simp [UnitRule.hasBareZero, UnitRule.appliesTo, hz, hc]
    have hlost := mt (h.countOf_wordsBut_iff hc hcount).mp hleads
    rw [UnitRule.anyBut_applyBut_of_find? hlost hn hzero] at hdone
    cases hdone
  · intro hleads
    rw [(h.countOf_wordsBut_iff hc hcount).mpr hleads, UnitRule.anyBut_applyBut]

/-- The text of a layer with units is read back, and so are its words. -/
theorem readBack_applyBut (r : UnitRule) (count : Option String) :
    ReadBack (layerText (r.applyBut count layer)) ∧
      ∀ w ∈ Value.words (layerText (r.applyBut count layer)), ReadBack w := by
  have hstands := h.stands.applyBut r count
  have hwords := h.areWords_applyBut r count
  rw [h.layerText_applyBut, hstands.words_write hwords]
  refine ⟨hstands.readBack, fun w hw => ?_⟩
  obtain ⟨word, hword, rfl⟩ := List.mem_map.mp (List.mem_of_mem_filter hw)
  exact (hwords word hword).1.readBack

end LayerStands

/-! ## 2. What is left in an animation -/

theorem UnitRule.mem_applyLayers {r : UnitRule} {count : Option String}
    {later : List (Option String)} {ls : List (List Token)} {layer : List Token}
    (h : layer ∈ r.applyLayers count later ls) : ∃ layer' ∈ ls, ∃ c, layer = r.applyBut c layer' := by
  induction ls generalizing count later with
  | nil => cases h
  | cons layer' ls ih =>
    rcases List.mem_cons.mp h with rfl | h
    · exact ⟨layer', List.mem_cons_self, count, rfl⟩
    · obtain ⟨layer'', hmem, hc⟩ := ih h
      exact ⟨layer'', List.mem_cons_of_mem layer' hmem, hc⟩

/-- The layers with units have counts again, and with these nothing is left to do if the counts led. -/
theorem exists_mapM_layerCount? {r : UnitRule} (hc : r.category ≠ .none) {ls : List (List Token)}
    (h : ∀ layer ∈ ls, LayerStands layer) {counts : List (Option String)}
    (hcounts : (ls.map layerText).mapM layerCount? = some counts) :
    ∃ counts', ((r.applyLayers counts.head?.join counts.tail ls).map layerText).mapM layerCount? =
        some counts' ∧
      (r.anyLayers counts'.head?.join counts'.tail
          (r.applyLayers counts.head?.join counts.tail ls) = false ↔
        ∀ layer ∈ ls, CountLeads (layerWords layer)) := by
  induction ls generalizing counts with
  | nil => exact ⟨[], rfl, iff_of_true rfl (List.forall_mem_nil _)⟩
  | cons layer ls ih =>
    rw [List.forall_mem_cons] at h
    rw [List.map_cons, List.mapM_cons] at hcounts
    obtain ⟨count, hcount, hcounts⟩ := Option.bind_eq_some_iff.mp hcounts
    obtain ⟨later, hlater, heq⟩ := Option.bind_eq_some_iff.mp hcounts
    obtain rfl := Option.some.inj heq
    obtain ⟨later', hlater', hdone⟩ := ih h.2 hlater
    refine ⟨countOf (r.wordsBut count (layerWords layer)) :: later', ?_, ?_⟩
    · rw [UnitRule.applyLayers, List.map_cons, List.mapM_cons, List.head?_cons, List.tail_cons,
        Option.join_some, h.1.layerCount?_applyBut r hcount, hlater']
      rfl
    · rw [List.forall_mem_cons, ← h.1.anyBut_applyBut_iff hc hcount, ← hdone, UnitRule.applyLayers,
        UnitRule.anyLayers, Bool.or_eq_false_iff]
      rfl

/-- Layers that are read back word by word are accepted. -/
theorem checkLayers_of_readBack {s : Shorthand} (hs : ∀ ws, s.reads ws ⊆ ws) {ls : List String}
    (h : ∀ layer ∈ ls, ReadBack layer ∧ ∀ w ∈ words layer, ReadBack w) :
    s.checkLayers ls = .ok () := by
  induction ls with
  | nil => rfl
  | cons layer ls ih =>
    rw [List.forall_mem_cons] at h
    have hwords : checkWords (s.reads (words layer)) = .ok () :=
      Stage.forM_eq_ok.mpr fun w hw => (h.1.2 w (hs _ hw)).accepted
    rw [Shorthand.checkLayers, h.1.1.accepted, hwords, ih h.2]
    exact ite_self _

/-! ## 3. Adding units again -/

/-- What is decided about a value that is accepted. -/
theorem run_units_of_accepted {ignored : Ignored} {prop value : String}
    (hc : UnitCategory.ofProperty prop ≠ .none) (hi : ignored.covers prop = false)
    (h : checkIntegers value = .ok ())
    (ha : Text.lower prop = "animation" → Shorthand.animation.check value = .ok ()) :
    (Revision.units ignored).run prop value = .ok (withUnits ignored prop value) := by
  have hcheck : (Revision.units ignored).check prop value = .ok () := by
    change checkUnits ignored prop value = _
    rw [checkUnits_of_category hc hi, h]
    change (if _ then _ else _) = _
    split
    · next hanimation => exact ha hanimation
    · rfl
  rw [Revision.run, hcheck]
  rfl

/-- Where every bare zero got a unit, nothing is changed the second time. -/
theorem withUnits_again {ignored : Ignored} {prop value : String} (h : ReadAgain value)
    (hc : UnitCategory.ofProperty prop ≠ .none) (hi : ignored.covers prop = false)
    (ha : Text.lower prop ≠ "animation") :
    (Revision.units ignored).run prop
        ((UnitRule.ofProperty (Text.lower prop)).fill value) = .ok (.keep .noBareZero) := by
  have hm : ((Token.ofChars value.toList).zip
      ((Token.ofChars value.toList).map fun _ => false)).map Prod.fst =
        Token.ofChars value.toList := List.map_fst_zip (by simp)
  have hfill := (UnitRule.unmarked (UnitRule.ofProperty (Text.lower prop))
    (Token.ofChars value.toList)).2
  have htokens := h.ofChars_applyMarked (UnitRule.ofProperty (Text.lower prop)) hm
  have hread := h.readBack_applyMarked (UnitRule.ofProperty (Text.lower prop)) hm
  rw [hfill, ← UnitRule.fill] at htokens hread
  rw [run_units_of_accepted hc hi hread.accepted fun hanimation => absurd hanimation ha,
    withUnits_of_not_animation hc hi ha, htokens, UnitRule.anyBareZero_listReread,
    UnitRule.anyBareZero_applyAll, if_neg Bool.false_ne_true]

section Animation

variable {value : String} (h : ReadAgain value) (hl : LayersStand value) {r : UnitRule}
  {counts : List (Option String)}
include h hl

/-- An animation with units is accepted. -/
theorem check_markedTokens (r : UnitRule) (counts : List (Option String)) :
    Shorthand.animation.check (Token.write (r.applyMarked (markedTokens value counts))) = .ok () := by
  have hread := h.readBack_applyMarked r (map_fst_markedTokens value counts)
  have hsplit := splitAt_tokens_markedTokens h hl r counts
  -- from here on only the layers of the new value matter
  generalize Token.write _ = value' at hread hsplit ⊢
  have hlayers : Shorthand.animation.checkLayers (layers value') = .ok () := by
    refine checkLayers_of_readBack (fun _ => List.Subset.refl _) fun text htext => ?_
    rw [layers] at htext
    split at htext
    · cases htext
    · obtain ⟨layer, hlayer, rfl⟩ := List.mem_map.mp htext
      rw [hsplit] at hlayer
      obtain ⟨layer', hmem, c, rfl⟩ := UnitRule.mem_applyLayers hlayer
      exact (hl.layerStands h.faultless hmem).readBack_applyBut r c
  rw [Shorthand.check, layersOf_animation, hlayers, hread.accepted]
  exact ite_self _

/-- An animation with units has counts again, and nothing is left to do besides these if the counts
that it had led, and only then. -/
theorem exists_countWords?_markedTokens (hc : r.category ≠ .none)
    (hcounts : countWords? value = some counts)
    (hany : r.anyUnmarked (markedTokens value counts) = true) :
    ∃ counts', countWords? (Token.write (r.applyMarked (markedTokens value counts))) = some counts' ∧
      (r.anyUnmarked (markedTokens (Token.write (r.applyMarked (markedTokens value counts))) counts') =
          false ↔ CountsLead value) := by
  have hblank := not_isBlankText_applyMarked h (map_fst_markedTokens value counts) hany
  have hsplit := splitAt_tokens_markedTokens h hl r counts
  generalize Token.write _ = value' at hblank hsplit ⊢
  rw [countWords?_eq (not_isBlankText_of_countWords? hcounts)] at hcounts
  obtain ⟨counts', hcounts', hdone⟩ := exists_mapM_layerCount? hc
    (fun layer hlayer => hl.layerStands h.faultless hlayer) hcounts
  refine ⟨counts', ?_, ?_⟩
  · rw [countWords?_eq hblank, hsplit, hcounts']
  · rw [markedTokens, r.anyUnmarked_eq_anyLayers, ← tokens, hsplit, hdone]
    rfl

/-- Adding units to an animation that got its units changes nothing if its counts led, and only then. -/
theorem withUnits_again_animation {ignored : Ignored} {prop : String}
    (hc : UnitCategory.ofProperty prop ≠ .none) (hi : ignored.covers prop = false)
    (ha : Text.lower prop = "animation") (hr : r = UnitRule.ofProperty (Text.lower prop))
    (hcounts : countWords? value = some counts)
    (hany : r.anyUnmarked (markedTokens value counts) = true) :
    ∃ d, (Revision.units ignored).run prop
        (Token.write (r.applyMarked (markedTokens value counts))) = .ok d ∧
      (d = .keep .noBareZero ↔ CountsLead value) := by
  have hcategory : r.category ≠ .none := by
    rwa [hr, UnitRule.ofProperty, UnitCategory.ofProperty_lower]
  obtain ⟨counts', hcounts', hdone⟩ := exists_countWords?_markedTokens h hl hcategory hcounts hany
  have hread := h.readBack_applyMarked r (map_fst_markedTokens value counts)
  refine ⟨_, run_units_of_accepted hc hi hread.accepted fun _ => check_markedTokens h hl r counts, ?_⟩
  rw [withUnits_of_kept hc hi ((keptTokens?_of_animation ha _ _).trans
    (congrArg (Option.map _) hcounts')), ← hr, ← markedTokens, ← hdone]
  split
  · next hleft =>
    rw [hleft]
    exact iff_of_false Decision.noConfusion Bool.noConfusion
  · next hleft => exact iff_of_true rfl (Bool.eq_false_iff.mpr hleft)

end Animation

/-- Adding units to what got its units changes nothing, except in an animation in which a count that is
a zero does not lead: there it always changes something. The number that was spared the first time is not
the count any more, so nothing spares it the second time. -/
theorem withUnits_twice_iff {ignored : Ignored} {prop value : String} {pairs : List (String × String)}
    (hf : Token.listHasFault (Token.ofChars value.toList) = false)
    (hmisread : Token.listMisread (Token.ofChars value.toList) = false)
    (hl : Text.lower prop = "animation" → LayersStand value)
    (h : (Revision.units ignored).run prop value = .ok (.replace pairs)) :
    ∃ value' d, pairs = [(Text.lower prop, value')] ∧
      (Revision.units ignored).run prop value' = .ok d ∧
      (d = .keep .noBareZero ↔ (Text.lower prop = "animation" → CountsLead value)) := by
  obtain ⟨hc, hi, haccepted, kept, hkept, hany, rfl⟩ := of_run_units_replace h
  have hread : ReadAgain value := ⟨Token.settled_parse haccepted hf hmisread, hf⟩
  by_cases ha : Text.lower prop = "animation"
  · rw [keptTokens?_of_animation ha] at hkept
    obtain ⟨counts, hcounts, rfl⟩ := Option.map_eq_some_iff.mp hkept
    obtain ⟨d, hrun, hd⟩ := withUnits_again_animation hread (hl ha) hc hi ha rfl hcounts hany
    exact ⟨_, d, rfl, hrun, hd.trans ⟨fun hleads _ => hleads, fun hleads => hleads ha⟩⟩
  · rw [keptTokens?_of_not_animation ha] at hkept
    obtain rfl := Option.some.inj hkept
    refine ⟨_, _, rfl, ?_, iff_of_true rfl fun hanimation => absurd hanimation ha⟩
    rw [(UnitRule.unmarked _ _).2, ← UnitRule.fill]
    exact withUnits_again hread hc hi ha

/-- The second of two zeros got a unit, and the first one, the count, is kept once more. -/
theorem withUnits_twice_iff_twoZeros :
    Token.listHasFault (Token.ofChars "x 0 0,y".toList) = false ∧
      Token.listMisread (Token.ofChars "x 0 0,y".toList) = false ∧
      (Text.lower "animation" = "animation" → LayersStand "x 0 0,y") ∧
      (Revision.units .nothing).run "animation" "x 0 0,y" =
        .ok (.replace [("animation", "x 0 0s,y")]) ∧
      (Revision.units .nothing).run "animation" "x 0 0s,y" = .ok (.keep .noBareZero) := by
  have hf : Token.listHasFault (Token.ofChars "x 0 0,y".toList) = false := by decide +kernel
  have hmisread : Token.listMisread (Token.ofChars "x 0 0,y".toList) = false := by decide +kernel
  have h : (Revision.units .nothing).run "animation" "x 0 0,y" =
      .ok (.replace [("animation", "x 0 0s,y")]) := by decide +kernel
  obtain ⟨value', d, hpairs, hrun, hd⟩ :=
    withUnits_twice_iff hf hmisread (fun _ => layersStand_twoZeros) h
  obtain ⟨-, rfl⟩ := Prod.mk.inj (List.head_eq_of_cons_eq hpairs)
  refine ⟨hf, hmisread, fun _ => layersStand_twoZeros, h, ?_⟩
  rw [hrun, hd.mpr fun _ => by decide +kernel]

/-- The count of `0/0 0` was lost the first time, and the zero that was kept for it gets a unit the
second time. -/
theorem withUnits_twice_slash :
    (Revision.units .nothing).run "animation" "0/0 0" =
        .ok (.replace [("animation", "0/0s 0s")]) ∧
      (Revision.units .nothing).run "animation" "0/0s 0s" =
        .ok (.replace [("animation", "0s/0s 0s")]) :=
  ⟨by decide +kernel, by decide +kernel⟩

-- What is misread can have a zero of its own: the escaped unit `e3` is written as an exponent.
example :
    (Revision.units .nothing).run "margin" "0\\65 3 0" = .ok (.replace [("margin", "0e3 0px")]) ∧
      (Revision.units .nothing).run "margin" "0e3 0px" =
        .ok (.replace [("margin", "0e3px 0px")]) :=
  ⟨by decide +kernel, by decide +kernel⟩

end CssExpand
