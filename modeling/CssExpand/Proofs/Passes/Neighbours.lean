import CssExpand.Proofs.Passes.Refusals
import CssExpand.Proofs.Shorthand.FontGrammar
import CssExpand.Proofs.Value.Contained
import Mathlib

/-!
# Passes keep to their declaration

What a pass writes for a self-contained value is self-contained again (`selfContained_of_replace`), so
no declaration that a pass puts in can take in the ones around it.

The passes write in three ways. Taking apart gives single words. Completing gives rows of words with
commas between them, and for a font a size with a slash. Adding units gives the tokens of the value
itself. The first two go by words, and a word that is stripped of its blanks may lose the one that ends
an escape (`longhands_escapedTab`). So the tokens that the words are written from have to be steady
(`PassKind.ReadsSteadily`); the third one asks only that no token is read back as another one.
-/

set_option autoImplicit false

namespace CssExpand

open Syntax Value

/-! ## 1. What is read of a value -/

/-- The tokens of the layers that a shorthand classifies. -/
def Shorthand.layerTokens (s : Shorthand) (value : String) : List (List Token) :=
  if s.layered then Token.splitAt Token.isComma (tokens value) else [tokens value]

/-- Whether the words that a shorthand sorts can be written as they are read: the tokens of each are
steady, and those that a font glues can be glued. -/
structure Shorthand.ReadsSteadily (s : Shorthand) (value : String) : Prop where
  pieces : ∀ layer ∈ s.layerTokens value, ∀ piece ∈ Token.splitAt Token.isWhitespace layer,
    isSteady piece = true
  glued : s.name = "font" → Gluable (rowPieces (tokens value))

/-- Whether a pass can write what it reads of a value: taking apart its words, writing out defaults the
words that the shorthand sorts, and adding units the value as a whole. -/
def PassKind.ReadsSteadily (prop value : String) : PassKind → Prop
  | .longhands => ∀ piece ∈ Token.splitAt Token.isWhitespace (tokens value), isSteady piece = true
  | .defaults => ∀ s, Registry.standard.find? (Text.lower prop) = some s → s.ReadsSteadily value
  | .units => Token.listMisread (Token.ofChars value.toList) = false

theorem Compound.checkIntegers_of_check {s : Compound} {value : String}
    (h : s.check value = .ok ()) : checkIntegers value = .ok () := by
  cases s with
  | box name => exact h
  | columns => exact (bind_eq_ok.mp h).choose_spec.1
  | border b => exact (bind_eq_ok.mp h).choose_spec.1

/-- A value that is taken apart was read. -/
theorem of_run_longhands_replace {ignored : Ignored} {prop value : String}
    {pairs : List (String × String)}
    (h : (Revision.longhands ignored).run prop value = .ok (.replace pairs)) :
    checkIntegers value = .ok () ∧ ∃ s : Compound, s.takeApart value = .replace pairs := by
  obtain ⟨hcheck, hdecide⟩ := Revision.run_eq_ok.mp h
  obtain ⟨hprotected, s, hs, htake⟩ := takeApart_of_longhands hdecide
  change checkLonghands ignored prop value = .ok () at hcheck
  rw [checkLonghands, hprotected, hs] at hcheck
  exact ⟨s.checkIntegers_of_check hcheck, s, htake⟩

/-- A value that a family reads was scanned as a whole first. -/
theorem Shorthand.checkIntegers_of_check {s : Shorthand} {value completed : String}
    (h : s.check value = .ok ()) (hc : s.complete value = some completed) :
    checkIntegers value = .ok () := by
  have hlayers := (complete_eq_some.mp hc).1
  rw [check] at h
  cases hl : s.layered with
  | true =>
    cases hb : Text.isBlankText value with
    | true => simp [layersOf, hl, layers, hb] at hlayers
    | false =>
      rw [hl, hb] at h
      exact (bind_eq_ok.mp h).choose_spec.1
  | false =>
    have hone : s.layersOf value = [value] := by rw [layersOf, hl, if_neg Bool.false_ne_true]
    rw [hl, hone] at h
    exact (bind_eq_ok.mp h).choose_spec.1

/-- A value that is completed was read. -/
theorem of_run_defaults_replace {ignored : Ignored} {prop value : String}
    {pairs : List (String × String)}
    (h : (Revision.defaults .standard ignored).run prop value = .ok (.replace pairs)) :
    checkIntegers value = .ok () ∧ ∃ s completed,
      Registry.standard.find? (Text.lower prop) = some s ∧ s.complete value = some completed ∧
      pairs = [(Text.lower prop, completed)] := by
  obtain ⟨hcheck, hdecide⟩ := Revision.run_eq_ok.mp h
  obtain ⟨s, completed, hs, hcompleted, -, rfl⟩ := complete_eq_replace hdecide
  change checkComplete .standard ignored prop value = .ok () at hcheck
  rw [checkComplete, protectedBy?_of_complete hdecide, hs] at hcheck
  exact ⟨Shorthand.checkIntegers_of_check hcheck hcompleted, s, completed, hs, hcompleted, rfl⟩

/-! ## 2. Keywords -/

theorem isContained_openParts : ∀ w ∈ openParts, IsContained w := fun w hw =>
  have h := isLegible_openParts w hw
  ⟨_, (isWord_of_isLegible h.1).contained h.2⟩

/-- What completing puts in may also be glued: no slash is at its end. -/
theorem isPart_stockWords : ∀ w ∈ stockWords, IsPart w := by
  have hunended : (stockWords.all fun w => isUnended w && isSided w) = true := by
    rw [stockWords]
    cbv
  intro w hw
  have h := List.all_eq_true.mp hunended w hw
  simp only [isSided, Bool.and_eq_true, bne_iff_ne] at h
  have hcontained := (isWord_of_isLegible (isLegible_stockWords w hw).1).contained h.1
  exact ⟨_, hcontained.part h.2.2⟩

theorem stocked_isContained : Stocked IsContained where
  stock w hw := (isPart_stockWords w hw).isContained
  nonempty w hw := by
    obtain ⟨ts, hts⟩ := hw
    simpa [← String.toList_eq_nil_iff] using hts.ne_nil

/-! ## 3. Completed values -/

/-- What holds of everything that is related to an element of one list holds of the other list. -/
theorem forall_mem_of_forall₂ {α β : Type} {R : α → β → Prop} {p : β → Prop} {as : List α}
    {bs : List β} (h : List.Forall₂ R as bs) (hp : ∀ a ∈ as, ∀ b, R a b → p b) : ∀ b ∈ bs, p b := by
  induction h with
  | nil => exact List.forall_mem_nil p
  | cons hab _ ih =>
    rw [List.forall_mem_cons] at hp ⊢
    exact ⟨hp.1 _ hab, ih hp.2⟩

namespace Shorthand

variable {s : Shorthand} {value completed : String}

/-- Words that are contained are completed to contained values, whatever shorthand sorts them, as
long as it joins them by spaces. -/
theorem isContained_complete (hs : s ∈ Registry.standard) (hn : s.name ≠ "font")
    (hj : s.join = joinPresent)
    (hw : ∀ layer ∈ s.layersOf value, ∀ w ∈ words layer, IsContained w)
    (h : s.complete value = some completed) : IsContained completed := by
  obtain ⟨hne, slotss, hall, rfl⟩ := complete_eq_some.mp h
  have hrows : (slotss.map fun slots => s.join (s.fill slots)) =
      (slotss.map s.row).map spaced := by
    rw [hj, List.map_map]
    rfl
  rw [hrows]
  refine isContained_layered ?_ ?_
  · rintro hnil
    rw [List.map_eq_nil_iff] at hnil
    subst hnil
    exact hne (List.forall₂_nil_right_iff.mp hall)
  · rw [List.forall_mem_map]
    refine forall_mem_of_forall₂ hall fun layer hlayer slots hslots => ?_
    obtain ⟨hrow, hcontained, -⟩ := settles_standard hs hn stocked_isContained (hw layer hlayer) slots
      (slotsOfLayer?_eq_some.mp hslots).2.1
    exact ⟨hrow, hcontained⟩

end Shorthand

namespace Font

/-- The size with its line height is one part: a slash is put in where there is none, and what is put
in stands behind the slash that is there. -/
theorem isPart_sized {word : String} (h : IsPart word) :
    IsPart (beforeSlash word ++ "/" ++ (afterSlash? word).getD "normal") := by
  obtain ⟨ts, hword⟩ := h
  obtain ⟨us, hnormal⟩ := isPart_stockWords "normal" (by simp [stockWords])
  have hstar : "normal".toList.head? ≠ some '*' := by decide
  rcases slash_cases word with ⟨hbefore, hafter⟩ | ⟨hslash, hafter⟩ | ⟨rest, hafter, hrest⟩
  · have hhalf := part_slash.append_of_getLast hnormal rfl hstar
    have hsized := Part.append_of_head hword.toContained hhalf rfl
    exact ⟨_, by simpa [hbefore, hafter] using hsized⟩
  · have hlast : word.toList.getLast? = some '/' := by
      rw [hslash]
      simp
    have hsized := hword.append_of_getLast hnormal hlast hstar
    rw [hafter, Option.getD_none, ← hslash]
    exact ⟨_, by rwa [String.toList_append]⟩
  · rw [hafter, Option.getD_some, ← hrest]
    exact ⟨ts, hword⟩

/-- Nothing is sorted yet while only the size and what is behind it are known. -/
theorem sorted_sized (p : String → Prop) (word : String) (after : List String) :
    Sorted p (sized word after) (sized word after) := by
  constructor <;> simp [sized]

/-- A font is completed to a contained value, if its words glued at slashes are parts. -/
theorem isContained_join {ws : List String} (hw : ∀ w ∈ glueSlashes ws, IsPart w) {f : Font}
    (hf : ofWords? ws = some f) : IsContained (join (Shorthand.font.fill f.slots)) := by
  rcases unsized_or_sizedAt (glueSlashes ws) with hunsized | ⟨before, word, after, hcut⟩
  · have hnone := assign_of_unsized hunsized
    change (ofWords? ws).map slots = none at hnone
    rw [hf] at hnone
    cases hnone
  · rw [ofWords?_of_sizedAt hcut] at hf
    rw [hcut.eq] at hw
    obtain ⟨hbefore, hrest⟩ := List.forall_mem_append.mp hw
    rw [List.forall_mem_cons] at hrest
    have hstock : ∀ w ∈ stockWords, IsContained w := fun w hw => (isPart_stockWords w hw).isContained
    have hsorted : Sorted IsPart (sized word after) f :=
      foldlM_keeps (sorted_sized _ _ _)
        (fun hw hc ha => hc.add? (hbefore _ (List.mem_reverse.mp hw)) ha) hf
    have hslot : ∀ {slot : Option String} {kind : FontWord},
        (∀ w ∈ slot, IsPart w ∧ FontWord.ofWord? w = some kind) →
        IsContained (slot.getD "normal") := fun hslot =>
      getD_cases (fun w hw => (hslot w hw).1.isContained) (hstock _ (by simp [stockWords]))
    have hfamily : IsContained (f.family.getD "sans-serif") := by
      rw [hsorted.family, sized]
      cases after with
      | nil => exact hstock _ (by simp [stockWords])
      | cons w ws =>
        exact isContained_spaced (List.cons_ne_nil w ws) fun v hv => (hrest.2 v hv).isContained
    have htext : join (Shorthand.font.fill f.slots) = spaced [f.style.getD "normal",
        f.variant.getD "normal", f.weight.getD "normal", f.stretch.getD "normal",
        beforeSlash word ++ "/" ++ (afterSlash? word).getD "normal",
        f.family.getD "sans-serif"] := by
      rw [slots, hsorted.size, hsorted.lineHeight]
      rfl
    rw [htext]
    refine isContained_spaced (by simp) ?_
    simp only [List.forall_mem_cons]
    exact ⟨hslot hsorted.style, hslot hsorted.variant, hslot hsorted.weight, hslot hsorted.stretch,
      (isPart_sized hrest.1).isContained, hfamily, List.forall_mem_nil _⟩

theorem isContained_complete {value completed : String}
    (hw : ∀ w ∈ glueSlashes (words value), IsPart w)
    (h : Shorthand.font.complete value = some completed) : IsContained completed := by
  obtain ⟨-, slotss, hall, rfl⟩ := Shorthand.complete_eq_some.mp h
  have hlayers : Shorthand.font.layersOf value = [value] := rfl
  rw [hlayers, List.forall₂_cons_left_iff] at hall
  obtain ⟨slots, rest, hslots, hrest, rfl⟩ := hall
  obtain rfl := List.forall₂_nil_left_iff.mp hrest
  obtain ⟨f, hf, rfl⟩ := Option.map_eq_some_iff.mp (Shorthand.slotsOfLayer?_eq_some.mp hslots).2.1
  exact isContained_join hw hf

end Font

/-! ## 4. A font and a margin -/

/-- A font is completed once its words are sorted, if nothing that is read of them is overlong. -/
theorem run_font {value completed : String} {ws : List String} {slots : Slots}
    (hblank : Text.isBlankText value = false) (hwide : isWideKeyword value = false)
    (hw : words value = ws) (hne : ws ≠ []) (hassign : Shorthand.font.assign ws = some slots)
    (hlength : slots.length = 7) (hjoin : Font.join (Shorthand.font.fill slots) = completed)
    (hopen : completed ≠ value)
    (hread : ∀ text ∈ value :: (glueSlashes ws ++ (glueSlashes ws).map beforeSlash),
      checkIntegers text = .ok ()) :
    (Revision.defaults .standard .nothing).run "font" value = .ok (.replace [("font", completed)]) := by
  have hlower : Text.lower "font" = "font" := by cbv
  have hfind : Registry.standard.find? "font" = some .font := rfl
  have hnone : protectedBy? .nothing "font" value = none :=
    protectedBy?_eq_none (by cbv) rfl hblank hwide
  have hslots : Shorthand.font.slotsOfLayer? value = some slots :=
    Shorthand.slotsOfLayer?_eq_some.mpr ⟨hw ▸ hne, hw ▸ hassign, hlength⟩
  rw [List.forall_mem_cons] at hread
  have hreads : checkWords (Shorthand.font.reads (words value)) = .ok () := by
    rw [checkWords_eq_ok, hw]
    exact fun text htext => hread.2 text (Font.readParts_subset ws htext)
  have hcheck : Shorthand.font.check value = .ok () := by
    change Shorthand.font.checkLayers [value] = .ok ()
    rw [Shorthand.checkLayers, hread.1, hreads, hslots]
    rfl
  have hcompleted : Shorthand.font.complete value = some completed :=
    Shorthand.complete_eq_some.mpr ⟨List.cons_ne_nil value [], [slots], .cons hslots .nil, hjoin.symm⟩
  refine Revision.run_eq_ok.mpr ⟨?_, ?_⟩
  · change checkComplete .standard .nothing "font" value = .ok ()
    rw [checkComplete, hnone, hlower, hfind]
    exact hcheck
  · change complete .standard .nothing "font" value = _
    rw [complete, hnone, hlower]
    simp only [hfind, hcompleted, hopen, if_false]

/-- A margin is taken apart by its words, if nothing that is read of it is overlong. -/
theorem run_margin_of_sides {value : String} {sides : Sides} (hi : checkIntegers value = .ok ())
    (hblank : Text.isBlankText value = false) (hwide : isWideKeyword value = false)
    (hw : Sides.ofWords? (words value) = some sides) :
    (Revision.longhands .nothing).run "margin" value =
      .ok (.replace (sides.toList.map fun s => ("margin" ++ "-" ++ s.1.name, s.2))) := by
  have hlower : Text.lower "margin" = "margin" := by cbv
  have hname : Compound.ofName? "margin" = some (.box "margin") := rfl
  have hnone : protectedBy? .nothing "margin" value = none :=
    protectedBy?_eq_none (by cbv) rfl hblank hwide
  refine Revision.run_eq_ok.mpr ⟨?_, ?_⟩
  · change checkLonghands .nothing "margin" value = .ok ()
    rw [checkLonghands, hnone, hlower, hname]
    exact hi
  · change longhands .nothing "margin" value = _
    rw [longhands, hnone, hlower]
    simp only [hname]
    rw [Compound.takeApart, boxLonghands, hw]

/-! ## 5. The passes -/

section Passes

variable {ignored : Ignored} {prop value : String} {pairs : List (String × String)}
  (hv : SelfContained value)
include hv

theorem selfContained_longhands
    (hs : ∀ piece ∈ Token.splitAt Token.isWhitespace (tokens value), isSteady piece = true)
    (h : (Revision.longhands ignored).run prop value = .ok (.replace pairs)) :
    ∀ q ∈ pairs, SelfContained q.2 := by
  obtain ⟨hi, s, htake⟩ := of_run_longhands_replace h
  have hcontained : ∀ {w : String}, IsContained w → SelfContained w := fun ⟨_, hw⟩ => hw.selfContained
  intro q hq
  rcases mem_of_takeApart htake q hq with hvalue | hword | hopen
  · exact hvalue ▸ hv
  · exact hcontained (isContained_of_mem_words hv hi hs q.2 hword)
  · exact hcontained (isContained_openParts q.2 hopen)

/-- The words of the layers that a shorthand classifies are contained. -/
theorem isContained_of_mem_layersOf {s : Shorthand} (hi : checkIntegers value = .ok ())
    (hs : s.ReadsSteadily value) : ∀ layer ∈ s.layersOf value, ∀ w ∈ words layer, IsContained w := by
  have hpieces := hs.pieces
  rw [Shorthand.layerTokens] at hpieces
  rw [Shorthand.layersOf]
  split
  · next hl =>
    rw [if_pos hl] at hpieces
    exact isContained_of_mem_layers hv hi hpieces
  · next hl =>
    rw [if_neg hl, List.forall_mem_singleton] at hpieces
    rw [List.forall_mem_singleton]
    exact isContained_of_mem_words hv hi hpieces

/-- The completed value of a family is contained, since its words are and so is what the defaults
bring. -/
theorem selfContained_complete
    (hs : ∀ s, Registry.standard.find? (Text.lower prop) = some s → s.ReadsSteadily value)
    (h : (Revision.defaults .standard ignored).run prop value = .ok (.replace pairs)) :
    ∀ q ∈ pairs, SelfContained q.2 := by
  obtain ⟨hi, s, completed, hfind, hcompleted, rfl⟩ := of_run_defaults_replace h
  have hsteady := hs s hfind
  have hmem := List.mem_of_find?_eq_some hfind
  rw [List.forall_mem_singleton]
  obtain ⟨ts, hts⟩ : IsContained completed := by
    rcases Shorthand.font_or_joinPresent hmem with rfl | ⟨hn, hj⟩
    · have hpieces := List.forall_mem_singleton.mp hsteady.pieces
      exact Font.isContained_complete (isPart_of_mem_glueSlashes hv hi hpieces (hsteady.glued rfl))
        hcompleted
    · exact Shorthand.isContained_complete hmem hn hj (isContained_of_mem_layersOf hv hi hsteady)
        hcompleted
  exact hts.selfContained

theorem selfContained_withUnits (hs : Token.listMisread (Token.ofChars value.toList) = false)
    (h : (Revision.units ignored).run prop value = .ok (.replace pairs)) :
    ∀ q ∈ pairs, SelfContained q.2 := by
  obtain ⟨-, -, hi, kept, hkept, -, rfl⟩ := of_run_units_replace h
  rw [List.forall_mem_singleton]
  exact selfContained_units _ hv (Token.settled_parse hi hv.faultless hs)
    (List.map_fst_zip (Nat.le_of_eq (length_keptTokens? hkept).symm))

end Passes

/-- Every value that a pass puts in the place of a self-contained one is self-contained, if the tokens
that the pass reads of it are read back as they are written.

The text of the value decides, not the words that the pass makes of it. That a word ends where it is
written to end, whatever is joined to it, is shown on the way; it would be little to ask for it and then
to find it in the result. -/
theorem selfContained_of_replace {kind : PassKind} {ignored : Ignored} {prop value : String}
    {pairs : List (String × String)} (hv : SelfContained value) (hs : kind.ReadsSteadily prop value)
    (h : (kind.revision ignored).run prop value = .ok (.replace pairs)) :
    ∀ q ∈ pairs, SelfContained q.2 := by
  cases kind with
  | longhands => exact selfContained_longhands hv hs h
  | defaults => exact selfContained_complete hv hs h
  | units => exact selfContained_withUnits hv hs h

/-- A size and a line height with a slash between them that is set off by spaces. -/
theorem selfContained_of_replace_font :
    SelfContained "12px / 1.5 a" ∧ PassKind.defaults.ReadsSteadily "font" "12px / 1.5 a" ∧
      (PassKind.defaults.revision .nothing).run "font" "12px / 1.5 a" =
        .ok (.replace [("font", "normal normal normal normal 12px/1.5 a")]) ∧
      ∀ q ∈ [("font", "normal normal normal normal 12px/1.5 a")], SelfContained q.2 := by
  have hv : SelfContained "12px / 1.5 a" :=
    ⟨by cbv, isSemicolon_of_isUnended (by cbv), by cbv⟩
  have hsteady : PassKind.defaults.ReadsSteadily "font" "12px / 1.5 a" := by
    have hlower : Text.lower "font" = "font" := by cbv
    have hpieces : (Token.splitAt Token.isWhitespace (tokens "12px / 1.5 a")).all isSteady = true := by
      cbv
    have hslash : ((rowPieces (tokens "12px / 1.5 a")).all fun piece =>
        (Token.listWritten piece).getLast? != some '/' ||
          piece.getLast?.all (·.isLiteral ['/'])) = true := by cbv
    have hwritten : (rowPieces (tokens "12px / 1.5 a")).map Token.listWritten =
        [['1', '2', 'p', 'x'], ['/'], ['1', '.', '5'], ['a']] := by cbv
    intro s hs
    rw [hlower] at hs
    obtain rfl : Shorthand.font = s := Option.some.inj hs
    refine ⟨List.forall_mem_singleton.mpr (List.all_eq_true.mp hpieces), fun _ => ⟨?_, ?_⟩⟩
    · intro piece hpiece hlast
      have h := List.all_eq_true.mp hslash piece hpiece
      rw [hlast] at h
      simpa [Option.all_eq_true] using h
    · rw [hwritten]
      simp [OpensNothing]
  have hrun : (PassKind.defaults.revision .nothing).run "font" "12px / 1.5 a" =
      .ok (.replace [("font", "normal normal normal normal 12px/1.5 a")]) := by
    have hglued : glueSlashes ["12px", "/", "1.5", "a"] = ["12px/1.5", "a"] := by decide
    have hbefore : beforeSlash "12px/1.5" = "12px" := by decide
    have hcut : Font.SizedAt (glueSlashes ["12px", "/", "1.5", "a"]) [] "12px/1.5" ["a"] := by
      refine ⟨hglued, ?_, List.forall_mem_singleton.mpr (by cbv)⟩
      rw [hbefore]
      cbv
    refine run_font (by cbv) (by cbv) (by cbv) (List.cons_ne_nil "12px" ["/", "1.5", "a"])
      (Font.assign_of_sizedAt hcut) rfl (by decide) (by decide) ?_
    have hparts : (glueSlashes ["12px", "/", "1.5", "a"]).map beforeSlash = ["12px", "a"] := by
      decide
    rw [hparts, hglued]
    simp only [List.cons_append, List.nil_append, List.forall_mem_cons]
    exact ⟨by cbv, by cbv, by cbv, by cbv, by cbv, List.forall_mem_nil _⟩
  exact ⟨hv, hsteady, hrun, selfContained_of_replace hv hsteady hrun⟩

/-- A word that ends in an escaped tab loses the tab with the blanks after it. What is left ends in a
backslash, which takes the semicolon. -/
theorem longhands_escapedTab :
    SelfContained "1px\\9  2px" ∧
      (PassKind.longhands.revision .nothing).run "margin" "1px\\9  2px" =
        .ok (.replace [("margin-top", "1px\\"), ("margin-right", "2px"),
          ("margin-bottom", "1px\\"), ("margin-left", "2px")]) ∧
      ¬ SelfContained "1px\\" := by
  have hwords : words "1px\\9  2px" = ["1px\\", "2px"] := by cbv
  refine ⟨⟨by cbv, isSemicolon_of_isUnended (by cbv), by cbv⟩, ?_, fun h => ?_⟩
  · exact run_margin_of_sides (by cbv) (by cbv) (by cbv) (congrArg Sides.ofWords? hwords)
  · have hlength := congrArg List.length h.closed
    have hclosed : (Token.ofChars ("1px\\".toList ++ [';'])).length = 1 := by cbv
    rw [hclosed, List.length_append, List.length_singleton] at hlength
    have hopen : (Token.ofChars "1px\\".toList).length = 1 := by cbv
    omega

end CssExpand
