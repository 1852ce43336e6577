import CssExpand.Proofs.Longhands.Units
import CssExpand.Proofs.Shorthand.Families
import CssExpand.Proofs.Shorthand.Interleaved
import CssExpand.Proofs.Shorthand.Rows
import Mathlib

/-!
# Words that stay in their slots

A shorthand goes by what its words are. If every word is changed into one that is the same to the
shorthand, the changed words are in the slots that the words were in (`Shorthand.SortsAlike`). For
animations and transitions that is the closed form of their slots, which are told from the words of
each kind. A box shadow and an outline are followed word by word.
-/

set_option autoImplicit false

namespace CssExpand

open Syntax Value

/-- Words that are changed by `g` are sorted into the slots that they were in. -/
def Shorthand.SortsAlike (s : Shorthand) (g : String → String) (ws : List String) : Prop :=
  s.assign (ws.map g) = (s.assign ws).map (List.map (Option.map g))

variable {g : String → String} {ws : List String}

/-! ## 1. Single layers -/

/-- The words of a kind are changed like all others if none becomes one of another kind. -/
theorem ofKind_map {κ : Type} [DecidableEq κ] {kind : String → κ}
    (h : ∀ w ∈ ws, kind (g w) = kind w) (k : κ) :
    ofKind kind k (ws.map g) = (ofKind kind k ws).map g := by
  rw [ofKind, List.filter_map, ofKind]
  congr 1
  exact List.filter_congr fun w hw => by rw [Function.comp_apply, h w hw]

theorem Shorthand.sortsAlike_animation
    (h : ∀ w ∈ ws, AnimationWord.ofWord (g w) = AnimationWord.ofWord w) :
    Shorthand.animation.SortsAlike g ws := by
  have hkinds := funext fun k => ofKind_map h k
  refine congrArg some ?_
  rw [Animation.ofWords_eq_ofKinds, Animation.ofWords_eq_ofKinds, hkinds]
  simp only [Animation.ofKinds, Animation.slots, List.getLast?_map, List.head?_map, List.length_map,
    List.map_cons, List.map_nil]
  split <;> rfl

theorem Shorthand.sortsAlike_transition
    (h : ∀ w ∈ ws, TransitionWord.ofWord (g w) = TransitionWord.ofWord w) :
    Shorthand.transition.SortsAlike g ws := by
  have hkinds := funext fun k => ofKind_map h k
  refine congrArg some ?_
  rw [Transition.ofWords_eq_ofKinds, Transition.ofWords_eq_ofKinds, hkinds]
  simp only [Transition.ofKinds, Transition.slots, List.getLast?_map, List.head?_map,
    List.length_map, List.map_cons, List.map_nil]
  split <;> rfl

theorem Shorthand.sortsAlike_gap (g : String → String) (ws : List String) :
    Shorthand.gap.SortsAlike g ws := by
  match ws with
  | [] | [_] | [_, _] => rfl
  | _ :: _ :: _ :: _ => rfl

namespace Shadow

/-- A shadow with other words. -/
def mapWords (g : String → String) (s : Shadow) : Shadow :=
  ⟨s.lengths.map g, s.color.map g, s.inset⟩

theorem add_mapWords (s : Shadow) {w : String}
    (hinset : isOneOf ["inset"] (g w) = isOneOf ["inset"] w)
    (hnumber : yieldsNumber (g w) = yieldsNumber w) :
    (s.mapWords g).add (g w) = (s.add w).mapWords g := by
  rw [add, add, hinset, hnumber, mapWords, List.length_map]
  split
  · rfl
  · split
    · simp [mapWords]
    · rfl

theorem foldl_map (h : ∀ w ∈ ws, isOneOf ["inset"] (g w) = isOneOf ["inset"] w ∧
      yieldsNumber (g w) = yieldsNumber w) (s : Shadow) :
    (ws.map g).foldl add (s.mapWords g) = (ws.foldl add s).mapWords g := by
  induction ws generalizing s with
  | nil => rfl
  | cons w ws ih =>
    rw [List.forall_mem_cons] at h
    rw [List.map_cons, List.foldl_cons, List.foldl_cons, s.add_mapWords h.1.1 h.1.2, ih h.2]

/-- The switch is written by the shorthand itself. -/
theorem slots_mapWords (hinset : g "inset" = "inset") (s : Shadow) :
    (s.mapWords g).slots = s.slots.map (Option.map g) := by
  obtain ⟨lengths, color, inset⟩ := s
  cases inset <;> simp [slots, mapWords, hinset]

end Shadow

/-- The questions that the sorting of a shadow asks of a word. -/
theorem Shorthand.sortsAlike_boxShadow (hswitch : g "inset" = "inset")
    (h : ∀ w ∈ ws, isOneOf ["none"] (g w) = isOneOf ["none"] w ∧
      isOneOf ["inset"] (g w) = isOneOf ["inset"] w ∧ yieldsNumber (g w) = yieldsNumber w) :
    Shorthand.boxShadow.SortsAlike g ws := by
  have hwords : Shadow.ofWords? (ws.map g) = (Shadow.ofWords? ws).map (Shadow.mapWords g) := by
    have hfold := Shadow.foldl_map (fun w hw => (h w hw).2) {}
    match ws, h with
    | [], _ => rfl
    | [w], h =>
      rw [List.map_singleton, Shadow.ofWords?, Shadow.ofWords?, (h w List.mem_cons_self).1]
      split
      · rfl
      · exact congrArg some hfold
    | _ :: _ :: _, _ => exact congrArg some hfold
  show (Shadow.ofWords? (ws.map g)).map Shadow.slots = _
  rw [hwords, Option.map_map]
  show _ = ((Shadow.ofWords? ws).map Shadow.slots).map _
  rw [Option.map_map]
  exact congrArg (Option.map · _) (funext fun s => Shadow.slots_mapWords hswitch s)

/-- The questions that the sorting of an outline asks of a word. -/
theorem Shorthand.sortsAlike_outline (h : ∀ w ∈ ws,
      isOneOf wideKeywords (g w) = isOneOf wideKeywords w ∧
      isOneOf ["auto"] (g w) = isOneOf ["auto"] w ∧ BorderPart.ofWord (g w) = BorderPart.ofWord w) :
    Shorthand.outline.SortsAlike g ws := by
  have hfind : (ws.map g).find? (isOneOf wideKeywords) =
      (ws.find? (isOneOf wideKeywords)).map g := by
    rw [List.find?_map]
    congr 1
    exact List.find?_congr fun w hw => (h w hw).1
  have hautos : (ws.map g).filter (isOneOf ["auto"]) = (ws.filter (isOneOf ["auto"])).map g := by
    rw [List.filter_map]
    congr 1
    exact List.filter_congr fun w hw => (h w hw).2.1
  have hothers : (ws.map g).filter (!isOneOf ["auto"] ·) =
      (ws.filter (!isOneOf ["auto"] ·)).map g := by
    rw [List.filter_map]
    congr 1
    exact List.filter_congr fun w hw => by rw [Function.comp_apply, (h w hw).2.1]
  have hline : Border.ofWords ((ws.filter (!isOneOf ["auto"] ·)).map g) =
      (Border.ofWords (ws.filter (!isOneOf ["auto"] ·))).mapWords g :=
    Border.ofWords_map fun w hw =>
      ⟨(h w (List.mem_of_mem_filter hw)).1, (h w (List.mem_of_mem_filter hw)).2.2⟩
  show outlineSlots (ws.map g) = (outlineSlots ws).map _
  rw [outlineSlots, outlineSlots, hfind]
  cases ws.find? (isOneOf wideKeywords) with
  | some keyword => rfl
  | none =>
    simp only [Option.map_none, hautos, hothers, hline, List.length_map, List.isEmpty_map,
      List.head?_map, Border.mapWords, Option.isSome_map]
    split
    · rfl
    · simp [Option.map_or]

/-! ## 2. Whole values -/

namespace Shorthand

variable {s : Shorthand} {value value' : String}

/-- So a layer of words that are answered for alike has the same slots, with each word mapped. -/
theorem slotsOfLayer?_map {layer layer' : String} (hw : words layer' = (words layer).map g)
    (h : s.SortsAlike g (words layer)) :
    s.slotsOfLayer? layer' = (s.slotsOfLayer? layer).map (List.map (Option.map g)) := by
  rw [slotsOfLayer?, slotsOfLayer?, hw]
  rw [SortsAlike] at h
  cases hwords : words layer with
  | nil => rfl
  | cons w ws =>
    rw [hwords] at h
    rw [List.map_cons] at h ⊢
    dsimp only
    rw [h]
    cases s.assign (w :: ws) with
    | none => rfl
    | some slots =>
      simp only [Option.map_some, Option.filter_some, List.length_map]
      split <;> rfl

/-- A value with other words in its layers has these in the same slots. -/
theorem layerSlots?_map (hwords : (s.layersOf value').map words =
      (s.layersOf value).map fun layer => (words layer).map g)
    (h : ∀ layer ∈ s.layersOf value, s.SortsAlike g (words layer)) :
    s.layerSlots? value' = (s.layerSlots? value).map (List.map (List.map (Option.map g))) := by
  have hall : ∀ {ls ls' : List String}, (∀ layer ∈ ls, s.SortsAlike g (words layer)) →
      ls'.map words = (ls.map fun layer => (words layer).map g) →
      ls'.mapM s.slotsOfLayer? =
        (ls.mapM s.slotsOfLayer?).map (List.map (List.map (Option.map g))) := by
    intro ls ls' h hwords
    induction ls generalizing ls' with
    | nil => rw [List.map_eq_nil_iff.mp hwords]; rfl
    | cons layer ls ih =>
      rw [List.forall_mem_cons] at h
      obtain ⟨layer', ls', rfl, hlayer, hls⟩ := List.map_eq_cons_iff.mp hwords
      rw [List.mapM_cons, List.mapM_cons, slotsOfLayer?_map hlayer h.1, ih h.2 hls]
      cases s.slotsOfLayer? layer with
      | none => rfl
      | some slots => cases ls.mapM s.slotsOfLayer? <;> rfl
  have hmapM := hall h hwords
  rw [layerSlots?, layerSlots?]
  cases hl : s.layersOf value with
  | nil =>
    rw [hl] at hwords
    rw [List.map_eq_nil_iff.mp hwords]
    rfl
  | cons layer ls =>
    rw [hl] at hwords hmapM
    obtain ⟨layer', ls', hl', -, -⟩ := List.map_eq_cons_iff.mp hwords
    rw [hl'] at hmapM ⊢
    exact hmapM

theorem isSome_slotsOfLayer? {layer : String} : (s.slotsOfLayer? layer).isSome ↔
    words layer ≠ [] ∧ (s.assign (words layer)).map List.length = some s.slots.length := by
  simp only [Option.isSome_iff_exists, slotsOfLayer?_eq_some, Option.map_eq_some_iff]
  constructor
  · rintro ⟨slots, hne, hassign, hlength⟩
    exact ⟨hne, slots, hassign, hlength⟩
  · rintro ⟨hne, slots, hassign, hlength⟩
    exact ⟨slots, hne, hassign, hlength⟩

/-- Whether a value is classified depends on the words of its layers only. -/
theorem isSome_layerSlots? : (s.layerSlots? value).isSome ↔ (s.layersOf value).map words ≠ [] ∧
    ∀ ws ∈ (s.layersOf value).map words,
      ws ≠ [] ∧ (s.assign ws).map List.length = some s.slots.length := by
  have hall : ∀ ls : List String, (ls.mapM s.slotsOfLayer?).isSome ↔
      ∀ layer ∈ ls, (s.slotsOfLayer? layer).isSome := by
    intro ls
    induction ls with
    | nil => exact iff_of_true rfl (List.forall_mem_nil _)
    | cons layer ls ih =>
      rw [List.mapM_cons, List.forall_mem_cons, ← ih]
      cases s.slotsOfLayer? layer with
      | none => simp
      | some slots => cases ls.mapM s.slotsOfLayer? <;> simp
  rw [layerSlots?, List.forall_mem_map]
  simp only [← isSome_slotsOfLayer?, ← hall]
  cases s.layersOf value <;> simp

/-- A value that is not classified is not classified with other words either, if as many slots are
assigned to these. -/
theorem complete_eq_none_of_length (hwords : (s.layersOf value').map words =
      (s.layersOf value).map fun layer => (words layer).map g)
    (h : ∀ layer ∈ s.layersOf value, (s.assign ((words layer).map g)).map List.length =
      (s.assign (words layer)).map List.length) (hnone : s.complete value = none) :
    s.complete value' = none := by
  rw [complete, Option.map_eq_none_iff, ← Option.not_isSome_iff_eq_none, isSome_layerSlots?] at hnone ⊢
  refine fun hsome => hnone ?_
  rw [hwords, List.forall_mem_map] at hsome
  refine ⟨by simpa using hsome.1, List.forall_mem_map.mpr fun layer hlayer => ?_⟩
  obtain ⟨hne, hassign⟩ := hsome.2 layer hlayer
  exact ⟨by simpa using hne, (h layer hlayer).symm.trans hassign⟩

/-- Slots that are left open are filled with what `g` leaves alone. -/
def OpenAlike (s : Shorthand) (g : String → String) (slots : Slots) : Prop :=
  ∀ slot ∈ slots.zip s.defaults, slot.1 = none → g slot.2 = slot.2

/-- Slots that are open are filled with defaults, and no map reaches these. That is why the map has to
leave the defaults of the open slots alone. -/
theorem fill_map {slots : Slots} (h : s.OpenAlike g slots) :
    s.fill (slots.map (Option.map g)) = (s.fill slots).map g := by
  rw [OpenAlike] at h
  rw [fill, fill]
  generalize s.defaults = defaults at h
  induction slots generalizing defaults with
  | nil => rfl
  | cons slot slots ih =>
    cases defaults with
    | nil => rfl
    | cons default defaults =>
      rw [List.zip_cons_cons, List.forall_mem_cons] at h
      rw [List.map_cons, List.zipWith_cons_cons, List.zipWith_cons_cons, List.map_cons, ih _ h.2]
      cases slot with
      | none => exact congrArg (· :: _) (h.1 rfl).symm
      | some w => rfl

theorem row_map {slots : Slots} (h : s.OpenAlike g slots)
    (hg : ∀ w ∈ s.fill slots, (g w).isEmpty = w.isEmpty) :
    s.row (slots.map (Option.map g)) = (s.row slots).map g := by
  rw [row, fill_map h, List.filter_map, row]
  congr 1
  exact List.filter_congr fun w hw => by rw [Function.comp_apply, hg w hw]

/-! ## 3. Rows -/

/-- A row of words that is what is written for its own slots. Sorting such a row once more gives what
there was, and that is all that adding units has to respect. -/
structure IsRow (s : Shorthand) (row : List String) (slots : Slots) : Prop where
  ne_nil : row ≠ []
  assign : s.assign row = some slots
  length : slots.length = s.slots.length
  row_eq : s.row slots = row

theorem IsRow.map {row : List String} {slots : Slots} (h : s.IsRow row slots)
    (ha : s.SortsAlike g row) (ho : s.OpenAlike g slots)
    (hg : ∀ w ∈ s.fill slots, (g w).isEmpty = w.isEmpty) :
    s.IsRow (row.map g) (slots.map (Option.map g)) where
  ne_nil := by simpa using h.ne_nil
  assign := by rw [ha, h.assign, Option.map_some]
  length := by rw [List.length_map, h.length]
  row_eq := by rw [row_map ho hg, h.row_eq]

/-- A value whose layers are rows is complete. -/
theorem complete_of_isRow (hj : s.join = joinPresent) {rows : List (List String)} (hne : rows ≠ [])
    (hwords : (s.layersOf value).map words = rows) (h : ∀ row ∈ rows, ∃ slots, s.IsRow row slots) :
    s.complete value = some (Value.layered rows) := by
  have hslots : ∀ {ls : List String} {rows : List (List String)}, ls.map words = rows →
      (∀ row ∈ rows, ∃ slots, s.IsRow row slots) → ∃ slotss,
        List.Forall₂ (fun layer slots => s.slotsOfLayer? layer = some slots) ls slotss ∧
          (slotss.map fun slots => s.join (s.fill slots)) = rows.map spaced := by
    intro ls rows hwords h
    induction ls generalizing rows with
    | nil => exact ⟨[], .nil, by rw [← hwords]; rfl⟩
    | cons layer ls ih =>
      rw [List.map_cons] at hwords
      subst hwords
      rw [List.forall_mem_cons] at h
      obtain ⟨slots, hrow⟩ := h.1
      obtain ⟨slotss, hall, hjoins⟩ := ih rfl h.2
      refine ⟨slots :: slotss, .cons (slotsOfLayer?_eq_some.mpr ⟨hrow.ne_nil, hrow.assign,
        hrow.length⟩) hall, ?_⟩
      have hspaced : s.join (s.fill slots) = spaced (words layer) := by
        rw [hj, ← hrow.row_eq]
        rfl
      rw [List.map_cons, List.map_cons, hjoins, hspaced]
  obtain ⟨slotss, hall, hjoins⟩ := hslots hwords h
  refine complete_eq_some.mpr ⟨?_, slotss, hall, by rw [hjoins]; rfl⟩
  rintro hnil
  rw [hnil] at hwords
  exact hne hwords.symm

/-- What is written for the words of a layer is a row. -/
theorem exists_isRow (hs : s ∈ Registry.standard) (hn : s.name ≠ "font") {p : String → Prop}
    (hp : Admits p) {layer : String} (hw : ∀ w ∈ words layer, s.Writes p w) {slots : Slots}
    (h : s.slotsOfLayer? layer = some slots) : (∀ w ∈ s.row slots, s.Writes p w) ∧
      ∃ slots', s.IsRow (s.row slots) slots' := by
  obtain ⟨-, hassign, hlength⟩ := slotsOfLayer?_eq_some.mp h
  obtain ⟨hne, hwrites, slots', hassign', hlength', hfill⟩ :=
    settles_standard hs hn (stocked_writes hp s) hw slots hassign
  exact ⟨hwrites, slots', hne, hassign', hlength'.trans hlength, by rw [row, hfill, ← row]⟩

/-- Rows of words that are written for the layers of a value. -/
structure Completes (s : Shorthand) (p : String → Prop) (value : String) (rows : List (List String)) :
    Prop where
  ne_nil : rows ≠ []
  writes : ∀ row ∈ rows, ∀ w ∈ row, s.Writes p w
  isRow : ∀ row ∈ rows, ∃ slots, s.IsRow row slots
  origin : ∀ row ∈ rows, ∃ layer ∈ s.layersOf value, ∃ slots,
    s.slotsOfLayer? layer = some slots ∧ s.row slots = row
  layersOf : s.layersOf (Value.layered rows) = rows.map spaced

/-- A completed value is written in rows, and these are its layers. -/
theorem exists_completes (hs : s ∈ Registry.standard) (hn : s.name ≠ "font")
    {p : String → Prop} (hp : Admits p)
    (hw : ∀ layer ∈ s.layersOf value, ∀ w ∈ words layer, s.Writes p w) {completed : String}
    (h : s.complete value = some completed) :
    ∃ rows, s.Completes p value rows ∧ completed = Value.layered rows := by
  have hj := ((font_or_joinPresent hs).resolve_left (by rintro rfl; exact hn rfl)).2
  obtain ⟨hne, slotss, hall, rfl⟩ := complete_eq_some.mp h
  -- each row is filled from the slots of one layer of the value
  have horigin : ∀ row ∈ slotss.map s.row, ∃ layer ∈ s.layersOf value, ∃ slots,
      s.slotsOfLayer? layer = some slots ∧ s.row slots = row := by
    rw [List.forall_mem_map]
    intro slots hslots
    obtain ⟨i, hi, rfl⟩ := List.getElem_of_mem hslots
    have hlength := hall.length_eq
    exact ⟨_, List.getElem_mem (hlength ▸ hi), _, hall.get (hlength ▸ hi) hi, rfl⟩
  have hrows : ∀ row ∈ slotss.map s.row, (∀ w ∈ row, s.Writes p w) ∧ ∃ slots, s.IsRow row slots := by
    intro row hrow
    obtain ⟨layer, hlayer, slots, hslots, rfl⟩ := horigin row hrow
    exact exists_isRow hs hn hp (hw layer hlayer) hslots
  have hlength : (slotss.map s.row).length = (s.layersOf value).length := by
    rw [List.length_map, hall.length_eq]
  have hjoins : ", ".intercalate (slotss.map fun slots => s.join (s.fill slots)) =
      Value.layered (slotss.map s.row) := by
    rw [Value.layered, List.map_map, hj]
    rfl
  rw [hjoins]
  generalize slotss.map s.row = rows at hrows horigin hlength
  have hrne : rows ≠ [] := by
    rintro rfl
    exact hne (List.length_eq_zero_iff.mp hlength.symm)
  refine ⟨rows, ⟨hrne, fun row hrow => (hrows row hrow).1, fun row hrow => (hrows row hrow).2, horigin,
    ?_⟩, rfl⟩
  rw [Shorthand.layersOf] at hlength ⊢
  cases hlayered : s.layered with
  | true =>
    refine layers_layered hrne fun row hmem => ?_
    obtain ⟨hwrites, slots, hrow⟩ := hrows row hmem
    exact ⟨hrow.ne_nil, fun w hw => ⟨(hwrites w hw).1, (hwrites w hw).2.1 hlayered⟩⟩
  | false =>
    rw [hlayered] at hlength
    obtain ⟨row, rfl⟩ := List.length_eq_one_iff.mp hlength
    simp [Value.layered]

namespace Completes

variable {p : String → Prop} {rows : List (List String)} (h : s.Completes p value rows)
include h

theorem words_eq : (s.layersOf (Value.layered rows)).map words = rows := by
  rw [h.layersOf, List.map_map]
  refine (List.map_congr_left fun row hrow => ?_).trans (List.map_id rows)
  exact words_spaced fun w hw => (h.writes row hrow w hw).1

/-- Rows of words that are changed alike are complete, and the words are in the slots that they were
in. -/
theorem complete_map (hj : s.join = joinPresent) (hempty : g "" = "")
    (hg : ∀ row ∈ rows, (∀ w ∈ row, (g w).isEmpty = false) ∧ s.SortsAlike g row)
    (ho : ∀ row ∈ rows, ∀ slots, s.IsRow row slots → s.OpenAlike g slots)
    (hwords : (s.layersOf value').map words = rows.map (List.map g)) :
    s.complete value' = some (Value.layered (rows.map (List.map g))) ∧
      s.layerSlots? value' =
        (s.layerSlots? (Value.layered rows)).map (List.map (List.map (Option.map g))) := by
  refine ⟨s.complete_of_isRow hj (by simpa using h.ne_nil) hwords ?_, layerSlots?_map ?_ ?_⟩
  · rw [List.forall_mem_map]
    intro row hrow
    obtain ⟨slots, hslots⟩ := h.isRow row hrow
    refine ⟨_, hslots.map (hg row hrow).2 (ho row hrow slots hslots) fun w hw => ?_⟩
    cases hw' : w.isEmpty with
    | true => rw [String.isEmpty_iff.mp hw', hempty]; rfl
    | false =>
      have hmem : w ∈ row := by
        rw [← hslots.row_eq]
        exact List.mem_filter.mpr ⟨hw, by rw [hw']; rfl⟩
      exact (hg row hrow).1 w hmem
  · calc (s.layersOf value').map words
        = rows.map (List.map g) := hwords
      _ = ((s.layersOf (Value.layered rows)).map words).map (List.map g) := by rw [h.words_eq]
      _ = _ := List.map_map ..
  · rw [h.layersOf, List.forall_mem_map]
    intro row hrow
    rw [words_spaced fun w hw => (h.writes row hrow w hw).1]
    exact (hg row hrow).2

end Completes

end Shorthand

namespace Shadow

/-- Once there are four lengths, no word is one more. -/
theorem lengths_foldl_of_full {s : Shadow} (h : s.lengths.length = maxLengths) (ws : List String) :
    (ws.foldl add s).lengths = s.lengths := by
  induction ws generalizing s with
  | nil => rfl
  | cons w ws ih =>
    have hw : (s.add w).lengths = s.lengths := by
      rw [lengths_add, if_neg]
      omega
    rw [List.foldl_cons, ih (hw ▸ h), hw]

end Shadow

/-- In a row of a box shadow only the switch may be left out. -/
theorem Shorthand.openAlike_boxShadow {row : List String} {slots : Slots}
    (h : Shorthand.boxShadow.IsRow row slots) (hne : ∀ w ∈ row, w.isEmpty = false)
    (hcolor : g "currentcolor" = "currentcolor") (hempty : g "" = "") :
    Shorthand.boxShadow.OpenAlike g slots := by
  obtain ⟨shadow, hshadow, rfl⟩ := Option.map_eq_some_iff.mp h.assign
  have hsorted := Shadow.sorted_ofWords? hne hshadow
  have hzero : "0".isEmpty = false ∧ isOneOf ["inset"] "0" = false ∧ yieldsNumber "0" = true :=
    ⟨rfl, by cbv, by cbv⟩
  obtain ⟨a, b, c, d, habcd, hfill⟩ := Shadow.exists_fill hsorted.room hsorted.lengths hzero
  simp only [List.forall_mem_cons] at habcd
  obtain ⟨⟨ha, hai, han⟩, ⟨hb, hbi, hbn⟩, ⟨hc, hci, hcn⟩, ⟨hd, hdi, hdn⟩, -⟩ := habcd
  -- the row starts with four lengths, and these are the lengths that it is sorted into
  have hlengths : shadow.lengths = [a, b, c, d] := by
    have hrow := h.row_eq
    rw [Shorthand.row, hfill] at hrow
    simp only [List.filter_cons, ha, hb, hc, hd, Bool.not_false, if_true] at hrow
    rw [← Shadow.foldl_of_ofWords? hshadow, ← hrow]
    simp only [List.foldl_cons, Shadow.add, hai, han, hbi, hbn, hci, hcn, hdi, hdn]
    exact Shadow.lengths_foldl_of_full rfl _
  obtain ⟨lengths, color, inset⟩ := shadow
  obtain rfl : lengths = [a, b, c, d] := hlengths
  change ∀ slot ∈ [(some a, "0"), (some b, "0"), (some c, "0"), (some d, "0"),
    (color, "currentcolor"), (if inset then some "inset" else none, "")], _
  simp only [List.forall_mem_cons]
  have hfull : ∀ {w : String} {P : Prop}, some w = none → P :=
    fun h => absurd h (Option.some_ne_none _)
  exact ⟨hfull, hfull, hfull, hfull, fun _ => hcolor, fun _ => hempty, by simp⟩

end CssExpand
