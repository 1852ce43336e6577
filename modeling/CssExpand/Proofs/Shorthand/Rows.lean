import CssExpand.Proofs.Passes.Refusals
import CssExpand.Proofs.Shorthand.Stable
import CssExpand.Proofs.Value.Kinds
import Mathlib

/-!
# Filled layers are layers

What is written for a layer is a layer again, and one that is filled the same (`Shorthand.assign_row`).
That much is what every shorthand but the font settles for words of any class (`settles_standard`),
here for the words that are not empty.

The other half is about reading. A word with an overlong integer stops the sorting once it is read, and
such a word may have slipped by: a shadow does not read what comes after its fourth length. So it has to
be shown that the second sorting reads no word that the first one has not read. A shorthand that reads
all of its words, or none, has this for free (`Shorthand.checkWords_row`). The lengths of a shadow come
first in its row (`Shadow.readWords_row`), and a global keyword comes first in that of an outline.
-/

set_option autoImplicit false

namespace CssExpand

open Syntax Value

/-! ## 1. Words that can be read -/

/-- A word that is there and has no overlong integer. -/
def Readable (w : String) : Prop := w.isEmpty = false ∧ checkIntegers w = .ok ()

theorem stocked_nonempty : Stocked fun w => w.isEmpty = false := by
  refine ⟨fun w hw => ?_, fun _ h => h⟩
  have hnonempty := (isWord_of_isLegible (isLegible_stockWords w hw).1).nonempty
  simpa using hnonempty

theorem stocked_readable : Stocked Readable := by
  refine ⟨fun w hw => ⟨stocked_nonempty.stock w hw, ?_⟩, fun _ h => h.1⟩
  exact (readBack_of_isLegible (isLegible_stockWords w hw).1).accepted

namespace Shorthand

variable {s : Shorthand} {ws : List String} {slots : Slots}

/-- Besides the font, what a known shorthand reads is words of the layer. -/
theorem reads_subset_words (hs : s ∈ Registry.standard) (hn : s.name ≠ "font") (ws : List String) :
    s.reads ws ⊆ ws := by
  simp only [Registry.standard, List.mem_cons, List.not_mem_nil, or_false] at hs
  rcases hs with rfl | rfl | rfl | rfl | rfl | rfl | rfl | rfl
  · exact List.Subset.refl ws
  · exact List.Subset.refl ws
  · exact Shadow.readWords_subset _ ws
  · exact takeThrough_subset _ ws
  · exact List.nil_subset ws
  · exact List.nil_subset ws
  · exact absurd rfl hn
  · show (if ws.any (isOneOf wideKeywords) then [] else ws) ⊆ ws
    split
    · exact List.nil_subset ws
    · exact List.Subset.refl ws

/-- If every word of a layer was read, every word of its row can be read. -/
theorem checkWords_row (hs : s ∈ Registry.standard) (hn : s.name ≠ "font")
    (hne : ∀ w ∈ ws, w.isEmpty = false) (h : s.assign ws = some slots) (hall : ws ⊆ s.reads ws)
    (hread : checkWords (s.reads ws) = .ok ()) : checkWords (s.reads (s.row slots)) = .ok () := by
  have hwords : ∀ w ∈ ws, Readable w :=
    fun w hw => ⟨hne w hw, checkWords_eq_ok.mp hread w (hall hw)⟩
  obtain ⟨-, hrow, -⟩ := settles_standard hs hn stocked_readable hwords slots h
  refine checkWords_of_subset (checkWords_eq_ok.mpr fun w hw => ?_) (reads_subset_words hs hn _)
  exact (hrow w hw).2

end Shorthand

/-! ## 2. Flex -/

theorem takeThrough_eq_self {α : Type} {p : α → Bool} {xs : List α} (h : ∀ x ∈ xs, p x = false) :
    takeThrough p xs = xs := by
  induction xs with
  | nil => rfl
  | cons x xs ih =>
    rw [List.forall_mem_cons] at h
    rw [takeThrough, h.1, ih h.2]
    rfl

namespace Flex

theorem fits_of_add? {f f' : Flex} {w : String} (h : f.add? w = some f') :
    (!(isBasis w || isNumber w)) = false := by
  rw [add?] at h
  cases hb : isBasis w with
  | true => rfl
  | false =>
    cases hn : isNumber w with
    | true => rfl
    | false =>
      rw [hb, hn] at h
      cases h

theorem fits_of_foldlM {ws : List String} {f f' : Flex} (h : ws.foldlM add? f = some f') :
    ∀ w ∈ ws, (!(isBasis w || isNumber w)) = false := by
  induction ws generalizing f with
  | nil => simp
  | cons w ws ih =>
    rw [List.foldlM_cons, Option.bind_eq_bind, Option.bind_eq_some_iff] at h
    obtain ⟨g, hg, h⟩ := h
    exact List.forall_mem_cons.mpr ⟨fits_of_add? hg, ih h⟩

/-- Words that were sorted have all been read: what does not fit ends the reading, but it fails the
sorting too, unless it is the one word that stands for a whole value. -/
theorem reads_of_ofWords? {ws : List String} {f : Flex} (h : ofWords? ws = some f) :
    Shorthand.flex.reads ws = ws := by
  show takeThrough (fun w => !(isBasis w || isNumber w)) ws = ws
  rcases ws with - | ⟨w, - | ⟨v, vs⟩⟩
  · rfl
  · rw [takeThrough, takeThrough, ite_self]
  · exact takeThrough_eq_self (fits_of_foldlM h)

end Flex

/-! ## 3. Box shadow -/

namespace Shadow

/-- A numeric word is a length as long as there is room. -/
theorem lengths_add (s : Shadow) (w : String) : (s.add w).lengths =
    if (!isOneOf ["inset"] w && yieldsNumber w) = true ∧ s.lengths.length < maxLengths
    then s.lengths ++ [w] else s.lengths := by
  rw [add]
  by_cases hinset : isOneOf ["inset"] w = true
  · simp [hinset]
  · by_cases hroom : s.lengths.length < maxLengths
    · cases hnumber : yieldsNumber w <;> simp [hinset, hroom]
    · simp [hinset, hroom]

/-- A length is one that there was or a word that was read while there was room. -/
theorem lengths_foldl_subset {ws : List String} {s : Shadow} {room : Nat}
    (h : s.lengths.length + room = maxLengths) :
    (ws.foldl add s).lengths ⊆ s.lengths ++ readWords room ws := by
  induction ws generalizing s room with
  | nil => exact List.subset_append_left _ _
  | cons w ws ih =>
    rw [List.foldl_cons]
    cases room with
    | zero =>
      -- there is no room left, so nothing is read and no length is added
      have hlengths : (s.add w).lengths = s.lengths := by
        rw [lengths_add, if_neg (by omega)]
      have hih := ih (show (s.add w).lengths.length + 0 = maxLengths by rw [hlengths, h])
      rw [hlengths, readWords] at hih
      rwa [readWords]
    | succ room =>
      have hroom : s.lengths.length < maxLengths := by omega
      have hlengths := lengths_add s w
      rw [readWords]
      by_cases hlength : (!isOneOf ["inset"] w && yieldsNumber w) = true
      · rw [if_pos ⟨hlength, hroom⟩] at hlengths
        have hstep : (s.add w).lengths.length + room = maxLengths := by
          rw [hlengths, List.length_append, List.length_singleton]
          omega
        have hih := ih hstep
        rw [hlengths, List.append_assoc, List.singleton_append] at hih
        rwa [if_pos hlength]
      · -- the word was read, but it takes up no room
        rw [if_neg fun hw => hlength hw.1] at hlengths
        have hih := ih (show (s.add w).lengths.length + (room + 1) = maxLengths by rw [hlengths, h])
        rw [hlengths] at hih
        rw [if_neg hlength]
        refine List.Subset.trans hih fun v hv => ?_
        rw [List.mem_append, List.mem_cons]
        exact (List.mem_append.mp hv).imp_right .inr

theorem lengths_subset {ws : List String} {s : Shadow} (h : ofWords? ws = some s) :
    s.lengths ⊆ readWords maxLengths ws := by
  rw [← foldl_of_ofWords? h]
  exact lengths_foldl_subset rfl

/-- Where the first words are the four lengths, nothing else is read. -/
theorem readWords_row {a b c d : String} {ws : List String}
    (h : ∀ w ∈ [a, b, c, d], isOneOf ["inset"] w = false ∧ yieldsNumber w = true) :
    readWords maxLengths (a :: b :: c :: d :: ws) = [a, b, c, d] := by
  simp only [List.forall_mem_cons] at h
  obtain ⟨ha, hb, hc, hd, -⟩ := h
  simp [readWords, maxLengths, ha, hb, hc, hd]

theorem checkWords_row {ws : List String} {s : Shadow} (hne : ∀ w ∈ ws, w.isEmpty = false)
    (h : ofWords? ws = some s) (hread : checkWords (readWords maxLengths ws) = .ok ()) :
    checkWords (readWords maxLengths (Shorthand.boxShadow.row s.slots)) = .ok () := by
  have hsorted := sorted_ofWords? hne h
  -- a length of the row has been read, or it is put in
  have hlengths : ∀ w ∈ s.lengths, (isOneOf ["inset"] w = false ∧ yieldsNumber w = true) ∧
      Readable w := by
    intro w hw
    obtain ⟨hw0, hlooks⟩ := hsorted.lengths w hw
    exact ⟨hlooks, hw0, checkWords_eq_ok.mp hread w (lengths_subset h hw)⟩
  have hzero : (isOneOf ["inset"] "0" = false ∧ yieldsNumber "0" = true) ∧ Readable "0" :=
    ⟨⟨by cbv, by cbv⟩, stocked_readable.stock "0" (by simp [stockWords])⟩
  obtain ⟨a, b, c, d, habcd, hfill⟩ := exists_fill hsorted.room hlengths hzero
  have hrow : Shorthand.boxShadow.row s.slots = a :: b :: c :: d ::
      [s.color.getD "currentcolor", if s.inset then "inset" else ""].filter (!·.isEmpty) := by
    simp only [List.forall_mem_cons] at habcd
    obtain ⟨ha, hb, hc, hd, -⟩ := habcd
    rw [Shorthand.row, hfill]
    simp [List.filter_cons, ha.2.1, hb.2.1, hc.2.1, hd.2.1]
  -- the four lengths use up the room, so neither the color nor the switch is read
  rw [hrow, readWords_row fun w hw => (habcd w hw).1]
  exact checkWords_eq_ok.mpr fun w hw => (habcd w hw).2.2

end Shadow

/-! ## 4. Outline -/

/-- A global keyword is all that is written for an outline with one. -/
theorem outline_row_of_wide {ws : List String} {slots : Slots} (hne : ∀ w ∈ ws, w.isEmpty = false)
    (h : outlineSlots ws = some slots) (hwide : ws.any (isOneOf wideKeywords) = true) :
    (Shorthand.outline.row slots).any (isOneOf wideKeywords) = true := by
  rw [outlineSlots] at h
  split at h
  · next keyword hfind =>
    obtain rfl := Option.some.inj h
    have hk := hne keyword (List.mem_of_find?_eq_some hfind)
    have hkeyword := List.find?_some hfind
    have hfill : Shorthand.outline.fill [some keyword, some keyword, some keyword] =
        [keyword, keyword, keyword] := rfl
    rw [Shorthand.row, hfill]
    simp [hk, hkeyword]
  · next hnone =>
    rw [List.any_eq_true] at hwide
    obtain ⟨w, hw, hwide⟩ := hwide
    exact absurd hwide (List.find?_eq_none.mp hnone w hw)

/-! ## 5. All of them -/

/-- The words that are written for a layer are a layer that is filled the same, and sorting them stops
at no overlong integer if sorting the layer did not. Only the font, which writes a slash between two of
its slots, is not a row of words.

The slots need not be the same the second time, only what they are filled with: a default that was put in
is a word like any other when the row is sorted again. -/
theorem Shorthand.assign_row {s : Shorthand} (hs : s ∈ Registry.standard) (hn : s.name ≠ "font")
    {ws : List String} (hne : ∀ w ∈ ws, w.isEmpty = false) {slots : Slots}
    (h : s.assign ws = some slots) :
    (∃ slots', s.assign (s.row slots) = some slots' ∧ s.fill slots' = s.fill slots) ∧
      (checkWords (s.reads ws) = .ok () → checkWords (s.reads (s.row slots)) = .ok ()) := by
  refine ⟨?_, fun hread => ?_⟩
  · obtain ⟨-, -, slots', hassign, -, hfill⟩ := settles_standard hs hn stocked_nonempty hne slots h
    exact ⟨slots', hassign, hfill⟩
  -- a shorthand reads all words of the layer, or no word of the row but those that it has read
  have hrow := fun hall => checkWords_row hs hn hne h hall hread
  simp only [Registry.standard, List.mem_cons, List.not_mem_nil, or_false] at hs
  rcases hs with rfl | rfl | rfl | rfl | rfl | rfl | rfl | rfl
  · exact hrow (List.Subset.refl ws)
  · exact hrow (List.Subset.refl ws)
  · obtain ⟨shadow, hshadow, rfl⟩ := Option.map_eq_some_iff.mp h
    exact Shadow.checkWords_row hne hshadow hread
  · obtain ⟨flex, hflex, -⟩ := Option.map_eq_some_iff.mp h
    refine hrow ?_
    rw [Flex.reads_of_ofWords? hflex]
    exact List.Subset.refl ws
  · rfl
  · rfl
  · exact absurd rfl hn
  · cases hwide : ws.any (isOneOf wideKeywords) with
    | true =>
      show checkWords (if _ then [] else _) = .ok ()
      rw [if_pos (outline_row_of_wide hne h hwide)]
      rfl
    | false =>
      refine hrow ?_
      show ws ⊆ if ws.any (isOneOf wideKeywords) then [] else ws
      rw [hwide]
      exact List.Subset.refl ws

/-- In what is written for an animation of the single word `none` that word is the name, which is left
out, and the fill mode. It is read as the fill mode twice. -/
theorem Shorthand.assign_row_none :
    Shorthand.animation.assign ["none"] =
        some [none, none, none, none, none, none, some "none", none] ∧
      ∃ slots', Shorthand.animation.assign
          ["none", "0s", "ease", "0s", "1", "normal", "none", "running"] = some slots' ∧
        Shorthand.animation.fill slots' =
          ["none", "0s", "ease", "0s", "1", "normal", "none", "running"] := by
  have hmem : Shorthand.animation ∈ Registry.standard := by simp [Registry.standard]
  have hassign : Shorthand.animation.assign ["none"] =
      some [none, none, none, none, none, none, some "none", none] := by
    simp [animation, Animation.ofWords, Animation.add, ofWord_none, Animation.slots]
  have hrow : Shorthand.animation.row [none, none, none, none, none, none, some "none", none] =
      ["none", "0s", "ease", "0s", "1", "normal", "none", "running"] := by cbv
  have hfilled := (Shorthand.assign_row hmem (by decide) (by simp) hassign).1
  rw [hrow] at hfilled
  exact ⟨hassign, hfilled⟩

end CssExpand
