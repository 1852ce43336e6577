import CssExpand.Proofs.Shorthand.FontGrammar
import CssExpand.Proofs.Units.FilledSlots
import Mathlib

/-!
# Completed values are accepted

A value that was accepted and completed is accepted once more, and complete (`check_completed`). For
most shorthands this is so because the words of the completed value are words of the value or
defaults. A font is the exception: to find its size it reads the parts of its words before a slash,
which are no words of their own. The parts that it reads in the completed value are among those that it
read before, or have no slash to be cut at (`slashless_of_ofWord?`).
-/

set_option autoImplicit false

namespace CssExpand

open Syntax Value

/-! ## 1. Words without a slash -/

theorem slashless_of_isOneOf {keywords : List String} {w : String}
    (hk : (keywords.all fun k => !k.toList.contains '/') = true) (h : isOneOf keywords w = true) :
    '/' ∉ w.toList := by
  intro hslash
  rw [isOneOf, List.contains_iff_mem] at h
  have hlower := List.all_eq_true.mp hk _ h
  rw [Text.lower, String.toList_ofList, Bool.not_eq_true', ← Bool.not_eq_true,
    List.contains_iff_mem] at hlower
  exact hlower (Text.mem_lowerAfter (by decide) (by decide) hslash)

theorem slashless_of_number? {w : String} (h : IsWord w) (hi : checkIntegers w = .ok ())
    {n : Numeral} (hn : number? w = some n) : '/' ∉ w.toList := by
  have hstands := h.stands hi
  have hwritten := (h.readBack hi).written
  rw [← hwritten, number?_write_iff hstands fun t ht => not_isWhitespace (h.significant t ht)] at hn
  have hsourced := (h.readBack hi).settled.sourced
  rw [hn] at hsourced hwritten
  rw [← hwritten, Token.write_number, String.toList_ofList]
  intro hslash
  have hwf : n.WellFormed := hsourced.1
  rcases n.mem_chars hwf hslash with hdigit | hsign
  · cases hdigit
  · simp at hsign

/-- A word that is sorted by its kind has no slash. -/
theorem slashless_of_ofWord? {w : String} (h : IsWord w) (hi : checkIntegers w = .ok ())
    {kind : FontWord} (hk : FontWord.ofWord? w = some kind) : '/' ∉ w.toList := by
  rcases FontWord.fits_ofWord? w with ⟨kind', -, hfits⟩ | ⟨hnone, -⟩
  · rw [FontWord.Fits, Bool.or_eq_true, Bool.and_eq_true] at hfits
    rcases hfits with hkeyword | ⟨-, hnumber⟩
    · exact slashless_of_isOneOf (by cases kind' <;> decide) hkeyword
    · obtain ⟨n, hn, -⟩ := (Option.any_eq_true _ _).mp hnumber
      exact slashless_of_number? h hi hn
  · rw [hnone] at hk
    cases hk

theorem beforeSlash_eq_self {w : String} (h : '/' ∉ w.toList) : beforeSlash w = w := by
  have hall : w.toList.takeWhile (· != '/') = w.toList := by
    rw [List.takeWhile_eq_self_iff]
    intro c hc
    exact bne_iff_ne.mpr fun heq => h (heq ▸ hc)
  rw [beforeSlash, hall, String.ofList_toList]

theorem beforeSlash_append_slash (v w : String) : beforeSlash (v ++ "/" ++ w) = beforeSlash v := by
  rw [beforeSlash, beforeSlash, String.toList_append, String.toList_append, List.append_assoc,
    List.takeWhile_append]
  split
  · next hlength =>
    rw [(List.takeWhile_prefix _).eq_of_length hlength]
    simp
  · rfl

/-! ## 2. Fonts -/

/-- A word of a font that is read whether it stands before the size or not. -/
def IsRead (w : String) : Prop :=
  isSided w = true ∧ checkIntegers w = .ok () ∧ checkIntegers (beforeSlash w) = .ok ()

theorem admits_isRead : Admits IsRead where
  stock w hw := by
    have hall : (stockWords.all fun w => isSided w && beforeSlash w == w) = true := by
      rw [stockWords]
      cbv
    have hplain := List.all_eq_true.mp hall w hw
    rw [Bool.and_eq_true, beq_iff_eq] at hplain
    have haccepted := admits_checkIntegers.stock w hw
    exact ⟨hplain.1, haccepted, hplain.2.symm ▸ haccepted⟩
  slash w hw h := by
    refine ⟨?_, admits_checkIntegers.slash w hw h.2.1, beforeSlash_append_slash w _ ▸ h.2.2⟩
    -- the first character is that of the word, the last one that of `normal`
    obtain ⟨c, r, hcons, -⟩ := hw.head
    have hsided := h.1
    simp only [isSided, hcons, Bool.and_eq_true] at hsided
    rw [isSided, String.toList_append, String.toList_append, hcons]
    simpa [List.getLast?_append, List.getLast?_cons] using hsided.1

namespace Font

theorem takeThrough_append {α : Type} {p : α → Bool} {xs : List α} {x : α}
    (h : ∀ y ∈ xs, p y = false) (hx : p x = true) (ys : List α) :
    takeThrough p (xs ++ x :: ys) = xs ++ [x] := by
  induction xs with
  | nil => simp [takeThrough, hx]
  | cons y xs ih =>
    rw [List.forall_mem_cons] at h
    rw [List.cons_append, takeThrough, h.1, if_neg Bool.false_ne_true, ih h.2, List.cons_append]

/-- From the size on, words are read as far as their first slash. -/
theorem beforeSlash_mem_readParts {ws before after : List String} {word : String}
    (h : SizedAt (glueSlashes ws) before word after) :
    ∀ w ∈ word :: after, beforeSlash w ∈ readParts ws := by
  have hbackwards : (glueSlashes ws).reverse = after.reverse ++ word :: before.reverse := by
    simp [h.eq]
  have hsize : takeThrough (isSize ∘ beforeSlash) (glueSlashes ws).reverse =
      after.reverse ++ [word] := by
    have hafter : ∀ w ∈ after.reverse, (isSize ∘ beforeSlash) w = false := fun w hw => by
      rw [Function.comp_apply, h.after w (List.mem_reverse.mp hw)]
    have hword : (isSize ∘ beforeSlash) word = true := by rw [Function.comp_apply, h.size]
    rw [hbackwards, takeThrough_append hafter hword]
  intro w hw
  rw [readParts]
  simp only [hsize]
  exact List.mem_append_left _ (List.mem_map_of_mem (by simpa [or_comm] using hw))

/-- The words of a font that is sorted and accepted are read. -/
theorem isRead_of_check {ws : List String} (hcheck : checkWords (readParts ws) = .ok ())
    (hsorted : (Shorthand.font.assign ws).isSome)
    (h : ∀ w ∈ glueSlashes ws, IsWord w ∧ isSided w = true ∧ checkIntegers w = .ok ()) :
    ∀ w ∈ glueSlashes ws, IsRead w := by
  rw [checkWords_eq_ok] at hcheck
  intro w hw
  refine ⟨(h w hw).2.1, (h w hw).2.2, ?_⟩
  rcases unsized_or_sizedAt (glueSlashes ws) with hunsized | ⟨before, word, after, hcut⟩
  · rw [assign_of_unsized hunsized] at hsorted
    cases hsorted
  · have hmem := hw
    rw [hcut.eq, List.mem_append] at hmem
    rcases hmem with hbefore | hafter
    · -- before the size a word has a kind, and no slash
      rcases FontWord.fits_ofWord? w with ⟨kind, hk, -⟩ | ⟨-, hno⟩
      · rw [beforeSlash_eq_self (slashless_of_ofWord? (h w hw).1 (h w hw).2.2 hk)]
        exact (h w hw).2.2
      · rw [assign_of_sizedAt hcut, foldlM_add?_eq_none hbefore hno] at hsorted
        cases hsorted
    · exact hcheck _ (beforeSlash_mem_readParts hcut w hafter)

end Font

namespace Shorthand

variable {s : Shorthand} {value completed : String}

theorem isLegible_of_accepts {w : String} (h : s.accepts w = true) : isLegible w = true := by
  rw [accepts, Bool.and_eq_true, Bool.and_eq_true] at h
  exact h.1.1

/-- Where a value is completed, its words are found in rows. -/
theorem exists_completes_of_accepts (hs : s ∈ Registry.standard) (hn : s.name ≠ "font")
    (h : ∀ layer ∈ s.layersOf value, ∀ w ∈ s.sortedWords layer, s.accepts w = true)
    (hc : s.complete value = some completed) :
    ∃ rows, s.Completes (fun w => checkIntegers w = .ok ()) value rows ∧
      completed = Value.layered rows := by
  refine exists_completes hs hn admits_checkIntegers (fun layer hl w hw => ?_) hc
  have hsorted : s.sortedWords layer = words layer := if_neg hn
  have haccepts := h layer hl w (hsorted ▸ hw)
  exact (Writes.of_accepts haccepts
    (readBack_of_isLegible (isLegible_of_accepts haccepts)).accepted).1

/-- A value without layers is accepted by its words. -/
theorem check_of_not_layered (hl : s.layered = false) : s.check value = .ok () ↔
    checkIntegers value = .ok () ∧ checkWords (s.reads (words value)) = .ok () := by
  rw [check, hl, Bool.false_and, if_neg Bool.false_ne_true, layersOf_of_not_layered hl, checkLayers]
  cases checkIntegers value with
  | error e => exact iff_of_false (by rintro ⟨⟩) (by rintro ⟨⟨⟩, -⟩)
  | ok =>
    cases checkWords (s.reads (words value)) with
    | error e => exact iff_of_false (by rintro ⟨⟩) (by rintro ⟨-, ⟨⟩⟩)
    | ok => exact iff_of_true (ite_self _) ⟨rfl, rfl⟩

/-- A font that was accepted is completed in words that are read. -/
theorem exists_words_of_font (hcheck : Shorthand.font.check value = .ok ())
    (h : ∀ w ∈ Shorthand.font.sortedWords value, Shorthand.font.accepts w = true)
    (hc : Shorthand.font.complete value = some completed) :
    ∃ vs : List String, (∀ w ∈ vs, Shorthand.font.Writes IsRead w) ∧ completed = spaced vs := by
  have hname : Shorthand.font.sortedWords value = glueSlashes (words value) := if_pos rfl
  rw [hname] at h
  have hwrites : ∀ w ∈ glueSlashes (words value), IsWord w ∧ isSided w = true ∧
      checkIntegers w = .ok () := by
    intro w hw
    have haccepted := (readBack_of_isLegible (isLegible_of_accepts (h w hw))).accepted
    obtain ⟨⟨hword, -, -⟩, hsided⟩ :=
      Writes.of_accepts (p := fun w => checkIntegers w = .ok ()) (h w hw) haccepted
    exact ⟨hword, hsided rfl, haccepted⟩
  obtain ⟨-, slotss, hall, rfl⟩ := complete_eq_some.mp hc
  rw [layersOf_of_not_layered rfl] at hall
  obtain ⟨slots, slotss, hslots, hnil, rfl⟩ := List.forall₂_cons_left_iff.mp hall
  obtain rfl := List.forall₂_nil_left_iff.mp hnil
  obtain ⟨-, hassign, -⟩ := slotsOfLayer?_eq_some.mp hslots
  have hread := Font.isRead_of_check ((check_of_not_layered rfl).mp hcheck).2
    (by rw [hassign]; rfl) hwrites
  have hrestores : Shorthand.font.Restores IsRead (words value) := restores_font admits_isRead
    fun w hw => ⟨⟨(hwrites w hw).1, by simp [Shorthand.font], hread w hw⟩, (hwrites w hw).2.1⟩
  obtain ⟨vs, -, hvs, hjoin, -⟩ := exists_row hrestores hslots
  refine ⟨vs, hvs, ?_⟩
  rw [List.map_singleton, hjoin]
  rfl

/-- Words that are read are accepted as a font. -/
theorem check_font_spaced {vs : List String} (h : ∀ w ∈ vs, Shorthand.font.Writes IsRead w) :
    Shorthand.font.check (spaced vs) = .ok () := by
  have hspaced : Value.layered [vs] = spaced vs := by simp [Value.layered]
  have hrows : InRows (Value.layered [vs]) [vs] :=
    .of_row (fun w hw => (h w hw).1) fun w hw => (h w hw).2.2.2.1
  rw [hspaced] at hrows
  rw [check_of_not_layered rfl, words_spaced fun w hw => (h w hw).1, checkWords_eq_ok]
  refine ⟨hrows.readBack.accepted, fun text hmem => ?_⟩
  have hparts := Font.readParts_subset vs hmem
  rw [glueSlashes_eq fun w hw => (h w hw).2.2.1, List.mem_append] at hparts
  rcases hparts with hwhole | hbefore
  · exact (h text hwhole).2.2.2.1
  · obtain ⟨w, hw, rfl⟩ := List.mem_map.mp hbefore
    exact (h w hw).2.2.2.2

/-- A value that was accepted and completed is accepted once more, and complete. -/
theorem check_completed (hs : s ∈ Registry.standard) (hcheck : s.check value = .ok ())
    (h : ∀ layer ∈ s.layersOf value, ∀ w ∈ s.sortedWords layer, s.accepts w = true)
    (hc : s.complete value = some completed) :
    s.check completed = .ok () ∧ s.complete completed = some completed := by
  refine ⟨?_, complete_complete (fun layer hl => restores_standard admits_all hs fun w hw =>
    ⟨h layer hl w hw, trivial⟩) hc⟩
  rcases font_or_joinPresent hs with rfl | ⟨hn, -⟩
  · have hvalue : value ∈ Shorthand.font.layersOf value := List.mem_singleton_self value
    obtain ⟨vs, hvs, rfl⟩ := exists_words_of_font hcheck (h value hvalue) hc
    exact check_font_spaced hvs
  · obtain ⟨rows, hrows, rfl⟩ := exists_completes_of_accepts hs hn h hc
    exact hrows.readsBack.check hs hn

end Shorthand

end CssExpand
