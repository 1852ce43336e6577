import CssExpand.Proofs.Shorthand.Families
import CssExpand.Proofs.Shorthand.Slashes
import Mathlib

/-!
# A font restores its layer

A font glues its words at slashes and cuts them at the size. Both are undone by writing: the words
that a font sorts have something on both sides of their slashes (`isSided`), so nothing is glued
anew (`glueSlashes_eq`); and no word after the size is a size, so the cut is at the same place
(`cutAtLast?_append`). The line height that is put in stands behind a slash in the word of the size
(`Font.lineHeight_written`).
-/

set_option autoImplicit false

namespace CssExpand

open Syntax Value

/-! ## 1. Slashes -/

/-- A word with something on both sides of each of its slashes. -/
def isSided (w : String) : Bool :=
  w.toList.head? != some '/' && w.toList.getLast? != some '/'

/-- Words whose slashes are inside them stay apart. -/
theorem glueSlashes_eq {ws : List String} (h : ∀ w ∈ ws, isSided w = true) :
    glueSlashes ws = ws := by
  simp only [isSided, Bool.and_eq_true, bne_iff_ne] at h
  exact glueSlashes_of_slashesInside
    ⟨fun w hw => (h w (List.mem_of_mem_tail hw)).1, fun w hw => (h w (List.mem_of_mem_dropLast hw)).2⟩

/-- A word is what is before its first slash, the slash and what is after it. -/
theorem slash_cases (w : String) :
    (beforeSlash w = w ∧ afterSlash? w = none) ∨
      (w = beforeSlash w ++ "/" ∧ afterSlash? w = none) ∨
      ∃ rest, afterSlash? w = some rest ∧ w = beforeSlash w ++ "/" ++ rest := by
  have hsplit := List.takeWhile_append_dropWhile (p := (· != '/')) (l := w.toList)
  cases hd : w.toList.dropWhile (· != '/') with
  | nil =>
    refine .inl ⟨?_, by rw [afterSlash?, hd]; rfl⟩
    rw [hd, List.append_nil] at hsplit
    rw [beforeSlash, hsplit, String.ofList_toList]
  | cons c rest =>
    have hc : c = '/' := by
      have := head?_dropWhile_stop (· != '/') w.toList c (by rw [hd]; rfl)
      simpa using this
    subst hc
    rw [hd] at hsplit
    cases rest with
    | nil =>
      refine .inr (.inl ⟨?_, by rw [afterSlash?, hd]; rfl⟩)
      rw [← String.toList_inj, beforeSlash]
      simpa using hsplit.symm
    | cons d rest =>
      refine .inr (.inr ⟨String.ofList (d :: rest), by rw [afterSlash?, hd]; rfl, ?_⟩)
      rw [← String.toList_inj, beforeSlash]
      simpa using hsplit.symm

/-- What is put before and after a slash is found there. -/
theorem slash_parts (v : String) {rest : String} (h : rest ≠ "") :
    beforeSlash (beforeSlash v ++ "/" ++ rest) = beforeSlash v ∧
      afterSlash? (beforeSlash v ++ "/" ++ rest) = some rest := by
  have hv : ∀ c ∈ v.toList.takeWhile (· != '/'), (c != '/') = true :=
    fun c hc => by
    have := List.all_takeWhile (p := (· != '/')) (l := v.toList)
    exact List.all_eq_true.mp this c hc
  have htext : (beforeSlash v ++ "/" ++ rest).toList =
      v.toList.takeWhile (· != '/') ++ '/' :: rest.toList := by
    simp [beforeSlash]
  have hne : rest.toList ≠ [] := by simpa using h
  obtain ⟨c, r, hr⟩ := List.exists_cons_of_ne_nil hne
  constructor
  · rw [beforeSlash, htext, List.takeWhile_append_of_pos hv]
    simp [beforeSlash]
  · rw [afterSlash?, htext, List.dropWhile_append_of_pos hv]
    simp only [bne_self_eq_false, Bool.false_eq_true, not_false_eq_true, List.dropWhile_cons_of_neg,
      List.tail_cons, hr]
    rw [← hr, String.ofList_toList]

/-! ## 2. The size -/

theorem cutAtLast?_eq_none {α : Type} {p : α → Bool} {xs : List α} :
    cutAtLast? p xs = none ↔ ∀ x ∈ xs, p x = false := by
  induction xs with
  | nil => simp [cutAtLast?]
  | cons x xs ih =>
    rw [cutAtLast?, List.forall_mem_cons, ← ih]
    cases cutAtLast? p xs with
    | some r => simp
    | none => cases hp : p x <;> simp

/-- What is cut is put together from the parts, and nothing after the cut satisfies the predicate. -/
theorem of_cutAtLast? {α : Type} {p : α → Bool} {xs before after : List α} {y : α}
    (h : cutAtLast? p xs = some (before, y, after)) :
    xs = before ++ y :: after ∧ p y = true ∧ ∀ x ∈ after, p x = false := by
  induction xs generalizing before with
  | nil => cases h
  | cons x xs ih =>
    rw [cutAtLast?] at h
    cases hc : cutAtLast? p xs with
    | some r =>
      obtain ⟨before', y', after'⟩ := r
      rw [hc] at h
      obtain ⟨rfl, rfl, rfl⟩ : x :: before' = before ∧ y' = y ∧ after' = after := by simpa using h
      obtain ⟨rfl, hy⟩ := ih hc
      exact ⟨rfl, hy⟩
    | none =>
      rw [hc] at h
      cases hp : p x with
      | false => simp [hp] at h
      | true =>
        obtain ⟨rfl, rfl, rfl⟩ : [] = before ∧ x = y ∧ xs = after := by simpa [hp] using h
        exact ⟨rfl, hp, cutAtLast?_eq_none.mp hc⟩

theorem cutAtLast?_append {α : Type} {p : α → Bool} {after : List α} {y : α} (hy : p y = true)
    (h : ∀ x ∈ after, p x = false) (before : List α) :
    cutAtLast? p (before ++ y :: after) = some (before, y, after) := by
  induction before with
  | nil => simp [cutAtLast?, cutAtLast?_eq_none.mpr h, hy]
  | cons x before ih => rw [List.cons_append, cutAtLast?, ih]

/-! ## 3. The words before the size -/

namespace Font

/-- The slots before the size hold words of their kind, and the others are those of `sized`. -/
structure Sorted (p : String → Prop) (sized f : Font) : Prop where
  style : ∀ w ∈ f.style, p w ∧ FontWord.ofWord? w = some .style
  variant : ∀ w ∈ f.variant, p w ∧ FontWord.ofWord? w = some .variant
  weight : ∀ w ∈ f.weight, p w ∧ FontWord.ofWord? w = some .weight
  stretch : ∀ w ∈ f.stretch, p w ∧ FontWord.ofWord? w = some .stretch
  size : f.size = sized.size
  lineHeight : f.lineHeight = sized.lineHeight
  family : f.family = sized.family

theorem Sorted.add? {p : String → Prop} {sized f f' : Font} (h : Sorted p sized f) {w : String}
    (hw : p w) (ha : f.add? w = some f') : Sorted p sized f' := by
  obtain ⟨kind, hkind, rfl⟩ := Option.map_eq_some_iff.mp ha
  have hword : ∀ v ∈ some w, p v ∧ FontWord.ofWord? v = some kind := by
    rintro v ⟨⟩
    exact ⟨hw, hkind⟩
  cases kind with
  | normal => exact h
  | style => exact { h with style := hword }
  | variant => exact { h with variant := hword }
  | weight => exact { h with weight := hword }
  | stretch => exact { h with stretch := hword }

theorem ofWord?_normal : FontWord.ofWord? "normal" = some .normal := by
  have h : isOneOf ["normal"] "normal" = true := by cbv
  rw [FontWord.ofWord?, h]
  rfl

/-- A word of each kind in the order of the slots, each of them maybe left to its default, and a
size with a line height and a family after it, are sorted into these slots. -/
theorem ofWords?_row {style variant weight stretch word size lineHeight : String}
    {families : List String}
    (hstyle : FontWord.ofWord? style = some .style ∨ style = "normal")
    (hvariant : FontWord.ofWord? variant = some .variant ∨ variant = "normal")
    (hweight : FontWord.ofWord? weight = some .weight ∨ weight = "normal")
    (hstretch : FontWord.ofWord? stretch = some .stretch ∨ stretch = "normal")
    (hglue : glueSlashes ([style, variant, weight, stretch] ++ word :: families) =
      [style, variant, weight, stretch] ++ word :: families)
    (hbefore : beforeSlash word = size) (hafter : afterSlash? word = some lineHeight)
    (hsize : isSize size = true) (hfamilies : ∀ w ∈ families, isSize (beforeSlash w) = false)
    (hne : families ≠ []) :
    ∃ f, ofWords? ([style, variant, weight, stretch] ++ word :: families) = some f ∧
      Shorthand.font.fill f.slots =
        [style, variant, weight, stretch, size, lineHeight, " ".intercalate families] := by
  have hword : (isSize ∘ beforeSlash) word = true := by rw [Function.comp_apply, hbefore, hsize]
  have hothers : ∀ w ∈ families, (isSize ∘ beforeSlash) w = false := fun w hw => by
    rw [Function.comp_apply, hfamilies w hw]
  have hcut := cutAtLast?_append hword hothers [style, variant, weight, stretch]
  rw [ofWords?, hglue, hcut]
  have hempty : families.isEmpty = false := by simpa using hne
  -- a word in its place is put there, and the word `normal` changes nothing
  have hput : ∀ {w : String} {kind : FontWord},
      FontWord.ofWord? w = some kind ∨ w = "normal" → ∃ kind' slot, slot.getD "normal" = w ∧
        FontWord.ofWord? w = some kind' ∧
        (kind' = kind ∧ slot = some w ∨ kind' = .normal ∧ slot = none) := by
    rintro w kind (h | rfl)
    · exact ⟨kind, some w, rfl, h, .inl ⟨rfl, rfl⟩⟩
    · exact ⟨.normal, none, rfl, ofWord?_normal, .inr ⟨rfl, rfl⟩⟩
  obtain ⟨k₁, s₁, hs₁, hk₁, h₁⟩ := hput hstyle
  obtain ⟨k₂, s₂, hs₂, hk₂, h₂⟩ := hput hvariant
  obtain ⟨k₃, s₃, hs₃, hk₃, h₃⟩ := hput hweight
  obtain ⟨k₄, s₄, hs₄, hk₄, h₄⟩ := hput hstretch
  refine ⟨⟨s₁, s₂, s₃, s₄, some size, some lineHeight, some (" ".intercalate families)⟩, ?_, ?_⟩
  · simp only [hempty, hbefore, hafter, Option.bind_eq_bind, Option.bind_some, List.reverse_cons,
      List.reverse_nil, List.nil_append, List.cons_append, List.foldlM_cons, List.foldlM_nil, add?,
      hk₁, hk₂, hk₃, hk₄, Option.map_some]
    rcases h₁ with ⟨rfl, rfl⟩ | ⟨rfl, rfl⟩ <;> rcases h₂ with ⟨rfl, rfl⟩ | ⟨rfl, rfl⟩ <;>
      rcases h₃ with ⟨rfl, rfl⟩ | ⟨rfl, rfl⟩ <;> rcases h₄ with ⟨rfl, rfl⟩ | ⟨rfl, rfl⟩ <;> rfl
  · simp [slots, Shorthand.fill, Shorthand.font, hs₁, hs₂, hs₃, hs₄]

end Font

/-! ## 4. The font as a whole -/

/-- A size with its line height written out is a word with the same size. -/
theorem Font.lineHeight_written {p : String → Prop} (hp : Admits p) {word : String}
    (h : Shorthand.font.Writes p word ∧ isSided word = true) {completed : String}
    (hc : completed = beforeSlash word ++ "/" ++ (afterSlash? word).getD "normal") :
    (Shorthand.font.Writes p completed ∧ isSided completed = true) ∧
      beforeSlash completed = beforeSlash word ∧
      afterSlash? completed = some ((afterSlash? word).getD "normal") := by
  rcases slash_cases word with ⟨hbefore, hafter⟩ | ⟨hword, -⟩ | ⟨rest, hafter, hrest⟩
  · have hparts := slash_parts word (show "normal" ≠ "" by decide)
    rw [hafter, Option.getD_none] at hc ⊢
    rw [← hc, hbefore] at hparts
    rw [hbefore] at hc ⊢
    refine ⟨⟨⟨?_, by simp [Shorthand.font], hc ▸ hp.slash word h.1.1 h.1.2.2⟩, ?_⟩, hparts⟩
    · rw [hc]
      exact h.1.1.slash (writes_stockWords hp .font "normal" (by simp [stockWords])).1 (by decide)
    · -- the first character is that of the word, the last one that of `normal`
      obtain ⟨c, r, hcons, -⟩ := h.1.1.head
      have hsided := h.2
      simp only [isSided, hcons, Bool.and_eq_true] at hsided
      rw [hc, isSided, String.toList_append, String.toList_append, hcons]
      simpa [List.getLast?_append, List.getLast?_cons] using hsided.1
  · have hsided := h.2
    rw [isSided, hword] at hsided
    simp at hsided
  · rw [hafter, Option.getD_some] at hc ⊢
    rw [hc, ← hrest]
    exact ⟨h, rfl, hafter⟩

section Restored

variable {p : String → Prop} {slot : Option String}

/-- What the words of a font are known to be: they may be written, and no slash is at an end. -/
def Font.IsSlotWord (p : String → Prop) (w : String) : Prop :=
  Shorthand.font.Writes p w ∧ isSided w = true

theorem Font.isSlotWord_stockWords (hp : Admits p) {w : String} (h : w ∈ stockWords) :
    Font.IsSlotWord p w := by
  have hall : stockWords.all isSided = true := by
    rw [stockWords]
    cbv
  exact ⟨writes_stockWords hp .font w h, List.all_eq_true.mp hall w h⟩

/-- A slot before the size, filled or left to its default. -/
theorem Font.slot_written (hp : Admits p) {kind : FontWord}
    (h : ∀ w ∈ slot, Font.IsSlotWord p w ∧ FontWord.ofWord? w = some kind) :
    Font.IsSlotWord p (slot.getD "normal") ∧
      (FontWord.ofWord? (slot.getD "normal") = some kind ∨ slot.getD "normal" = "normal") :=
  getD_cases
    (p := fun w => Font.IsSlotWord p w ∧ (FontWord.ofWord? w = some kind ∨ w = "normal"))
    (fun w hm => ⟨(h w hm).1, .inl (h w hm).2⟩)
    ⟨Font.isSlotWord_stockWords hp (by simp [stockWords]), .inr rfl⟩

/-- The family is the words behind the size, or the default. Either is written as words of which none
is a size, so the size is found in the same place again. -/
theorem Font.family_written (hp : Admits p) {after : List String} {family : Option String}
    (hfamily : family = if after.isEmpty then none else some (spaced after))
    (hwords : ∀ w ∈ after, Font.IsSlotWord p w)
    (hsizes : ∀ w ∈ after, Font.isSize (beforeSlash w) = false) :
    ∃ families : List String, family.getD "sans-serif" = spaced families ∧ families ≠ [] ∧
      ∀ w ∈ families, Font.IsSlotWord p w ∧ Font.isSize (beforeSlash w) = false := by
  subst hfamily
  cases after with
  | nil =>
    refine ⟨["sans-serif"], rfl, by simp, ?_⟩
    rw [List.forall_mem_singleton]
    exact ⟨Font.isSlotWord_stockWords hp (by simp [stockWords]), by cbv⟩
  | cons w after => exact ⟨w :: after, rfl, by simp, fun v hv => ⟨hwords v hv, hsizes v hv⟩⟩

/-- The slots of a font are restored from the row that they are written as. The row is read from its
last size, so what comes behind the size must hold none. -/
theorem Shorthand.restores_font (hp : Admits p) {ws : List String}
    (h : ∀ w ∈ glueSlashes ws, Shorthand.font.Writes p w ∧ isSided w = true) :
    Shorthand.font.Restores p ws := by
  intro slots hslots
  obtain ⟨f, hf, rfl⟩ := Option.map_eq_some_iff.mp hslots
  obtain ⟨⟨before, word, after⟩, hcut, hfold⟩ := Option.bind_eq_some_iff.mp hf
  obtain ⟨hglued, hsize, hafter⟩ := of_cutAtLast? hcut
  simp only [Function.comp_apply] at hsize hafter
  dsimp only at hfold
  rw [hglued] at h
  obtain ⟨hbefore, hword⟩ := List.forall_mem_append.mp h
  rw [List.forall_mem_cons] at hword
  -- the words before the size go through the fold, which keeps every slot a word it was given
  have hs : Font.Sorted (Font.IsSlotWord p) _ f :=
    foldlM_keeps ⟨by simp, by simp, by simp, by simp, rfl, rfl, rfl⟩
      (fun hw hc ha => hc.add? (hbefore _ (List.mem_reverse.mp hw)) ha) hfold
  have hstyle := Font.slot_written hp hs.style
  have hvariant := Font.slot_written hp hs.variant
  have hweight := Font.slot_written hp hs.weight
  have hstretch := Font.slot_written hp hs.stretch
  obtain ⟨hsized, hbeforeSlash, hafterSlash⟩ := Font.lineHeight_written hp hword.1 rfl
  obtain ⟨families, hfamily, hne, hfamilies⟩ :=
    Font.family_written hp hs.family hword.2 hafter
  have hfill : Shorthand.font.fill f.slots = [f.style.getD "normal", f.variant.getD "normal",
      f.weight.getD "normal", f.stretch.getD "normal", beforeSlash word,
      (afterSlash? word).getD "normal", spaced families] := by
    rw [Font.slots, hs.size, hs.lineHeight, ← hfamily]
    rfl
  have hrow : ∀ v ∈ [f.style.getD "normal", f.variant.getD "normal", f.weight.getD "normal",
      f.stretch.getD "normal"] ++ (beforeSlash word ++ "/" ++ (afterSlash? word).getD "normal") ::
        families, Font.IsSlotWord p v := by
    simp only [List.forall_mem_append, List.forall_mem_cons]
    exact ⟨⟨hstyle.1, hvariant.1, hweight.1, hstretch.1, by simp⟩, hsized,
      fun w hw => (hfamilies w hw).1⟩
  -- read again, the filled row is cut at the same word and gives the same slots
  obtain ⟨g, hg, hgfill⟩ := Font.ofWords?_row hstyle.2 hvariant.2 hweight.2 hstretch.2
    (glueSlashes_eq fun v hv => (hrow v hv).2) hbeforeSlash hafterSlash hsize
    (fun w hw => (hfamilies w hw).2) hne
  refine ⟨_, _, by simp, fun v hv => (hrow v hv).1, ?_, congrArg (Option.map Font.slots) hg, rfl, ?_⟩
  · rw [hfill]
    exact spaced_append [f.style.getD "normal", f.variant.getD "normal", f.weight.getD "normal",
      f.stretch.getD "normal", beforeSlash word ++ "/" ++ (afterSlash? word).getD "normal"] hne
  · rw [hgfill, hfill]
    rfl

end Restored

end CssExpand
