import CssExpand.Proofs.Value.LowerCase
import CssExpand.Shorthand.Registry
import Mathlib

/-!
# Shorthands in lower case

No shorthand tells a capital from its small letter (`classify_asciiLowered`). The grammars differ in
the questions they ask, and each question has the same answer for a word in lower case. What is left
to show is that a grammar asks nothing else of a word: one more word in lower case does to slots in
lower case what the word does to the slots.

Fonts are the exception. They take words apart at a slash and glue them together there before any
question is asked, so what they read are parts of the words; the slash is no letter.
-/

set_option autoImplicit false

namespace CssExpand

open Text Value

/-! ## 1. Grammars without case -/

/-- Slots with their words in lower case. -/
def Slots.asciiLowered (slots : Slots) : Slots := slots.map (Option.map Text.asciiLowered)

/-- A shorthand assigns words in lower case to the same slots, and reads the same texts for it. -/
structure Shorthand.IgnoresCase (s : Shorthand) : Prop where
  assign : ∀ ws, s.assign (ws.map asciiLowered) = (s.assign ws).map Slots.asciiLowered
  reads : ∀ ws, s.reads (ws.map asciiLowered) = (s.reads ws).map asciiLowered

theorem map_slots_asciiLowered {σ : Type} {slots : σ → Slots} {low : σ → σ}
    (h : ∀ s, slots (low s) = (slots s).asciiLowered) (o : Option σ) :
    (o.map low).map slots = (o.map slots).map Slots.asciiLowered := by
  rw [Option.map_map, Option.map_map]
  exact congrArg (fun f => o.map f) (funext h)

/-- The elements up to one that is known by what it is mapped to. -/
theorem takeThrough_map {α β : Type} {p : β → Bool} {q : α → Bool} {f : α → β}
    (h : ∀ x, p (f x) = q x) (xs : List α) :
    takeThrough p (xs.map f) = (takeThrough q xs).map f := by
  induction xs with
  | nil => rfl
  | cons x xs ih =>
    rw [List.map_cons, takeThrough, takeThrough, h, ih]
    split <;> rfl

/-! ## 2. Animations and transitions -/

namespace Animation

/-- An animation with its words in lower case. -/
def asciiLowered (a : Animation) : Animation where
  name := a.name.map Text.asciiLowered
  duration := a.duration.map Text.asciiLowered
  timing := a.timing.map Text.asciiLowered
  delay := a.delay.map Text.asciiLowered
  iterationCount := a.iterationCount.map Text.asciiLowered
  direction := a.direction.map Text.asciiLowered
  fillMode := a.fillMode.map Text.asciiLowered
  playState := a.playState.map Text.asciiLowered

@[simp] theorem isCount_asciiLowered (w : String) : isCount (Text.asciiLowered w) = isCount w := by
  simp [isCount]

@[simp] theorem ofWord_asciiLowered (w : String) :
    AnimationWord.ofWord (Text.asciiLowered w) = AnimationWord.ofWord w := by
  simp [AnimationWord.ofWord]

/-- A word of an animation goes to the same slot in either case. -/
theorem add_asciiLowered (a : Animation) (w : String) :
    a.asciiLowered.add (Text.asciiLowered w) = (a.add w).asciiLowered := by
  rw [add, add, ofWord_asciiLowered]
  cases AnimationWord.ofWord w with
  | time =>
    dsimp only
    rw [show a.asciiLowered.duration.isNone = a.duration.isNone from Option.isNone_map]
    split <;> rfl
  | iterationCount =>
    have hcount : (a.iterationCount.map Text.asciiLowered).or (some (Text.asciiLowered w)) =
        (a.iterationCount.or (some w)).map Text.asciiLowered := by
      cases a.iterationCount <;> rfl
    dsimp only
    rw [show a.asciiLowered.iterationCount = a.iterationCount.map Text.asciiLowered from rfl, hcount]
    rfl
  | timing => rfl
  | direction => rfl
  | fillMode => rfl
  | playState => rfl
  | name => rfl

theorem ignoresCase : Shorthand.animation.IgnoresCase where
  assign ws := by
    have h : ofWords (ws.map Text.asciiLowered) = (ofWords ws).asciiLowered :=
      foldl_asciiLowered add_asciiLowered ws {}
    exact congrArg (fun a => some a.slots) h
  reads _ := rfl

end Animation

namespace Transition

/-- A transition with its words in lower case. -/
def asciiLowered (t : Transition) : Transition where
  property := t.property.map Text.asciiLowered
  duration := t.duration.map Text.asciiLowered
  timing := t.timing.map Text.asciiLowered
  delay := t.delay.map Text.asciiLowered

@[simp] theorem ofWord_asciiLowered (w : String) :
    TransitionWord.ofWord (Text.asciiLowered w) = TransitionWord.ofWord w := by
  simp [TransitionWord.ofWord]

theorem add_asciiLowered (t : Transition) (w : String) :
    t.asciiLowered.add (Text.asciiLowered w) = (t.add w).asciiLowered := by
  rw [add, add, ofWord_asciiLowered]
  cases TransitionWord.ofWord w with
  | time =>
    dsimp only
    rw [show t.asciiLowered.duration.isNone = t.duration.isNone from Option.isNone_map]
    split <;> rfl
  | timing => rfl
  | property => rfl

theorem ignoresCase : Shorthand.transition.IgnoresCase where
  assign ws := by
    have h : ofWords (ws.map Text.asciiLowered) = (ofWords ws).asciiLowered :=
      foldl_asciiLowered add_asciiLowered ws {}
    exact congrArg (fun t => some t.slots) h
  reads _ := rfl

end Transition

/-! ## 3. Box shadows -/

namespace Shadow

/-- A shadow with its words in lower case. -/
def asciiLowered (s : Shadow) : Shadow :=
  { s with
    lengths := s.lengths.map Text.asciiLowered
    color := s.color.map Text.asciiLowered }

theorem add_asciiLowered (s : Shadow) (w : String) :
    s.asciiLowered.add (Text.asciiLowered w) = (s.add w).asciiLowered := by
  have hroom : s.asciiLowered.lengths.length = s.lengths.length := List.length_map ..
  rw [add, isOneOf_asciiLowered, yieldsNumber_asciiLowered, hroom, add]
  split
  · rfl
  · split
    · rw [asciiLowered, asciiLowered, List.map_append]
      rfl
    · rfl

theorem slots_asciiLowered (s : Shadow) : s.asciiLowered.slots = s.slots.asciiLowered := by
  have hinset : ∀ b : Bool, (if b then some "inset" else none : Option String) =
      (if b then some "inset" else none : Option String).map Text.asciiLowered := by decide
  have hlengths : (s.lengths.map Text.asciiLowered).map some =
      (s.lengths.map some).map (Option.map Text.asciiLowered) := by
    rw [List.map_map, List.map_map]
    rfl
  rw [slots, asciiLowered, List.length_map, hlengths, slots, Slots.asciiLowered, List.map_append,
    List.map_append, List.map_replicate, List.map_cons, List.map_singleton, ← hinset]
  rfl

@[simp] theorem readWords_asciiLowered (room : Nat) (ws : List String) :
    readWords room (ws.map Text.asciiLowered) = (readWords room ws).map Text.asciiLowered := by
  fun_induction readWords room ws with
  | case1 ws => rw [readWords, List.map_nil]
  | case2 room => rfl
  | case3 room w ws ih => simpa [readWords] using ih

theorem ofWords?_asciiLowered (ws : List String) :
    ofWords? (ws.map Text.asciiLowered) = (ofWords? ws).map asciiLowered := by
  match ws with
  | [] => rfl
  | [w] =>
    rw [List.map_singleton, ofWords?, isOneOf_asciiLowered, ofWords?]
    split
    · rfl
    · exact congrArg some (add_asciiLowered {} w)
  | w :: v :: ws => exact congrArg some (foldl_asciiLowered add_asciiLowered (w :: v :: ws) {})

theorem ignoresCase : Shorthand.boxShadow.IgnoresCase where
  assign ws := by
    show (ofWords? (ws.map Text.asciiLowered)).map slots = ((ofWords? ws).map slots).map _
    rw [ofWords?_asciiLowered]
    exact map_slots_asciiLowered slots_asciiLowered (ofWords? ws)
  reads := readWords_asciiLowered maxLengths

end Shadow

/-! ## 4. Flex values, gaps and list styles -/

namespace Flex

/-- A flex value with its words in lower case. -/
def asciiLowered (f : Flex) : Flex where
  grow := f.grow.map Text.asciiLowered
  shrink := f.shrink.map Text.asciiLowered
  basis := f.basis.map Text.asciiLowered

@[simp] theorem isBasis_asciiLowered (w : String) : isBasis (Text.asciiLowered w) = isBasis w := by
  simp [isBasis]

theorem add?_asciiLowered (f : Flex) (w : String) :
    f.asciiLowered.add? (Text.asciiLowered w) = (f.add? w).map asciiLowered := by
  rw [add?, isBasis_asciiLowered, isNumber_asciiLowered, add?,
    show f.asciiLowered.grow.isNone = f.grow.isNone from Option.isNone_map,
    show f.asciiLowered.shrink.isNone = f.shrink.isNone from Option.isNone_map]
  split_ifs <;> rfl

theorem ofWords?_asciiLowered (ws : List String) :
    ofWords? (ws.map Text.asciiLowered) = (ofWords? ws).map asciiLowered := by
  match ws with
  | [] => rfl
  | [w] =>
    rw [List.map_singleton, ofWords?, isOneOf_asciiLowered, isOneOf_asciiLowered,
      isNumber_asciiLowered, ofWords?]
    split_ifs with hnone hauto hnumber
    · decide
    · decide
    · rfl
    · exact add?_asciiLowered {} w
  | w :: v :: ws => exact foldlM_asciiLowered add?_asciiLowered (w :: v :: ws) {}

theorem slots_asciiLowered (f : Flex) : f.asciiLowered.slots = f.slots.asciiLowered := rfl

theorem ignoresCase : Shorthand.flex.IgnoresCase where
  assign ws := by
    show (ofWords? (ws.map Text.asciiLowered)).map slots = ((ofWords? ws).map slots).map _
    rw [ofWords?_asciiLowered]
    exact map_slots_asciiLowered slots_asciiLowered (ofWords? ws)
  reads := takeThrough_map fun w => by simp

end Flex

theorem gap_ignoresCase : Shorthand.gap.IgnoresCase where
  assign ws := by
    match ws with
    | [] => rfl
    | [_] => rfl
    | [_, _] => rfl
    | _ :: _ :: _ :: _ => rfl
  reads _ := rfl

namespace ListStyle

/-- A list style with its words in lower case. -/
def asciiLowered (l : ListStyle) : ListStyle where
  kind := l.kind.map Text.asciiLowered
  position := l.position.map Text.asciiLowered
  image := l.image.map Text.asciiLowered

theorem add_asciiLowered (l : ListStyle) (w : String) :
    l.asciiLowered.add (Text.asciiLowered w) = (l.add w).asciiLowered := by
  rw [add, isOneOf_asciiLowered, isOneOf_asciiLowered, startsWithOneOf_asciiLowered, add,
    show l.asciiLowered.kind.isSome = l.kind.isSome from Option.isSome_map]
  split_ifs <;> rfl

theorem ignoresCase : Shorthand.listStyle.IgnoresCase where
  assign ws := by
    have h : ofWords (ws.map Text.asciiLowered) = (ofWords ws).asciiLowered :=
      foldl_asciiLowered add_asciiLowered ws {}
    exact congrArg (fun l => some l.slots) h
  reads _ := rfl

end ListStyle

/-! ## 5. Fonts -/

theorem slash_toLower : ∀ c ∈ capitals, (c.toLower != '/') = (c != '/') := by
  simp [capitals]

@[simp] theorem gluedBySlash_asciiLowered (last w : String) :
    gluedBySlash (asciiLowered last) (asciiLowered w) = gluedBySlash last w := by
  have hslash : ∀ o : Option Char, (o.map Char.toLower == some '/') = (o == some '/')
    | none => rfl
    | some c => by
      rw [Bool.eq_iff_iff]
      simpa using toLower_eq_iff (d := '/') rfl c
  rw [gluedBySlash, toList_asciiLowered, toList_asciiLowered, asciiLower, asciiLower,
    List.head?_map, List.getLast?_map, hslash, hslash, gluedBySlash]

@[simp] theorem asciiLowered_append (s t : String) :
    asciiLowered (s ++ t) = asciiLowered s ++ asciiLowered t := by
  rw [asciiLowered, String.toList_append, asciiLower, List.map_append, String.ofList_append]
  rfl

theorem asciiLowered_intercalate (ws : List String) :
    asciiLowered (" ".intercalate ws) = " ".intercalate (ws.map asciiLowered) := by
  have hspace : asciiLowered " " = " " := by decide
  induction ws with
  | nil => rfl
  | cons w ws ih =>
    cases ws with
    | nil => rfl
    | cons v ws =>
      rw [String.intercalate_cons_cons, asciiLowered_append, asciiLowered_append, hspace, ih,
        List.map_cons, List.map_cons, List.map_cons, String.intercalate_cons_cons]

@[simp] theorem glueOnto_asciiLowered (last : String) (ws : List String) :
    glueOnto (asciiLowered last) (ws.map asciiLowered) = (glueOnto last ws).map asciiLowered := by
  fun_induction glueOnto last ws with
  | case1 last => rfl
  | case2 last w ws hglued ih => simpa [glueOnto, hglued] using ih
  | case3 last w ws hglued ih => simp [glueOnto, hglued, ih]

@[simp] theorem glueSlashes_asciiLowered (ws : List String) :
    glueSlashes (ws.map asciiLowered) = (glueSlashes ws).map asciiLowered := by
  cases ws with
  | nil => rfl
  | cons w ws => exact glueOnto_asciiLowered w ws

@[simp] theorem beforeSlash_asciiLowered (w : String) :
    beforeSlash (asciiLowered w) = asciiLowered (beforeSlash w) := by
  rw [beforeSlash, toList_asciiLowered, takeWhile_asciiLower (p := (· != '/')) slash_toLower,
    asciiLowered, beforeSlash, String.toList_ofList]

@[simp] theorem afterSlash?_asciiLowered (w : String) :
    afterSlash? (asciiLowered w) = (afterSlash? w).map asciiLowered := by
  rw [afterSlash?, toList_asciiLowered, dropWhile_asciiLower (p := (· != '/')) slash_toLower,
    ← List.drop_one, drop_asciiLower, List.drop_one, afterSlash?]
  cases (w.toList.dropWhile (· != '/')).tail with
  | nil => rfl
  | cons c rest => simp [asciiLowered]

/-- A cut depends on the predicate alone, so it commutes with a map that keeps the predicate. -/
theorem cutAtLast?_map {α β : Type} {p : β → Bool} {q : α → Bool} {f : α → β}
    (h : ∀ x, p (f x) = q x) (xs : List α) :
    cutAtLast? p (xs.map f) =
      (cutAtLast? q xs).map fun cut => (cut.1.map f, f cut.2.1, cut.2.2.map f) := by
  fun_induction cutAtLast? q xs with
  | case1 => rfl
  | case2 x xs before y after hcut ih =>
    rw [List.map_cons, cutAtLast?, ih, hcut]
    rfl
  | case3 x xs hcut hx ih =>
    rw [List.map_cons, cutAtLast?, ih, hcut, h, if_pos hx]
    rfl
  | case4 x xs hcut hx ih =>
    rw [List.map_cons, cutAtLast?, ih, hcut, h, if_neg hx]
    rfl

namespace Font

/-- A font with its words in lower case. -/
def asciiLowered (f : Font) : Font where
  style := f.style.map Text.asciiLowered
  variant := f.variant.map Text.asciiLowered
  weight := f.weight.map Text.asciiLowered
  stretch := f.stretch.map Text.asciiLowered
  size := f.size.map Text.asciiLowered
  lineHeight := f.lineHeight.map Text.asciiLowered
  family := f.family.map Text.asciiLowered

@[simp] theorem isSize_asciiLowered (w : String) : isSize (Text.asciiLowered w) = isSize w := by
  simp [isSize, isLengthPercentage]

@[simp] theorem isWeight_asciiLowered (w : String) :
    isWeight (Text.asciiLowered w) = isWeight w := by
  simp [isWeight]

@[simp] theorem ofWord?_asciiLowered (w : String) :
    FontWord.ofWord? (Text.asciiLowered w) = FontWord.ofWord? w := by
  simp [FontWord.ofWord?]

theorem isSize_beforeSlash_asciiLowered (w : String) :
    (isSize ∘ beforeSlash) (Text.asciiLowered w) = (isSize ∘ beforeSlash) w := by
  simp

theorem add?_asciiLowered (f : Font) (w : String) :
    f.asciiLowered.add? (Text.asciiLowered w) = (f.add? w).map asciiLowered := by
  rw [add?, ofWord?_asciiLowered, add?]
  cases FontWord.ofWord? w with
  | none => rfl
  | some kind => cases kind <;> rfl

theorem ofWords?_asciiLowered (ws : List String) :
    ofWords? (ws.map Text.asciiLowered) = (ofWords? ws).map asciiLowered := by
  rw [ofWords?, glueSlashes_asciiLowered, cutAtLast?_map isSize_beforeSlash_asciiLowered, ofWords?]
  cases cutAtLast? (isSize ∘ beforeSlash) (glueSlashes ws) with
  | none => rfl
  | some cut =>
    obtain ⟨before, w, after⟩ := cut
    have hfamily : (if (after.map Text.asciiLowered).isEmpty then none
        else some (" ".intercalate (after.map Text.asciiLowered))) =
        (if after.isEmpty then none else some (" ".intercalate after)).map Text.asciiLowered := by
      rw [List.isEmpty_map, ← asciiLowered_intercalate]
      split <;> rfl
    simp only [Option.map_some, Option.bind_eq_bind, Option.bind_some, ← List.map_reverse,
      beforeSlash_asciiLowered, afterSlash?_asciiLowered, hfamily]
    exact foldlM_asciiLowered add?_asciiLowered before.reverse
      { size := some (beforeSlash w), lineHeight := afterSlash? w,
        family := if after.isEmpty then none else some (" ".intercalate after) }

theorem readParts_asciiLowered (ws : List String) :
    readParts (ws.map Text.asciiLowered) = (readParts ws).map Text.asciiLowered := by
  have hunfit : ∀ w, (FontWord.ofWord? (Text.asciiLowered w)).isNone = (FontWord.ofWord? w).isNone :=
    fun w => by rw [ofWord?_asciiLowered]
  have hbefore : ∀ l : List String, (l.map Text.asciiLowered).map beforeSlash =
      (l.map beforeSlash).map Text.asciiLowered := fun l => by
    rw [List.map_map, List.map_map]
    exact List.map_congr_left fun w _ => beforeSlash_asciiLowered w
  unfold readParts
  dsimp only
  rw [glueSlashes_asciiLowered, ← List.map_reverse, takeThrough_map isSize_beforeSlash_asciiLowered,
    List.length_map, ← List.map_drop, takeThrough_map (p := fun w => (FontWord.ofWord? w).isNone) hunfit,
    hbefore, List.map_append]

theorem slots_asciiLowered (f : Font) : f.asciiLowered.slots = f.slots.asciiLowered := rfl

theorem ignoresCase : Shorthand.font.IgnoresCase where
  assign ws := by
    show (ofWords? (ws.map Text.asciiLowered)).map slots = ((ofWords? ws).map slots).map _
    rw [ofWords?_asciiLowered]
    exact map_slots_asciiLowered slots_asciiLowered (ofWords? ws)
  reads := readParts_asciiLowered

end Font

/-! ## 6. Outlines -/

@[simp] theorem isOneOf_comp_asciiLowered (keywords : List String) :
    isOneOf keywords ∘ asciiLowered = isOneOf keywords :=
  funext (isOneOf_asciiLowered keywords)

/-- The slots of an outline, which is the line of a border but for two keywords. -/
theorem outlineSlots_asciiLowered (ws : List String) :
    outlineSlots (ws.map asciiLowered) = (outlineSlots ws).map Slots.asciiLowered := by
  have hnot : (!isOneOf ["auto"] ·) ∘ asciiLowered = (!isOneOf ["auto"] ·) := by
    funext w
    simp
  rw [outlineSlots, List.find?_map, isOneOf_comp_asciiLowered, outlineSlots]
  cases ws.find? (isOneOf wideKeywords) with
  | some keyword => rfl
  | none =>
    dsimp only [Option.map_none]
    rw [List.filter_map, hnot, List.filter_map, isOneOf_comp_asciiLowered,
      Border.ofWords_asciiLowered]
    generalize ws.filter (isOneOf ["auto"]) = autos
    generalize Border.ofWords (ws.filter (!isOneOf ["auto"] ·)) = line
    have hauto : ((autos.map asciiLowered).head?.or line.asciiLowered.style) =
        (autos.head?.or line.style).map asciiLowered := by
      cases autos <;> rfl
    rw [hauto, List.length_map, List.isEmpty_map,
      show line.asciiLowered.style.isSome = line.style.isSome from Option.isSome_map]
    show (if (!line.collisions.isEmpty || _) = true then none else _) = _
    split <;> rfl

theorem outline_ignoresCase : Shorthand.outline.IgnoresCase where
  assign := outlineSlots_asciiLowered
  reads ws := by
    have hany : (ws.map asciiLowered).any (isOneOf wideKeywords) = ws.any (isOneOf wideKeywords) := by
      rw [List.any_map, isOneOf_comp_asciiLowered]
    show (if (ws.map asciiLowered).any (isOneOf wideKeywords) then [] else ws.map asciiLowered) =
      (if ws.any (isOneOf wideKeywords) then [] else ws).map asciiLowered
    rw [hany]
    split <;> rfl

/-! ## 7. All grammars -/

theorem Registry.ignoresCase : ∀ s ∈ Registry.standard, s.IgnoresCase := by
  simp only [Registry.standard, List.forall_mem_cons]
  exact ⟨Animation.ignoresCase, Transition.ignoresCase, Shadow.ignoresCase, Flex.ignoresCase,
    gap_ignoresCase, ListStyle.ignoresCase, Font.ignoresCase, outline_ignoresCase,
    List.forall_mem_nil _⟩

/-- Words in lower case are classified like the words: none of the known shorthands takes the ones
without the other, and what they find in the slots is the same in lower case. A border line has the
same collisions. Words that are read for it hold an overlong integer in both or in neither.

It is the words that are lowered, not the keywords they are compared with, so this covers the letter of
an exponent, units, function names and the capitals in names that no grammar knows. -/
theorem classify_asciiLowered (ws : List String) :
    (∀ s ∈ Registry.standard,
      s.assign (ws.map asciiLowered) = (s.assign ws).map Slots.asciiLowered ∧
        checkWords (s.reads (ws.map asciiLowered)) = checkWords (s.reads ws)) ∧
    Border.ofWords (ws.map asciiLowered) = (Border.ofWords ws).asciiLowered ∧
    checkWords (ws.map asciiLowered) = checkWords ws := by
  refine ⟨fun s hs => ?_, Border.ofWords_asciiLowered ws, checkWords_asciiLowered ws⟩
  have hcase := Registry.ignoresCase s hs
  exact ⟨hcase.assign ws, by rw [hcase.reads, checkWords_asciiLowered]⟩

/-- A font with capitals in its keywords, its units and its family. -/
theorem classify_asciiLowered_font :
    Shorthand.font ∈ Registry.standard ∧
      Shorthand.font.assign ["bold", "12px/1.5em", "arial"] =
        (Shorthand.font.assign ["BOLD", "12PX/1.5Em", "Arial"]).map Slots.asciiLowered := by
  have hfont : Shorthand.font ∈ Registry.standard := by simp [Registry.standard]
  exact ⟨hfont, ((classify_asciiLowered ["BOLD", "12PX/1.5Em", "Arial"]).1 _ hfont).1⟩

end CssExpand
