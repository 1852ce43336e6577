import CssExpand.Proofs.Sheet.WellFormed
import CssExpand.Proofs.Text.LetterCase
import CssExpand.Proofs.Units.Filled
import Mathlib

/-!
# Bare zeros, by where they stand

The pass walks a token tree with a rule in hand and changes the rule as it enters functions. Here the
zeros that it meets are told by where they stand (`TokenPlace.IsBareZero`): by the path to them and by
what encloses them there. A function or block that keeps its numbers to itself counts wherever it stands
among the enclosers; of the functions that have a category of their own, only the innermost does.

The two descriptions agree because the rule in hand is a function of the enclosers (`within?`,
`within?_eq`), and descending to a path commutes with the pass (`placeBelow?_applyIf`). So the tree that
is written has a unit at every bare zero, and is the tree of the value everywhere else
(`withUnits_places`).
-/

set_option autoImplicit false

namespace CssExpand

open Syntax Value

/-! ## 1. Places in a token tree -/

/-- A token of a tree, with what encloses it, the innermost encloser first. It is what a reader of the
value sees who points at a token; the rule that the pass has in hand there is not part of it. -/
structure TokenPlace where
  around : List Opener
  token : Token

/-- The place at a path below a token that stands inside `around`: at each number the path goes on
to the token of that index in the content. -/
def Syntax.Token.placeBelow? (around : List Opener) : Token → List Nat → Option TokenPlace
  | t, [] => some ⟨around, t⟩
  | .atom _, _ :: _ => none
  | .function name arguments, i :: path =>
    arguments[i]?.bind fun t => t.placeBelow? (.function name :: around) path
  | .block bracket content, i :: path =>
    content[i]?.bind fun t => t.placeBelow? (.block bracket :: around) path

/-- The place at a path in a list of tokens. -/
def placeAt? (ts : List Token) : List Nat → Option TokenPlace
  | [] => none
  | i :: path => ts[i]?.bind fun t => t.placeBelow? [] path

/-- A token without what is inside it. -/
def Syntax.Token.shell : Token → Token
  | .atom a => .atom a
  | .function name _ => .function name []
  | .block bracket _ => .block bracket []

/-! ## 2. Zeros and what encloses them -/

/-- Whether what is inside never gets a unit: a block of declarations, or a function whose numbers
are its own. -/
def Syntax.Opener.isClosed : Opener → Bool
  | .function name =>
    closedFunctions.contains (String.ofList (Text.asciiLower name)) ||
      dimensionlessFunctions.contains (String.ofList (Text.asciiLower name))
  | .block bracket => bracket == .curly

/-- The category that a function of a transform has for the numbers in it. -/
def Syntax.Opener.category? : Opener → Option UnitCategory
  | .function name => UnitCategory.ofFunction? (String.ofList (Text.asciiLower name))
  | .block _ => none

/-- The category of the numbers of a property inside such enclosers: in a transform that of the
innermost function that has one, and else that of the property. -/
def categoryWithin (prop : String) (around : List Opener) : UnitCategory :=
  if Text.lower prop = "transform" then
    (around.findSome? Opener.category?).getD (UnitCategory.ofProperty prop)
  else UnitCategory.ofProperty prop

/-- A place holds a number of value zero that gets a unit. -/
structure TokenPlace.IsBareZero (prop : String) (p : TokenPlace) (n : Numeral) : Prop where
  token : p.token = .atom (.number n)
  zero : n.isZero = true
  isOpen : ∀ o ∈ p.around, o.isClosed = false
  unit : (categoryWithin prop p.around).unit ≠ ""

/-- The second tree is the first one with a unit at every bare zero, and nothing else is changed. Paths
are used since equal tokens may stand in different functions, one with a bare zero in it and the other
without. -/
structure UnitsAtBareZeros (prop : String) (ts us : List Token) : Prop where
  /-- No path is gained or lost. -/
  places : ∀ path, placeAt? us path = none ↔ placeAt? ts path = none
  /-- A bare zero becomes a dimension that is spelled as it was. -/
  zero : ∀ {path : List Nat} {p : TokenPlace} {n : Numeral}, placeAt? ts path = some p →
    p.IsBareZero prop n → placeAt? us path =
      some ⟨p.around, .atom (.dimension n (categoryWithin prop p.around).unit.toList)⟩
  /-- Every other token is what it was, with what is inside it under paths of its own. -/
  other : ∀ {path : List Nat} {p : TokenPlace}, placeAt? ts path = some p →
    (∀ n, ¬ p.IsBareZero prop n) →
      ∃ u, placeAt? us path = some ⟨p.around, u⟩ ∧ u.shell = p.token.shell

/-- A property has its category in any spelling. -/
theorem Value.UnitCategory.ofProperty_lower (prop : String) :
    ofProperty (Text.lower prop) = ofProperty prop := by
  rw [ofProperty, ofProperty, Text.lower_lower]

theorem unit_ne_empty {c : UnitCategory} : c.unit ≠ "" ↔ c ≠ .none := by
  cases c <;> decide

/-! ## 3. The rule in hand -/

namespace UnitRule

/-- The rule inside an encloser, unless numbers there get no unit. -/
def enter? (r : UnitRule) : Opener → Option UnitRule
  | .function name => r.inside? name
  | .block .curly => none
  | .block _ => some r

/-- The rule inside some enclosers, unless numbers there get no unit. -/
def within? (r : UnitRule) : List Opener → Option UnitRule
  | [] => some r
  | o :: around => (r.within? around).bind fun inner => inner.enter? o

/-- A token with units by a rule, if there is one. -/
def applyIf : Option UnitRule → Token → Token
  | some r, t => r.apply t
  | none, t => t

theorem enter?_eq (r : UnitRule) (o : Opener) : r.enter? o =
    if o.isClosed then none
    else some ⟨if r.byFunction then o.category?.getD r.category else r.category, r.byFunction⟩ := by
  cases o with
  | function name =>
    rw [enter?, inside?, Opener.isClosed, Opener.category?]
    split
    · rfl
    · obtain ⟨category, byFunction⟩ := r
      cases byFunction <;> rfl
  | block bracket =>
    obtain ⟨category, byFunction⟩ := r
    cases bracket <;> cases byFunction <;> rfl

/-- The enclosers decide about the rule in hand: none of them may be closed, and the innermost one
that has a category gives it. -/
theorem within?_eq (r : UnitRule) (around : List Opener) : r.within? around =
    if around.any Opener.isClosed then none
    else some ⟨if r.byFunction then (around.findSome? Opener.category?).getD r.category
      else r.category, r.byFunction⟩ := by
  induction around with
  | nil =>
    obtain ⟨category, byFunction⟩ := r
    cases byFunction <;> rfl
  | cons o around ih =>
    rw [within?, ih, List.any_cons, List.findSome?_cons]
    cases hrest : around.any Opener.isClosed with
    | true => simp
    | false =>
      rw [if_neg Bool.false_ne_true, Option.bind_some, enter?_eq, Bool.or_false]
      cases r.byFunction <;> cases o.category? <;> rfl

theorem within?_ofProperty (prop : String) (around : List Opener) :
    (ofProperty (Text.lower prop)).within? around =
      if around.any Opener.isClosed then none
      else some ⟨categoryWithin prop around, Text.lower prop == "transform"⟩ := by
  rw [within?_eq, ofProperty, UnitCategory.ofProperty_lower, categoryWithin]
  simp only [beq_iff_eq]

theorem apply_function_eq (r : UnitRule) (name : List Char) (arguments : List Token) :
    r.apply (.function name arguments) =
      .function name (arguments.map (applyIf (r.enter? (.function name)))) := by
  rw [apply, enter?]
  split
  · next inner h =>
    rw [applyAll_eq_map, h]
    rfl
  · next h =>
    rw [h]
    exact congrArg _ (List.map_id arguments).symm

theorem apply_block_eq (r : UnitRule) (bracket : Bracket) (content : List Token) :
    r.apply (.block bracket content) =
      .block bracket (content.map (applyIf (r.enter? (.block bracket)))) := by
  cases bracket with
  | curly => exact congrArg _ (List.map_id content).symm
  | _ =>
    rw [apply, applyAll_eq_map]
    · rfl
    · simp

/-- What is below a token with units is what was below it, with units by the rule in hand there. -/
theorem placeBelow?_applyIf (r : UnitRule) (path : List Nat) (around : List Opener) (t : Token) :
    (applyIf (r.within? around) t).placeBelow? around path =
      (t.placeBelow? around path).map fun p => ⟨p.around, applyIf (r.within? p.around) p.token⟩ := by
  induction path generalizing around t with
  | nil => cases t <;> rfl
  | cons i path ih =>
    have hcontent : ∀ (o : Opener) (content : List Token) {inner : Option UnitRule},
        inner = r.within? (o :: around) →
        ((content.map (applyIf inner))[i]?.bind fun t => t.placeBelow? (o :: around) path) =
          (content[i]?.bind fun t => t.placeBelow? (o :: around) path).map
            fun p => ⟨p.around, applyIf (r.within? p.around) p.token⟩ := by
      rintro o content inner rfl
      rw [List.getElem?_map]
      cases content[i]? with
      | none => rfl
      | some u => exact ih (o :: around) u
    cases hr : r.within? around with
    | none =>
      -- nothing below gets a unit either
      have hnone : ∀ o, none = r.within? (o :: around) := fun o => by rw [within?, hr]; rfl
      cases t with
      | atom a => rfl
      | function name arguments =>
        have h := hcontent (.function name) arguments (hnone _)
        rwa [show applyIf none = id from rfl, List.map_id] at h
      | block bracket content =>
        have h := hcontent (.block bracket) content (hnone _)
        rwa [show applyIf none = id from rfl, List.map_id] at h
    | some inner =>
      have hsome : ∀ o, inner.enter? o = r.within? (o :: around) := fun o => by rw [within?, hr]; rfl
      cases t with
      | atom a =>
        rcases inner.apply_atom a with h | ⟨n, rfl, -, h⟩ <;> rw [applyIf, h] <;> rfl
      | function name arguments =>
        rw [applyIf, apply_function_eq]
        exact hcontent (.function name) arguments (hsome _)
      | block bracket content =>
        rw [applyIf, apply_block_eq]
        exact hcontent (.block bracket) content (hsome _)

theorem placeAt?_applyAll (r : UnitRule) (ts : List Token) (path : List Nat) :
    placeAt? (r.applyAll ts) path =
      (placeAt? ts path).map fun p => ⟨p.around, applyIf (r.within? p.around) p.token⟩ := by
  cases path with
  | nil => rfl
  | cons i path =>
    rw [placeAt?, placeAt?, applyAll_eq_map, List.getElem?_map]
    cases ts[i]? with
    | none => rfl
    | some t => exact r.placeBelow?_applyIf path [] t

/-- A bare zero becomes a dimension by the rule in hand. -/
theorem applyIf_within?_zero {prop : String} {p : TokenPlace} {n : Numeral}
    (h : p.IsBareZero prop n) :
    applyIf ((ofProperty (Text.lower prop)).within? p.around) p.token =
      .atom (.dimension n (categoryWithin prop p.around).unit.toList) := by
  have hopen : p.around.any Opener.isClosed = false := by
    rw [List.any_eq_false]
    exact fun o ho => Bool.eq_false_iff.mp (h.isOpen o ho)
  have hcategory := unit_ne_empty.mp h.unit
  rw [within?_ofProperty, hopen, if_neg Bool.false_ne_true, h.token, applyIf, apply,
    appliesTo, h.zero, if_pos (by simpa using hcategory)]

/-- Any other token stays, but for what is inside it. -/
theorem shell_applyIf_within? {prop : String} {p : TokenPlace}
    (h : ∀ n, ¬ p.IsBareZero prop n) :
    (applyIf ((ofProperty (Text.lower prop)).within? p.around) p.token).shell = p.token.shell := by
  rw [within?_ofProperty]
  cases hclosed : p.around.any Opener.isClosed with
  | true => rfl
  | false =>
    rw [if_neg Bool.false_ne_true, applyIf]
    cases ht : p.token with
    | function name arguments =>
      rw [apply_function_eq]
      rfl
    | block bracket content =>
      rw [apply_block_eq]
      rfl
    | atom a =>
      cases a with
      | number n =>
        rw [apply]
        split
        · next happlies =>
          simp only [appliesTo, Bool.and_eq_true, bne_iff_ne] at happlies
          refine absurd ⟨ht, happlies.1, fun o ho => ?_, unit_ne_empty.mpr happlies.2⟩ (h n)
          exact Bool.eq_false_iff.mpr (List.any_eq_false.mp hclosed o ho)
        · rfl
      | _ => rfl

theorem unitsAtBareZeros_applyAll (prop : String) (ts : List Token) :
    UnitsAtBareZeros prop ts ((ofProperty (Text.lower prop)).applyAll ts) where
  places path := by rw [placeAt?_applyAll, Option.map_eq_none_iff]
  zero {path p n} hp hzero := by
    rw [placeAt?_applyAll, hp, Option.map_some, applyIf_within?_zero hzero]
  other {path p} hp hother := by
    rw [placeAt?_applyAll, hp, Option.map_some]
    exact ⟨_, rfl, shell_applyIf_within? hother⟩

end UnitRule

/-! ## 4. The description is complete -/

mutual

/-- A token is known by what stands at the paths below it. -/
theorem Syntax.Token.eq_of_shells : ∀ {t u : Token} (around : List Opener),
    (∀ path, (t.placeBelow? around path).map (·.token.shell) =
      (u.placeBelow? around path).map (·.token.shell)) → t = u
  | .atom a, u, around, h => by
    have hroot := h []
    cases u with
    | atom b => simpa [Token.placeBelow?, Token.shell] using hroot
    | function name arguments => simp [Token.placeBelow?, Token.shell] at hroot
    | block bracket content => simp [Token.placeBelow?, Token.shell] at hroot
  | .function name arguments, u, around, h => by
    have hroot := h []
    cases u with
    | atom b => simp [Token.placeBelow?, Token.shell] at hroot
    | function name' arguments' =>
      obtain rfl : name = name' := by simpa [Token.placeBelow?, Token.shell] using hroot
      rw [listEq_of_shells (.function name :: around) fun i path => h (i :: path)]
    | block bracket content => simp [Token.placeBelow?, Token.shell] at hroot
  | .block bracket content, u, around, h => by
    have hroot := h []
    cases u with
    | atom b => simp [Token.placeBelow?, Token.shell] at hroot
    | function name arguments => simp [Token.placeBelow?, Token.shell] at hroot
    | block bracket' content' =>
      obtain rfl : bracket = bracket' := by simpa [Token.placeBelow?, Token.shell] using hroot
      rw [listEq_of_shells (.block bracket :: around) fun i path => h (i :: path)]

theorem Syntax.Token.listEq_of_shells : ∀ {ts us : List Token} (around : List Opener),
    (∀ (i : Nat) (path : List Nat),
      (ts[i]?.bind fun t => t.placeBelow? around path).map (·.token.shell) =
        (us[i]?.bind fun u => u.placeBelow? around path).map (·.token.shell)) → ts = us
  | [], [], _, _ => rfl
  | [], u :: us, around, h => by simpa [Token.placeBelow?] using h 0 []
  | t :: ts, [], around, h => by simpa [Token.placeBelow?] using h 0 []
  | t :: ts, u :: us, around, h => by
    have hhead : t = u := Token.eq_of_shells around fun path => by simpa using h 0 path
    have htail : ts = us := listEq_of_shells around fun i path => by simpa using h (i + 1) path
    rw [hhead, htail]

end

/-- There is one tree only that has units at the bare zeros of another. -/
theorem UnitsAtBareZeros.unique {prop : String} {ts us vs : List Token}
    (hu : UnitsAtBareZeros prop ts us) (hv : UnitsAtBareZeros prop ts vs) : us = vs := by
  have hplaces : ∀ path, (placeAt? us path).map (·.token.shell) =
      (placeAt? vs path).map (·.token.shell) := by
    intro path
    cases hp : placeAt? ts path with
    | none => rw [(hu.places path).mpr hp, (hv.places path).mpr hp]
    | some p =>
      by_cases hzero : ∃ n, p.IsBareZero prop n
      · obtain ⟨n, hn⟩ := hzero
        rw [hu.zero hp hn, hv.zero hp hn]
      · obtain ⟨u, hut, hushell⟩ := hu.other hp (not_exists.mp hzero)
        obtain ⟨v, hvt, hvshell⟩ := hv.other hp (not_exists.mp hzero)
        rw [hut, hvt, Option.map_some, Option.map_some, hushell, hvshell]
  exact Token.listEq_of_shells [] fun i path => hplaces (i :: path)

/-! ## 5. Whether there is a bare zero -/

namespace UnitRule

mutual

/-- A bare zero that the rule finds has a place, and the path to it is the way the rule took. The rule
for a token is what is left of the rule for the property after the openers around it. -/
theorem exists_place_of_hasBareZero {prop : String} : ∀ (t : Token) {around : List Opener}
    {inner : UnitRule}, (ofProperty (Text.lower prop)).within? around = some inner →
      inner.hasBareZero t = true →
        ∃ path p n, t.placeBelow? around path = some p ∧ p.IsBareZero prop n
  | .atom a, around, inner, hr, h => by
    cases a with
    | number n =>
      rw [within?_ofProperty] at hr
      split at hr
      · cases hr
      · next hopen =>
        obtain rfl := Option.some.inj hr
        simp only [hasBareZero, appliesTo, Bool.and_eq_true, bne_iff_ne] at h
        refine ⟨[], _, n, rfl, rfl, h.1, fun o ho => ?_, unit_ne_empty.mpr h.2⟩
        exact Bool.eq_false_iff.mpr (List.any_eq_false.mp (Bool.eq_false_iff.mpr hopen) o ho)
    | _ => cases h
  | .function name arguments, around, inner, hr, h => by
    rw [hasBareZero] at h
    split at h
    · next inner' hinside =>
      have hr' : (ofProperty (Text.lower prop)).within? (.function name :: around) = some inner' := by
        rw [within?, hr, Option.bind_some, enter?, hinside]
      obtain ⟨i, path, found⟩ := exists_place_of_anyBareZero arguments hr' h
      exact ⟨i :: path, found⟩
    · cases h
  | .block bracket content, around, inner, hr, h => by
    have hcurly : bracket ≠ .curly := by
      rintro rfl
      cases h
    have hr' : (ofProperty (Text.lower prop)).within? (.block bracket :: around) = some inner := by
      rw [within?, hr, Option.bind_some]
      cases bracket <;> first | rfl | exact absurd rfl hcurly
    rw [hasBareZero] at h
    swap
    · exact fun heq => absurd heq hcurly
    obtain ⟨i, path, found⟩ := exists_place_of_anyBareZero content hr' h
    exact ⟨i :: path, found⟩

theorem exists_place_of_anyBareZero {prop : String} : ∀ (ts : List Token) {around : List Opener}
    {inner : UnitRule}, (ofProperty (Text.lower prop)).within? around = some inner →
      inner.anyBareZero ts = true → ∃ (i : Nat) (path : List Nat), ∃ p n,
        (ts[i]?.bind fun t => t.placeBelow? around path) = some p ∧ p.IsBareZero prop n
  | [], _, _, _, h => by cases h
  | t :: ts, around, inner, hr, h => by
    rw [anyBareZero, Bool.or_eq_true] at h
    rcases h with h | h
    · obtain ⟨path, found⟩ := exists_place_of_hasBareZero t hr h
      exact ⟨0, path, found⟩
    · obtain ⟨i, path, found⟩ := exists_place_of_anyBareZero ts hr h
      exact ⟨i + 1, path, found⟩

end

/-- The pass finds a bare zero if there is one at some path. -/
theorem anyBareZero_iff {prop : String} (ts : List Token) :
    (ofProperty (Text.lower prop)).anyBareZero ts = true ↔
      ∃ path p n, placeAt? ts path = some p ∧ p.IsBareZero prop n := by
  constructor
  · intro h
    have hr : (ofProperty (Text.lower prop)).within? [] = some (ofProperty (Text.lower prop)) := rfl
    obtain ⟨i, path, found⟩ := exists_place_of_anyBareZero ts hr h
    exact ⟨i :: path, found⟩
  · rintro ⟨path, p, n, hp, hn⟩
    by_contra hnone
    -- without one the tree would stay as it is, and the zero would be a dimension in it
    have hzero := (unitsAtBareZeros_applyAll prop ts).zero hp hn
    rw [applyAll_eq_self (Bool.eq_false_iff.mpr hnone), hp] at hzero
    have htoken := congrArg TokenPlace.token (Option.some.inj hzero)
    rw [hn.token] at htoken
    cases htoken

end UnitRule

/-! ## 6. Values -/

/-- The properties whose numbers have a unit. -/
def unitProperties : List String :=
  lengthProperties ++ timeProperties ++ angleProperties ++ frequencyProperties ++
    resolutionProperties

theorem lower_mem_unitProperties {prop : String} (h : UnitCategory.ofProperty prop ≠ .none) :
    Text.lower prop ∈ unitProperties := by
  by_contra hmem
  simp only [unitProperties, List.mem_append, not_or] at hmem
  obtain ⟨⟨⟨⟨hlength, htime⟩, hangle⟩, hfrequency⟩, hresolution⟩ := hmem
  refine h ?_
  simp [UnitCategory.ofProperty, hlength, htime, hangle, hfrequency, hresolution]

/-- Lowering keeps the two hyphens of a custom property. -/
theorem isCustomName_lower {prop : String} (h : isCustomName prop = true) :
    isCustomName (Text.lower prop) = true := by
  rw [isCustomName, List.isPrefixOf_iff_prefix] at h ⊢
  obtain ⟨rest, hrest⟩ := h
  rw [Text.lower, String.toList_ofList, ← hrest]
  exact ⟨Text.lowerAfter ['-', '-'] rest, rfl⟩

/-- A property with a category is no custom property. -/
theorem isCustomName_of_category {prop : String} (h : UnitCategory.ofProperty prop ≠ .none) :
    isCustomName prop = false := by
  have hall : (unitProperties.all fun name => !isCustomName name) = true := by decide +kernel
  have hname := List.all_eq_true.mp hall _ (lower_mem_unitProperties h)
  refine Bool.eq_false_iff.mpr fun hc => ?_
  rw [isCustomName_lower hc] at hname
  cases hname

/-- Whether a token that is not marked has a bare zero in it. -/
def UnitRule.anyUnmarked (r : UnitRule) (marked : List (Token × Bool)) : Bool :=
  marked.any fun m => !m.2 && r.hasBareZero m.1

/-- What is decided about a property with a category, once the tokens to keep are known. -/
theorem withUnits_of_kept {ignored : Ignored} {prop value : String} {kept : List Bool}
    (hc : UnitCategory.ofProperty prop ≠ .none) (hi : ignored.covers prop = false)
    (hkept : keptTokens? (Text.lower prop) value (Token.ofChars value.toList) = some kept) :
    withUnits ignored prop value =
      if (UnitRule.ofProperty (Text.lower prop)).anyUnmarked
          ((Token.ofChars value.toList).zip kept) then
        .replace [(Text.lower prop, Token.write ((UnitRule.ofProperty (Text.lower prop)).applyMarked
          ((Token.ofChars value.toList).zip kept)))]
      else .keep .noBareZero := by
  have hcategory : (UnitRule.ofProperty (Text.lower prop)).category ≠ .none := by
    rwa [UnitRule.ofProperty, UnitCategory.ofProperty_lower]
  rw [withUnits]
  simp only [isCustomName_of_category hc, hi, hcategory, hkept, if_false, Bool.false_eq_true]
  rfl

/-- Where no token is marked, all bare zeros count. -/
theorem UnitRule.unmarked (r : UnitRule) (ts : List Token) :
    r.anyUnmarked (ts.zip (ts.map fun _ => false)) = r.anyBareZero ts ∧
      r.applyMarked (ts.zip (ts.map fun _ => false)) = r.applyAll ts := by
  induction ts with
  | nil => exact ⟨rfl, rfl⟩
  | cons t ts ih =>
    rw [List.map_cons, List.zip_cons_cons, anyBareZero, applyAll, ← ih.1, ← ih.2]
    exact ⟨rfl, rfl⟩

/-- In an animation the tokens to keep are those of the counts. -/
theorem keptTokens?_of_animation {prop : String} (ha : prop = "animation") (value : String)
    (ts : List Token) : keptTokens? prop value ts =
      (countWords? value).map fun counts => markCounts counts.head?.join counts.tail ts := by
  rw [keptTokens?, if_pos (by simpa using ha)]

theorem keptTokens?_of_not_animation {prop : String} (ha : prop ≠ "animation") (value : String)
    (ts : List Token) : keptTokens? prop value ts = some (ts.map fun _ => false) := by
  rw [keptTokens?, if_neg (by simpa using ha)]

/-- What is decided about a property with a category other than `animation`. -/
theorem withUnits_of_not_animation {ignored : Ignored} {prop value : String}
    (hc : UnitCategory.ofProperty prop ≠ .none) (hi : ignored.covers prop = false)
    (ha : Text.lower prop ≠ "animation") : withUnits ignored prop value =
      if (UnitRule.ofProperty (Text.lower prop)).anyBareZero (Token.ofChars value.toList) then
        .replace [(Text.lower prop, (UnitRule.ofProperty (Text.lower prop)).fill value)]
      else .keep .noBareZero := by
  rw [withUnits_of_kept hc hi (keptTokens?_of_not_animation ha value _), (UnitRule.unmarked _ _).1,
    (UnitRule.unmarked _ _).2, UnitRule.fill]

/-- What adding units has to read of a value: its integers, and the words of an animation. -/
theorem checkUnits_of_category {ignored : Ignored} {prop : String}
    (hc : UnitCategory.ofProperty prop ≠ .none) (hi : ignored.covers prop = false) (value : String) :
    checkUnits ignored prop value = (checkIntegers value).bind fun _ =>
      if Text.lower prop = "animation" then Shorthand.animation.check value else .ok () := by
  rw [checkUnits]
  simp only [isCustomName_of_category hc, hi, hc, beq_iff_eq, if_false, Bool.or_self,
    Bool.false_eq_true, decide_false]
  rfl

theorem run_units_of_not_animation {ignored : Ignored} {prop : String}
    (hc : UnitCategory.ofProperty prop ≠ .none) (hi : ignored.covers prop = false)
    (ha : Text.lower prop ≠ "animation") (value : String) :
    (Revision.units ignored).run prop value =
      (checkIntegers value).map fun _ => withUnits ignored prop value := by
  rw [Revision.run, show (Revision.units ignored).check prop value = _ from
    checkUnits_of_category hc hi value]
  cases checkIntegers value with
  | error e => rfl
  | ok _ =>
    rw [if_neg ha]
    rfl

theorem checkIntegers_of_checkUnits {ignored : Ignored} {prop value : String}
    (hc : UnitCategory.ofProperty prop ≠ .none) (hi : ignored.covers prop = false)
    (h : checkUnits ignored prop value = .ok ()) : checkIntegers value = .ok () := by
  rw [checkUnits_of_category hc hi] at h
  cases haccepted : checkIntegers value with
  | ok _ => rfl
  | error e =>
    rw [haccepted] at h
    cases h

/-- A value that is replaced was read, and has a bare zero in a token that is not marked. -/
theorem of_run_units_replace {ignored : Ignored} {prop value : String}
    {pairs : List (String × String)}
    (h : (Revision.units ignored).run prop value = .ok (.replace pairs)) :
    UnitCategory.ofProperty prop ≠ .none ∧ ignored.covers prop = false ∧
      checkIntegers value = .ok () ∧
      ∃ kept, keptTokens? (Text.lower prop) value (Token.ofChars value.toList) = some kept ∧
        (UnitRule.ofProperty (Text.lower prop)).anyUnmarked
          ((Token.ofChars value.toList).zip kept) = true ∧
        pairs = [(Text.lower prop, Token.write ((UnitRule.ofProperty (Text.lower prop)).applyMarked
          ((Token.ofChars value.toList).zip kept)))] := by
  -- a run that replaces has passed its check, and the guards in front of it are all open
  have hrun : checkUnits ignored prop value = .ok () ∧
      withUnits ignored prop value = .replace pairs := by
    rw [Revision.run] at h
    cases hcheck : checkUnits ignored prop value with
    | error e =>
      rw [show (Revision.units ignored).check prop value = .error e from hcheck] at h
      cases h
    | ok _ =>
      rw [show (Revision.units ignored).check prop value = .ok () from hcheck] at h
      exact ⟨rfl, Except.ok.inj h⟩
  obtain ⟨hcheck, hunits⟩ := hrun
  have hi : ignored.covers prop = false := by
    refine Bool.eq_false_iff.mpr fun hcovers => ?_
    rw [withUnits, hcovers] at hunits
    split at hunits <;> cases hunits
  have hc : UnitCategory.ofProperty prop ≠ .none := by
    intro hnone
    have hrule : (UnitRule.ofProperty (Text.lower prop)).category = .none := by
      rw [UnitRule.ofProperty, UnitCategory.ofProperty_lower, hnone]
    rw [withUnits] at hunits
    simp only [hrule, if_true] at hunits
    split at hunits
    · cases hunits
    · split at hunits <;> cases hunits
  refine ⟨hc, hi, checkIntegers_of_checkUnits hc hi hcheck, ?_⟩
  cases hkept : keptTokens? (Text.lower prop) value (Token.ofChars value.toList) with
  | none =>
    rw [withUnits] at hunits
    simp only [hkept] at hunits
    repeat' split at hunits
    all_goals cases hunits
  | some kept =>
    rw [withUnits_of_kept hc hi hkept] at hunits
    split at hunits
    · next hany => exact ⟨kept, rfl, hany, (Decision.replace.inj hunits).symm⟩
    · cases hunits

/-- Adding units to a value of any property with a category, other than `animation`, gives a unit to
each of its bare zeros, at any depth, and to nothing else. The value is replaced if there is one, and
refused for nothing but an overlong integer.

What is wanted of the new tokens determines them, and this is stated with them: without it a tree that
has something else where no zero was would do as well. -/
theorem withUnits_places (ignored : Ignored) {prop : String}
    (hc : UnitCategory.ofProperty prop ≠ .none) (ha : Text.lower prop ≠ "animation")
    (hi : ignored.covers prop = false) (value : String) :
    ∃ us, (∀ vs, UnitsAtBareZeros prop (Token.ofChars value.toList) vs ↔ vs = us) ∧
      ((∃ path p n, placeAt? (Token.ofChars value.toList) path = some p ∧ p.IsBareZero prop n) →
        (Revision.units ignored).run prop value =
          (checkIntegers value).map fun _ => .replace [(Text.lower prop, Token.write us)]) ∧
      ((¬ ∃ path p n, placeAt? (Token.ofChars value.toList) path = some p ∧ p.IsBareZero prop n) →
        (Revision.units ignored).run prop value =
          (checkIntegers value).map fun _ => .keep .noBareZero) := by
  have hunits := UnitRule.unitsAtBareZeros_applyAll prop (Token.ofChars value.toList)
  have hrun := run_units_of_not_animation hc hi ha value
  refine ⟨_, fun vs => ⟨fun hvs => hvs.unique hunits, fun heq => heq ▸ hunits⟩, fun h => ?_,
    fun h => ?_⟩
  · rw [hrun, withUnits_of_not_animation hc hi ha, if_pos ((UnitRule.anyBareZero_iff _).mpr h)]
    rfl
  · rw [hrun, withUnits_of_not_animation hc hi ha,
      if_neg (mt (UnitRule.anyBareZero_iff _).mp h)]

/-- The tokens of a transform with a zero in a function that moves, one in `calc()` and one in a
function that nothing is known of. -/
def transformTokens : List Token :=
  [.function "translate".toList
      [.atom (.number ⟨none, ['0'], none, none⟩), .atom (.literal [',']),
        .function "calc".toList [.atom (.number ⟨none, ['0'], none, none⟩)]],
    .function "turn".toList [.atom (.number ⟨some .minus, ['0'], none, none⟩)]]

/-- In a transform the functions decide about the unit, and `calc()` keeps its zero. -/
theorem withUnits_places_transform :
    UnitCategory.ofProperty "transform" ≠ .none ∧ Text.lower "transform" ≠ "animation" ∧
      Ignored.nothing.covers "transform" = false ∧
      (Revision.units .nothing).run "transform" "translate(0,calc(0))turn(-0)" =
        .ok (.replace [("transform", "translate(0px,calc(0))turn(-0deg)")]) := by
  have hc : UnitCategory.ofProperty "transform" ≠ .none := by decide +kernel
  have ha : Text.lower "transform" ≠ "animation" := by decide +kernel
  have hlower : Text.lower "transform" = "transform" := by decide +kernel
  have hrule : UnitRule.ofProperty "transform" = ⟨.angle, true⟩ := by decide +kernel
  have hcheck : checkIntegers "translate(0,calc(0))turn(-0)" = .ok () := by cbv
  have htokens : Token.ofChars "translate(0,calc(0))turn(-0)".toList = transformTokens := by cbv
  have hwritten : Token.write (UnitRule.applyAll ⟨.angle, true⟩ transformTokens) =
      "translate(0px,calc(0))turn(-0deg)" := by decide +kernel
  obtain ⟨us, hus, hsome, -⟩ := withUnits_places .nothing hc ha rfl "translate(0,calc(0))turn(-0)"
  have hplace : placeAt? (Token.ofChars "translate(0,calc(0))turn(-0)".toList) [0, 0] =
      some ⟨[.function "translate".toList], .atom (.number ⟨none, ['0'], none, none⟩)⟩ := by
    rw [htokens]
    rfl
  have hzero : TokenPlace.IsBareZero "transform"
      ⟨[.function "translate".toList], .atom (.number ⟨none, ['0'], none, none⟩)⟩
      ⟨none, ['0'], none, none⟩ := ⟨rfl, by decide +kernel, by decide +kernel, by decide +kernel⟩
  refine ⟨hc, ha, rfl, ?_⟩
  rw [hsome ⟨_, _, _, hplace, hzero⟩, hcheck,
    ← (hus _).mp (UnitRule.unitsAtBareZeros_applyAll "transform" _), hlower, hrule, htokens,
    hwritten]
  rfl

end CssExpand
