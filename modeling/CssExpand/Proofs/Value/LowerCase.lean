import CssExpand.Proofs.Syntax.LowerCase
import CssExpand.Proofs.Value.Kinds
import CssExpand.Value.Border
import Mathlib

/-!
# Words in lower case

Every question that a grammar asks of a word has one answer for the word and for the word in lower
case. Keywords and the starts of functions are compared with a lowered word, and lowering in full does
what lowering ASCII letters does first (`lower_asciiLowered`). The other questions are about the
token of a word, which is the same up to the case of its letters (`apply_loneToken?_asciiLowered`).

So a border line of words in lower case is the line of the words in lower case
(`Border.ofWords_asciiLowered`).
-/

set_option autoImplicit false

namespace CssExpand.Text

/-! ## 1. Lowering in full after lowering ASCII letters -/

/-- A text with its ASCII capitals lowered. -/
def asciiLowered (s : String) : String := String.ofList (asciiLower s.toList)

@[simp] theorem toList_asciiLowered (s : String) : (asciiLowered s).toList = asciiLower s.toList :=
  String.toList_ofList

theorem isCaseIgnorable_toLower : ∀ c ∈ capitals, isCaseIgnorable c.toLower = isCaseIgnorable c := by
  simp [capitals, isCaseIgnorable]

theorem isCased_toLower : ∀ c ∈ capitals, isCased c.toLower = isCased c := by
  simp [capitals, isCased]

theorem simpleLower_toLower : ∀ c ∈ capitals, simpleLower c.toLower = simpleLower c := by
  simp [capitals, simpleLower]

@[simp] theorem meetsCased_asciiLower (cs : List Char) :
    meetsCased (asciiLower cs) = meetsCased cs := by
  rw [meetsCased, dropWhile_asciiLower isCaseIgnorable_toLower, meetsCased]
  cases cs.dropWhile isCaseIgnorable with
  | nil => rfl
  | cons c rest => exact apply_toLower isCased_toLower c

@[simp] theorem lowerAfter_asciiLower (before cs : List Char) :
    lowerAfter (asciiLower before) (asciiLower cs) = lowerAfter before cs := by
  induction cs generalizing before with
  | nil => rfl
  | cons c cs ih =>
    rw [asciiLower_cons, lowerAfter, lowerAfter, ← asciiLower_cons, ih, lowerBetween, lowerBetween]
    simp only [toLower_eq_iff (d := 'Σ') rfl, toLower_eq_iff (d := 'İ') rfl, meetsCased_asciiLower,
      apply_toLower simpleLower_toLower]

/-- Lowering ASCII letters first makes no difference to lowering in full. -/
@[simp] theorem lower_asciiLowered (s : String) : lower (asciiLowered s) = lower s := by
  rw [lower, toList_asciiLowered, ← asciiLower_nil, lowerAfter_asciiLower, lower]

end CssExpand.Text

namespace CssExpand.Syntax

/-! ## 2. Lowering twice -/

@[simp] theorem Numeral.lowered_lowered (n : Numeral) : n.lowered.lowered = n.lowered := by
  cases h : n.exponent <;> simp [lowered, Exponent.lowered, h]

@[simp] theorem Numeral.scale_lowered (n : Numeral) : n.lowered.scale = n.scale := by
  cases h : n.exponent <;> simp [scale, lowered, Exponent.lowered, h]

@[simp] theorem Numeral.compareTo_lowered (n : Numeral) (p q : Nat) :
    n.lowered.compareTo p q = n.compareTo p q := by
  simp [compareTo, order]
  rfl

@[simp] theorem Numeral.isZero_lowered (n : Numeral) : n.lowered.isZero = n.isZero := by
  rw [isZero, compareTo_lowered, isZero]

@[simp] theorem Numeral.isNonnegative_lowered (n : Numeral) :
    n.lowered.isNonnegative = n.isNonnegative := by
  simp [isNonnegative]
  rfl

@[simp] theorem Numeral.isOneToThousand_lowered (n : Numeral) :
    n.lowered.isOneToThousand = n.isOneToThousand := by
  rw [isOneToThousand, compareTo_lowered, compareTo_lowered, isOneToThousand]
  rfl

@[simp] theorem checkIntegers_asciiLowered (w : String) :
    checkIntegers (Text.asciiLowered w) = checkIntegers w := by
  have hfind : ∀ ls : List Lexeme,
      ls.findSome? Lexeme.overlong? = (ls.map Lexeme.lowered).findSome? Lexeme.overlong? := by
    intro ls
    rw [List.findSome?_map]
    congr 1
    exact funext fun l => l.overlong?_lowered.symm
  rw [checkIntegers, checkIntegers, Text.toList_asciiLowered, unifyBreaks_asciiLower, hfind,
    scan_asciiLower, ← hfind]

end CssExpand.Syntax

namespace CssExpand.Value

open Syntax Text

/-! ## 3. Questions about words -/

@[simp] theorem checkWords_asciiLowered (ws : List String) :
    checkWords (ws.map asciiLowered) = checkWords ws := by
  rw [checkWords, List.forM_eq_forM, List.forM_map]
  exact congrArg (fun f => ws.forM f) (funext checkIntegers_asciiLowered)

@[simp] theorem isOneOf_asciiLowered (keywords : List String) (w : String) :
    isOneOf keywords (asciiLowered w) = isOneOf keywords w := by
  simp [isOneOf]

@[simp] theorem startsWithOneOf_asciiLowered (starts : List String) (w : String) :
    startsWithOneOf starts (asciiLowered w) = startsWithOneOf starts w := by
  simp [startsWithOneOf]

theorem tokens_asciiLowered (w : String) :
    (tokens (asciiLowered w)).map Token.lowered = (tokens w).map Token.lowered := by
  rw [tokens, tokens, ← Token.listLowered_eq_map, ← Token.listLowered_eq_map,
    ← Token.listWithoutComments_lowered, ← Token.listWithoutComments_lowered,
    Token.listLowered_eq_map, Token.listLowered_eq_map, toList_asciiLowered, ofChars_asciiLower]

/-- The only token among significant ones, if it is no fault. -/
def lone? : List Token → Option Token
  | [.atom (.fault _)] => none
  | [t] => some t
  | _ => none

/-- Lowering changes neither how many tokens there are nor whether one of them is a fault. -/
theorem lone?_map_lowered (ts : List Token) :
    (lone? ts).map Token.lowered = lone? (ts.map Token.lowered) := by
  cases ts with
  | nil => rfl
  | cons t ts =>
    cases ts with
    | nil =>
      cases t with
      | atom a => cases a <;> rfl
      | _ => rfl
    | cons u ts =>
      cases t with
      | atom a => cases a <;> rfl
      | _ => rfl

theorem loneToken?_asciiLowered (w : String) :
    (loneToken? (asciiLowered w)).map Token.lowered = (loneToken? w).map Token.lowered := by
  have hlone : ∀ w, loneToken? w = lone? ((tokens w).filter Token.isSignificant) := fun w => rfl
  have hfilter : ∀ ts : List Token, (ts.filter Token.isSignificant).map Token.lowered =
      (ts.map Token.lowered).filter Token.isSignificant := fun ts => by
    rw [List.filter_map, Function.comp_def]
    simp only [Token.isSignificant_lowered]
  rw [hlone, hlone, lone?_map_lowered, lone?_map_lowered, hfilter, hfilter, tokens_asciiLowered]

/-- What is asked of the token of a word and does not depend on case. -/
theorem apply_loneToken?_asciiLowered {α : Type} {f : Option Token → α}
    (h : ∀ t : Token, f (some t.lowered) = f (some t)) (w : String) :
    f (loneToken? (asciiLowered w)) = f (loneToken? w) := by
  have hmap : ∀ o : Option Token, f (o.map Token.lowered) = f o
    | none => rfl
    | some t => h t
  rw [← hmap, loneToken?_asciiLowered, hmap]

/-! The answers to these questions, from the token of a word. -/

def numberOf : Option Token → Option Numeral
  | some (.atom (.number n)) => some n
  | _ => none

def isPercentageOf : Option Token → Bool
  | some (.atom (.percentage _)) => true
  | _ => false

def isDimensionOf : Option Token → Bool
  | some (.atom (.dimension _ _)) => true
  | _ => false

def unitOf : Option Token → Option String
  | some (.atom (.dimension _ unit)) => some (String.ofList (Text.asciiLower unit))
  | some (.atom (.percentage _)) => some "%"
  | _ => none

/-- Something else than a number is asked how it starts. -/
def yieldsNumberOf (starts : Bool) : Option Token → Bool
  | none => false
  | some (.atom (.number _)) | some (.atom (.percentage _)) | some (.atom (.dimension _ _)) => true
  | some _ => starts

/-- The number that a word is, up to the letter of its exponent. -/
theorem number?_asciiLowered (w : String) :
    (number? (asciiLowered w)).map Numeral.lowered = (number? w).map Numeral.lowered := by
  refine apply_loneToken?_asciiLowered (f := fun o => (numberOf o).map Numeral.lowered)
    (fun t => ?_) w
  cases t with
  | atom a => cases a <;> first | rfl | exact congrArg some (Numeral.lowered_lowered _)
  | function name arguments => rfl
  | block bracket content => rfl

/-- What is asked of the number of a word and does not depend on the letter of an exponent. -/
@[simp] theorem any_number?_asciiLowered {p : Numeral → Bool} (h : ∀ n : Numeral, p n.lowered = p n)
    (w : String) : (number? (asciiLowered w)).any p = (number? w).any p := by
  have hmap : ∀ o : Option Numeral, (o.map Numeral.lowered).any p = o.any p
    | none => rfl
    | some n => h n
  rw [← hmap, number?_asciiLowered, hmap]

@[simp] theorem isNumber_asciiLowered (w : String) : isNumber (asciiLowered w) = isNumber w := by
  rw [isNumber, ← Option.isSome_map, number?_asciiLowered, Option.isSome_map, isNumber]

@[simp] theorem isPercentage_asciiLowered (w : String) :
    isPercentage (asciiLowered w) = isPercentage w := by
  refine apply_loneToken?_asciiLowered (f := isPercentageOf) (fun t => ?_) w
  cases t with
  | atom a => cases a <;> rfl
  | function name arguments => rfl
  | block bracket content => rfl

@[simp] theorem isDimension_asciiLowered (w : String) :
    isDimension (asciiLowered w) = isDimension w := by
  refine apply_loneToken?_asciiLowered (f := isDimensionOf) (fun t => ?_) w
  cases t with
  | atom a => cases a <;> rfl
  | function name arguments => rfl
  | block bracket content => rfl

@[simp] theorem unit?_asciiLowered (w : String) : unit? (asciiLowered w) = unit? w := by
  refine apply_loneToken?_asciiLowered (f := unitOf) (fun t => ?_) w
  cases t with
  | atom a =>
    cases a with
    | dimension n unit => exact congrArg (fun cs => some (String.ofList cs)) (asciiLower_asciiLower unit)
    | _ => rfl
  | function name arguments => rfl
  | block bracket content => rfl

@[simp] theorem yieldsNumber_asciiLowered (w : String) :
    yieldsNumber (asciiLowered w) = yieldsNumber w := by
  rw [yieldsNumber, startsWithOneOf_asciiLowered]
  refine apply_loneToken?_asciiLowered (f := yieldsNumberOf (startsWithOneOf mathStarts w))
    (fun t => ?_) w
  cases t with
  | atom a => cases a <;> rfl
  | function name arguments => rfl
  | block bracket content => rfl

@[simp] theorem isLength_asciiLowered (w : String) : isLength (asciiLowered w) = isLength w := by
  simp [isLength, isZero]

@[simp] theorem isTime_asciiLowered (w : String) : isTime (asciiLowered w) = isTime w := by
  simp [isTime]

@[simp] theorem isEasing_asciiLowered (w : String) : isEasing (asciiLowered w) = isEasing w := by
  simp [isEasing]

/-! ## 4. One word after the other

What one word does to what was found, it does in lower case to what was found in lower case; so do
all words. -/

theorem foldl_asciiLowered {σ : Type} {add : σ → String → σ} {low : σ → σ}
    (h : ∀ s w, add (low s) (asciiLowered w) = low (add s w)) (ws : List String) (s : σ) :
    (ws.map asciiLowered).foldl add (low s) = low (ws.foldl add s) := by
  induction ws generalizing s with
  | nil => rfl
  | cons w ws ih => rw [List.map_cons, List.foldl_cons, h, ih, List.foldl_cons]

theorem foldlM_asciiLowered {σ : Type} {add? : σ → String → Option σ} {low : σ → σ}
    (h : ∀ s w, add? (low s) (asciiLowered w) = (add? s w).map low) (ws : List String) (s : σ) :
    (ws.map asciiLowered).foldlM add? (low s) = (ws.foldlM add? s).map low := by
  induction ws generalizing s with
  | nil => rfl
  | cons w ws ih =>
    rw [List.map_cons, List.foldlM_cons, h, List.foldlM_cons]
    cases add? s w with
    | none => rfl
    | some s' => exact ih s'

/-! ## 5. Border lines -/

namespace Border

/-- A border line with its words in lower case. -/
def asciiLowered (b : Border) : Border :=
  { b with
    width := b.width.map Text.asciiLowered
    style := b.style.map Text.asciiLowered
    color := b.color.map Text.asciiLowered
    keywords := b.keywords.map Text.asciiLowered }

@[simp] theorem ofWord_asciiLowered (w : String) :
    BorderPart.ofWord (Text.asciiLowered w) = BorderPart.ofWord w := by
  simp [BorderPart.ofWord]

@[simp] theorem get_asciiLowered (b : Border) (part : BorderPart) :
    b.asciiLowered.get part = (b.get part).map Text.asciiLowered := by cases part <;> rfl

theorem set_asciiLowered (b : Border) (w : String) (part : BorderPart) :
    b.asciiLowered.set (Text.asciiLowered w) part = (b.set w part).asciiLowered := by
  cases part <;> rfl

theorem add_asciiLowered (b : Border) (w : String) :
    b.asciiLowered.add (Text.asciiLowered w) = (b.add w).asciiLowered := by
  rw [add, add, isOneOf_asciiLowered]
  split
  · simp [asciiLowered]
  · simp only [ofWord_asciiLowered, get_asciiLowered, Option.isSome_map]
    split
    · exact set_asciiLowered { b with collisions := b.collisions ++ [BorderPart.ofWord w] } w _
    · exact set_asciiLowered b w _

/-- Words in lower case make the line of the words in lower case, and collide where they do. -/
theorem ofWords_asciiLowered (ws : List String) :
    ofWords (ws.map Text.asciiLowered) = (ofWords ws).asciiLowered :=
  foldl_asciiLowered add_asciiLowered ws {}

end Border

end CssExpand.Value
