import CssExpand.Proofs.Units.BareZeros
import Mathlib

/-!
# Values with units at what is not marked

What the pass writes is read again: by the next pass, or by the same one. For a value that is not
misread the new text has the tokens that got their units, as they are read back
(`ReadAgain.ofChars_applyMarked`), and a bare zero is left among them only where a token is marked. In
an animation the marked tokens are those that are written like the iteration counts (`markCounts_cons`).
-/

set_option autoImplicit false

namespace CssExpand

open Syntax Value

/-! ## 1. Bare zeros that are left -/

namespace UnitRule

mutual

@[simp] theorem hasBareZero_reread (r : UnitRule) : ∀ t : Token, r.hasBareZero t.reread = r.hasBareZero t
  | .atom a => by cases a <;> rfl
  | .function name arguments => by
    rw [Token.reread, hasBareZero, hasBareZero]
    split
    · next inner _ => exact anyBareZero_listReread inner arguments
    · rfl
  | .block .curly content => rfl
  | .block .round content | .block .square content => by
    rw [Token.reread, hasBareZero, hasBareZero, anyBareZero_listReread r content] <;> simp

/-- No zero comes or goes when tokens are read back. -/
@[simp] theorem anyBareZero_listReread (r : UnitRule) : ∀ ts : List Token,
    r.anyBareZero (Token.listReread ts) = r.anyBareZero ts
  | [] => rfl
  | t :: ts => by
    have hjoin : Token.join t ts = [] ∨ Token.join t ts = [.atom (.comment [])] := by
      cases ts with
      | nil => exact .inl rfl
      | cons u us =>
        rw [Token.join]
        split
        · exact .inr rfl
        · exact .inl rfl
    rw [Token.listReread, anyBareZero, anyBareZero, hasBareZero_reread r t,
      ← anyBareZero_listReread r ts]
    rcases hjoin with h | h <;> rw [h] <;> rfl

end

mutual

/-- After the rule no bare zero is left that it would change. A zero with a unit is a dimension, and
the openers on the way are the same. -/
theorem hasBareZero_apply (r : UnitRule) : ∀ t : Token, r.hasBareZero (r.apply t) = false
  | .atom a => by
    cases a with
    | number n =>
      rw [apply]
      split
      · rfl
      · next h => simpa [hasBareZero] using h
    | _ => rfl
  | .function name arguments => by
    rw [apply]
    cases h : r.inside? name with
    | some inner =>
      simp only [hasBareZero, h]
      exact anyBareZero_applyAll inner arguments
    | none => simp only [hasBareZero, h]
  | .block .curly content => rfl
  | .block .round content | .block .square content => by
    rw [apply, hasBareZero, anyBareZero_applyAll r content] <;> simp

/-- Nothing is left to do where units were added. -/
theorem anyBareZero_applyAll (r : UnitRule) : ∀ ts : List Token,
    r.anyBareZero (r.applyAll ts) = false
  | [] => rfl
  | t :: ts => by
    rw [applyAll, anyBareZero, hasBareZero_apply r t, anyBareZero_applyAll r ts]
    rfl

end

end UnitRule

/-! ## 2. Marks -/

/-- Whether a token is a number that is written like the count. -/
def Syntax.Token.isWrittenAs (count : Option String) : Token → Bool
  | .atom (.number n) => count == some (String.ofList n.chars)
  | _ => false

/-- The first number that is written like the count is marked, and then there is no count any more. -/
theorem markCounts_cons (count : Option String) (later : List (Option String)) (t : Token)
    (ts : List Token) : markCounts count later (t :: ts) =
      if t.isComma then false :: markCounts later.head?.join later.tail ts
      else t.isWrittenAs count ::
        markCounts (if t.isWrittenAs count then none else count) later ts := by
  rw [markCounts.eq_def]
  dsimp only
  split
  · rfl
  · split
    · next n =>
      rw [Token.isWrittenAs]
      split
      · next h => simp [h]
      · next h => simp [beq_false_of_ne h]
    · next hn =>
      have hnone : t.isWrittenAs count = false := by
        cases t with
        | atom a =>
          cases a with
          | number n => exact absurd rfl (hn n)
          | _ => rfl
        | _ => rfl
      simp [hnone]

namespace UnitRule

/-- What separates tokens is no number, and nothing is inside it. -/
theorem plain_of_separator (r : UnitRule) (count : Option String) {t : Token}
    (h : t.isWhitespace = true ∨ t.isComment = true ∨ t.isComma = true) :
    t.isWrittenAs count = false ∧ r.hasBareZero t = false ∧ r.apply t = t ∧
      t.withoutComments = t := by
  cases t with
  | atom a => cases a <;> first | exact ⟨rfl, rfl, rfl, rfl⟩ | rcases h with h | h | h <;> cases h
  | _ => rcases h with h | h | h <;> cases h

theorem isComma_of_isComment {t : Token} (h : t.isComment = true) : t.isComma = false := by
  cases t with
  | atom a => cases a <;> first | rfl | cases h
  | _ => cases h

theorem isComma_apply (r : UnitRule) (t : Token) : (r.apply t).isComma = t.isComma :=
  r.isLiteral_apply t [',']

theorem applyMarked_cons (r : UnitRule) (t : Token) (ts : List Token) (b : Bool) (kept : List Bool) :
    r.applyMarked ((t :: ts).zip (b :: kept)) =
      (if b then t else r.apply t) :: r.applyMarked (ts.zip kept) :=
  rfl

theorem anyUnmarked_cons (r : UnitRule) (t : Token) (ts : List Token) (b : Bool) (kept : List Bool) :
    r.anyUnmarked ((t :: ts).zip (b :: kept)) =
      (!b && r.hasBareZero t || r.anyUnmarked (ts.zip kept)) :=
  rfl

/-- What is left to do is a bare zero. -/
theorem anyBareZero_of_anyUnmarked {r : UnitRule} {marked : List (Token × Bool)}
    (h : r.anyUnmarked marked = true) : r.anyBareZero (marked.map Prod.fst) = true := by
  induction marked with
  | nil => cases h
  | cons m marked ih =>
    rw [anyUnmarked, List.any_cons, Bool.or_eq_true, Bool.and_eq_true] at h
    rw [List.map_cons, anyBareZero, Bool.or_eq_true]
    exact h.imp And.right ih

end UnitRule

/-! ## 3. Values -/

open Syntax.Lexeme

/-- A text without faults, in which nothing is misread and no integer is overlong. -/
structure Syntax.ReadAgain (text : String) : Prop where
  settled : Token.Settled (Token.ofChars text.toList)
  faultless : Token.listHasFault (Token.ofChars text.toList) = false

theorem Syntax.ReadBack.readAgain {text : String} (h : ReadBack text) : ReadAgain text :=
  ⟨h.settled, h.faultless⟩

/-- A unit is no backslash. -/
theorem UnitRule.backslash_applyMarked (r : UnitRule) {marked : List (Token × Bool)}
    (h : ∀ t ∈ (marked.map Prod.fst).getLast?, t.isLiteral ['\\'] = false) :
    ∀ t ∈ (r.applyMarked marked).getLast?, t.isLiteral ['\\'] = false := by
  intro t ht
  rw [applyMarked, List.getLast?_map, Option.mem_map] at ht
  obtain ⟨m, hm, rfl⟩ := ht
  have hlast := h m.1 (by rw [List.getLast?_map, Option.mem_map]; exact ⟨m, hm, rfl⟩)
  split
  · exact hlast
  · rwa [r.isLiteral_apply]

theorem lifts_marked {value : String} (r : UnitRule) {marked : List (Token × Bool)}
    (hm : marked.map Prod.fst = Token.ofChars value.toList) :
    List.Forall₂ Lifts (Token.listFlat (Token.ofChars value.toList))
      (Token.listFlat (r.applyMarked marked)) :=
  hm ▸ r.lifts_applyMarked marked

namespace Syntax.ReadAgain

variable {value : String} (h : ReadAgain value) (r : UnitRule) {marked : List (Token × Bool)}
  (hm : marked.map Prod.fst = Token.ofChars value.toList)
include h hm

theorem settled_applyMarked : Token.Settled (r.applyMarked marked) :=
  h.settled.lifted (lifts_marked r hm)

theorem backslash_applyMarked :
    ∀ t ∈ (r.applyMarked marked).getLast?, t.isLiteral ['\\'] = false :=
  r.backslash_applyMarked (hm.symm ▸ Token.backslash_ofChars h.faultless)

/-- The text with units has the tokens that got them, as they are read back. -/
theorem ofChars_applyMarked : Token.ofChars (Token.write (r.applyMarked marked)).toList =
    Token.listReread (r.applyMarked marked) := by
  rw [Token.write, String.toList_ofList]
  exact (h.settled_applyMarked r hm).ofChars_listWritten (h.backslash_applyMarked r hm)

/-- A text with units is read back as it is. -/
theorem readBack_applyMarked : ReadBack (Token.write (r.applyMarked marked)) :=
  (h.settled_applyMarked r hm).readBack (h.backslash_applyMarked r hm)
    ((Token.listHasFault_lifted (lifts_marked r hm)).trans h.faultless)

end Syntax.ReadAgain

end CssExpand
