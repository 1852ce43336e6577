import CssExpand.Proofs.Sheet.Phrases
import CssExpand.Revision.Units
import Mathlib

/-!
# Numbers that take on a unit

Adding units makes dimensions of some numbers and changes nothing else, at any depth. Lexeme by
lexeme (`Lexeme.Lifts`) this keeps all that makes tokens readable: a dimension may stand wherever a
number may, and none of the units reads as an exponent. So tokens of a source stay tokens of a source
(`Settled.lifted`).
-/

set_option autoImplicit false

namespace CssExpand

open Syntax Value

/-! ## 1. Lexemes -/

/-- Whether a unit may be put behind any number. -/
def IsUnit (unit : List Char) : Prop :=
  unit ≠ [] ∧ '\x00' ∉ unit ∧ startsAsExponent unit = false

/-- A lexeme is what it was, or a number that took on a unit. A number keeps its spelling, so
everything that depends on how it starts is as before. -/
inductive Syntax.Lexeme.Lifts : Lexeme → Lexeme → Prop
  | same (l : Lexeme) : Lifts l l
  | unit (n : Numeral) {c : UnitCategory} (h : c ≠ .none) :
    Lifts (.atom (.number n)) (.atom (.dimension n c.unit.toList))

theorem isUnit_unit {c : UnitCategory} (h : c ≠ .none) : IsUnit c.unit.toList := by
  cases c with
  | none => exact absurd rfl h
  | _ => exact ⟨by decide, by decide, by decide⟩

namespace Syntax.Lexeme

variable {l m l' m' : Lexeme} {ls ms : List Lexeme}

theorem Lifts.wellFormed (h : l.Lifts m) (hl : l.WellFormed) : m.WellFormed := by
  cases h with
  | same => exact hl
  | unit n hu => exact ⟨hl, (isUnit_unit hu).1, (isUnit_unit hu).2.1⟩

/-- A dimension meets whatever a number meets. -/
theorem Lifts.meets (h : l.Lifts m) (h' : l'.Lifts m') (hl : l.Meets l') : m.Meets m' := by
  -- what is not to follow is no dimension
  have hsame : ∀ {k : Lexeme}, k.Meets l' → k.Meets m' := by
    intro k hk
    cases h' with
    | same => exact hk
    | unit n hu =>
      refine ⟨by simp, by simp, by simp, by simp, by simp, by simp, fun hb => ?_⟩
      obtain ⟨t, ht⟩ := hk.backslash hb
      cases ht
  cases h with
  | same => exact hsame hl
  | unit n hu => exact ⟨by simp, by simp, by simp, by simp, by simp, by simp, by simp⟩

theorem Lifts.isString (h : l.Lifts m) : m.isString = l.isString := by
  cases h <;> rfl

theorem Lifts.isWhitespace (h : l.Lifts m) : m.isWhitespace = l.isWhitespace := by
  cases h <;> rfl

theorem Lifts.isFault (h : l.Lifts m) : m.isFault = l.isFault := by
  cases h <;> rfl

theorem Lifts.overlong? (h : l.Lifts m) : m.overlong? = l.overlong? := by
  cases h <;> rfl

theorem Lifts.isMisread (h : l.Lifts m) (hl : l.isMisread = false) : m.isMisread = false := by
  cases h with
  | same => exact hl
  | unit n hu => simp [isMisread, Atom.isMisread, (isUnit_unit hu).2.2]

theorem Lifts.startsAsRange (h : l.Lifts m) : m.startsAsRange = l.startsAsRange := by
  cases h <;> rfl

theorem Lifts.startsWithHyphens (h : l.Lifts m) : m.startsWithHyphens = l.startsWithHyphens := by
  cases h <;> rfl

theorem head?_any_of_lifts {p : Lexeme → Bool} (hp : ∀ {l m : Lexeme}, l.Lifts m → p m = p l)
    (h : List.Forall₂ Lifts ls ms) : ms.head?.any p = ls.head?.any p := by
  cases h with
  | nil => rfl
  | cons hl _ => simp [hp hl]

/-- A zero that gets a unit is no string and no whitespace, before and after. -/
theorem startsQuoted_of_lifts (h : List.Forall₂ Lifts ls ms) (hq : StartsQuoted ls) :
    StartsQuoted ms := by
  cases h with
  | nil => trivial
  | @cons l m ls ms hl hls =>
    rcases hq with hs | ⟨hw, hs⟩
    · exact .inl (hl.isString ▸ hs)
    · refine .inr ⟨hl.isWhitespace ▸ hw, fun k hk => ?_⟩
      cases hls with
      | nil => cases hk
      | cons hl' _ =>
        obtain rfl := Option.some.inj hk
        rw [hl'.isString]
        exact hs _ rfl

/-- So what could stand in a source still can. -/
theorem sourced_of_lifts (h : List.Forall₂ Lifts ls ms) (hs : Sourced ls) : Sourced ms := by
  induction h with
  | nil => trivial
  | @cons l m ls ms hl hls ih =>
    obtain ⟨hwf, hmeets, hquoted, hrest⟩ := hs
    refine ⟨hl.wellFormed hwf, fun k hk => ?_, fun name hname hurl => ?_, ih hrest⟩
    · cases hls with
      | nil => cases hk
      | cons hl' _ =>
        obtain rfl := Option.some.inj hk
        exact hl.meets hl' (hmeets _ rfl)
    · subst hname
      cases hl with
      | same => exact startsQuoted_of_lifts hls (hquoted name rfl hurl)

/-- The three lexemes of a bad join are two literals or a name and a literal, and what stands behind
them. Units make none of these. -/
theorem misjoins_of_lifts (h : List.Forall₂ Lifts ls ms) (hm : misjoins ls = false) :
    misjoins ms = false := by
  cases h with
  | nil => exact hm
  | @cons l m ls ms hl hls =>
    cases hls with
    | nil =>
      cases hl with
      | same => exact hm
      | unit n hu => rfl
    | @cons l' m' ls ms hl' hls =>
      have hrange := head?_any_of_lifts Lifts.startsAsRange hls
      have hhyphens := head?_any_of_lifts Lifts.startsWithHyphens hls
      cases hl with
      | unit n hu => rfl
      | same =>
        cases hl' with
        | unit n hu => cases l with
          | atom a => cases a <;> rfl
          | _ => rfl
        | same =>
          unfold misjoins at hm ⊢
          split at hm
          · next heq =>
            obtain ⟨rfl, htail⟩ := List.cons.inj heq
            obtain ⟨rfl, rfl⟩ := List.cons.inj htail
            simpa only [hrange] using hm
          · next heq =>
            obtain ⟨rfl, htail⟩ := List.cons.inj heq
            obtain ⟨rfl, rfl⟩ := List.cons.inj htail
            simpa only [hhyphens] using hm
          -- neither of the two patterns: the lifted pair is the same pair, so neither is it
          · next hident hliteral =>
            split
            · next name text ks heq =>
              obtain ⟨rfl, htail⟩ := List.cons.inj heq
              obtain ⟨rfl, -⟩ := List.cons.inj htail
              exact absurd rfl (hident name text ls)
            · next text text' ks heq =>
              obtain ⟨rfl, htail⟩ := List.cons.inj heq
              obtain ⟨rfl, -⟩ := List.cons.inj htail
              exact absurd rfl (hliteral text text' ls)
            · rfl

theorem misread_of_lifts (h : List.Forall₂ Lifts ls ms) (hm : misread ls = false) :
    misread ms = false := by
  induction h with
  | nil => exact hm
  | cons hl hls ih =>
    simp only [misread, Bool.or_eq_false_iff] at hm ⊢
    exact ⟨⟨hl.isMisread hm.1.1, misjoins_of_lifts (.cons hl hls) hm.1.2⟩, ih hm.2⟩

theorem short_of_lifts (h : List.Forall₂ Lifts ls ms) (hs : ∀ l ∈ ls, l.overlong? = none) :
    ∀ m ∈ ms, m.overlong? = none := by
  induction h with
  | nil => simp
  | cons hl _ ih =>
    rw [List.forall_mem_cons] at hs ⊢
    exact ⟨hl.overlong? ▸ hs.1, ih hs.2⟩

theorem any_isFault_of_lifts (h : List.Forall₂ Lifts ls ms) :
    ms.any isFault = ls.any isFault := by
  induction h with
  | nil => rfl
  | cons hl _ ih => rw [List.any_cons, List.any_cons, hl.isFault, ih]

end Syntax.Lexeme

/-! ## 2. Tokens -/

open Syntax.Lexeme

namespace UnitRule

mutual

/-- The rule lifts the lexemes of a token one by one, brackets included, so the nesting is the same. -/
theorem lifts_apply (r : UnitRule) : ∀ t : Token, List.Forall₂ Lifts t.flat (r.apply t).flat
  | .atom (.number n) => by
    rw [apply]
    split
    · next h =>
      have hne : r.category ≠ .none := by
        simp only [appliesTo, Bool.and_eq_true, bne_iff_ne] at h
        exact h.2
      exact .cons (.unit n hne) .nil
    · exact .cons (.same _) .nil
  | .atom (.whitespace _) | .atom (.comment _) | .atom (.literal _) | .atom (.ident _)
  | .atom (.atKeyword _) | .atom (.hash _ _) | .atom (.string _ _) | .atom (.url _ _)
  | .atom (.unicodeRange _ _) | .atom (.percentage _) | .atom (.dimension _ _)
  | .atom (.fault _) => by
    rw [apply]
    · exact .cons (.same _) .nil
    · simp
  | .function name arguments => by
    rw [apply]
    split
    · next inner h =>
      rw [Token.flat, Token.flat]
      exact .cons (.same _) (List.rel_append (lifts_applyAll inner arguments) (.cons (.same _) .nil))
    · exact List.forall₂_same.mpr fun l _ => .same l
  | .block .curly content => by
    rw [apply]
    exact List.forall₂_same.mpr fun l _ => .same l
  | .block .round content | .block .square content => by
    rw [apply, Token.flat, Token.flat]
    · exact .cons (.same _) (List.rel_append (lifts_applyAll r content) (.cons (.same _) .nil))
    · simp

/-- Adding units to tokens makes dimensions of some of their numbers. -/
theorem lifts_applyAll (r : UnitRule) : ∀ ts : List Token,
    List.Forall₂ Lifts (Token.listFlat ts) (Token.listFlat (r.applyAll ts))
  | [] => .nil
  | t :: ts => by
    rw [applyAll, Token.listFlat, Token.listFlat]
    exact List.rel_append (lifts_apply r t) (lifts_applyAll r ts)

end

/-- The tokens with units at the bare zeros of those that are not marked. -/
def applyMarked (r : UnitRule) (marked : List (Token × Bool)) : List Token :=
  marked.map fun m => if m.2 then m.1 else r.apply m.1

theorem lifts_applyMarked (r : UnitRule) (marked : List (Token × Bool)) :
    List.Forall₂ Lifts (Token.listFlat (marked.map Prod.fst)) (Token.listFlat (r.applyMarked marked)) := by
  induction marked with
  | nil => exact .nil
  | cons m marked ih =>
    rw [applyMarked, List.map_cons, List.map_cons, Token.listFlat, Token.listFlat]
    refine List.rel_append ?_ ih
    split
    · exact List.forall₂_same.mpr fun l _ => .same l
    · exact lifts_apply r m.1

theorem isLiteral_apply (r : UnitRule) (t : Token) (text : List Char) :
    (r.apply t).isLiteral text = t.isLiteral text := by
  cases t with
  | atom a =>
    cases a with
    | number n =>
      rw [apply]
      split <;> rfl
    | _ => rfl
  | function name arguments =>
    rw [apply]
    split <;> rfl
  | block b content => cases b <;> rfl

end UnitRule

/-- Settled tokens stay settled when numbers in them take on a unit. -/
theorem Syntax.Token.Settled.lifted {ts us : List Token} (h : Token.Settled ts)
    (hl : List.Forall₂ Lifts (Token.listFlat ts) (Token.listFlat us)) : Token.Settled us := by
  exact ⟨sourced_of_lifts hl h.sourced, misread_of_lifts hl h.misread, short_of_lifts hl h.short⟩

theorem Syntax.Token.listHasFault_lifted {ts us : List Token}
    (hl : List.Forall₂ Lifts (Token.listFlat ts) (Token.listFlat us)) :
    Token.listHasFault us = Token.listHasFault ts := by
  rw [← Token.any_isFault_listFlat, ← Token.any_isFault_listFlat, any_isFault_of_lifts hl]

end CssExpand
