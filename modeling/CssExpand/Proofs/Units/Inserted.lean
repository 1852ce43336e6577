import CssExpand.Proofs.Units.Marked
import Mathlib

/-!
# Units are put in, and nothing else is

A value with a bare zero is written anew, all of it. So what is not a number is the same text again
only if the writer spells it as the author did. Where it does, and no number has a hyphen right behind
it, which a unit would take for its own, the new value is the old one with units behind some of its
numbers (`Inserted`, `withUnits_inserted`). Its tree is the tree that the pass made, so a call of a
function that keeps its numbers to itself stands where it stood, in the same words.
-/

set_option autoImplicit false

namespace CssExpand

open Syntax Value

/-! ## 1. Texts with units put in -/

/-- A text is that of some lexemes, with units right behind some of the numbers. It goes by the lexemes
and not by the characters, so that a unit cannot stand in the middle of a number. -/
inductive Inserted : List Lexeme → List Char → Prop
  | nil : Inserted [] []
  | keep (l : Lexeme) {ls : List Lexeme} {cs : List Char} (rest : Inserted ls cs) :
    Inserted (l :: ls) (l.written ++ cs)
  | unit (n : Numeral) {c : UnitCategory} (hc : c ≠ .none) {ls : List Lexeme} {cs : List Char}
    (rest : Inserted ls cs) :
    Inserted (.atom (.number n) :: ls) (n.chars ++ c.unit.toList ++ cs)

/-- A unit meets what its number meets, unless that is a hyphen. -/
theorem Syntax.Joint.dimension_clash {j : Joint} (hhyphen : j ≠ .literal ['-'])
    (hcdc : j ≠ .literal ['-', '-', '>']) : Joint.dimension.clash j = Joint.number.clash j := by
  rw [clash, clash, beq_false_of_ne hhyphen, beq_false_of_ne hcdc]
  rfl

namespace Syntax.Lexeme

variable {l m l' m' : Lexeme} {ls ms : List Lexeme}

theorem inserted_of_lifts (h : List.Forall₂ Lifts ls ms) : Inserted ls (text ms) := by
  induction h with
  | nil => exact .nil
  | @cons l m ls ms hl _ ih =>
    rw [text, List.flatMap_cons]
    cases hl with
    | same => exact .keep l ih
    | @unit n c hc =>
      have hwritten : written (.atom (.dimension n c.unit.toList)) = n.chars ++ c.unit.toList := by
        cases c <;> rfl
      rw [hwritten]
      exact .unit n hc ih

/-- No hyphen stands right behind a number, where it would belong to a unit. -/
def KeepsUnit (l l' : Lexeme) : Prop :=
  ∀ n, l = .atom (.number n) → l'.joint ≠ .literal ['-'] ∧ l'.joint ≠ .literal ['-', '-', '>']

instance (l l' : Lexeme) : Decidable (KeepsUnit l l') :=
  match l with
  | .atom (.number n) =>
    decidable_of_iff (l'.joint ≠ .literal ['-'] ∧ l'.joint ≠ .literal ['-', '-', '>'])
      ⟨fun h _ _ => h, fun h => h n rfl⟩
  | .atom (.whitespace _) | .atom (.comment _) | .atom (.literal _) | .atom (.ident _)
  | .atom (.atKeyword _) | .atom (.hash _ _) | .atom (.string _ _) | .atom (.url _ _)
  | .atom (.unicodeRange _ _) | .atom (.percentage _) | .atom (.dimension _ _)
  | .atom (.fault _) | .openFunction _ | .openBlock _ | .close _ =>
    .isTrue fun _ h => by cases h

/-- A unit is kept apart from what follows where its number was, unless that is a hyphen. -/
theorem Lifts.glue_eq_nil (h : l.Lifts m) (h' : l'.Lifts m') (hk : l.KeepsUnit l')
    (hg : glue l l' = []) : glue m m' = [] := by
  rw [h'.glue_eq]
  cases h with
  | same => exact hg
  | unit n hc =>
    obtain ⟨hhyphen, hcdc⟩ := hk n rfl
    have hclash := Joint.dimension_clash hhyphen hcdc
    rw [glue] at hg ⊢
    rwa [show joint (.atom (.dimension n _)) = .dimension from rfl, hclash]

theorem glued_eq_self_iff : glued ls = ls ↔ ls.IsChain fun l l' => glue l l' = [] := by
  -- gluing only adds, so a list that is not longer afterwards has got nothing
  have hlength : ∀ ks : List Lexeme, ks.length ≤ (glued ks).length := by
    intro ks
    induction ks with
    | nil => exact Nat.le_refl _
    | cons k ks ih =>
      cases ks with
      | nil => exact Nat.le_refl _
      | cons k' ks =>
        simp only [glued, List.length_cons, List.length_append] at ih ⊢
        omega
  induction ls with
  | nil => exact iff_of_true rfl .nil
  | cons l ls ih =>
    cases ls with
    | nil => exact iff_of_true rfl (.singleton l)
    | cons l' ls =>
      rw [List.isChain_cons_cons, glued, List.cons_inj_right]
      refine ⟨fun h => ?_, fun h => by rw [h.1, ih.mpr h.2, List.nil_append]⟩
      have hle := hlength (l' :: ls)
      have heq := congrArg List.length h
      rw [List.length_append] at heq
      have hnil := List.eq_nil_of_length_eq_zero (show (glue l l').length = 0 by omega)
      rw [hnil, List.nil_append] at h
      exact ⟨hnil, ih.mp h⟩

theorem isChain_of_lifts (h : List.Forall₂ Lifts ls ms) (hk : ls.IsChain KeepsUnit)
    (hg : ls.IsChain fun l l' => glue l l' = []) : ms.IsChain fun l l' => glue l l' = [] := by
  induction h with
  | nil => exact .nil
  | @cons l m ls ms hl hls ih =>
    cases hls with
    | nil => exact .singleton m
    | @cons l' m' ls ms hl' hls =>
      rw [List.isChain_cons_cons] at hk hg ⊢
      exact ⟨hl.glue_eq_nil hl' hk.1 hg.1, ih hk.2 hg.2⟩

end Syntax.Lexeme

/-! ## 2. Values with units put in -/

open Syntax.Lexeme

namespace Syntax.ReadBack

variable {value : String} (h : ReadBack value) (r : UnitRule) {marked : List (Token × Bool)}
  (hm : marked.map Prod.fst = Token.ofChars value.toList)
  (hk : (Lexeme.scan value.toList).IsChain KeepsUnit)
include h hm hk

theorem glued_applyMarked :
    glued (Token.listFlat (r.applyMarked marked)) = Token.listFlat (r.applyMarked marked) := by
  obtain ⟨hscan, -, hglued, -⟩ := h.aligned
  rw [hscan] at hk hglued
  exact glued_eq_self_iff.mpr (isChain_of_lifts (lifts_marked r hm) hk (glued_eq_self_iff.mp hglued))

/-- The text of the value with units is the value with units put in. -/
theorem inserted_applyMarked :
    Inserted (Lexeme.scan value.toList) (Token.write (r.applyMarked marked)).toList := by
  rw [Token.write, String.toList_ofList,
    Token.listWritten_eq _ (h.readAgain.settled_applyMarked r hm).sourced, h.glued_applyMarked r hm hk,
    h.aligned.1]
  exact inserted_of_lifts (lifts_marked r hm)

/-- The tokens of the value with units are the tokens that got them. -/
theorem tokens_applyMarked :
    Token.ofChars (Token.write (r.applyMarked marked)).toList = r.applyMarked marked := by
  have hreread := List.map_congr_left (f := Lexeme.reread) (g := id)
    (reread_eq_of_lifts (lifts_marked r hm) h.reread_eq)
  have hflat := Token.listFlat_listReread (r.applyMarked marked)
  rw [h.glued_applyMarked r hm hk, hreread, List.map_id] at hflat
  rw [h.readAgain.ofChars_applyMarked r hm, ← Token.nest_listFlat_eq (Token.listReread _), hflat,
    Token.nest_listFlat_eq]

end Syntax.ReadBack

/-! ## 3. Calls that keep their numbers to themselves -/

/-- Whether a token is a call of a function that keeps its numbers to itself. -/
def Syntax.Token.isClosedCall : Token → Bool
  | .function name _ => (Opener.function name).isClosed
  | _ => false

theorem UnitRule.applyIf_isClosedCall (rule? : Option UnitRule) {t : Token}
    (h : t.isClosedCall = true) : applyIf rule? t = t := by
  cases t with
  | function name arguments =>
    cases rule? with
    | none => rfl
    | some r =>
      rw [applyIf, apply_function_eq, enter?_eq, show (Opener.function name).isClosed = true from h,
        if_pos rfl]
      exact congrArg _ (List.map_id arguments)
  | _ => cases h

/-- A call that keeps its numbers to itself stands where it stood, whatever is marked. -/
theorem UnitRule.placeAt?_applyMarked_isClosedCall (r : UnitRule) (marked : List (Token × Bool))
    {path : List Nat} {p : TokenPlace} (hp : placeAt? (marked.map Prod.fst) path = some p)
    (hclosed : p.token.isClosedCall = true) : placeAt? (r.applyMarked marked) path = some p := by
  cases path with
  | nil => cases hp
  | cons i path =>
    rw [placeAt?, List.getElem?_map] at hp
    rw [placeAt?, applyMarked, List.getElem?_map]
    cases hm : marked[i]? with
    | none =>
      rw [hm] at hp
      cases hp
    | some m =>
      rw [hm] at hp
      rw [Option.map_some, Option.bind_some]
      replace hp : m.1.placeBelow? [] path = some p := hp
      split
      · exact hp
      · have happly := r.placeBelow?_applyIf path [] m.1
        rw [hp, Option.map_some, applyIf_isClosedCall _ hclosed] at happly
        exact happly

theorem Syntax.Token.written_isInfix_listWritten {ts : List Token} {t : Token} (h : t ∈ ts) :
    t.written <:+: listWritten ts := by
  induction ts with
  | nil => cases h
  | cons u us ih =>
    rw [listWritten, List.append_assoc]
    rcases List.mem_cons.mp h with rfl | h
    · exact (List.prefix_append _ _).isInfix
    · exact (ih h).trans (List.suffix_append_of_suffix (List.suffix_append _ _)).isInfix

/-- What stands at a place is written in the text of all. -/
theorem Syntax.Token.written_isInfix_of_placeBelow? {path : List Nat} {t : Token}
    {around : List Opener} {p : TokenPlace} (h : t.placeBelow? around path = some p) :
    p.token.written <:+: t.written := by
  induction path generalizing t around with
  | nil =>
    obtain rfl : (⟨around, t⟩ : TokenPlace) = p := by
      cases t <;> exact Option.some.inj h
    exact List.infix_rfl
  | cons i path ih =>
    have hcontent : ∀ {o : Opener} {content : List Token},
        (content[i]?.bind fun u => u.placeBelow? (o :: around) path) = some p →
          p.token.written <:+: listWritten content := by
      intro o content hp
      obtain ⟨u, hu, hp⟩ := Option.bind_eq_some_iff.mp hp
      exact (ih hp).trans (written_isInfix_listWritten (List.mem_of_getElem? hu))
    cases t with
    | atom a => cases h
    | function name arguments =>
      refine (hcontent h).trans ?_
      rw [written]
      exact ⟨identWritten name ++ ['('], if lastEndsInOpenString arguments then [] else [')'], by simp⟩
    | block bracket content =>
      refine (hcontent h).trans ?_
      rw [written]
      exact ⟨[bracket.opening], [bracket.closing], by simp⟩

theorem written_isInfix_of_placeAt? {ts : List Token} {path : List Nat} {p : TokenPlace}
    (h : placeAt? ts path = some p) : p.token.written <:+: Token.listWritten ts := by
  cases path with
  | nil => cases h
  | cons i path =>
    obtain ⟨t, ht, hp⟩ := Option.bind_eq_some_iff.mp h
    exact (Token.written_isInfix_of_placeBelow? hp).trans
      (Token.written_isInfix_listWritten (List.mem_of_getElem? ht))

/-! ## 4. Adding units -/

/-- If a value without faults is written back as it stands, and no number in it has a hyphen right
behind it, then what replaces it is the value with units put in right behind some of its numbers, and
not a character of it is changed. A call of a function that keeps its numbers to itself stays at its
place, in the same words.

That the value is written back as it stands has to be asked for, as the whole value is written anew: the
quotes of a string far from any zero come out as the writer has them. -/
theorem withUnits_inserted {ignored : Ignored} {prop value : String} {pairs : List (String × String)}
    (hf : Token.listHasFault (Token.ofChars value.toList) = false)
    (hw : Token.write (Token.ofChars value.toList) = value)
    (hk : (Lexeme.scan value.toList).IsChain KeepsUnit)
    (h : (Revision.units ignored).run prop value = .ok (.replace pairs)) :
    ∃ value', pairs = [(Text.lower prop, value')] ∧
      Lexeme.text (Lexeme.scan value.toList) = value.toList ∧
      Inserted (Lexeme.scan value.toList) value'.toList ∧
      ∀ path p, placeAt? (Token.ofChars value.toList) path = some p →
        p.token.isClosedCall = true →
          placeAt? (Token.ofChars value'.toList) path = some p ∧
            p.token.written <:+: value.toList ∧ p.token.written <:+: value'.toList := by
  obtain ⟨-, -, haccepted, kept, hkept, -, rfl⟩ := of_run_units_replace h
  have hread : ReadBack value := ⟨haccepted, hf, hw⟩
  have hm := List.map_fst_zip (Nat.le_of_eq (length_keptTokens? hkept).symm)
  refine ⟨_, rfl, ?_, hread.inserted_applyMarked _ hm hk, fun path p hp hclosed => ?_⟩
  · obtain ⟨hscan, -, hglued, -⟩ := hread.aligned
    have hwritten := Token.listWritten_eq _ hread.sourced
    rwa [hread.listWritten_eq, ← hscan, hglued, eq_comm] at hwritten
  · have hplace := (UnitRule.ofProperty (Text.lower prop)).placeAt?_applyMarked_isClosedCall
      ((Token.ofChars value.toList).zip kept) (hm.symm ▸ hp) hclosed
    have hold := written_isInfix_of_placeAt? hp
    have hnew := written_isInfix_of_placeAt? hplace
    rw [hread.listWritten_eq] at hold
    rw [hread.tokens_applyMarked _ hm hk, Token.write, String.toList_ofList]
    exact ⟨hplace, hold, hnew⟩

/-- One zero gets its unit, and `calc(0)` is what it was. -/
theorem withUnits_inserted_calc :
    Token.listHasFault (Token.ofChars "0 calc(0)".toList) = false ∧
      Token.write (Token.ofChars "0 calc(0)".toList) = "0 calc(0)" ∧
      (Lexeme.scan "0 calc(0)".toList).IsChain KeepsUnit ∧
      (Revision.units .nothing).run "margin" "0 calc(0)" =
        .ok (.replace [("margin", "0px calc(0)")]) ∧
      Inserted (Lexeme.scan "0 calc(0)".toList) "0px calc(0)".toList := by
  have hf : Token.listHasFault (Token.ofChars "0 calc(0)".toList) = false := by decide +kernel
  have hw : Token.write (Token.ofChars "0 calc(0)".toList) = "0 calc(0)" := by decide +kernel
  have hk : (Lexeme.scan "0 calc(0)".toList).IsChain KeepsUnit := by decide +kernel
  have h : (Revision.units .nothing).run "margin" "0 calc(0)" =
      .ok (.replace [("margin", "0px calc(0)")]) := by decide +kernel
  obtain ⟨value', hpairs, -, hinserted, -⟩ := withUnits_inserted hf hw hk h
  obtain rfl : "0px calc(0)" = value' := (Prod.mk.inj (List.cons.inj hpairs).1).2
  exact ⟨hf, hw, hk, h, hinserted⟩

/-- A string in the fallback of a `var()` is written with other quotes as soon as a zero beside it
gets its unit, so the call is no longer there in the words of the author. -/
theorem withUnits_requotes :
    Token.listHasFault (Token.ofChars "0 var(--x, 'a')".toList) = false ∧
      (Revision.units .nothing).run "margin" "0 var(--x, 'a')" =
        .ok (.replace [("margin", "0px var(--x, \"a\")")]) ∧
      "var(--x, 'a')".toList <:+: "0 var(--x, 'a')".toList ∧
      ¬ "var(--x, 'a')".toList <:+: "0px var(--x, \"a\")".toList := by
  exact ⟨by decide +kernel, by decide +kernel, by decide +kernel, by decide +kernel⟩

end CssExpand
