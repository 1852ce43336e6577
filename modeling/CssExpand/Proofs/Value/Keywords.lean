import CssExpand.Proofs.Syntax.Digits
import CssExpand.Proofs.Syntax.Seam
import CssExpand.Proofs.Text.LetterCase
import CssExpand.Value.Word
import Mathlib

/-!
# Numbers and keywords

The grammars ask what a word is in an order of their own, and rely on the answers to exclude each
other. Keywords do because their lists have nothing in common. A word that is a number has a digit,
which lowering keeps, so it is no keyword (`isOneOf_eq_false_of_isNumber`). And it does not start like a
function (`startsWithOneOf_eq_false_of_isNumber`): what starts with a letter is read as a name, and a
name is no number (`number?_eq_none_of_isNameStart`).
-/

set_option autoImplicit false

namespace CssExpand

open Syntax Value

/-! ## 1. Keywords -/

namespace Value

/-- A word with a digit is none of some keywords without digits. -/
theorem isOneOf_eq_false {keywords : List String} (hk : ∀ k ∈ keywords, Digitless k.toList)
    {w : String} (hw : ¬Digitless w.toList) : isOneOf keywords w = false := by
  refine Bool.eq_false_iff.mpr fun hone => hw fun c hc => ?_
  refine Bool.eq_false_iff.mpr fun hd => ?_
  have hlower : c ∈ (Text.lower w).toList := by
    rw [Text.lower, String.toList_ofList]
    exact Text.mem_lowerAfter_of_isDigit hd hc
  have := hk _ (List.contains_iff_mem.mp hone) c hlower
  rw [hd] at this
  cases this

theorem digitless_of_all {ws : List String}
    (h : (ws.all fun w => w.toList.all (!·.isDigit)) = true) : ∀ w ∈ ws, Digitless w.toList := by
  intro w hw c hc
  simpa using List.all_eq_true.mp (List.all_eq_true.mp h w hw) c hc

/-- One of some keywords is none of others. -/
theorem isOneOf_eq_false_of_disjoint {keywords others : List String}
    (h : ∀ k ∈ keywords, k ∉ others) {w : String} (hw : isOneOf keywords w = true) :
    isOneOf others w = false := by
  refine Bool.eq_false_iff.mpr fun hother => ?_
  exact h _ (List.contains_iff_mem.mp hw) (List.contains_iff_mem.mp hother)

end Value

/-! ## 2. The token of a word -/

theorem Syntax.Token.exists_of_mem_listWithoutComments {ts : List Token} {t : Token}
    (h : t ∈ listWithoutComments ts) : ∃ u ∈ ts, u.withoutComments = t := by
  induction ts with
  | nil => cases h
  | cons u ts ih =>
    rw [listWithoutComments] at h
    split at h
    · obtain ⟨v, hv, rfl⟩ := ih h
      exact ⟨v, List.mem_cons_of_mem u hv, rfl⟩
    · rcases List.mem_cons.mp h with rfl | h
      · exact ⟨u, List.mem_cons_self, rfl⟩
      · obtain ⟨v, hv, rfl⟩ := ih h
        exact ⟨v, List.mem_cons_of_mem u hv, rfl⟩

/-- Dropping comments leaves atoms alone, and makes none. -/
theorem Syntax.Token.withoutComments_eq_atom {t : Token} {a : Atom} :
    t.withoutComments = .atom a ↔ t = .atom a := by
  cases t with
  | atom b => rfl
  | function name arguments => simp [withoutComments]
  | block bracket content => simp [withoutComments]

namespace Value

theorem filter_tokens_of_loneToken? {w : String} {t : Token} (h : loneToken? w = some t) :
    (tokens w).filter Token.isSignificant = [t] := by
  rw [loneToken?] at h
  split at h
  · cases h
  · next heq => rw [heq, Option.some.inj h]
  · cases h

theorem number?_eq_some {w : String} {n : Numeral} :
    number? w = some n ↔ loneToken? w = some (.atom (.number n)) := by
  rw [number?]
  split
  · next m h => rw [h]; simp
  · next h => exact iff_of_false (by simp) (h n)

theorem isNumber_iff {w : String} :
    isNumber w = true ↔ ∃ n, loneToken? w = some (.atom (.number n)) := by
  rw [isNumber, Option.isSome_iff_exists]
  exact exists_congr fun n => number?_eq_some

theorem not_digitless_of_isNumber {w : String} (h : isNumber w = true) : ¬Digitless w.toList := by
  intro hd
  obtain ⟨n, hn⟩ := isNumber_iff.mp h
  have hmem : Token.atom (.number n) ∈ (tokens w).filter Token.isSignificant := by
    rw [filter_tokens_of_loneToken? hn]
    exact List.mem_singleton_self _
  obtain ⟨t, ht, hnumber⟩ := Token.exists_of_mem_listWithoutComments (List.mem_filter.mp hmem).1
  obtain rfl := Token.withoutComments_eq_atom.mp hnumber
  exact number_not_mem_ofChars hd n (Token.mem_listFlat ht (List.mem_singleton_self _))

/-- A number is none of some keywords without digits. -/
theorem isOneOf_eq_false_of_isNumber {keywords : List String}
    (hk : (keywords.all fun w => w.toList.all (!·.isDigit)) = true) {w : String}
    (h : isNumber w = true) : isOneOf keywords w = false :=
  isOneOf_eq_false (digitless_of_all hk) (not_digitless_of_isNumber h)

end Value

/-! ## 3. Words that start like a name -/

namespace Syntax

/-- A lexeme that a name is read as: no number, and nothing that is passed over. -/
def Lexeme.IsNamed : Lexeme → Prop
  | .atom a => a.numeral? = none ∧ (Token.atom a).isSignificant = true
  | .openFunction _ => True
  | .openBlock _ | .close _ => False

/-- What is opened first is closed over something in the end, and stands before all else. -/
theorem nest_opened (o : Opener) (ls : List Lexeme) (frames : List Frame) (current : List Token) :
    ∃ content ts, nest (frames ++ [⟨o, []⟩]) current ls = o.token content :: ts := by
  induction ls generalizing frames current with
  | nil =>
    rw [nest, List.foldl_append]
    exact ⟨_, [], rfl⟩
  | cons l ls ih =>
    cases l with
    | atom a => exact ih frames (.atom a :: current)
    | openFunction name => exact ih (⟨.function name, current⟩ :: frames) []
    | openBlock b => exact ih (⟨.block b, current⟩ :: frames) []
    | close b =>
      cases frames with
      | nil =>
        rw [List.nil_append, nest]
        split
        · rw [nest_nil]
          exact ⟨_, _, rfl⟩
        · exact ih [] (.atom (.fault (.stray b)) :: current)
      | cons f frames =>
        rw [List.cons_append, nest]
        split
        · exact ih frames (f.close current)
        · exact ih (f :: frames) (.atom (.fault (.stray b)) :: current)

theorem isNamed_of_mem_nameLexemes {l : Lexeme} {cs : List Char} (h : l ∈ (nameLexemes cs).1) :
    l.IsNamed :=
  forall_mem_nameLexemes (p := Lexeme.IsNamed) (fun _ => ⟨rfl, rfl⟩) (fun _ => trivial)
    (fun _ _ => ⟨rfl, rfl⟩) (fun _ => ⟨rfl, rfl⟩) cs l h

/-- A letter starts a name, or a range of characters. -/
theorem isNamed_of_mem_next {c : Char} {cs : List Char} (hc : isNameStart c) {l : Lexeme}
    (h : l ∈ (next c cs).1) : l.IsNamed := by
  by_cases hrange : (c = 'u' ∨ c = 'U') ∧ startsRange cs
  · rw [next_range hrange.1 hrange.2, List.mem_singleton] at h
    rw [h]
    exact ⟨rfl, rfl⟩
  · have hident : startsIdent (c :: cs) := by
      have hne : c ≠ '-' := by
        rintro rfl
        exact absurd hc (by decide)
      simp [startsIdent, hc, hne]
    rw [next_name hident (fun hu => by simpa [hu] using hrange)
      (fun hm => absurd hc (by rw [hm]; decide))] at h
    exact isNamed_of_mem_nameLexemes h

/-- The first token of a text that starts like a name is what the name is read as. -/
theorem exists_ofChars_of_isNameStart {c : Char} {cs : List Char} (hc : isNameStart c) :
    ∃ t ts, Token.ofChars (c :: cs) = t :: ts ∧ t.isSignificant = true ∧
      ∀ n, t ≠ .atom (.number n) := by
  have hunified : unifyBreaks (c :: cs) = c :: unifyBreaks cs := by
    have h0 : c ≠ '\x00' := by rintro rfl; exact absurd hc (by decide)
    have hr : c ≠ '\r' := by rintro rfl; exact absurd hc (by decide)
    have hf : c ≠ '\x0C' := by rintro rfl; exact absurd hc (by decide)
    simp [unifyBreaks, h0, hr, hf]
  rw [Token.ofChars, hunified, Lexeme.scan_cons]
  obtain ⟨l, ls, hl⟩ := List.exists_cons_of_ne_nil (next_ne_nil c (unifyBreaks cs))
  have hmem : l ∈ (next c (unifyBreaks cs)).1 := by
    rw [hl]
    exact List.mem_cons_self
  have hnamed := isNamed_of_mem_next hc hmem
  rw [hl, List.cons_append]
  cases l with
  | atom a =>
    rw [nest, nest_nil]
    refine ⟨.atom a, _, rfl, hnamed.2, fun n hn => ?_⟩
    have hnone := hnamed.1
    rw [Token.atom.inj hn] at hnone
    cases hnone
  | openFunction name =>
    obtain ⟨content, ts, hts⟩ := nest_opened (.function name) (ls ++ Lexeme.scan _) [] []
    exact ⟨_, ts, hts, rfl, by simp [Opener.token]⟩
  | openBlock b => exact hnamed.elim
  | close b => exact hnamed.elim

end Syntax

namespace Value

theorem number?_eq_none_of_isNameStart {w : String} {c : Char} {cs : List Char}
    (hw : w.toList = c :: cs) (hc : isNameStart c) : number? w = none := by
  rw [Option.eq_none_iff_forall_ne_some]
  intro n hn
  have hfirst : ∃ t ts, Token.ofChars (c :: cs) = t :: ts ∧ t.isSignificant = true ∧
      ∀ n, t ≠ .atom (.number n) := exists_ofChars_of_isNameStart hc
  obtain ⟨t, ts, hts, hsignificant, hnumber⟩ := hfirst
  have hlone := filter_tokens_of_loneToken? (number?_eq_some.mp hn)
  -- the first token is neither whitespace nor a comment, so it is the one that counts
  have hcomment : t.isComment = false := by
    rw [Token.isSignificant, Bool.and_eq_true, Bool.not_eq_true', Bool.not_eq_true'] at hsignificant
    exact hsignificant.2
  have hstill : t.withoutComments.isSignificant = true := by
    cases t with
    | atom a => exact hsignificant
    | function name arguments => rfl
    | block bracket content => rfl
  rw [tokens, hw, hts, Token.listWithoutComments, if_neg (by simp [hcomment]),
    List.filter_cons_of_pos hstill] at hlone
  exact hnumber n (Token.withoutComments_eq_atom.mp (List.cons.inj hlone).1)

/-- What is lowered to a letter starts a name. -/
theorem isNameStart_of_lower {w : String} {d : Char} (hd : d.isAlpha)
    (h : (Text.lower w).toList.head? = some d) :
    ∃ c r, w.toList = c :: r ∧ isNameStart c := by
  rw [Text.lower, String.toList_ofList] at h
  cases hw : w.toList with
  | nil => simp [hw, Text.lowerAfter] at h
  | cons c r =>
    refine ⟨c, r, rfl, ?_⟩
    by_cases hc : c.toNat < 0x80
    · rw [hw, Text.lowerAfter, Text.lowerBetween, if_neg (by rintro rfl; revert hc; decide),
        if_neg (by rintro rfl; revert hc; decide), Text.simpleLower, if_pos hc] at h
      obtain rfl : c.toLower = d := by simpa using h
      have halpha : c.isAlpha := by
        by_cases hu : 'A'.val ≤ c.val ∧ c.val ≤ 'Z'.val
        · simp only [Char.isAlpha, Char.isUpper, Bool.or_eq_true, decide_eq_true_eq]
          exact .inl hu
        · rwa [Char.toLower, dif_neg hu] at hd
      simp [isNameStart, halpha]
    · simp only [isNameStart, Bool.or_eq_true, decide_eq_true_eq]
      exact .inr (by omega)

/-- A number starts like none of some functions. -/
theorem startsWithOneOf_eq_false_of_isNumber {starts : List String}
    (hs : (starts.all fun s => s.toList.head?.any Char.isAlpha) = true) {w : String}
    (h : isNumber w = true) : startsWithOneOf starts w = false := by
  refine Bool.eq_false_iff.mpr fun hstart => ?_
  obtain ⟨start, hmem, hprefix⟩ := List.any_eq_true.mp hstart
  obtain ⟨d, hd, halpha⟩ := (Option.any_eq_true ..).mp (List.all_eq_true.mp hs start hmem)
  obtain ⟨rest, hrest⟩ := List.isPrefixOf_iff_prefix.mp hprefix
  have hhead : (Text.lower w).toList.head? = some d := by
    rw [← hrest, List.head?_append, hd]
    rfl
  obtain ⟨c, cs, hw, hc⟩ := isNameStart_of_lower halpha hhead
  rw [isNumber, number?_eq_none_of_isNameStart hw hc] at h
  cases h

end Value

end CssExpand
