import CssExpand.Proofs.Passes.Protected
import CssExpand.Proofs.Units.Lifted
import CssExpand.Proofs.Value.Legible
import Mathlib

/-!
# Text with something behind its digits

A unit is written behind the last digit of a number, and sometimes a comment behind the unit. So the
text of a value with units is that of the value with letters and comments behind some of its digits
(`Padded`). Nothing of that makes a hack of a value, and nothing is a blank at its end.
-/

set_option autoImplicit false

namespace CssExpand

open Syntax Value

/-! ## 1. Padding -/

/-- What is put behind a digit: a unit, and an empty comment if the unit has to be kept apart. -/
def IsPad (pad : List Char) : Prop :=
  ∃ c : UnitCategory, c ≠ .none ∧
    (pad = c.unit.toList ∨ pad = c.unit.toList ++ ['/', '*', '*', '/'])

/-- Nothing of what is put behind a digit is a blank or belongs to a hack. -/
theorem IsPad.plain {pad : List Char} (h : IsPad pad) :
    ∀ c ∈ pad, c ≠ '\\' ∧ c ≠ '!' ∧ Text.isBlank c = false := by
  have hall : (pad.all fun c => c != '\\' && c != '!' && !Text.isBlank c) = true := by
    obtain ⟨c, hc, rfl | rfl⟩ := h <;> cases c <;> first | exact absurd rfl hc | rfl
  intro c hc
  simpa [and_assoc] using List.all_eq_true.mp hall c hc

theorem IsPad.head {pad : List Char} (h : IsPad pad) : ∃ c ∈ pad.head?, c ≠ '/' := by
  obtain ⟨c, hc, rfl | rfl⟩ := h <;> cases c <;>
    first
    | exact absurd rfl hc
    | exact ⟨_, rfl, by decide⟩

/-- One text is the other one with something put behind some of its digits. -/
inductive Padded : List Char → List Char → Prop
  | nil : Padded [] []
  | keep (c : Char) {cs ds : List Char} (rest : Padded cs ds) : Padded (c :: cs) (c :: ds)
  | pad {c : Char} {pad cs ds : List Char} (digit : c.isDigit) (isPad : IsPad pad)
    (rest : Padded cs ds) : Padded (c :: cs) (c :: (pad ++ ds))

namespace Padded

variable {cs ds : List Char}

theorem refl : ∀ cs : List Char, Padded cs cs
  | [] => .nil
  | c :: cs => .keep c (refl cs)

theorem append_left (xs : List Char) (h : Padded cs ds) : Padded (xs ++ cs) (xs ++ ds) := by
  induction xs with
  | nil => exact h
  | cons x xs ih => exact .keep x ih

theorem head?_eq (h : Padded cs ds) : ds.head? = cs.head? := by
  cases h <;> rfl

theorem eq_nil_iff (h : Padded cs ds) : ds = [] ↔ cs = [] := by
  cases h <;> simp

theorem mem (h : Padded cs ds) {c : Char} (hc : c ∈ cs) : c ∈ ds := by
  induction h with
  | nil => exact hc
  | keep d _ ih =>
    rcases List.mem_cons.mp hc with rfl | hc
    · exact List.mem_cons_self
    · exact List.mem_cons_of_mem d (ih hc)
  | pad _ _ _ ih =>
    rcases List.mem_cons.mp hc with rfl | hc
    · exact List.mem_cons_self
    · exact List.mem_cons_of_mem _ (List.mem_append_right _ (ih hc))

/-- The last character is the one before, or that of a padding. -/
theorem getLast? (h : Padded cs ds) {c : Char} (hc : c ∈ ds.getLast?) :
    c ∈ cs.getLast? ∨ ∃ pad, IsPad pad ∧ c ∈ pad := by
  have hcons : ∀ {d : Char} {cs ds : List Char}, Padded cs ds → ds ≠ [] →
      (c ∈ cs.getLast? ∨ ∃ pad, IsPad pad ∧ c ∈ pad) →
      c ∈ (d :: cs).getLast? ∨ ∃ pad, IsPad pad ∧ c ∈ pad := by
    intro d cs ds hrest hne hlast
    refine hlast.imp_left fun hlast => ?_
    cases cs with
    | nil => cases hlast
    | cons e cs => rwa [List.getLast?_cons_cons]
  induction h with
  | nil => exact .inl hc
  | @keep d cs ds hrest ih =>
    cases ds with
    | nil =>
      obtain rfl := hrest.eq_nil_iff.mp rfl
      exact .inl hc
    | cons e ds =>
      rw [List.getLast?_cons_cons] at hc
      exact hcons hrest (List.cons_ne_nil e ds) (ih hc)
  | @pad d pad cs ds hd hpad hrest ih =>
    cases ds with
    | nil =>
      rw [List.append_nil] at hc
      obtain ⟨e, he, -⟩ := hpad.head
      cases pad with
      | nil => cases he
      | cons e' pad =>
        rw [List.getLast?_cons_cons] at hc
        exact .inr ⟨e' :: pad, hpad, List.mem_of_getLast? hc⟩
    | cons f ds =>
      have hc : c ∈ (f :: ds).getLast? := by
        rw [← List.cons_append, List.getLast?_append] at hc
        simpa [List.getLast?_cons] using hc
      exact hcons hrest (List.cons_ne_nil f ds) (ih hc)

/-! ## 2. Hacks -/

/-- An ending that starts with a backslash is not made by padding. -/
theorem suffix {word : List Char} (hword : ∀ {cs}, Padded cs word → cs = word) (h : Padded cs ds)
    (hs : '\\' :: word <:+ ds) : '\\' :: word <:+ cs := by
  induction h with
  | nil => exact hs
  | @keep c cs ds hrest ih =>
    rcases List.suffix_cons_iff.mp hs with heq | hs
    · obtain ⟨rfl, rfl⟩ := List.cons.inj heq
      rw [hword hrest]
    · exact (ih hs).trans (List.suffix_cons c cs)
  | @pad c pad cs ds hc hpad hrest ih =>
    refine List.IsSuffix.trans (ih ?_) (List.suffix_cons c cs)
    rcases List.suffix_cons_iff.mp hs with heq | hs
    · obtain ⟨rfl, -⟩ := List.cons.inj heq
      cases hc
    · -- the backslash is no part of the padding
      obtain ⟨front, heq⟩ := hs
      rcases List.append_eq_append_iff.mp heq with ⟨mid, rfl, hmid⟩ | ⟨mid, -, rfl⟩
      · cases mid with
        | nil => exact ⟨[], by simpa using hmid⟩
        | cons d mid =>
          obtain ⟨rfl, -⟩ := List.cons.inj hmid
          exact absurd rfl (hpad.plain '\\' (by simp)).1
      · exact ⟨mid, rfl⟩

theorem eq_singleton {c : Char} (h : Padded cs [c]) : cs = [c] := by
  generalize hds : [c] = ds at h
  cases h with
  | nil => cases hds
  | keep d hrest =>
    obtain ⟨rfl, rfl⟩ := List.cons.inj hds
    rw [hrest.eq_nil_iff.mp rfl]
  | @pad d pad cs ds _ hpad hrest =>
    obtain ⟨-, happend⟩ := List.cons.inj hds
    obtain ⟨e, he, -⟩ := hpad.head
    rw [(List.append_eq_nil_iff.mp happend.symm).1] at he
    cases he

/-- A slash right behind a character belongs to no padding. -/
theorem eq_slash {c : Char} (h : Padded cs [c, '/']) : cs = [c, '/'] := by
  generalize hds : [c, '/'] = ds at h
  cases h with
  | nil => cases hds
  | keep d hrest =>
    obtain ⟨rfl, rfl⟩ := List.cons.inj hds
    rw [hrest.eq_singleton]
  | @pad d pad cs ds _ hpad hrest =>
    obtain ⟨-, happend⟩ := List.cons.inj hds
    obtain ⟨e, he, hne⟩ := hpad.head
    cases pad with
    | nil => cases he
    | cons e' pad =>
      obtain rfl := Option.some.inj he
      exact absurd (List.cons.inj happend).1.symm hne

/-- A unit behind a zero does not change the blanks in front. -/
theorem dropWhile_isBlank (h : Padded cs ds) :
    Padded (cs.dropWhile Text.isBlank) (ds.dropWhile Text.isBlank) := by
  induction h with
  | nil => exact .nil
  | @keep c cs ds hrest ih =>
    cases hb : Text.isBlank c with
    | true => rwa [List.dropWhile_cons_of_pos hb, List.dropWhile_cons_of_pos hb]
    | false =>
      rw [List.dropWhile_cons_of_neg (by simp [hb]), List.dropWhile_cons_of_neg (by simp [hb])]
      exact .keep c hrest
  | @pad c pad cs ds hc hpad hrest ih =>
    have hb := Text.not_isBlank_of_isDigit hc
    rw [List.dropWhile_cons_of_neg (by simp [hb]), List.dropWhile_cons_of_neg (by simp [hb])]
    exact .pad hc hpad hrest

/-- Nothing is put behind a character that is no digit. -/
theorem exists_of_cons {d : Char} (h : Padded cs (d :: ds)) (hd : d.isDigit = false) :
    ∃ cs', cs = d :: cs' ∧ Padded cs' ds := by
  cases h with
  | keep _ hrest => exact ⟨_, rfl, hrest⟩
  | pad hdigit =>
    rw [hd] at hdigit
    cases hdigit

theorem endsWord_eq (h : Padded cs ds) : Text.endsWord ds = Text.endsWord cs := by
  cases h <;> rfl

/-- Nor does it make a text start as an expression of old browsers does. -/
theorem startsWithIe (h : Padded cs ds) (hs : startsWithIe ds = true) :
    CssExpand.startsWithIe cs = true := by
  match ds, hs with
  | i :: e :: rest, hs =>
    simp only [CssExpand.startsWithIe, Bool.and_eq_true] at hs
    obtain ⟨⟨hi, he⟩, hrest⟩ := hs
    have hdi : i.isDigit = false := by
      simp only [Bool.or_eq_true, beq_iff_eq] at hi
      rcases hi with ((rfl | rfl) | rfl) | rfl <;> rfl
    have hde : e.isDigit = false := by
      simp only [Bool.or_eq_true, beq_iff_eq] at he
      rcases he with rfl | rfl <;> rfl
    obtain ⟨cs', rfl, h'⟩ := h.exists_of_cons hdi
    obtain ⟨cs'', rfl, hword⟩ := h'.exists_of_cons hde
    rw [CssExpand.startsWithIe, hi, he, ← hword.endsWord_eq, hrest]
    rfl

theorem hasBangIe_append {pad : List Char} (h : '!' ∉ pad) (ds : List Char) :
    hasBangIe (pad ++ ds) = hasBangIe ds := by
  induction pad with
  | nil => rfl
  | cons c pad ih =>
    rw [List.mem_cons, not_or] at h
    rw [List.cons_append, hasBangIe, ih h.2, beq_false_of_ne (Ne.symm h.1)]
    rfl

theorem hasBangIe (h : Padded cs ds) (hb : hasBangIe ds = true) : CssExpand.hasBangIe cs = true := by
  induction h with
  | nil => exact hb
  | @keep c cs ds hrest ih =>
    rw [CssExpand.hasBangIe, Bool.or_eq_true, Bool.and_eq_true] at hb ⊢
    exact hb.imp (fun hb => ⟨hb.1, hrest.dropWhile_isBlank.startsWithIe hb.2⟩) ih
  | @pad c pad cs ds hc hpad hrest ih =>
    have hbang : (c == '!') = false := beq_false_of_ne fun heq => by
      subst heq
      cases hc
    rw [CssExpand.hasBangIe, hbang, Bool.false_and, Bool.false_or] at hb ⊢
    rw [hasBangIe_append fun hm => (hpad.plain _ hm).2.1 rfl] at hb
    exact ih hb

/-- Padding makes no hack. -/
theorem isHackValue {v w : String} (h : Padded v.toList w.toList) (hw : isHackValue w = true) :
    CssExpand.isHackValue v = true := by
  simp only [CssExpand.isHackValue, Bool.or_eq_true, List.isSuffixOf_iff_suffix] at hw ⊢
  rcases hw with (hw | hw) | hw
  · exact .inl (.inl (h.suffix eq_singleton hw))
  · exact .inl (.inr (h.suffix eq_slash hw))
  · exact .inr (h.hasBangIe hw)

/-! ## 3. Blanks and digits -/

/-- What neither starts nor ends with a blank does not with padding either. -/
theorem trim_eq (h : Padded cs ds) (ht : Text.trim cs = cs) : Text.trim ds = ds := by
  obtain ⟨hfirst, hlast⟩ := ends_of_trim ht
  refine trim_eq_self (h.head?_eq ▸ hfirst) fun c hc => ?_
  rcases h.getLast? hc with hc | ⟨pad, hpad, hc⟩
  · exact hlast c hc
  · exact (hpad.plain c hc).2.2

theorem not_digitless (h : Padded cs ds) (hd : ¬Digitless cs) : ¬Digitless ds :=
  fun hno => hd fun c hc => hno c (h.mem hc)

end Padded

end CssExpand
