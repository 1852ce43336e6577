import CssExpand.Text.LetterCase
import Mathlib

/-!
# Names that lowering gives back

Property names are lowered by their ASCII letters when they are read and in full when they are
looked up. The two agree on the names that are looked up: the only characters outside ASCII whose
full lower form is a single ASCII character lower to `k`, and a name without `k` that comes out of
full lowering was there before (`eq_of_lower_eq`).

Lowering in full leaves nothing to lower (`lower_lower`): no lower form in the tables is a capital of
another run, and none of them is one of the two capitals with rules of their own. Digits are kept as
they are (`mem_lowerAfter_of_isDigit`), so what is a number still has digits when it is lowered.
-/

set_option autoImplicit false

namespace CssExpand.Text

/-- Whether a character is an ASCII character other than `k`. -/
def isPlain (c : Char) : Bool := 0 < c.toNat && c.toNat < 0x80 && c != 'k'

/-- Lower forms outside the ASCII range, except for that of the Kelvin sign. -/
theorem lower_capitalRuns :
    ∀ r ∈ capitalRuns, 0x80 ≤ r.lower ∨ (r.lower = 'k'.toNat ∧ r.first = r.last) := by
  decide +kernel

/-- A code point that is no ASCII character, or `k`, is no plain character. -/
theorem isPlain_ofNat {n : Nat} (h : 0x80 ≤ n ∨ n = 'k'.toNat) : isPlain (Char.ofNat n) = false := by
  rcases h with h | rfl
  · by_cases hv : n.isValidChar
    · have hn : (Char.ofNat n).toNat = n := by
        rw [Char.ofNat, dif_pos hv]
        rfl
      simp [isPlain, hn, Nat.not_lt_of_le h]
    · simp [isPlain, Char.ofNat, hv]
  · decide

/-- A character that the tables lower does not become plain. -/
theorem isPlain_simpleLower {c : Char} (h : isPlain (simpleLower c) = true) (hc : c.toLower = c) :
    simpleLower c = c := by
  rw [simpleLower] at h ⊢
  split at h
  · next hlt => rw [if_pos hlt, hc]
  · next hlt =>
    rw [if_neg hlt]
    cases hr : capitalRuns.findSome? (·.lower? c.toNat) with
    | none => rfl
    | some m =>
      rw [hr, Option.map_some, Option.getD_some] at h
      obtain ⟨r, hmem, hrun⟩ := List.exists_of_findSome?_eq_some hr
      rw [CapitalRun.lower?] at hrun
      split at hrun
      · next hcond =>
        rw [← Option.some.inj hrun, isPlain_ofNat] at h
        · cases h
        · simp only [Bool.and_eq_true, decide_eq_true_eq, beq_iff_eq] at hcond
          rcases lower_capitalRuns r hmem with hl | ⟨hl, hf⟩
          · exact .inl (Nat.le_trans hl (Nat.le_add_right _ _))
          · exact .inr (by omega)
      · cases hrun

/-- Characters in lower case stay as they are if they come out plain. -/
theorem lowerAfter_eq : ∀ (before cs : List Char), (∀ c ∈ cs, c.toLower = c) →
    (∀ c ∈ lowerAfter before cs, isPlain c = true) → lowerAfter before cs = cs
  | _, [], _, _ => rfl
  | before, c :: cs, hcs, hplain => by
    rw [List.forall_mem_cons] at hcs
    rw [lowerAfter, List.forall_mem_append] at hplain
    have hrest := lowerAfter_eq (c :: before) cs hcs.2 hplain.2
    have hfirst := hplain.1
    rw [lowerAfter, hrest]
    rw [lowerBetween] at hfirst ⊢
    split at hfirst
    · exfalso
      have := hfirst _ List.mem_cons_self
      split at this <;> revert this <;> decide
    · split at hfirst
      · exact absurd (hfirst '\u0307' (by simp)) (by decide)
      · next hs hi =>
        rw [if_neg hs, if_neg hi, isPlain_simpleLower (hfirst _ List.mem_cons_self) hcs.1]
        rfl

/-- A text in lower case that lowers to a plain name is that name. -/
theorem eq_of_lower_eq {s name : String} (h : lower s = name) (hs : ∀ c ∈ s.toList, c.toLower = c)
    (hname : ∀ c ∈ name.toList, isPlain c = true) : s = name := by
  rw [← h, lower]
  have heq : lowerAfter [] s.toList = s.toList := by
    refine lowerAfter_eq [] s.toList hs fun c hc => hname c ?_
    rw [← h, lower, String.toList_ofList]
    exact hc
  rw [heq, String.ofList_toList]

theorem toNat_toLower {c : Char} (h : 'A'.val ≤ c.val ∧ c.val ≤ 'Z'.val) :
    c.toLower.val.toNat = c.val.toNat + 32 := by
  have hval : c.toLower.val = c.val + 32 := by
    rw [Char.toLower, dif_pos h]
    rfl
  rw [hval]
  simp only [UInt32.le_iff_toNat_le, UInt32.toNat_add] at h ⊢
  have hz : 'Z'.val.toNat = 90 := rfl
  have h32 : (32 : UInt32).toNat = 32 := rfl
  omega

theorem toLower_toLower (c : Char) : c.toLower.toLower = c.toLower := by
  by_cases h : 'A'.val ≤ c.val ∧ c.val ≤ 'Z'.val
  · have hval := toNat_toLower h
    have hup : ¬ ('A'.val ≤ c.toLower.val ∧ c.toLower.val ≤ 'Z'.val) := by
      simp only [UInt32.le_iff_toNat_le] at h ⊢
      have ha : 'A'.val.toNat = 65 := rfl
      have hz : 'Z'.val.toNat = 90 := rfl
      omega
    rw [Char.toLower, dif_neg hup]
  · have hc : c.toLower = c := by rw [Char.toLower, dif_neg h]
    rw [hc, hc]

/-! ## Lowering twice -/

/-- No lower form of one run is a capital of the other: they lie apart, or both runs go in steps of two
that never meet. -/
def CapitalRun.misses (r r' : CapitalRun) : Bool :=
  (r.lower + (r.last - r.first)).blt r'.first || r'.last.blt r.lower ||
    ((r.step.beq 2 || r.first.beq r.last) && r'.step.beq 2 && ((r.lower + r'.first) % 2).beq 1)

/-- The code points of the two capitals whose lower forms are rules of their own. -/
def specialCapitals : List Nat := ['Σ'.toNat, 'İ'.toNat]

theorem misses_capitalRuns :
    (capitalRuns.all fun r => capitalRuns.all r.misses && specialCapitals.all fun n =>
      (r.lower + (r.last - r.first)).blt n || n.blt r.lower) = true := by
  decide +kernel

theorem CapitalRun.lower?_eq_some {r : CapitalRun} {n m : Nat} (h : r.lower? n = some m) :
    r.first ≤ n ∧ n ≤ r.last ∧ (n - r.first) % r.step = 0 ∧ m = r.lower + (n - r.first) := by
  rw [lower?] at h
  split at h
  · next hcond =>
    simp only [Bool.and_eq_true, decide_eq_true_eq, beq_iff_eq] at hcond
    exact ⟨hcond.1.1, hcond.1.2, hcond.2, (Option.some.inj h).symm⟩
  · cases h

/-- If what one run gives misses another run, nothing is lowered twice. -/
theorem CapitalRun.lower?_of_misses {r r' : CapitalRun} {n m : Nat} (hm : r.misses r' = true)
    (h : r.lower? n = some m) : r'.lower? m = none := by
  obtain ⟨hfirst, hlast, hstep, rfl⟩ := lower?_eq_some h
  cases h' : r'.lower? (r.lower + (n - r.first)) with
  | none => rfl
  | some m' =>
    obtain ⟨hfirst', hlast', hstep', -⟩ := lower?_eq_some h'
    simp only [misses, Bool.or_eq_true, Bool.and_eq_true, Nat.blt_eq, Nat.beq_eq] at hm
    rcases hm with (hm | hm) | ⟨⟨hsteps, htwo'⟩, hodd⟩
    · omega
    · omega
    · rw [htwo'] at hstep'
      rcases hsteps with htwo | hone
      · rw [htwo] at hstep
        omega
      · omega

/-- Whether lowering keeps a character, whatever stands beside it. -/
def IsLowered (c : Char) : Prop := c.toNat ∉ specialCapitals ∧ simpleLower c = c

theorem toNat_ofNat_of_isValidChar {n : Nat} (h : n.isValidChar) : (Char.ofNat n).toNat = n := by
  rw [Char.ofNat, dif_pos h]
  rfl

/-- What the tables have for a capital is lowered. -/
theorem isLowered_ofNat {n m : Nat} (h : capitalRuns.findSome? (·.lower? n) = some m) :
    IsLowered (Char.ofNat m) := by
  obtain ⟨r, hr, hrun⟩ := List.exists_of_findSome?_eq_some h
  have htable := List.all_eq_true.mp misses_capitalRuns r hr
  rw [Bool.and_eq_true] at htable
  obtain ⟨hfirst, hlast, -, heq⟩ := CapitalRun.lower?_eq_some hrun
  by_cases hv : m.isValidChar
  · have hcode := toNat_ofNat_of_isValidChar hv
    refine ⟨fun hmem => ?_, ?_⟩
    · have := List.all_eq_true.mp htable.2 _ hmem
      simp only [Bool.or_eq_true, Nat.blt_eq] at this
      omega
    · have hnone : capitalRuns.findSome? (·.lower? m) = none :=
        List.findSome?_eq_none_iff.mpr fun r' hr' =>
          CapitalRun.lower?_of_misses (List.all_eq_true.mp htable.1 r' hr') hrun
      rcases lower_capitalRuns r hr with hl | ⟨hl, hone⟩
      · rw [simpleLower, hcode, if_neg (by omega), hnone]
        rfl
      · obtain rfl : m = 'k'.toNat := by omega
        rfl
  · rw [Char.ofNat, dif_neg hv]
    exact ⟨by decide, rfl⟩

/-- A character that was lowered by the tables is lowered. -/
theorem isLowered_simpleLower {c : Char} (hc : c.toNat ∉ specialCapitals) :
    IsLowered (simpleLower c) := by
  rw [simpleLower]
  split
  · next hlt =>
    have hlt' : c.toLower.toNat < 0x80 := by
      by_cases h : 'A'.val ≤ c.val ∧ c.val ≤ 'Z'.val
      · have hval := toNat_toLower h
        have hz : 'Z'.val.toNat = 90 := rfl
        have hle := UInt32.le_iff_toNat_le.mp h.2
        have heq : c.toLower.toNat = c.toLower.val.toNat := rfl
        omega
      · rwa [Char.toLower, dif_neg h]
    refine ⟨fun hmem => ?_, by rw [simpleLower, if_pos hlt', toLower_toLower]⟩
    have hall : ∀ n ∈ specialCapitals, 0x80 ≤ n := by decide
    have := hall _ hmem
    omega
  · next hge =>
    cases hr : capitalRuns.findSome? (·.lower? c.toNat) with
    | some m => exact isLowered_ofNat hr
    | none => exact ⟨hc, by rw [Option.map_none, Option.getD_none, simpleLower, if_neg hge, hr]; rfl⟩

/-- So is each character that a capital is lowered to where its neighbours count. -/
theorem isLowered_of_mem_lowerBetween {before after : List Char} {c d : Char}
    (h : d ∈ lowerBetween before c after) : IsLowered d := by
  rw [lowerBetween] at h
  split at h
  · rw [List.mem_singleton] at h
    subst h
    split <;> exact ⟨by decide, by decide +kernel⟩
  · split at h
    · rcases List.mem_pair.mp h with rfl | rfl <;> exact ⟨by decide, by decide +kernel⟩
    · next hs hi =>
      rw [List.mem_singleton] at h
      subst h
      refine isLowered_simpleLower fun hmem => ?_
      rcases List.mem_pair.mp hmem with heq | heq
      · exact hs (Char.toNat_inj.mp heq)
      · exact hi (Char.toNat_inj.mp heq)

theorem isLowered_of_mem_lowerAfter {before cs : List Char} {d : Char}
    (h : d ∈ lowerAfter before cs) : IsLowered d := by
  induction cs generalizing before with
  | nil => cases h
  | cons c cs ih =>
    rw [lowerAfter, List.mem_append] at h
    exact h.elim isLowered_of_mem_lowerBetween ih

theorem lowerAfter_of_isLowered : ∀ {before cs : List Char}, (∀ c ∈ cs, IsLowered c) →
    lowerAfter before cs = cs
  | _, [], _ => rfl
  | before, c :: cs, h => by
    rw [List.forall_mem_cons] at h
    have hs : c ≠ 'Σ' := fun heq => h.1.1 (by subst heq; decide)
    have hi : c ≠ 'İ' := fun heq => h.1.1 (by subst heq; decide)
    rw [lowerAfter, lowerBetween, if_neg hs, if_neg hi, h.1.2, lowerAfter_of_isLowered h.2]
    rfl

/-- A text is lowered once and for all. -/
theorem lower_lower (s : String) : lower (lower s) = lower s := by
  rw [lower, lower, String.toList_ofList]
  exact congrArg String.ofList (lowerAfter_of_isLowered fun c => isLowered_of_mem_lowerAfter)

/-! ## Digits -/

theorem toLower_of_isDigit {c : Char} (h : c.isDigit) : c.toLower = c := by
  simp only [Char.isDigit, Bool.and_eq_true, decide_eq_true_eq] at h
  rw [Char.toLower, dif_neg]
  intro hc
  exact absurd (UInt32.le_trans hc.1 h.2) (by decide)

/-- Lowering keeps plain characters that are no capitals. -/
theorem mem_lowerAfter {c : Char} (hlt : c.toNat < 0x80) (h : c.toLower = c) :
    ∀ {before cs : List Char}, c ∈ cs → c ∈ lowerAfter before cs
  | before, d :: cs, hc => by
    rw [lowerAfter, List.mem_append]
    rcases List.mem_cons.mp hc with rfl | hc
    · refine .inl ?_
      rw [lowerBetween, if_neg, if_neg, simpleLower, if_pos hlt, h]
      · exact List.mem_singleton_self c
      · rintro rfl
        exact absurd hlt (by decide)
      · rintro rfl
        exact absurd hlt (by decide)
    · exact .inr (mem_lowerAfter hlt h hc)

/-- Lowering keeps digits. -/
theorem mem_lowerAfter_of_isDigit {c : Char} (h : c.isDigit) {before cs : List Char} (hc : c ∈ cs) :
    c ∈ lowerAfter before cs := by
  have hlt : c.toNat < 0x80 := by
    simp only [Char.isDigit, Bool.and_eq_true, decide_eq_true_eq] at h
    exact Nat.lt_of_le_of_lt (UInt32.le_iff_toNat_le.mp h.2) (by decide)
  exact mem_lowerAfter hlt (toLower_of_isDigit h) hc

/-! ## NUL -/

/-- Only NUL has NUL for its lower form. -/
theorem eq_nul_of_toLower {c : Char} (h : c.toLower = '\x00') : c = '\x00' := by
  by_cases hc : 'A'.val ≤ c.val ∧ c.val ≤ 'Z'.val
  · have hval := toNat_toLower hc
    rw [h] at hval
    have h0 : '\x00'.val.toNat = 0 := rfl
    omega
  · rwa [Char.toLower, dif_neg hc] at h

/-- Lowering ASCII letters leaves none to lower. -/
theorem toLower_of_mem_asciiLower {cs : List Char} {c : Char} (h : c ∈ asciiLower cs) :
    c.toLower = c := by
  obtain ⟨a, -, rfl⟩ := List.mem_map.mp h
  exact toLower_toLower a

end CssExpand.Text
