import CssExpand.Proofs.Value.Kinds
import CssExpand.Value.Border
import Mathlib

/-!
# Border lines in any order

A border line is told from the words of each part and from the global keywords (`Border.kind`). A part
holds the last of its words (`get_ofWords`), and every other word of the part is a collision
(`count_collisions`). So in another order of the words as many collide, and where none does each part
holds the only word that there is for it (`SameLine.of_perm`).

Filling a line that is valid gives one word for each part, in the order of the parts. The defaults are
words of their own parts, and this is why such a line is read back as it is (`ofWords_filled`).
-/

set_option autoImplicit false

namespace CssExpand.Value.Border

open Syntax

/-! ## 1. What a word does to a line -/

/-- The part of a word, and none for a global keyword. -/
def kind (word : String) : Option BorderPart :=
  if isOneOf wideKeywords word then none else some (BorderPart.ofWord word)

theorem kind_eq_none {w : String} : kind w = none ↔ isOneOf wideKeywords w = true := by
  rw [kind]
  split <;> simp_all

theorem kind_eq_some {w : String} {part : BorderPart} :
    kind w = some part ↔ isOneOf wideKeywords w = false ∧ BorderPart.ofWord w = part := by
  rw [kind]
  split <;> simp_all

theorem ofWords_concat (ws : List String) (w : String) :
    ofWords (ws ++ [w]) = (ofWords ws).add w := by
  rw [ofWords, List.foldl_append, List.foldl_cons, List.foldl_nil, ofWords]

theorem add_of_keyword {b : Border} {w : String} (h : kind w = none) :
    b.add w = { b with keywords := b.keywords ++ [w] } := by
  rw [add, if_pos (kind_eq_none.mp h)]

section

variable {b : Border} {w : String} {part : BorderPart} (h : kind w = some part)
include h

theorem keywords_add : (b.add w).keywords = b.keywords := by
  obtain ⟨hw, rfl⟩ := kind_eq_some.mp h
  rw [add, if_neg (by simp [hw])]
  cases BorderPart.ofWord w <;> dsimp only [set] <;> split <;> rfl

theorem collisions_add : (b.add w).collisions =
    if (b.get part).isSome then b.collisions ++ [part] else b.collisions := by
  obtain ⟨hw, rfl⟩ := kind_eq_some.mp h
  rw [add, if_neg (by simp [hw])]
  cases BorderPart.ofWord w <;> dsimp only [set] <;> split <;> rfl

theorem get_add (q : BorderPart) : (b.add w).get q = if q = part then some w else b.get q := by
  obtain ⟨hw, rfl⟩ := kind_eq_some.mp h
  rw [add, if_neg (by simp [hw])]
  cases BorderPart.ofWord w <;> cases q <;> dsimp only [set] <;> split <;> rfl

end

/-! ## 2. What a line is told from -/

theorem keywords_ofWords (ws : List String) : (ofWords ws).keywords = ofKind kind none ws := by
  induction ws using List.reverseRecOn with
  | nil => rfl
  | append_singleton ws w ih =>
    rw [ofWords_concat, ofKind_concat]
    cases h : kind w with
    | none => rw [add_of_keyword h, if_pos rfl, ih]
    | some part => rw [keywords_add h, if_neg (by simp), ih]

/-- The slot of a part holds the last word of its kind. -/
theorem get_ofWords (ws : List String) (part : BorderPart) :
    (ofWords ws).get part = (ofKind kind (some part) ws).getLast? := by
  induction ws using List.reverseRecOn with
  | nil => cases part <;> rfl
  | append_singleton ws w ih =>
    rw [ofWords_concat, ofKind_concat]
    cases h : kind w with
    | none =>
      rw [add_of_keyword h, if_neg (by simp), ← ih]
      cases part <;> rfl
    | some q =>
      rw [get_add h]
      by_cases hq : part = q
      · rw [if_pos hq, if_pos (by rw [hq]), List.getLast?_concat]
      · rw [if_neg hq, if_neg (by simpa using Ne.symm hq), ih]

theorem isSome_get_ofWords (ws : List String) (part : BorderPart) :
    ((ofWords ws).get part).isSome = decide (0 < (ofKind kind (some part) ws).length) := by
  rw [get_ofWords, Bool.eq_iff_iff, List.getLast?_isSome, decide_eq_true_eq, List.length_pos_iff]

/-- All words of a part but one collide. -/
theorem count_collisions (ws : List String) (part : BorderPart) :
    (ofWords ws).collisions.count part = (ofKind kind (some part) ws).length - 1 := by
  induction ws using List.reverseRecOn with
  | nil => rfl
  | append_singleton ws w ih =>
    rw [ofWords_concat, ofKind_concat]
    cases h : kind w with
    | none =>
      rw [add_of_keyword h, if_neg (by simp)]
      exact ih
    | some q =>
      rw [collisions_add h, isSome_get_ofWords]
      by_cases hq : q = part
      · -- the word is the first one of its part, or it collides
        rw [hq, if_pos rfl, List.length_append, List.length_singleton, Nat.add_sub_cancel]
        by_cases hpos : 0 < (ofKind kind (some part) ws).length
        · rw [if_pos (by simpa using hpos), List.count_append, List.count_singleton_self, ih]
          omega
        · rw [if_neg (by simpa using hpos), ih]
          omega
      · rw [if_neg (show some q ≠ some part by simpa using hq), ← ih]
        split
        · rw [List.count_append, List.count_singleton, if_neg (by simpa using hq), Nat.add_zero]
        · rfl

/-- How many words a line accounts for: those in its parts, one for each collision, and the
keywords. -/
def size (b : Border) : Nat :=
  b.values.countP Option.isSome + b.collisions.length + b.keywords.length

/-- A word fills a part, collides with the word that it replaces or is a keyword. -/
theorem size_add (b : Border) (w : String) : (b.add w).size = b.size + 1 := by
  cases h : kind w with
  | none =>
    rw [add_of_keyword h]
    simp [size, values, BorderPart.all, get]
    omega
  | some part =>
    have hvalues : (b.add w).values = BorderPart.all.map fun q =>
        if q = part then some w else b.get q :=
      List.map_congr_left fun q _ => get_add h q
    rw [size, size, hvalues, collisions_add h, keywords_add h]
    cases part <;> cases hget : b.get _ <;>
      simp [values, BorderPart.all, hget, List.countP_cons] <;> omega

theorem size_ofWords (ws : List String) : (ofWords ws).size = ws.length := by
  induction ws using List.reverseRecOn with
  | nil => rfl
  | append_singleton ws w ih =>
    rw [ofWords_concat, size_add, ih, List.length_append, List.length_singleton]

/-! ## 3. Lines of the same words -/

/-- Lines that are filled alike, up to the words of parts for which there is more than one. The
multiset of collisions is all that is left of an order: each part with too many words is named as often
as it has words too many. -/
structure SameLine (b c : Border) : Prop where
  collisions : b.collisions.Perm c.collisions
  keywords : b.keywords.Perm c.keywords
  isSome_get : ∀ part, (b.get part).isSome = (c.get part).isSome
  isValid : b.isValid = c.isValid
  /-- Without collisions the words are the same too. -/
  values : b.collisions = [] → b.values = c.values

theorem isEmpty_of_perm {α : Type} {as bs : List α} (h : as.Perm bs) : as.isEmpty = bs.isEmpty := by
  rw [Bool.eq_iff_iff, List.isEmpty_iff, List.isEmpty_iff]
  exact ⟨fun ha => List.nil_perm.mp (ha ▸ h), fun hb => List.perm_nil.mp (hb ▸ h)⟩

/-- The order of the words does not matter, except for which of several words of a kind is kept. A line
with two words of a kind is not valid, so where it is there is no choice. -/
theorem SameLine.of_perm {ws vs : List String} (h : ws.Perm vs) :
    SameLine (ofWords ws) (ofWords vs) := by
  have hlength : ∀ part, (ofKind kind (some part) ws).length = (ofKind kind (some part) vs).length :=
    fun part => length_ofKind_of_perm h (some part)
  have hcollisions : (ofWords ws).collisions.Perm (ofWords vs).collisions := by
    rw [List.perm_iff_count]
    intro part
    rw [count_collisions, count_collisions, hlength]
  have hkeywords : (ofWords ws).keywords.Perm (ofWords vs).keywords := by
    rw [keywords_ofWords, keywords_ofWords]
    exact h.filter _
  have hsome : ∀ part, ((ofWords ws).get part).isSome = ((ofWords vs).get part).isSome := by
    intro part
    rw [isSome_get_ofWords, isSome_get_ofWords, hlength]
  refine ⟨hcollisions, hkeywords, hsome, ?_, fun hnone => List.map_congr_left fun part _ => ?_⟩
  · rw [Border.isValid, Border.isValid, isEmpty_of_perm hcollisions, isEmpty_of_perm hkeywords]
    simp only [Border.values, List.any_map, Function.comp_def, hsome]
  · -- a part that does not collide has one word at most, and that has no other order
    have hone : (ofKind kind (some part) ws).length ≤ 1 := by
      have hcount := count_collisions ws part
      rw [hnone, List.count_nil] at hcount
      omega
    have hperm : (ofKind kind (some part) ws).Perm (ofKind kind (some part) vs) := h.filter _
    rw [get_ofWords, get_ofWords]
    rcases hws : ofKind kind (some part) ws with - | ⟨w, - | ⟨v, rest⟩⟩
    · rw [hws] at hperm
      rw [List.nil_perm.mp hperm]
    · rw [hws] at hperm
      rw [List.singleton_perm.mp hperm]
    · rw [hws, List.length_cons, List.length_cons] at hone
      omega

/-! ## 4. Filled lines -/

/-- What stands for a part that is left out is a word of that kind. -/
theorem kind_default (part : BorderPart) : kind part.default = some part := by
  have hwide : isOneOf wideKeywords part.default = false := by cases part <;> cbv
  refine kind_eq_some.mpr ⟨hwide, ?_⟩
  cases part with
  | width =>
    have hstyle : isOneOf BorderPart.styleKeywords "medium" = false := by cbv
    have hwidth : isOneOf BorderPart.widthKeywords "medium" = true := by cbv
    rw [BorderPart.default, BorderPart.ofWord, hstyle, hwidth]
    rfl
  | style =>
    have hstyle : isOneOf BorderPart.styleKeywords "none" = true := by cbv
    rw [BorderPart.default, BorderPart.ofWord, hstyle]
    rfl
  | color =>
    have hstyle : isOneOf BorderPart.styleKeywords "currentcolor" = false := by cbv
    have hwidth : isOneOf BorderPart.widthKeywords "currentcolor" = false := by cbv
    have hlength : isLength "currentcolor" = false := by cbv
    rw [BorderPart.default, BorderPart.ofWord, hstyle, hwidth, hlength]
    rfl

/-- What a part is when it is left out can be read. -/
theorem checkIntegers_default (part : BorderPart) : checkIntegers part.default = .ok () := by
  cases part <;> cbv

/-- One word of each part, in the order of the parts. -/
theorem ofWords_parts {word : BorderPart → String} (h : ∀ part, kind (word part) = some part) :
    ofWords (BorderPart.all.map word) =
      ⟨some (word .width), some (word .style), some (word .color), [], []⟩ := by
  obtain ⟨hw, hwp⟩ := kind_eq_some.mp (h .width)
  obtain ⟨hs, hsp⟩ := kind_eq_some.mp (h .style)
  obtain ⟨hc, hcp⟩ := kind_eq_some.mp (h .color)
  simp [ofWords, BorderPart.all, add, hw, hwp, hs, hsp, hc, hcp, get, set]

theorem filled_default (b : Border) :
    b.filled (BorderPart.all.map BorderPart.default) = BorderPart.all.map b.getFilled := rfl

/-- The word of a part is one of its words, or what the part is when it is left out. -/
theorem getFilled_ofWords (ws : List String) (part : BorderPart) :
    (ofWords ws).getFilled part ∈ ofKind kind (some part) ws ∨
      (ofWords ws).getFilled part = part.default := by
  rw [getFilled]
  cases hget : (ofWords ws).get part with
  | none => exact .inr rfl
  | some w =>
    rw [get_ofWords] at hget
    exact .inl (List.mem_of_getLast? hget)

/-- A filled line is read back part by part. -/
theorem ofWords_filled (ws : List String) :
    ofWords (BorderPart.all.map (ofWords ws).getFilled) =
      ⟨some ((ofWords ws).getFilled .width), some ((ofWords ws).getFilled .style),
        some ((ofWords ws).getFilled .color), [], []⟩ := by
  refine ofWords_parts fun part => ?_
  rcases getFilled_ofWords ws part with hmem | hdefault
  · exact (mem_ofKind.mp hmem).2
  · rw [hdefault, kind_default]

theorem checkWords_filled {ws : List String} (h : checkWords ws = .ok ()) :
    checkWords (BorderPart.all.map (ofWords ws).getFilled) = .ok () := by
  rw [checkWords_eq_ok, List.forall_mem_map]
  intro part _
  rcases getFilled_ofWords ws part with hmem | hdefault
  · exact checkWords_eq_ok.mp h _ (mem_ofKind.mp hmem).1
  · rw [hdefault, checkIntegers_default]

/-! ## 5. Any order -/

/-- A border line does not depend on the order of its words, up to which of several words its part
holds. It accounts for every word once, and what it is filled to is a line of its own with these
words. Whether the words can be read does not depend on their order either.

The collisions are part of the account. Without them the words of a line with two colors could not be
told from those of a line with one, and the line would be filled as if it were valid. -/
theorem ofWords_anyOrder (ws : List String) :
    (∀ vs, ws.Perm vs → SameLine (ofWords ws) (ofWords vs) ∧
      (checkWords ws = .ok () ↔ checkWords vs = .ok ())) ∧
    ws.length = (ofWords ws).values.countP Option.isSome + (ofWords ws).collisions.length +
      (ofWords ws).keywords.length ∧
    ∃ filled, (ofWords ws).filled (BorderPart.all.map BorderPart.default) = filled ∧
      (ofWords filled).isValid = true ∧ (ofWords filled).values = filled.map some ∧
      (checkWords ws = .ok () → checkWords filled = .ok ()) := by
  refine ⟨?_, (size_ofWords ws).symm, ?_⟩
  · intro vs h
    exact ⟨.of_perm h, fun hws => checkWords_of_subset hws h.symm.subset,
      fun hvs => checkWords_of_subset hvs h.subset⟩
  · refine ⟨_, filled_default (ofWords ws), ?_, ?_, checkWords_filled⟩
    · rw [ofWords_filled]
      rfl
    · rw [ofWords_filled]
      rfl

/-- Of two styles the last one is kept, so the order does show, but there is one collision either way
and a style is all that there is. -/
theorem ofWords_anyOrder_twoStyles :
    (ofWords ["solid", "dotted"]).style = some "dotted" ∧
      (ofWords ["dotted", "solid"]).style = some "solid" ∧
      SameLine (ofWords ["solid", "dotted"]) (ofWords ["dotted", "solid"]) := by
  have hkind : ∀ w, isOneOf wideKeywords w = false → isOneOf BorderPart.styleKeywords w = true →
      kind w = some .style := by
    intro w hwide hstyle
    rw [kind_eq_some, BorderPart.ofWord, hstyle]
    exact ⟨hwide, rfl⟩
  have hsolid := hkind "solid" (by cbv) (by cbv)
  have hdotted := hkind "dotted" (by cbv) (by cbv)
  have hstyle : ∀ ws, (ofWords ws).style = (ofKind kind (some .style) ws).getLast? :=
    fun ws => get_ofWords ws .style
  refine ⟨?_, ?_, ((ofWords_anyOrder ["solid", "dotted"]).1 _ (.swap _ _ [])).1⟩
  · rw [hstyle]
    simp [ofKind, hsolid, hdotted]
  · rw [hstyle]
    simp [ofKind, hsolid, hdotted]

end CssExpand.Value.Border
