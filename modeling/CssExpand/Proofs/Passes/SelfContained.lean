import CssExpand.Proofs.Shorthand.Stable
import CssExpand.Proofs.Syntax.ReadBack
import CssExpand.Proofs.Units.Lifted
import CssExpand.Revision.Longhands
import Mathlib

/-!
# Self-contained values

A value is self-contained (`SelfContained`) if the semicolon after it is read as one: it has no fault
and no semicolon of its own outside brackets, and its tokens are the same with a semicolon behind
them. A declaration with such a value cannot run into the next one.

What the passes put in the place of a value is described here as far as that needs no look at its
text. Taking apart gives the value itself, words of it and keywords (`mem_of_takeApart`). Adding units
gives the tokens of the value itself, some of their numbers with a unit, which is self-contained for
its tokens alone (`selfContained_units`).
-/

set_option autoImplicit false

namespace CssExpand

open Syntax Value

/-! ## 1. Self-contained values -/

/-- A value that ends where it is written to end. The closing semicolon is tried out: an escape, a
comment or a string that is still open at the end would take it in. -/
structure SelfContained (value : String) : Prop where
  faultless : Token.listHasFault (Token.ofChars value.toList) = false
  unended : ∀ t ∈ Token.ofChars value.toList, t.isSemicolon = false
  closed : Token.ofChars (value.toList ++ [';']) =
    Token.ofChars value.toList ++ [.atom (.literal [';'])]

/-- Whether there is no semicolon outside all brackets of a word. -/
def isUnended (w : String) : Bool := (Token.ofChars w.toList).all (!·.isSemicolon)

theorem isSemicolon_of_isUnended {w : String} (h : isUnended w = true) :
    ∀ t ∈ Token.ofChars w.toList, t.isSemicolon = false := fun t ht => by
  simpa using List.all_eq_true.mp h t ht

/-- A text that is scanned as tokens without semicolons, by itself and with a semicolon behind it. -/
theorem selfContained_of_scan {value : String} {ts : List Token} (hu : Unified value.toList)
    (hscan : ∀ cs, cs = [] ∨ cs = [';'] → Lexeme.scan (value.toList ++ cs) =
      Token.listFlat ts ++ Lexeme.scan cs)
    (hf : Token.listHasFault ts = false) (hs : ∀ t ∈ ts, t.isSemicolon = false) :
    SelfContained value := by
  have hend : Lexeme.scan value.toList = Token.listFlat ts := by simpa using hscan [] (.inl rfl)
  have htokens : Token.ofChars value.toList = ts := by
    rw [Token.ofChars, unifyBreaks_eq hu, hend, Token.nest_listFlat_eq]
  refine ⟨htokens ▸ hf, htokens ▸ hs, ?_⟩
  have hflat : Token.listFlat ts ++ Lexeme.scan [';'] =
      Token.listFlat (ts ++ [.atom (.literal [';'])]) := by
    rw [Token.listFlat_append, scan_semicolon, Lexeme.scan_nil]
    rfl
  have hunified : Unified (value.toList ++ [';']) := unified_append.mpr ⟨hu, by decide⟩
  rw [htokens, Token.ofChars, unifyBreaks_eq hunified, hscan _ (.inr rfl), hflat,
    Token.nest_listFlat_eq]

theorem separates_of_end {cs : List Char} (h : cs = [] ∨ cs = [';']) : Separates cs := by
  rcases h with rfl | rfl
  · simp [Separates]
  · exact separates_cons rfl _

/-! ## 2. Written tokens -/

/-- The last token of a self-contained value is no backslash, which would take the semicolon. -/
theorem SelfContained.backslash {value : String} (h : SelfContained value) :
    ∀ t ∈ (Token.ofChars value.toList).getLast?, t.isLiteral ['\\'] = false := by
  have hsemicolon : Token.listHasFault (Token.ofChars (value.toList ++ [';'])) = false := by
    rw [h.closed, Token.listHasFault_append, h.faultless]
    rfl
  have hsourced := Token.sourced_ofChars hsemicolon
  rw [h.closed, Token.listFlat_append] at hsourced
  exact Token.not_backslash_of_sourced hsourced (by simp)

/-- What is written for settled tokens without semicolons is self-contained. -/
theorem selfContained_write {ts : List Token} (h : Token.Settled ts)
    (hf : Token.listHasFault ts = false) (hs : ∀ t ∈ ts, t.isSemicolon = false)
    (hb : ∀ t ∈ ts.getLast?, t.isLiteral ['\\'] = false) : SelfContained (Token.write ts) := by
  have htext : (Token.write ts).toList = Token.listWritten ts := String.toList_ofList ..
  refine selfContained_of_scan (htext ▸ Token.unified_listWritten h.sourced) (fun cs hcs => ?_)
    (Token.faultless_listReread hf) (forall_listReread rfl isSemicolon_reread hs)
  have hseparates := separates_of_end hcs
  have hlast := Token.stopsAt_of_getLast? hb hseparates fun c hc => by
    rcases hcs with rfl | rfl
    · cases hc
    · obtain rfl := Option.some.inj hc
      decide
  rw [htext, Token.listWritten_eq ts h.sourced, Token.listFlat_listReread]
  exact Lexeme.scan_text_glued h.sourced h.misread (h.stopsAll hlast hseparates.boundary)

/-! ## 3. Taking apart -/

theorem mem_of_ofWords? {ws : List String} {sides : Sides} (h : Sides.ofWords? ws = some sides) :
    ∀ q ∈ sides.toList, q.2 ∈ ws := by
  unfold Sides.ofWords? at h
  split at h
  all_goals first
    | cases h
      simp [Sides.toList, Side.all, Sides.get]
    | cases h

/-- What stands for the parts of a compound that are left out. -/
def openParts : List String := ["auto", "medium", "none", "currentcolor"]

theorem isLegible_openParts : ∀ w ∈ openParts, isLegible w = true ∧ isUnended w = true := by
  have h : (openParts.all fun w => isLegible w && isUnended w) = true := by
    rw [openParts]
    cbv
  intro w hw
  simpa using List.all_eq_true.mp h w hw

/-- What holds of no columns, and still holds when one of the words is added, holds of all words. -/
theorem Columns.of_ofWords {P : Columns → Prop} {ws : List String} (hnone : P {})
    (hadd : ∀ w ∈ ws, ∀ {b c : Columns}, P b → b.add w = .ok c → P c) {c : Columns}
    (h : Columns.ofWords ws = .ok c) : P c := by
  have hfold : ∀ {vs : List String} {b c : Columns}, vs ⊆ ws → vs.foldlM Columns.add b = .ok c →
      P b → P c := by
    intro vs
    induction vs with
    | nil =>
      rintro b c - ⟨⟩ hb
      exact hb
    | cons v vs ih =>
      intro b c hsub hfold hb
      rw [List.cons_subset] at hsub
      rw [List.foldlM_cons] at hfold
      cases hstep : Columns.add b v with
      | error e =>
        rw [hstep] at hfold
        cases hfold
      | ok b' =>
        rw [hstep] at hfold
        exact ih hsub.2 hfold (hadd v hsub.1 hb hstep)
  rw [Columns.ofWords] at h
  split at h
  · cases h
  · exact hfold (List.Subset.refl ws) h hnone

/-- One more word becomes the width, if it is a dimension, or the count, or neither. -/
theorem Columns.add_cases {b c : Columns} {w : String} (h : b.add w = .ok c) :
    c = b ∨ isDimension w = true ∧ c = { b with width := some w } ∨
      c = { b with count := some w } := by
  rw [Columns.add] at h
  split at h
  · cases h
    exact .inl rfl
  · split at h
    · next hd =>
      split at h
      · cases h
      · cases h
        exact .inr (.inl ⟨hd, rfl⟩)
    · split at h
      · cases h
      · cases h
        exact .inr (.inr rfl)

theorem Columns.mem_of_ofWords {ws : List String} {c : Columns} (h : Columns.ofWords ws = .ok c) :
    (∀ w ∈ c.width, w ∈ ws) ∧ ∀ w ∈ c.count, w ∈ ws := by
  refine of_ofWords (P := fun c => (∀ w ∈ c.width, w ∈ ws) ∧ ∀ w ∈ c.count, w ∈ ws)
    ⟨by simp, by simp⟩ (fun v hv b c hb hadd => ?_) h
  have hv : ∀ w ∈ some v, w ∈ ws := fun w hw => Option.some.inj hw ▸ hv
  obtain rfl | ⟨-, rfl⟩ | rfl := add_cases hadd
  · exact hb
  · exact ⟨hv, hb.2⟩
  · exact ⟨hb.1, hv⟩

/-- Only a dimension becomes the width. -/
theorem Columns.isDimension_of_ofWords {ws : List String} {c : Columns}
    (h : Columns.ofWords ws = .ok c) : ∀ w ∈ c.width, isDimension w = true := by
  refine of_ofWords (P := fun c => ∀ w ∈ c.width, isDimension w = true) (by simp)
    (fun v _ b c hb hadd => ?_) h
  obtain rfl | ⟨hd, rfl⟩ | rfl := add_cases hadd
  · exact hb
  · exact fun w hw => Option.some.inj hw ▸ hd
  · exact hb

/-- Taking apart gives the value itself, words of it and what stands for parts left out. -/
theorem mem_of_takeApart {s : Compound} {value : String} {pairs : List (String × String)}
    (h : s.takeApart value = .replace pairs) :
    ∀ q ∈ pairs, q.2 = value ∨ q.2 ∈ words value ∨ q.2 ∈ openParts := by
  have hsides : ∀ {sides : Sides} (name : Side → String), Sides.ofWords? (words value) = some sides →
      ∀ q ∈ sides.toList.map fun s => (name s.1, s.2), q.2 ∈ words value := by
    intro sides name hs q hq
    obtain ⟨side, hside, rfl⟩ := List.mem_map.mp hq
    exact mem_of_ofWords? hs side hside
  intro q hq
  cases s with
  | box name =>
    rw [Compound.takeApart, boxLonghands] at h
    split at h
    · next sides hs =>
      obtain rfl := Decision.replace.inj h
      exact .inr (.inl (hsides (fun s => name ++ "-" ++ s.name) hs q hq))
    · cases h
  | columns =>
    rw [Compound.takeApart, columnLonghands] at h
    split at h
    · next c hc =>
      obtain rfl := Decision.replace.inj h
      obtain ⟨hwidth, hcount⟩ := Columns.mem_of_ofWords hc
      -- an empty slot is filled with `auto`, one of the parts of the tables
      have hgetD : ∀ {slot : Option String}, (∀ w ∈ slot, w ∈ words value) →
          slot.getD "auto" = value ∨ slot.getD "auto" ∈ words value ∨ slot.getD "auto" ∈ openParts :=
        fun hslot => .inr (getD_cases (p := fun w => w ∈ words value ∨ w ∈ openParts)
          (fun w hw => .inl (hslot w hw)) (.inr (by simp [openParts])))
      simp only [List.mem_cons, List.not_mem_nil, or_false] at hq
      rcases hq with rfl | rfl
      · exact hgetD hwidth
      · exact hgetD hcount
    · cases h
  | border b =>
    rw [Compound.takeApart] at h
    cases b with
    | all =>
      simp only [BorderShorthand.takeApart] at h
      split at h
      · obtain rfl := Decision.replace.inj h
        obtain ⟨side, -, rfl⟩ := List.mem_map.mp hq
        exact .inl rfl
      · cases h
    | side side =>
      simp only [BorderShorthand.takeApart] at h
      split at h
      · obtain rfl := Decision.replace.inj h
        obtain ⟨part, -, rfl⟩ := List.mem_map.mp hq
        -- sorting moves words about and makes none, so a filled slot holds a word of the value
        have hsorted : (Border.ofWords (words value)).Sorted (· ∈ words value) :=
          Border.sorted_ofWords fun w hw => hw
        refine .inr (getD_cases (p := fun w => w ∈ words value ∨ w ∈ openParts)
          (fun w hw => .inl (hsorted part w hw).1) (.inr ?_))
        cases part <;> simp [openParts, BorderPart.default]
      · cases h
    | part part =>
      simp only [BorderShorthand.takeApart] at h
      split at h
      · next sides hs =>
        obtain rfl := Decision.replace.inj h
        exact .inr (.inl (hsides (borderLonghand · part) hs q hq))
      · cases h

/-- What is replaced has the name of a compound, and is not protected. -/
theorem takeApart_of_longhands {ignored : Ignored} {prop value : String}
    {pairs : List (String × String)} (h : longhands ignored prop value = .replace pairs) :
    protectedBy? ignored prop value = none ∧ ∃ s : Compound,
      Compound.ofName? (Text.lower prop) = some s ∧ s.takeApart value = .replace pairs := by
  rw [longhands] at h
  split at h
  · cases h
  · next hprotected =>
    split at h
    · next s hs => exact ⟨hprotected, s, hs, h⟩
    · cases h

/-! ## 4. Adding units -/

theorem length_markCounts (count : Option String) (later : List (Option String))
    (ts : List Token) : (markCounts count later ts).length = ts.length := by
  fun_induction markCounts count later ts <;> simp_all

/-- Every token of a value is marked or not. -/
theorem length_keptTokens? {prop value : String} {ts : List Token} {kept : List Bool}
    (h : keptTokens? prop value ts = some kept) : kept.length = ts.length := by
  rw [keptTokens?] at h
  split at h
  · obtain ⟨counts, -, rfl⟩ := Option.map_eq_some_iff.mp h
    exact length_markCounts ..
  · cases h
    exact List.length_map ..

/-- Adding units writes the tokens of the value with units at some numbers. -/
theorem withUnits_eq_replace {ignored : Ignored} {prop value : String}
    {pairs : List (String × String)} (h : withUnits ignored prop value = .replace pairs) :
    ∃ (r : UnitRule) (marked : List (Token × Bool)),
      marked.map Prod.fst = Token.ofChars value.toList ∧
      pairs = [(Text.lower prop, Token.write (r.applyMarked marked))] := by
  rw [withUnits] at h
  split at h
  · cases h
  · split at h
    · cases h
    · dsimp only at h
      split at h
      · cases h
      · split at h
        · cases h
        · next kept hkept =>
          split at h
          · refine ⟨_, _, ?_, (Decision.replace.inj h).symm⟩
            exact List.map_fst_zip (Nat.le_of_eq (length_keptTokens? hkept).symm)
          · cases h

/-- Units keep a value contained: the tokens are lifted one by one, and a zero with a unit opens and
ends nothing that the zero did not. -/
theorem selfContained_units (r : UnitRule) {marked : List (Token × Bool)} {value : String}
    (h : SelfContained value) (hsettled : Token.Settled (Token.ofChars value.toList))
    (hm : marked.map Prod.fst = Token.ofChars value.toList) :
    SelfContained (Token.write (r.applyMarked marked)) := by
  have hlifts := r.lifts_applyMarked marked
  have hback := h.backslash
  have hunended := h.unended
  have hfaultless := h.faultless
  rw [← hm] at hsettled hback hunended hfaultless
  have hliteral : ∀ (m : Token × Bool) (text : List Char),
      (if m.2 then m.1 else r.apply m.1).isLiteral text = m.1.isLiteral text := by
    intro m text
    split
    · rfl
    · exact r.isLiteral_apply m.1 text
  refine selfContained_write (hsettled.lifted hlifts)
    ((Token.listHasFault_lifted hlifts).trans hfaultless) (fun t ht => ?_) fun t ht => ?_
  · obtain ⟨m, hm, rfl⟩ := List.mem_map.mp ht
    exact (hliteral m [';']).trans (hunended m.1 (List.mem_map_of_mem hm))
  · rw [UnitRule.applyMarked, List.getLast?_map, Option.mem_map] at ht
    obtain ⟨m, hm, rfl⟩ := ht
    refine (hliteral m _).trans (hback m.1 ?_)
    rw [List.getLast?_map, Option.mem_map]
    exact ⟨m, hm, rfl⟩

end CssExpand
