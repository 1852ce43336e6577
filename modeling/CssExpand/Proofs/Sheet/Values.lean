import CssExpand.Proofs.Sheet.Hacks
import CssExpand.Proofs.Syntax.ReadBack

/-!
# The values of parsed declarations

The value of a declaration is the text of some tokens of the source (`exists_tokens_of_mem_bodies`).
Nothing is restored in it unless the declaration is a hack (`restored_eq_of_not_isHackValue`). So if the
source has no faults and nothing in it is misread, the value of any other declaration is read back,
unless it ends in a lone backslash (`readBack_of_parse`).
-/

set_option autoImplicit false

namespace CssExpand

open Syntax

/-! ## 1. The tokens of a value -/

/-- The contents of the blocks in a source are pieces of it. -/
theorem listFlat_isInfix_of_mem_bodyContents (top : Bool) : ∀ (ts : List Token) {p : Pending}
    {content : List Token}, content ∈ bodyContents top p ts →
    Token.listFlat content <:+: Token.listFlat ts
  | [], _, _, hm => absurd hm List.not_mem_nil
  | t :: ts, p, content, hm => by
    have htail : Token.listFlat ts <:+: Token.listFlat (t :: ts) :=
      Token.listFlat_isInfix (List.suffix_cons t ts).isInfix
    have hrest : ∀ {q : Pending}, content ∈ bodyContents top q ts →
        Token.listFlat content <:+: Token.listFlat (t :: ts) := fun hq =>
      (listFlat_isInfix_of_mem_bodyContents top ts hq).trans htail
    rw [bodyContents] at hm
    split at hm
    · rcases List.mem_append.mp hm with hm | hm
      · cases t with
        | atom a => cases hm
        | function name arguments => cases hm
        | block b inner =>
          cases b with
          | round => cases hm
          | square => cases hm
          | curly =>
            have hinner : Token.listFlat inner <:+: Token.listFlat (.block .curly inner :: ts) :=
              (Token.listFlat_content_isInfix .curly inner).trans
                (Token.listFlat_isInfix ⟨[], ts, rfl⟩)
            rw [blockContents] at hm
            split at hm
            · exact (listFlat_isInfix_of_mem_bodyContents false inner hm).trans hinner
            · exact List.mem_singleton.mp hm ▸ hinner
      · exact hrest hm
    · exact hrest hm

/-- The value of a declaration is the text of a piece of its tokens. -/
theorem exists_tokens_of_readDeclaration? {ts : List Token} {d : Declaration}
    (h : readDeclaration? ts = some d) : ∃ w, w <:+: ts ∧ d.value = authoredText w := by
  obtain ⟨before, name, between, colon, value, w, important, rfl, -, -, -, hv, rfl⟩ :=
    exists_parts h
  have hvalue : value <:+: before ++ .atom (.ident name) :: (between ++ colon :: value) :=
    ⟨before ++ .atom (.ident name) :: (between ++ [colon]), [], by simp⟩
  exact ⟨w, (isInfix_of_readValue? hv).trans hvalue, rfl⟩

/-- The value of a declaration is the text of some of its tokens, taken as they stand. -/
theorem exists_tokens_of_mem_readChunk {piece : List Token} {d : Declaration}
    (h : .declaration d ∈ readChunk piece) : ∃ w, w <:+: piece ∧ d.value = authoredText w := by
  rw [readChunk, List.mem_append] at h
  rcases h with h | h
  · obtain ⟨text, -, heq⟩ := List.mem_map.mp h
    cases heq
  · split at h
    · cases h
    · split at h
      · next e he =>
        obtain rfl := Node.declaration.inj (List.mem_singleton.mp h)
        obtain ⟨w, hw, hvalue⟩ := exists_tokens_of_readDeclaration? he
        exact ⟨w, hw.trans (List.dropWhile_suffix _).isInfix, hvalue⟩
      · cases List.mem_singleton.mp h

/-- The value of a declaration in a body is the text of a piece of the source. -/
theorem exists_tokens_of_mem_bodies {top : Bool} {p : Pending} {ts : List Token} {ns : List Node}
    (h : readRules top p ts = .ok ns) {body : List Node} (hb : body ∈ Sheet.bodies ns)
    {d : Declaration} (hd : d ∈ Node.declarations body) :
    ∃ w, Token.listFlat w <:+: Token.listFlat ts ∧ d.value = authoredText w := by
  rw [bodies_of_readRules top ts h] at hb
  obtain ⟨content, hcontent, rfl⟩ := List.mem_map.mp hb
  obtain ⟨n, hn, hnd⟩ := List.mem_filterMap.mp hd
  obtain ⟨piece, hpiece, hmem⟩ := List.mem_flatMap.mp hn
  obtain rfl : n = .declaration d := by
    cases n <;> cases hnd
    rfl
  obtain ⟨w, hw, hvalue⟩ := exists_tokens_of_mem_readChunk hmem
  have hpiece : w <:+: content := hw.trans (of_mem_splitAt hpiece).1
  exact ⟨w, (Token.listFlat_isInfix hpiece).trans
    (listFlat_isInfix_of_mem_bodyContents top ts hcontent), hvalue⟩

/-! ## 2. The text of a value -/

/-- What is no hack after the escapes of a hack were restored had no such escapes. -/
theorem restored_eq_of_not_isHackValue {ts : List Token} (h : Token.Settled ts) (hf : Token.Firm ts)
    (hv : isHackValue (String.ofList (restored (Token.listWritten ts))) = false) :
    restored (Token.listWritten ts) = Token.listWritten ts := by
  have hnone : ∀ stem : List Char, ∀ ws ∈ [['\\', '9'], ['\\', '0', '/']],
      restored (Token.listWritten ts) ≠ stem ++ ws := by
    intro stem ws hws heq
    have hend : ws.isSuffixOf (stem ++ ws) = true := List.isSuffixOf_iff_suffix.mpr ⟨stem, rfl⟩
    rw [isHackValue, String.toList_ofList, heq] at hv
    simp only [List.mem_cons, List.not_mem_nil, or_false] at hws
    rcases hws with rfl | rfl <;> simp [hend] at hv
  refine restored_plain ?_ ?_ (getLast?_listWritten_ne_break h hf)
  · rintro ⟨stem, hstem⟩
    exact hnone stem _ List.mem_cons_self (by rw [← hstem, restored_tab])
  · rintro ⟨stem, hstem⟩
    exact hnone stem _ (List.mem_cons_of_mem _ List.mem_cons_self) (by rw [← hstem, restored_slash])

/-- The text of a value that is no hack is read back if it does not end in a lone backslash. -/
theorem readBack_authoredText {w : List Token} (h : Token.Settled w)
    (hf : Token.listHasFault w = false) (hv : isHackValue (authoredText w) = false)
    (hc : closes (authoredText w).toList) : ReadBack (authoredText w) := by
  have htrim : Token.listFlat (Token.trim w) <:+: Token.listFlat w :=
    Token.listFlat_isInfix (trim_isInfix w)
  have hsettled := h.of_listFlat_isInfix htrim
  rw [authoredText_eq] at hv hc ⊢
  rw [String.toList_ofList] at hc
  have hfirm := firm_of_closes_restored hsettled (getLast?_trim w) hc
  rw [restored_eq_of_not_isHackValue hsettled hfirm hv]
  exact hsettled.readBack hfirm.backslash (Token.listHasFault_of_subset htrim.subset hf)

/-- The value of a parsed declaration that is no hack is read back, if it does not end in a lone
backslash. -/
theorem readBack_of_parse {css : String} {sheet : Sheet} (h : Sheet.parse css = .ok sheet)
    (hf : Token.listHasFault (Token.ofChars css.toList) = false)
    (hm : Token.listMisread (Token.ofChars css.toList) = false) {body : List Node}
    (hb : body ∈ Sheet.bodies sheet) {d : Declaration} (hd : d ∈ Node.declarations body)
    (hv : isHackValue d.value = false) (hc : closes d.value.toList) : ReadBack d.value := by
  obtain ⟨hi, hread⟩ := readRules_of_parse h
  obtain ⟨w, hw, hvalue⟩ := exists_tokens_of_mem_bodies hread hb hd
  rw [hvalue] at hv hc ⊢
  exact readBack_authoredText ((Token.settled_parse hi hf hm).of_listFlat_isInfix hw)
    (Token.listHasFault_of_subset hw.subset hf) hv hc

end CssExpand
