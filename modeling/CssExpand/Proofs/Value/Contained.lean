import CssExpand.Proofs.Passes.SelfContained
import CssExpand.Proofs.Value.Layout
import Mathlib

/-!
# Texts that end where they are written to end

What a pass writes is put together from texts: words of the value, keywords, and the spaces, commas
and slashes between them. The invariant is `Contained`: a text is scanned as the same tokens whatever
separator comes next, and neither a fault nor a semicolon is among them. It is kept by putting texts
together, so a value made of such texts is self-contained.

Every joiner but one is a separator itself. A slash is not enough of one: an asterisk behind it opens a
comment that takes in what follows. So texts that are glued at slashes (`Part`) also say what they are
scanned as in front of anything but an asterisk, if they end in a slash.

The words of a value are such texts because of the tokens that they are written from. Steady tokens
(`isSteady`) are read back as they are written, and the first token is no whitespace. Nothing is asked
of the words themselves.
-/

set_option autoImplicit false

namespace CssExpand.Value

open Syntax

/-! ## 1. Texts and separators -/

/-- A text that is scanned as these tokens in front of any separator. There is no fault and no
semicolon among them. It is all that is needed of a text to join it to others: how it is read does not
depend on what is behind the separator. -/
structure Contained (x : List Char) (ts : List Token) : Prop where
  unified : Unified x
  scan : ∀ cs, Separates cs → Lexeme.scan (x ++ cs) = Token.listFlat ts ++ Lexeme.scan cs
  head : ∃ c r, x = c :: r ∧ Syntax.isWhitespace c = false
  faultless : Token.listHasFault ts = false
  unended : ∀ t ∈ ts, t.isSemicolon = false

/-- Whether a word is contained, as whatever tokens. -/
def IsContained (w : String) : Prop := ∃ ts, Contained w.toList ts

theorem Contained.selfContained {value : String} {ts : List Token}
    (h : Contained value.toList ts) : SelfContained value :=
  selfContained_of_scan h.unified (fun _ hcs => h.scan _ (separates_of_end hcs)) h.faultless
    h.unended

theorem IsWord.contained {w : String} (h : IsWord w) (hs : isUnended w = true) :
    Contained w.toList (Token.ofChars w.toList) := by
  obtain ⟨c, r, hx, hc⟩ := h.head
  exact ⟨h.unified, h.scan, ⟨c, r, hx, isWhitespace_of_not_isBlank hc⟩, h.faultless,
    isSemicolon_of_isUnended hs⟩

section Joined

variable {x y : List Char} {ts us : List Token}

theorem unended_append (hx : ∀ t ∈ ts, t.isSemicolon = false) (hy : ∀ t ∈ us, t.isSemicolon = false) :
    ∀ t ∈ ts ++ us, t.isSemicolon = false := by
  simpa [or_imp, forall_and] using ⟨hx, hy⟩

/-- Two texts with a separator of its own tokens between them. The separator may look at the text
behind it, as a space does. -/
theorem Contained.append {g : List Char} {gs : List Token} (hx : Contained x ts)
    (hy : Contained y us) (hg : Unified g) (hsep : ∀ cs, Separates (g ++ cs))
    (hscan : ∀ cs, Lexeme.scan (g ++ (y ++ cs)) = Token.listFlat gs ++ Lexeme.scan (y ++ cs))
    (hf : Token.listHasFault gs = false) (hs : ∀ t ∈ gs, t.isSemicolon = false) :
    Contained (x ++ (g ++ y)) (ts ++ (gs ++ us)) where
  unified := unified_append.mpr ⟨hx.unified, unified_append.mpr ⟨hg, hy.unified⟩⟩
  scan cs hcs := by
    rw [List.append_assoc, List.append_assoc, hx.scan _ (hsep _), hscan, hy.scan _ hcs,
      Token.listFlat_append, Token.listFlat_append, List.append_assoc, List.append_assoc]
  head := by
    obtain ⟨c, r, rfl, hc⟩ := hx.head
    exact ⟨c, _, rfl, hc⟩
  faultless := by
    rw [Token.listHasFault_append, Token.listHasFault_append, hx.faultless, hf, hy.faultless]
    rfl
  unended := unended_append hx.unended (unended_append hs hy.unended)

/-- Scanning a space in front of a contained text. -/
theorem Contained.scan_space (h : Contained y us) (cs : List Char) :
    Lexeme.scan ([' '] ++ (y ++ cs)) = .atom (.whitespace [' ']) :: Lexeme.scan (y ++ cs) := by
  obtain ⟨c, r, rfl, hc⟩ := h.head
  refine scan_whitespace (List.cons_ne_nil ' ' []) (by simp [Syntax.isWhitespace]) ?_
  rintro d ⟨⟩
  exact hc

theorem Contained.append_space (hx : Contained x ts) (hy : Contained y us) :
    Contained (x ++ ([' '] ++ y)) (ts ++ ([spaceToken] ++ us)) :=
  hx.append hy (by decide) (fun _ => separates_cons rfl _) hy.scan_space rfl (by simp [spaceToken]; rfl)

theorem Contained.append_comma (hx : Contained x ts) (hy : Contained y us) :
    Contained (x ++ ([',', ' '] ++ y)) (ts ++ ([commaToken, spaceToken] ++ us)) := by
  refine hx.append hy (by decide) (fun _ => separates_cons rfl _) (fun cs => ?_) rfl ?_
  · have hspace := hy.scan_space cs
    rw [List.singleton_append] at hspace
    rw [List.cons_append, List.singleton_append, scan_comma, hspace]
    rfl
  · simp [commaToken, spaceToken]
    exact ⟨rfl, rfl⟩

end Joined

/-! ## 2. Rows and layers -/

/-- What is between texts keeps them contained, if it does between two of them. -/
theorem isContained_intercalate {g : String}
    (hg : ∀ x y : String, IsContained x → IsContained y → IsContained (x ++ g ++ y))
    {xs : List String} (hne : xs ≠ []) (h : ∀ x ∈ xs, IsContained x) :
    IsContained (g.intercalate xs) := by
  induction xs with
  | nil => exact absurd rfl hne
  | cons x xs ih =>
    rw [List.forall_mem_cons] at h
    cases xs with
    | nil => simpa using h.1
    | cons y ys =>
      have hrest := hg x _ h.1 (ih (List.cons_ne_nil y ys) h.2)
      have htext : g.intercalate (x :: y :: ys) = x ++ g ++ g.intercalate (y :: ys) := by
        rw [← String.toList_inj, toList_intercalate_cons, String.toList_append, String.toList_append,
          toList_intercalate_cons]
        simp
      rwa [htext]

theorem isContained_spaced {ws : List String} (hne : ws ≠ []) (h : ∀ w ∈ ws, IsContained w) :
    IsContained (spaced ws) := by
  refine isContained_intercalate (fun x y hx hy => ?_) hne h
  obtain ⟨ts, hx⟩ := hx
  obtain ⟨us, hy⟩ := hy
  exact ⟨_, by simpa using hx.append_space hy⟩

theorem isContained_layered {rows : List (List String)} (hne : rows ≠ [])
    (h : ∀ row ∈ rows, row ≠ [] ∧ ∀ w ∈ row, IsContained w) : IsContained (layered rows) := by
  refine isContained_intercalate (fun x y hx hy => ?_) (by simpa using hne) ?_
  · obtain ⟨ts, hx⟩ := hx
    obtain ⟨us, hy⟩ := hy
    exact ⟨_, by simpa using hx.append_comma hy⟩
  · rw [List.forall_mem_map]
    exact fun row hrow => isContained_spaced (h row hrow).1 (h row hrow).2

/-! ## 3. Texts glued at slashes -/

/-- A contained text that may be glued to another one. A slash at its end is a token. Gluing is the one
joiner that is no separator at one of its sides. -/
structure Part (x : List Char) (ts : List Token) : Prop extends Contained x ts where
  slash : x.getLast? = some '/' → ∀ cs, cs.head? ≠ some '*' →
    Lexeme.scan (x ++ cs) = Token.listFlat ts ++ Lexeme.scan cs

/-- Whether a word is a part, of whatever tokens. -/
def IsPart (w : String) : Prop := ∃ ts, Part w.toList ts

theorem IsPart.isContained {w : String} (h : IsPart w) : IsContained w := by
  obtain ⟨ts, h⟩ := h
  exact ⟨ts, h.toContained⟩

section Glued

variable {x y : List Char} {ts us : List Token}

theorem Contained.ne_nil (h : Contained x ts) : x ≠ [] := by
  obtain ⟨c, r, rfl, -⟩ := h.head
  exact List.cons_ne_nil c r

/-- The start of two texts is the start of the first one. -/
theorem Contained.head?_append (h : Contained x ts) (cs : List Char) : (x ++ cs).head? = x.head? :=
  List.head?_append_of_ne_nil _ h.ne_nil

/-- A text that ends in no slash has nothing more to say. -/
theorem Contained.part (h : Contained x ts) (hlast : x.getLast? ≠ some '/') : Part x ts :=
  ⟨h, fun hslash => absurd hslash hlast⟩

/-- Two texts are glued, if the first one can be scanned in front of the second one. -/
theorem Part.append_of_scan (hx : Contained x ts) (hy : Part y us)
    (hscan : ∀ cs, Lexeme.scan (x ++ (y ++ cs)) = Token.listFlat ts ++ Lexeme.scan (y ++ cs)) :
    Part (x ++ y) (ts ++ us) where
  unified := unified_append.mpr ⟨hx.unified, hy.unified⟩
  scan cs hcs := by
    rw [List.append_assoc, hscan, hy.scan _ hcs, Token.listFlat_append, List.append_assoc]
  head := by
    obtain ⟨c, r, rfl, hc⟩ := hx.head
    exact ⟨c, _, rfl, hc⟩
  faultless := by rw [Token.listHasFault_append, hx.faultless, hy.faultless, Bool.or_self]
  unended := unended_append hx.unended hy.unended
  slash hlast cs hcs := by
    rw [List.getLast?_append_of_ne_nil _ hy.toContained.ne_nil] at hlast
    rw [List.append_assoc, hscan, hy.slash hlast _ hcs, Token.listFlat_append, List.append_assoc]

/-- A slash at the start of the second text separates it from the first one. -/
theorem Part.append_of_head (hx : Contained x ts) (hy : Part y us) (hhead : y.head? = some '/') :
    Part (x ++ y) (ts ++ us) := by
  refine .append_of_scan hx hy fun cs => hx.scan _ fun c hc => ?_
  rw [hy.toContained.head?_append, hhead] at hc
  cases hc
  rfl

/-- A slash at the end of the first text separates it from the second one, unless they open a
comment. -/
theorem Part.append_of_getLast (hx : Part x ts) (hy : Part y us) (hlast : x.getLast? = some '/')
    (hstar : y.head? ≠ some '*') : Part (x ++ y) (ts ++ us) := by
  refine .append_of_scan hx.toContained hy fun cs => hx.slash hlast _ ?_
  rwa [hy.toContained.head?_append]

theorem part_slash : Part ['/'] [slashToken] where
  unified := by decide
  scan cs hcs := by
    refine scan_slash fun hstar => ?_
    have := hcs '*' hstar
    cases this
  head := ⟨'/', [], rfl, rfl⟩
  faultless := rfl
  unended := by simp [slashToken]; rfl
  slash _ _ hstar := scan_slash hstar

end Glued

/-- Whether no comment is opened where one text ends and the next one starts. -/
def OpensNothing (x y : List Char) : Prop := x.getLast? = some '/' → y.head? ≠ some '*'

/-- Words that are parts are parts again once they are glued at slashes. The last word of what is being
built decides about the next one, and it ends as what is being built does. -/
theorem isPart_glueOnto {w : String} {ws : List String} (hw : IsPart w) (h : ∀ v ∈ ws, IsPart v)
    (hchain : ((w :: ws).map String.toList).IsChain OpensNothing) : ∀ v ∈ glueOnto w ws, IsPart v := by
  induction ws generalizing w with
  | nil => exact List.forall_mem_singleton.mpr hw
  | cons v vs ih =>
    rw [List.forall_mem_cons] at h
    rw [List.map_cons, List.map_cons, List.isChain_cons_cons] at hchain
    obtain ⟨hapart, hrest⟩ := hchain
    rw [glueOnto]
    split
    · next hglued =>
      obtain ⟨ts, hwpart⟩ := hw
      obtain ⟨us, hvpart⟩ := h.1
      refine ih ⟨ts ++ us, ?_⟩ h.2 (List.isChain_cons.mpr ⟨fun u hu => ?_, hrest.tail⟩)
      · rw [String.toList_append]
        simp only [gluedBySlash, Bool.or_eq_true, beq_iff_eq] at hglued
        rcases hglued with hhead | hlast
        · exact .append_of_head hwpart.toContained hvpart hhead
        · exact .append_of_getLast hwpart hvpart hlast (hapart hlast)
      · rw [OpensNothing, String.toList_append,
          List.getLast?_append_of_ne_nil _ hvpart.toContained.ne_nil]
        exact (List.isChain_cons.mp hrest).1 u hu
    · exact List.forall_mem_cons.mpr ⟨hw, ih h.1 h.2 hrest⟩

theorem isPart_glueSlashes {ws : List String} (h : ∀ w ∈ ws, IsPart w)
    (hchain : (ws.map String.toList).IsChain OpensNothing) : ∀ w ∈ glueSlashes ws, IsPart w := by
  cases ws with
  | nil => exact List.forall_mem_nil _
  | cons w ws =>
    rw [List.forall_mem_cons] at h
    exact isPart_glueOnto h.1 h.2 hchain

/-! ## 4. Steady tokens -/

/-- Written tokens that are read back as themselves are contained, if whitespace is not among them. -/
theorem contained_of_settled {ts : List Token} (h : Token.Settled ts) (hne : ts ≠ [])
    (hgap : ∀ t ∈ ts, t.isWhitespace = false) (hs : ∀ t ∈ ts, t.isSemicolon = false)
    (hback : ∀ t ∈ ts.getLast?, t.isLiteral ['\\'] = false) :
    Contained (Token.listWritten ts) (Token.listReread ts) := by
  have hfirm : Token.Firm ts := ⟨fun t ht => hgap t (List.mem_of_getLast? ht), hback⟩
  have hscan : ∀ cs, Separates cs → _ := fun _ hcs => Token.scan_listWritten h hfirm hcs
  refine ⟨Token.unified_listWritten h.sourced, hscan, ?_,
    Token.faultless_listReread (faultless_of_sourced h.sourced),
    forall_listReread rfl isSemicolon_reread hs⟩
  obtain ⟨t, us, rfl⟩ := List.exists_cons_of_ne_nil hne
  refine exists_head_of_scan (hscan [] (by simp [Separates])) (by simp [Token.listReread]) ?_
  rintro u ⟨⟩
  rw [isWhitespace_reread]
  exact hgap t List.mem_cons_self

/-- No semicolon comes about when whitespace is put together in tokens of a self-contained value. -/
theorem unended_merged {value : String} (hv : SelfContained value) {piece : List Token}
    (hp : piece <:+: tokens value) : ∀ t ∈ piece.map Token.merged, t.isSemicolon = false := by
  rw [List.forall_mem_map]
  intro t ht
  rw [Token.isSemicolon, Token.merged_isLiteral]
  obtain ⟨u, hu, rfl⟩ := Token.exists_of_mem_listWithoutComments (hp.subset ht)
  rw [Token.isLiteral_withoutComments]
  exact hv.unended u hu

theorem eq_of_isLiteral {t : Token} {text : List Char} (h : t.isLiteral text = true) :
    t = .atom (.literal text) := by
  cases t with
  | atom a =>
    cases a with
    | literal => rw [eq_of_beq h]
    | _ => cases h
  | _ => cases h

/-- Nothing that comes before a slash runs into it. -/
theorem clash_slash (j : Joint) : j.clash (.literal ['/']) = false := by
  cases j <;> simp [Joint.clash, Joint.endsInName, Joint.startsWithName, Joint.startsWithNumber]

/-- Settled tokens that end in a slash are written as a part: what comes before the slash is
contained, and the slash separates it from what is glued. -/
theorem part_of_settled {ts : List Token} (h : Token.Settled (ts ++ [slashToken]))
    (hgap : ∀ t ∈ ts, t.isWhitespace = false)
    (hs : ∀ t ∈ ts ++ [slashToken], t.isSemicolon = false) :
    ∃ us, Part (Token.listWritten (ts ++ [slashToken])) us := by
  by_cases hne : ts = []
  · subst hne
    exact ⟨_, part_slash⟩
  · have hinit := h.of_isInfix (List.prefix_append ts [slashToken]).isInfix
    have hsourced := h.sourced
    rw [Token.listFlat_append] at hsourced
    have hback : ∀ t ∈ ts.getLast?, t.isLiteral ['\\'] = false :=
      Token.not_backslash_of_sourced hsourced (by simp)
    have hcontained := contained_of_settled hinit hne hgap
      (fun t ht => hs t (List.mem_append_left _ ht)) hback
    have hglue : ∀ t ∈ ts.getLast?, t.glueBefore [slashToken] = [] := fun t ht =>
      glue_eq_nil (clash_slash t.joint) (hback t ht)
    rw [listWritten_append hglue]
    exact ⟨_, .append_of_head hcontained part_slash rfl⟩

section Pieces

variable {value : String} (hv : SelfContained value) (hi : checkIntegers value = .ok ())
  {piece : List Token} (hp : piece <:+: tokens value) (hgap : ∀ t ∈ piece, t.isWhitespace = false)
  (hs : isSteady piece = true)
include hv hi hp hs hgap

/-- Steady tokens of a self-contained value that stand together, no blanks among them, are settled
once whitespace is put together in them, and are written the same then. -/
theorem settled_of_isSteady : Token.Settled (piece.map Token.merged) ∧
    Token.listWritten (piece.map Token.merged) = Token.listWritten piece := by
  obtain ⟨ts, -, rfl, hsourced, hshort⟩ := exists_sourced hi hv.faultless hp
  simp only [isSteady, Bool.and_eq_true, Bool.not_eq_true'] at hs
  rw [← listMerged_of_gapless hgap]
  exact ⟨Token.settled_listMerged hsourced hshort hs.1.1.1 hs.1.1.2,
    listWritten_merged_of_sourced hsourced⟩

/-- The text of steady tokens of a self-contained value is contained. -/
theorem contained_of_isSteady (hne : piece ≠ []) :
    Contained (Token.listWritten piece) (Token.listReread (piece.map Token.merged)) := by
  obtain ⟨hsettled, hwritten⟩ := settled_of_isSteady hv hi hp hgap hs
  simp only [isSteady, Bool.and_eq_true] at hs
  rw [← hwritten]
  refine contained_of_settled hsettled (by simpa using hne) ?_ ?_ ?_
  · simpa [Token.merged_isWhitespace] using hgap
  · exact unended_merged hv hp
  · intro t ht
    rw [List.getLast?_map, Option.mem_map] at ht
    obtain ⟨u, hu, rfl⟩ := ht
    rw [Token.merged_isLiteral]
    simpa [Option.mem_def.mp hu] using hs.2

/-- If the text ends in a slash that is a token, then it is contained also in front of anything but an
asterisk: what comes before the slash is contained, and the slash separates. -/
theorem part_of_isSteady (hne : piece ≠ [])
    (hslash : (Token.listWritten piece).getLast? = some '/' →
      ∀ t ∈ piece.getLast?, t.isLiteral ['/'] = true) :
    ∃ ts, Part (Token.listWritten piece) ts := by
  by_cases hlast : (Token.listWritten piece).getLast? = some '/'
  · obtain ⟨hsettled, hwritten⟩ := settled_of_isSteady hv hi hp hgap hs
    have hunended := unended_merged hv hp
    obtain ⟨init, t, rfl⟩ := (List.eq_nil_or_concat' piece).resolve_left hne
    obtain rfl : t = slashToken := eq_of_isLiteral (hslash hlast t (by simp))
    rw [← hwritten]
    rw [List.map_append] at hsettled hunended ⊢
    refine part_of_settled hsettled ?_ hunended
    simpa [Token.merged_isWhitespace] using fun t ht => hgap t (List.mem_append_left _ ht)
  · exact ⟨_, (contained_of_isSteady hv hi hp hgap hs hne).part hlast⟩

end Pieces

/-! ## 5. Words -/

/-- Pieces of a value whose texts can be glued at slashes: a slash at the end of a text is a token and
not part of a name, and no asterisk comes right behind it. -/
structure Gluable (pieces : List (List Token)) : Prop where
  slash : ∀ piece ∈ pieces, (Token.listWritten piece).getLast? = some '/' →
    ∀ t ∈ piece.getLast?, t.isLiteral ['/'] = true
  star : (pieces.map Token.listWritten).IsChain OpensNothing

theorem of_mem_rowPieces {ts piece : List Token} (h : piece ∈ rowPieces ts) :
    piece <:+: ts ∧ (∀ t ∈ piece, t.isWhitespace = false) ∧ piece ≠ [] := by
  obtain ⟨hmem, hne⟩ := List.mem_filter.mp h
  exact ⟨(of_mem_splitAt hmem).1, (of_mem_splitAt hmem).2, by simpa using hne⟩

section Words

variable {value : String} (hv : SelfContained value) (hi : checkIntegers value = .ok ())
include hv hi

/-- Steady pieces of a part of a value are written as contained words. -/
theorem isContained_write {ts piece : List Token} (hts : ts <:+: tokens value)
    (hs : ∀ piece ∈ Token.splitAt Token.isWhitespace ts, isSteady piece = true)
    (h : piece ∈ rowPieces ts) : IsContained (Token.write piece) := by
  obtain ⟨hp, hgap, hne⟩ := of_mem_rowPieces h
  have hcontained := contained_of_isSteady hv hi (hp.trans hts) hgap
    (hs piece (List.mem_filter.mp h).1) hne
  exact ⟨_, by rwa [Token.write, String.toList_ofList]⟩

/-- The words of a value are its pieces as they are written, if these are steady. -/
theorem words_eq_map_write
    (hs : ∀ piece ∈ Token.splitAt Token.isWhitespace (tokens value), isSteady piece = true) :
    words value = (rowPieces (tokens value)).map Token.write := by
  have htrim : ((rowPieces (tokens value)).map fun piece =>
      String.ofList (Text.trim (Token.listWritten piece))) =
      (rowPieces (tokens value)).map Token.write := by
    refine List.map_congr_left fun piece hpiece => ?_
    have hsteady := hs piece (List.mem_filter.mp hpiece).1
    simp only [isSteady, Bool.and_eq_true, beq_iff_eq] at hsteady
    rw [hsteady.1.2, Token.write]
  rw [words_eq_rowPieces, htrim, List.filter_eq_self]
  rw [List.forall_mem_map]
  intro piece hpiece
  obtain ⟨ts, hts⟩ := isContained_write hv hi List.infix_rfl hs hpiece
  simpa [← String.toList_eq_nil_iff] using hts.ne_nil

theorem isContained_of_mem_words
    (hs : ∀ piece ∈ Token.splitAt Token.isWhitespace (tokens value), isSteady piece = true) :
    ∀ w ∈ words value, IsContained w := by
  rw [words_eq_map_write hv hi hs, List.forall_mem_map]
  exact fun piece hpiece => isContained_write hv hi List.infix_rfl hs hpiece

/-- The words of all layers of a value are contained, if its pieces between commas and whitespace are
steady. -/
theorem isContained_of_mem_layers (hs : ∀ layer ∈ Token.splitAt Token.isComma (tokens value),
      ∀ piece ∈ Token.splitAt Token.isWhitespace layer, isSteady piece = true) :
    ∀ layer ∈ layers value, ∀ w ∈ words layer, IsContained w := by
  cases hb : Text.isBlankText value with
  | true =>
    rw [layers, hb]
    exact List.forall_mem_nil _
  | false =>
    have hwords := (map_words_layers hv.faultless hb (readAlone_of_isSteady hi hv.faultless hs)).2
    intro layer hlayer w hw
    have hmem : words layer ∈ (layers value).map words := List.mem_map_of_mem hlayer
    rw [hwords, all_layout_commas, List.map_map, List.mem_map] at hmem
    obtain ⟨ts, hts, hrow⟩ := hmem
    rw [← hrow, Function.comp_apply, List.mem_map] at hw
    obtain ⟨piece, hpiece, rfl⟩ := hw
    exact isContained_write hv hi (of_mem_splitAt hts).1 (hs ts hts) hpiece

/-- The words of a value that are glued at slashes are parts, if the pieces are steady and can be
glued. -/
theorem isPart_of_mem_glueSlashes
    (hs : ∀ piece ∈ Token.splitAt Token.isWhitespace (tokens value), isSteady piece = true)
    (hg : Gluable (rowPieces (tokens value))) : ∀ w ∈ glueSlashes (words value), IsPart w := by
  rw [words_eq_map_write hv hi hs]
  refine isPart_glueSlashes (List.forall_mem_map.mpr fun piece hpiece => ?_) ?_
  · obtain ⟨hp, hgap, hne⟩ := of_mem_rowPieces hpiece
    obtain ⟨ts, hts⟩ := part_of_isSteady hv hi hp hgap (hs piece (List.mem_filter.mp hpiece).1) hne
      (hg.slash piece hpiece)
    exact ⟨ts, by rwa [Token.write, String.toList_ofList]⟩
  · have htexts : ((rowPieces (tokens value)).map Token.write).map String.toList =
        (rowPieces (tokens value)).map Token.listWritten := by
      rw [List.map_map]
      exact List.map_congr_left fun piece _ => String.toList_ofList ..
    rw [htexts]
    exact hg.star

end Words

end CssExpand.Value
