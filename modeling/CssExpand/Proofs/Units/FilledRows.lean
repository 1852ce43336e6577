import CssExpand.Proofs.Units.AddedTwice
import Mathlib

/-!
# Rows with units

A value is written in rows of words (`Value.InRows`): a space between the words, a comma and a space
between the rows. Its tokens are those of the words between these separators, so units are put into the
words and the separators stay (`InRows.fill_eq`). Nothing glues a separator to the word before it, as
long as that does not end in a backslash (`EndsPlain`). The words with units need not be words again:
`0-` is written with an empty comment after its unit. That is why rows are known by their tokens here
and not by the texts of their words.
-/

set_option autoImplicit false

namespace CssExpand

open Syntax Value

/-! ## 1. Texts of rows -/

/-- The last token of a list is no backslash, which would take in what comes after it. -/
def EndsPlain (ts : List Token) : Prop := ∀ t ∈ ts.getLast?, t.isLiteral ['\\'] = false

namespace Value

/-- What is true of the last tokens of chunks is true of the last one of all. -/
theorem getLast?_separated {p : Token → Prop} {s : Token} {chunks : List (List Token)}
    (h : ∀ d ∈ chunks, ∀ t ∈ d.getLast?, p t) (hs : p s ∨ ∀ d ∈ chunks, d ≠ []) :
    ∀ t ∈ (separated s chunks).getLast?, p t := by
  cases chunks with
  | nil =>
    intro t ht
    cases ht
  | cons c cs =>
    rw [separated]
    induction cs generalizing c with
    | nil => simpa using h c List.mem_cons_self
    | cons d cs ih =>
      rw [List.forall_mem_cons] at h
      intro t ht
      rw [List.flatMap_cons, List.cons_append, List.getLast?_append, List.getLast?_cons] at ht
      cases hlast : (d ++ cs.flatMap (s :: ·)).getLast? with
      | none =>
        -- there is nothing behind the separator
        obtain ⟨hnil, -⟩ := List.append_eq_nil_iff.mp (List.getLast?_eq_none_iff.mp hlast)
        rw [hlast] at ht
        obtain rfl : s = t := by simpa using ht
        exact hs.resolve_right fun hne => hne d (by simp) hnil
      | some u =>
        rw [hlast] at ht
        obtain rfl : u = t := by simpa using ht
        exact ih d h.2 (hs.imp_right fun hne => (List.forall_mem_cons.mp hne).2) u hlast

/-- A token that may stand between any two others, unless the first one is a backslash. -/
structure KeepsApart (s : Token) : Prop where
  before : ∀ ts, s.glueBefore ts = []
  after : ∀ t : Token, t.isLiteral ['\\'] = false → t.glue s = []
  plain : s.isLiteral ['\\'] = false

theorem keepsApart_spaceToken : KeepsApart spaceToken where
  before := glueBefore_of_whitespace rfl
  after t ht := by
    have hspace : ∀ u ∈ [spaceToken], u.isWhitespace = true :=
      fun u hu => List.mem_singleton.mp hu ▸ rfl
    exact glueBefore_whitespace ht hspace
  plain := rfl

/-- Neither side of a comma is joined with it. -/
theorem keepsApart_commaToken : KeepsApart commaToken where
  before ts := by
    cases ts with
    | nil => rfl
    | cons t ts =>
      refine glue_eq_nil ?_ rfl
      generalize t.joint = j
      cases j <;> simp [Joint.clash, commaToken, Token.joint, Atom.joint, Joint.endsInName]
  after t ht := by
    refine glue_eq_nil ?_ ht
    generalize t.joint = j
    cases j <;> simp [Joint.clash, commaToken, Token.joint, Atom.joint, Joint.startsWithName,
      Joint.startsWithNumber]
  plain := rfl

variable {s : Token} (hs : KeepsApart s)
include hs

theorem listWritten_cons_separator (ts : List Token) :
    Token.listWritten (s :: ts) = s.written ++ Token.listWritten ts := by
  rw [Token.listWritten, hs.before, List.append_nil]

/-- What is written for chunks with a separator between them. -/
theorem listWritten_separated {c : List Token} {cs : List (List Token)}
    (h : ∀ d ∈ c :: cs, EndsPlain d) : Token.listWritten (separated s (c :: cs)) =
      Token.listWritten c ++ (cs.map Token.listWritten).flatMap (s.written ++ ·) := by
  rw [separated]
  induction cs generalizing c with
  | nil => simp
  | cons d cs ih =>
    rw [List.forall_mem_cons] at h
    have hlast : ∀ t ∈ c.getLast?, t.glueBefore (s :: (d ++ cs.flatMap (s :: ·))) = [] :=
      fun t ht => hs.after t (h.1 t ht)
    rw [List.flatMap_cons, List.cons_append, listWritten_append hlast,
      listWritten_cons_separator hs, ih h.2, List.map_cons, List.flatMap_cons, List.append_assoc]

theorem endsPlain_separated {chunks : List (List Token)} (h : ∀ d ∈ chunks, EndsPlain d) :
    EndsPlain (separated s chunks) :=
  getLast?_separated h (.inl hs.plain)

omit hs in
/-- The layers of rows whose words are lists of tokens, each but the first behind a space. -/
def layerPieces : List (List (List Token)) → List (List Token)
  | [] => []
  | row :: rows => separated spaceToken row :: rows.map fun row => spaceToken :: separated spaceToken row

omit hs in
theorem layerTokens_eq (rows : List (List String)) :
    layerTokens rows = layerPieces (rows.map (List.map fun w => Token.ofChars w.toList)) := by
  cases rows with
  | nil => rfl
  | cons row rows =>
    rw [List.map_cons, layerPieces, List.map_map]
    rfl

omit hs in
theorem write_separated_space {row : List (List Token)} (h : ∀ word ∈ row, EndsPlain word) :
    Token.write (separated spaceToken row) = spaced (row.map Token.write) := by
  cases row with
  | nil => rfl
  | cons word row =>
    have hwords : ((row.map Token.write).map String.toList) = row.map Token.listWritten := by
      rw [List.map_map]
      exact List.map_congr_left fun word _ => String.toList_ofList ..
    rw [← String.toList_inj, Token.write, String.toList_ofList,
      listWritten_separated keepsApart_spaceToken h, List.map_cons, toList_spaced_cons, hwords,
      Token.write, String.toList_ofList]
    rfl

omit hs in
/-- Layers of rows are written as these rows with commas and spaces between them. -/
theorem write_layerPieces {rows : List (List (List Token))}
    (h : ∀ row ∈ rows, ∀ word ∈ row, EndsPlain word) :
    Token.write (separated commaToken (layerPieces rows)) =
      layered (rows.map (List.map Token.write)) := by
  have hplain : ∀ row ∈ rows, EndsPlain (separated spaceToken row) := fun row hrow =>
    endsPlain_separated keepsApart_spaceToken (h row hrow)
  have hwritten : ∀ row ∈ rows, Token.listWritten (separated spaceToken row) =
      (spaced (row.map Token.write)).toList := fun row hrow => by
    rw [← write_separated_space (h row hrow), Token.write, String.toList_ofList]
  cases rows with
  | nil => rfl
  | cons first rows =>
    -- a layer behind the first carries the space after its comma, which changes no end
    have hchunks : ∀ chunk ∈ layerPieces (first :: rows), EndsPlain chunk := by
      rw [layerPieces, List.forall_mem_cons, List.forall_mem_map]
      refine ⟨hplain first List.mem_cons_self, fun row hrow t ht => ?_⟩
      rw [List.getLast?_cons] at ht
      cases hlast : (separated spaceToken row).getLast? with
      | none =>
        rw [hlast] at ht
        obtain rfl : spaceToken = t := by simpa using ht
        rfl
      | some u =>
        rw [hlast] at ht
        obtain rfl : u = t := by simpa using ht
        exact hplain row (List.mem_cons_of_mem first hrow) u hlast
    have hrows : (rows.map fun row => spaceToken :: separated spaceToken row).map Token.listWritten =
        rows.map fun row => ' ' :: (spaced (row.map Token.write)).toList := by
      rw [List.map_map]
      refine List.map_congr_left fun row hrow => ?_
      rw [Function.comp_apply, listWritten_cons_separator keepsApart_spaceToken,
        hwritten row (List.mem_cons_of_mem first hrow)]
      rfl
    rw [layerPieces] at hchunks ⊢
    rw [← String.toList_inj, Token.write, String.toList_ofList,
      listWritten_separated keepsApart_commaToken hchunks, hrows, hwritten first List.mem_cons_self,
      List.map_cons, toList_layered_cons]
    simp only [List.flatMap_map]
    rfl

end Value

namespace UnitRule

theorem applyAll_append (r : UnitRule) (as bs : List Token) :
    r.applyAll (as ++ bs) = r.applyAll as ++ r.applyAll bs := by
  rw [applyAll_eq_map, applyAll_eq_map, applyAll_eq_map, List.map_append]

theorem applyAll_separated (r : UnitRule) {s : Token} (hs : r.apply s = s)
    (chunks : List (List Token)) :
    r.applyAll (separated s chunks) = separated s (chunks.map r.applyAll) := by
  cases chunks with
  | nil => rfl
  | cons c cs =>
    rw [separated, List.map_cons, separated, applyAll_append]
    congr 1
    induction cs with
    | nil => rfl
    | cons d cs ih =>
      rw [List.flatMap_cons, List.map_cons, List.flatMap_cons, applyAll_append, ih, applyAll, hs]

theorem applyAll_layerPieces (r : UnitRule) (rows : List (List (List Token))) :
    r.applyAll (separated commaToken (layerPieces rows)) =
      separated commaToken (layerPieces (rows.map (List.map r.applyAll))) := by
  rw [applyAll_separated r (s := commaToken) rfl]
  cases rows with
  | nil => rfl
  | cons row rows =>
    rw [layerPieces, List.map_cons, List.map_cons, layerPieces,
      applyAll_separated r (s := spaceToken) rfl, List.map_map, List.map_map]
    congr 2
    refine List.map_congr_left fun row' _ => ?_
    rw [Function.comp_apply, Function.comp_apply, applyAll, applyAll_separated r (s := spaceToken) rfl]
    rfl

end UnitRule

/-! ## 2. Values in rows -/

theorem Value.IsWord.readBack {w : String} (h : IsWord w) (hi : checkIntegers w = .ok ()) :
    ReadBack w :=
  ⟨hi, h.faultless, by rw [Token.write, h.written, String.ofList_toList]⟩

theorem Value.IsWord.isEmpty_eq {w : String} (h : IsWord w) : w.isEmpty = false :=
  Bool.eq_false_iff.mpr fun hempty => h.nonempty (String.toList_eq_nil_iff.mpr
    (String.isEmpty_iff.mp hempty))

theorem Syntax.ReadBack.isEmpty_fill {w : String} (h : ReadBack w) (r : UnitRule) :
    (r.fill w).isEmpty = w.isEmpty := by
  rw [Bool.eq_iff_iff, String.isEmpty_iff, String.isEmpty_iff, h.fill_eq_empty_iff]

/-- A value that is written in rows of words, and read as these words. Completed values have this form,
and adding units keeps it. -/
structure Value.InRows (value : String) (rows : List (List String)) : Prop where
  text : value = layered rows
  ofChars : Token.ofChars value.toList = separated commaToken (layerTokens rows)
  words : ∀ row ∈ rows, ∀ w ∈ row, IsWord w ∧ checkIntegers w = .ok ()

theorem Value.InRows.of_isLayer {rows : List (List String)} (h : ∀ row ∈ rows, IsLayer row)
    (hi : ∀ row ∈ rows, ∀ w ∈ row, checkIntegers w = .ok ()) : InRows (layered rows) rows where
  text := rfl
  ofChars := ofChars_of_scan (unified_layered h) fun _ hs => scan_layered h hs
  words row hrow w hw := ⟨(h row hrow).legible w hw, hi row hrow w hw⟩

theorem Value.InRows.of_row {row : List String} (h : ∀ w ∈ row, IsWord w)
    (hi : ∀ w ∈ row, checkIntegers w = .ok ()) : InRows (layered [row]) [row] where
  text := rfl
  ofChars := by
    have htext : layered [row] = spaced row := by simp [layered]
    have hrow := ofChars_of_scan (unified_spaced h) fun _ hs => scan_spaced h hs
    rw [htext, hrow]
    simp [layerTokens, separated]
  words := by
    rw [List.forall_mem_singleton]
    exact fun w hw => ⟨h w hw, hi w hw⟩

/-- What holds of the chunks and of the separator holds of the whole row. -/
theorem forall_mem_listFlat_separated {p : Lexeme → Prop} {s : Token} (hs : ∀ l ∈ s.flat, p l)
    {chunks : List (List Token)} (h : ∀ c ∈ chunks, ∀ l ∈ Token.listFlat c, p l) :
    ∀ l ∈ Token.listFlat (separated s chunks), p l := by
  cases chunks with
  | nil => exact List.forall_mem_nil _
  | cons c cs =>
    rw [List.forall_mem_cons] at h
    rw [separated, Token.listFlat_append, List.forall_mem_append]
    refine ⟨h.1, ?_⟩
    replace h := h.2
    induction cs with
    | nil => exact List.forall_mem_nil _
    | cons d cs ih =>
      rw [List.forall_mem_cons] at h
      rw [List.flatMap_cons, List.cons_append, Token.listFlat, Token.listFlat_append,
        List.forall_mem_append, List.forall_mem_append]
      exact ⟨hs, h.1, ih h.2⟩

/-- What separates words and layers is no integer. -/
theorem short_separator : ∀ s ∈ [spaceToken, commaToken, slashToken], ∀ l ∈ s.flat,
    l.overlong? = none := by
  simp [spaceToken, commaToken, slashToken, Token.flat, Lexeme.overlong?, Atom.numeral?]

namespace Value.InRows

variable {value : String} {rows : List (List String)} (h : InRows value rows)
include h

/-- No number in a row of words is overlong, since none is in a word. -/
theorem short : ∀ l ∈ Token.listFlat (Token.ofChars value.toList), l.overlong? = none := by
  have hword : ∀ row ∈ rows, ∀ w ∈ row, ∀ l ∈ Token.listFlat (Token.ofChars w.toList),
      l.overlong? = none := fun row hrow w hw =>
    ((h.words row hrow w hw).1.readBack (h.words row hrow w hw).2).settled.short
  have hrow : ∀ row ∈ rows, ∀ l ∈ Token.listFlat (rowTokens row), l.overlong? = none := by
    intro row hmem
    refine forall_mem_listFlat_separated (short_separator _ (by simp)) ?_
    rw [List.forall_mem_map]
    exact hword row hmem
  rw [h.ofChars]
  refine forall_mem_listFlat_separated (short_separator _ (by simp)) fun c hc => ?_
  obtain ⟨row, hmem, rfl | rfl⟩ := exists_row_of_mem_layerTokens hc
  · exact hrow row hmem
  · rw [Token.listFlat, List.forall_mem_append]
    exact ⟨short_separator _ (by simp), hrow row hmem⟩

theorem endsPlain : ∀ row ∈ rows.map (List.map fun w => Token.ofChars w.toList),
    ∀ word ∈ row, EndsPlain word := by
  simp only [List.forall_mem_map]
  exact fun row hrow w hw => (h.words row hrow w hw).1.backslash

/-- A row of words is read back as it is: each word is, and the separators keep them apart. -/
theorem readBack : ReadBack value := by
  have hfaultless : Token.listHasFault (Token.ofChars value.toList) = false := by
    rw [h.ofChars]
    refine faultless_separated rfl fun c hc => ?_
    obtain ⟨row, hrow, rfl | rfl⟩ := exists_row_of_mem_layerTokens hc
    · exact faultless_rowTokens fun w hw => (h.words row hrow w hw).1
    · exact faultless_rowTokens fun w hw => (h.words row hrow w hw).1
  refine ⟨Token.checkIntegers_eq_ok.mpr fun l hl => ?_, hfaultless, ?_⟩
  · obtain ⟨closers, hflat⟩ := Token.flat_ofChars hfaultless
    exact h.short l (hflat ▸ List.mem_append_left _ hl)
  · have hwords : ∀ row ∈ rows, (row.map fun w => Token.ofChars w.toList).map Token.write = row := by
      intro row hrow
      rw [List.map_map]
      refine (List.map_congr_left fun w hw => ?_).trans (List.map_id row)
      exact ((h.words row hrow w hw).1.readBack (h.words row hrow w hw).2).written
    rw [h.ofChars, layerTokens_eq, write_layerPieces h.endsPlain, List.map_map, h.text]
    congr 1
    exact (List.map_congr_left hwords).trans (List.map_id rows)

/-- In a value that is written in rows, units are put into the words. -/
theorem fill_eq (r : UnitRule) : r.fill value = layered (rows.map (List.map r.fill)) := by
  have hplain : ∀ row ∈ (rows.map (List.map fun w => Token.ofChars w.toList)).map
      (List.map r.applyAll), ∀ word ∈ row, EndsPlain word := by
    simp only [List.forall_mem_map]
    exact fun row hrow w hw =>
      ((h.words row hrow w hw).1.readBack (h.words row hrow w hw).2).backslash_applyAll r
  rw [UnitRule.fill, h.ofChars, layerTokens_eq, r.applyAll_layerPieces, write_layerPieces hplain]
  simp only [List.map_map]
  refine congrArg layered (List.map_congr_left fun row _ => ?_)
  simp only [Function.comp_apply, List.map_map]
  rfl

theorem tokens_eq : tokens value = Token.ofChars value.toList := by
  have hrow : ∀ row ∈ rows, Token.listWithoutComments (rowTokens row) = rowTokens row :=
    fun row hrow => commentless_rowTokens fun w hw => (h.words row hrow w hw).1
  rw [tokens, h.ofChars]
  refine listWithoutComments_separated rfl fun c hc => ?_
  obtain ⟨row, hmem, rfl | rfl⟩ := exists_row_of_mem_layerTokens hc
  · exact hrow row hmem
  · rw [Token.listWithoutComments, if_neg (by simp [spaceToken, Token.isComment]), hrow row hmem]
    rfl

end Value.InRows

/-- A row of words is what stands between the whitespace at the ends of its tokens. -/
theorem trim_rowTokens {row : List String} (h : ∀ w ∈ row, IsWord w) :
    Token.trim (rowTokens row) = rowTokens row ∧
      Token.trim (spaceToken :: rowTokens row) = rowTokens row := by
  have hchunks : ∀ chunk ∈ row.map fun w => Token.ofChars w.toList,
      chunk ≠ [] ∧ ∀ t ∈ chunk, t.isWhitespace = false := by
    rw [List.forall_mem_map]
    intro w hw
    refine ⟨fun hnil => (h w hw).nonempty ?_, fun t ht => not_isWhitespace ((h w hw).significant t ht)⟩
    rw [← (h w hw).written, hnil]
    rfl
  have hfirst : ∀ t ∈ (rowTokens row).head?, t.isWhitespace = false := by
    rw [rowTokens]
    cases hrow : row.map fun w => Token.ofChars w.toList with
    | nil =>
      intro t ht
      cases ht
    | cons c cs =>
      rw [hrow, List.forall_mem_cons] at hchunks
      intro t ht
      rw [separated, List.head?_append_of_ne_nil _ hchunks.1.1] at ht
      exact hchunks.1.2 t (List.mem_of_mem_head? ht)
  have hlast : ∀ t ∈ (rowTokens row).getLast?, t.isWhitespace = false :=
    getLast?_separated (fun c hc t ht => (hchunks c hc).2 t (List.mem_of_getLast? ht))
      (.inr fun c hc => (hchunks c hc).1)
  exact ⟨by simpa [blank] using trim_blank hfirst hlast [] [],
    by simpa [blank, spaceToken] using trim_blank hfirst hlast [' '] []⟩

/-- The words of a row, each as its tokens. -/
def rowWords (row : List String) : List (List Token) := row.map fun w => Token.ofChars w.toList

theorem map_trim_layerTokens {rows : List (List String)} (h : ∀ row ∈ rows, ∀ w ∈ row, IsWord w) :
    (layerTokens rows).map Token.trim = rows.map rowTokens := by
  cases rows with
  | nil => rfl
  | cons row rows =>
    rw [List.forall_mem_cons] at h
    rw [layerTokens, List.map_cons, List.map_cons, List.map_map, (trim_rowTokens h.1).1]
    congr 1
    exact List.map_congr_left fun row hrow => (trim_rowTokens (h.2 row hrow)).2

/-- The words of the layers of rows are the words of the rows. -/
theorem map_layerWords_layerTokens {rows : List (List String)} (h : ∀ row ∈ rows, IsLayer row) :
    (layerTokens rows).map layerWords = rows.map rowWords := by
  have htrim := map_trim_layerTokens fun row hrow => (h row hrow).legible
  have hsplit : (layerTokens rows).map layerWords =
      ((layerTokens rows).map Token.trim).map (Token.splitAt Token.isWhitespace) := by
    rw [List.map_map]
    rfl
  rw [hsplit, htrim, List.map_map]
  exact List.map_congr_left fun row hrow => splitAt_rowTokens (h row hrow).legible (h row hrow).1

theorem isTrimmed_of_isWord {w : String} (h : IsWord w) : IsTrimmed (Token.ofChars w.toList) := by
  refine ⟨?_, h.backslash⟩
  rw [h.written]
  exact trim_eq_self h.first h.last

theorem isTrimmed_rowTokens {row : List String} (h : IsLayer row) : IsTrimmed (rowTokens row) := by
  refine ⟨?_, endsPlain_separated keepsApart_spaceToken ?_⟩
  · rw [listWritten_rowTokens h.legible, h.trim]
  · rw [List.forall_mem_map]
    exact fun w hw => (h.legible w hw).backslash

/-- Layers that are written in rows stand for themselves. -/
theorem Value.InRows.layersStand {value : String} {rows : List (List String)}
    (h : InRows value rows) (hne : rows ≠ []) (hl : ∀ row ∈ rows, IsLayer row) :
    LayersStand value where
  settled := h.tokens_eq ▸ h.readBack.settled
  respelled := h.readBack.reread_eq
  trimmed layer hlayer := by
    rw [h.tokens_eq, h.ofChars, splitAt_layerTokens hne hl] at hlayer
    have hwords := map_layerWords_layerTokens hl
    have htrim := map_trim_layerTokens fun row hrow => (hl row hrow).legible
    have hmem : Token.trim layer ∈ rows.map rowTokens := htrim ▸ List.mem_map_of_mem hlayer
    have hmem' : layerWords layer ∈ rows.map rowWords := hwords ▸ List.mem_map_of_mem hlayer
    obtain ⟨row, hrow, heq⟩ := List.mem_map.mp hmem
    obtain ⟨row', hrow', heq'⟩ := List.mem_map.mp hmem'
    rw [← heq, ← heq', rowWords, List.forall_mem_map]
    exact ⟨isTrimmed_rowTokens (hl row hrow), fun w hw =>
      isTrimmed_of_isWord ((hl row' hrow').legible w hw)⟩

/-- The words of a single row stand alone. -/
theorem Value.InRows.wordsAlone {value : String} {row : List String} (h : InRows value [row])
    (hne : row ≠ []) : WordsAlone value := by
  have hwords := h.words row List.mem_cons_self
  have htokens : tokens value = rowTokens row := by
    rw [h.tokens_eq, h.ofChars]
    simp [layerTokens, separated]
  rw [WordsAlone, htokens, splitAt_rowTokens (fun w hw => (hwords w hw).1) hne, List.forall_mem_map]
  intro w hw
  obtain ⟨hword, hi⟩ := hwords w hw
  rw [hword.written]
  exact ⟨trim_eq_self hword.first hword.last, (hword.readBack hi).listReread_eq.symm⟩

end CssExpand
