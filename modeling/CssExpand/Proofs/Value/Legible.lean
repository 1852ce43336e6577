import CssExpand.Proofs.Sheet.Lasting
import CssExpand.Proofs.Syntax.ReadBack
import CssExpand.Value.Words
import Mathlib

/-!
# Words that are read back

A pass takes a value apart into words and puts words together again. That is safe for words that are
read, alone, as one piece that is written as it was (`isLegible`). Not every word of a value is such a
word: an escape may need the blank after it, which is trimmed, and without comments two tokens may
run together.

Legible words with spaces between them are read as these words (`words_spaced`), and rows of them with
commas between them are read as these layers (`layers_rows`).
-/

set_option autoImplicit false

namespace CssExpand.Value

open Syntax

/-- Whether a lexeme is a comment. -/
def isCommentLexeme : Lexeme → Bool
  | .atom (.comment _) => true
  | _ => false

/-- Whether a word is read, alone, as one piece that is written as it was. -/
def isLegible (w : String) : Bool :=
  let ts := Token.ofChars w.toList
  !w.isEmpty && Text.trim w.toList == w.toList &&
    (checkIntegers w).isOk && !Token.listHasFault ts && !Token.listMisread ts &&
    Token.listWritten ts == w.toList && (Token.listFlat ts).all (!isCommentLexeme ·) &&
    ts.all Token.isSignificant && ts.getLast?.all (!·.isLiteral ['\\'])

/-- Whether a word has no comma outside all brackets. -/
def isCommaless (w : String) : Bool := (Token.ofChars w.toList).all (!·.isComma)

/-! ## 1. What is known of a legible word -/

/-- A text that is read in front of a separator as these tokens, and nothing else. Words that
completing puts in are legible, and so are most that an author writes. Texts with comments in them are
not; for these there is `Alone`. -/
structure Legible (x : List Char) (ts : List Token) : Prop where
  unified : Unified x
  scan : ∀ cs, Separates cs → Lexeme.scan (x ++ cs) = Token.listFlat ts ++ Lexeme.scan cs
  written : Token.listWritten ts = x
  faultless : Token.listHasFault ts = false
  commentless : Token.listWithoutComments ts = ts
  significant : ∀ t ∈ ts, t.isSignificant
  backslash : ∀ t ∈ ts.getLast?, t.isLiteral ['\\'] = false
  nonempty : x ≠ []
  first : ∀ c ∈ x.head?, Text.isBlank c = false
  last : ∀ c ∈ x.getLast?, Text.isBlank c = false

mutual

theorem withoutComments_eq : ∀ {t : Token}, (∀ l ∈ t.flat, isCommentLexeme l = false) →
    t.withoutComments = t
  | .atom a, _ => rfl
  | .function name arguments, h => by
    rw [Token.withoutComments, listWithoutComments_eq]
    exact fun l hl => h l (by simp [Token.flat, hl])
  | .block bracket content, h => by
    rw [Token.withoutComments, listWithoutComments_eq]
    exact fun l hl => h l (by simp [Token.flat, hl])

/-- Without comments there is nothing to drop. -/
theorem listWithoutComments_eq : ∀ {ts : List Token},
    (∀ l ∈ Token.listFlat ts, isCommentLexeme l = false) → Token.listWithoutComments ts = ts
  | [], _ => rfl
  | t :: ts, h => by
    rw [Token.listFlat, List.forall_mem_append] at h
    have ht : t.isComment = false := by
      cases t with
      | atom a =>
        cases a with
        | comment text =>
          have := h.1 (.atom (.comment text)) (by simp [Token.flat])
          simp [isCommentLexeme] at this
        | _ => rfl
      | _ => rfl
    rw [Token.listWithoutComments, ht, withoutComments_eq h.1, listWithoutComments_eq h.2]
    rfl

end

@[simp] theorem listWithoutComments_append (as bs : List Token) :
    Token.listWithoutComments (as ++ bs) =
      Token.listWithoutComments as ++ Token.listWithoutComments bs := by
  induction as with
  | nil => rfl
  | cons a as ih =>
    rw [List.cons_append, Token.listWithoutComments, Token.listWithoutComments, ih]
    split <;> rfl

theorem dropWhile_eq_self {p : Char → Bool} {cs : List Char} (h : ∀ c ∈ cs.head?, p c = false) :
    cs.dropWhile p = cs := by
  cases cs with
  | nil => rfl
  | cons c cs => exact List.dropWhile_cons_of_neg (by simp [h c rfl])

/-- A text that neither starts nor ends with a blank is trimmed. -/
theorem trim_eq_self {x : List Char} (hfirst : ∀ c ∈ x.head?, Text.isBlank c = false)
    (hlast : ∀ c ∈ x.getLast?, Text.isBlank c = false) : Text.trim x = x := by
  rw [Text.trim, dropWhile_eq_self hfirst, dropWhile_eq_self (by simpa using hlast),
    List.reverse_reverse]

theorem ends_of_trim {x : List Char} (h : Text.trim x = x) :
    (∀ c ∈ x.head?, Text.isBlank c = false) ∧ ∀ c ∈ x.getLast?, Text.isBlank c = false := by
  have hlast : ∀ c ∈ x.getLast?, Text.isBlank c = false := by
    rw [← h, Text.trim, List.getLast?_reverse]
    exact head?_dropWhile_stop _ _
  refine ⟨fun c hc => ?_, hlast⟩
  -- the text is no longer than what is left of it when the blanks in front are gone
  have hlen : x.length ≤ (x.dropWhile Text.isBlank).length := by
    calc x.length = (Text.trim x).length := by rw [h]
      _ ≤ _ := by
        rw [Text.trim, List.length_reverse]
        exact Nat.le_trans (length_dropWhile_le _ _) (by simp)
  have heq := (List.dropWhile_suffix (l := x) Text.isBlank).eq_of_length_le hlen
  exact head?_dropWhile_stop Text.isBlank x c (by rw [heq]; exact hc)

theorem isWhitespace_of_not_isBlank {c : Char} (h : Text.isBlank c = false) :
    Syntax.isWhitespace c = false := by
  refine Bool.eq_false_iff.mpr fun hw => ?_
  simp only [Syntax.isWhitespace, Bool.or_eq_true, beq_iff_eq] at hw
  rcases hw with (rfl | rfl) | rfl <;> exact absurd h (by decide)

theorem not_isWhitespace {t : Token} (h : t.isSignificant) : t.isWhitespace = false := by
  simp only [Token.isSignificant, Bool.and_eq_true, Bool.not_eq_true'] at h
  exact h.1

/-- A word that is read in front of a separator as it is read alone. -/
def IsWord (w : String) : Prop := Legible w.toList (Token.ofChars w.toList)

/-- The tokens of a text are those that it is read as. -/
theorem Legible.ofChars_eq {x : List Char} {ts : List Token} (h : Legible x ts) :
    Token.ofChars x = ts := ofChars_of_scan h.unified h.scan

theorem Legible.isWord {w : String} {ts : List Token} (h : Legible w.toList ts) : IsWord w := by
  rwa [IsWord, h.ofChars_eq]

/-- A legible word is read back. -/
theorem readBack_of_isLegible {w : String} (h : isLegible w = true) : ReadBack w := by
  simp only [isLegible, Bool.and_eq_true, Bool.not_eq_true', beq_iff_eq] at h
  obtain ⟨⟨⟨⟨⟨⟨⟨⟨-, -⟩, hshort⟩, hfault⟩, -⟩, hwritten⟩, -⟩, -⟩, -⟩ := h
  refine ⟨?_, hfault, by rw [Token.write, hwritten, String.ofList_toList]⟩
  cases hc : checkIntegers w with
  | ok => rfl
  | error => simp [hc, Except.isOk, Except.toBool] at hshort

/-- The check is enough for a word to be read back as itself. -/
theorem isWord_of_isLegible {w : String} (h : isLegible w = true) : IsWord w := by
  have hback := readBack_of_isLegible h
  simp only [isLegible, Bool.and_eq_true, Bool.not_eq_true', beq_iff_eq] at h
  obtain ⟨⟨⟨⟨⟨⟨⟨⟨hempty, htrim⟩, -⟩, -⟩, -⟩, -⟩, hcomment⟩, hsignificant⟩, -⟩ := h
  rw [List.all_eq_true] at hsignificant
  have hfirm : Token.Firm (Token.ofChars w.toList) :=
    ⟨fun t ht => not_isWhitespace (hsignificant t (List.mem_of_getLast? ht)), hback.backslash⟩
  have hscan : ∀ cs, Separates cs → _ :=
    fun _ hs => Token.scan_listWritten hback.settled hfirm hs
  rw [hback.listReread_eq, hback.listWritten_eq] at hscan
  obtain ⟨hhead, hend⟩ := ends_of_trim htrim
  refine ⟨hback.unified, hscan, hback.listWritten_eq, hback.faultless,
    listWithoutComments_eq fun l hl => ?_, hsignificant, hback.backslash, ?_, hhead, hend⟩
  · simpa using List.all_eq_true.mp hcomment l hl
  · simpa using hempty

/-! ## 2. Pieces between separators -/

/-- Lists of tokens with a separator between them. -/
def separated (s : Token) : List (List Token) → List Token
  | [] => []
  | c :: cs => c ++ cs.flatMap (s :: ·)

/-- What was put together with separators is taken apart into the same pieces. -/
theorem splitAt_separated {separates : Token → Bool} {s : Token} (hs : separates s = true)
    {chunks : List (List Token)} (hne : chunks ≠ [])
    (h : ∀ c ∈ chunks, ∀ t ∈ c, separates t = false) :
    Token.splitAt separates (separated s chunks) = chunks := by
  obtain ⟨c, cs, rfl⟩ := List.exists_cons_of_ne_nil hne
  clear hne
  rw [separated]
  induction cs generalizing c with
  | nil =>
    rw [List.flatMap_nil, List.append_nil]
    replace h := h c List.mem_cons_self
    induction c with
    | nil => rfl
    | cons t c ih =>
      rw [List.forall_mem_cons] at h
      simp [Token.splitAt, ih h.2, h.1]
  | cons d ds ih =>
    rw [List.forall_mem_cons] at h
    rw [List.flatMap_cons, List.cons_append, splitAt_append h.1 hs, ih d h.2]

/-- A row of chunks without comments has none. -/
theorem listWithoutComments_separated {s : Token}
    (hs : Token.listWithoutComments [s] = [s]) {chunks : List (List Token)}
    (h : ∀ c ∈ chunks, Token.listWithoutComments c = c) :
    Token.listWithoutComments (separated s chunks) = separated s chunks := by
  cases chunks with
  | nil => rfl
  | cons c cs =>
    rw [List.forall_mem_cons] at h
    rw [separated, listWithoutComments_append, h.1]
    congr 1
    replace h := h.2
    induction cs with
    | nil => rfl
    | cons d ds ih =>
      rw [List.forall_mem_cons] at h
      rw [List.flatMap_cons, listWithoutComments_append, ih h.2, ← List.singleton_append,
        listWithoutComments_append, hs, h.1]

theorem glue_eq_nil {t u : Token} (hclash : t.joint.clash u.joint = false)
    (hback : t.isLiteral ['\\'] = false) : t.glue u = [] := by
  simp [Token.glue, hclash, hback]

/-- Lists of tokens with nothing to put between them are written one after the other. -/
theorem listWritten_append {ts us : List Token} (h : ∀ t ∈ ts.getLast?, t.glueBefore us = []) :
    Token.listWritten (ts ++ us) = Token.listWritten ts ++ Token.listWritten us := by
  induction ts with
  | nil => rfl
  | cons t ts ih =>
    cases ts with
    | nil =>
      rw [List.singleton_append, Token.listWritten, h t rfl]
      simp [Token.listWritten, Token.glueBefore]
    | cons u ts =>
      have hcons : ∀ vs, Token.listWritten (t :: u :: vs) =
          t.written ++ t.glue u ++ Token.listWritten (u :: vs) := fun vs => by
        rw [Token.listWritten]
        rfl
      replace ih := ih fun v hv => h v (by simpa using hv)
      rw [List.cons_append] at ih ⊢
      rw [List.cons_append, hcons, ih, hcons, List.append_assoc (_ ++ _)]

/-! ## 3. Rows of words -/

/-- The space between two words, as a token. -/
def spaceToken : Token := .atom (.whitespace [' '])

/-- The tokens of words with spaces between them. -/
def rowTokens (ws : List String) : List Token :=
  separated spaceToken (ws.map fun w => Token.ofChars w.toList)

/-- Words with spaces between them. -/
def spaced (ws : List String) : String := " ".intercalate ws

theorem toList_spaced_cons (w : String) (ws : List String) :
    (spaced (w :: ws)).toList = w.toList ++ (ws.map String.toList).flatMap (' ' :: ·) :=
  toList_intercalate_cons " " w ws

theorem Legible.head {x : List Char} {ts : List Token} (h : Legible x ts) :
    ∃ c r, x = c :: r ∧ Text.isBlank c = false := by
  obtain ⟨c, r, rfl⟩ := List.exists_cons_of_ne_nil h.nonempty
  exact ⟨c, r, rfl, h.first c rfl⟩

/-- Scanning a space in front of a text that starts with none. -/
theorem scan_space {x cs : List Char} (h : ∃ c r, x = c :: r ∧ Text.isBlank c = false) :
    Lexeme.scan (' ' :: (x ++ cs)) = .atom (.whitespace [' ']) :: Lexeme.scan (x ++ cs) := by
  obtain ⟨c, r, rfl, hc⟩ := h
  have hstop : ∀ d ∈ (c :: (r ++ cs)).head?, Syntax.isWhitespace d = false := by
    rintro d ⟨⟩
    exact isWhitespace_of_not_isBlank hc
  exact scan_whitespace (List.cons_ne_nil ' ' []) (by simp [Syntax.isWhitespace]) hstop

/-- Legible words in a row are read, in front of a separator, as a row of them. -/
theorem scan_spaced {ws : List String} (h : ∀ w ∈ ws, IsWord w) {cs : List Char}
    (hs : Separates cs) : Lexeme.scan ((spaced ws).toList ++ cs) =
      Token.listFlat (rowTokens ws) ++ Lexeme.scan cs := by
  cases ws with
  | nil => rfl
  | cons w ws =>
    rw [List.forall_mem_cons] at h
    have hseparates : ∀ vs : List String,
        Separates ((vs.map String.toList).flatMap (' ' :: ·) ++ cs) := by
      rintro (_ | ⟨v, vs⟩)
      · exact hs
      · exact separates_cons rfl _
    have htail : Lexeme.scan ((ws.map String.toList).flatMap (' ' :: ·) ++ cs) =
        Token.listFlat ((ws.map fun v => Token.ofChars v.toList).flatMap (spaceToken :: ·)) ++
          Lexeme.scan cs := by
      replace h := h.2
      induction ws with
      | nil => rfl
      | cons v vs ih =>
        rw [List.forall_mem_cons] at h
        have hv := h.1
        simp only [List.map_cons, List.flatMap_cons, List.cons_append, List.append_assoc]
        rw [scan_space hv.head, hv.scan _ (hseparates vs), ih h.2, Token.listFlat,
          Token.listFlat_append]
        simp [spaceToken, Token.flat]
    rw [toList_spaced_cons, List.append_assoc,
      h.1.scan _ (hseparates ws), htail, rowTokens, List.map_cons, separated,
      Token.listFlat_append, List.append_assoc]

theorem unified_spaced {ws : List String} (h : ∀ w ∈ ws, IsWord w) :
    Unified (spaced ws).toList := by
  cases ws with
  | nil => exact unified_nil
  | cons w ws =>
    rw [List.forall_mem_cons] at h
    rw [toList_spaced_cons]
    refine unified_append.mpr ⟨h.1.unified, fun c hc => ?_⟩
    obtain ⟨x, hx, hc⟩ := List.mem_flatMap.mp hc
    obtain ⟨v, hv, rfl⟩ := List.mem_map.mp hx
    exact unified_cons.mpr ⟨by decide, (h.2 v hv).unified⟩ c hc

theorem commentless_rowTokens {ws : List String} (h : ∀ w ∈ ws, IsWord w) :
    Token.listWithoutComments (rowTokens ws) = rowTokens ws := by
  refine listWithoutComments_separated rfl fun c hc => ?_
  obtain ⟨w, hw, rfl⟩ := List.mem_map.mp hc
  exact (h w hw).commentless

/-- And one of faultless chunks has no fault. -/
theorem faultless_separated {s : Token} (hs : Token.listHasFault [s] = false)
    {chunks : List (List Token)} (h : ∀ c ∈ chunks, Token.listHasFault c = false) :
    Token.listHasFault (separated s chunks) = false := by
  cases chunks with
  | nil => rfl
  | cons c cs =>
    rw [List.forall_mem_cons] at h
    rw [separated, Token.listHasFault_append, h.1, Bool.false_or]
    replace h := h.2
    induction cs with
    | nil => rfl
    | cons d ds ih =>
      rw [List.forall_mem_cons] at h
      rw [List.flatMap_cons, Token.listHasFault_append, ih h.2, ← List.singleton_append,
        Token.listHasFault_append, hs, h.1]
      rfl

theorem faultless_rowTokens {ws : List String} (h : ∀ w ∈ ws, IsWord w) :
    Token.listHasFault (rowTokens ws) = false := by
  refine faultless_separated rfl fun c hc => ?_
  obtain ⟨w, hw, rfl⟩ := List.mem_map.mp hc
  exact (h w hw).faultless

theorem tokens_of_scan {x : String} {ts : List Token} (hu : Unified x.toList)
    (hscan : ∀ cs, Separates cs → Lexeme.scan (x.toList ++ cs) =
      Token.listFlat ts ++ Lexeme.scan cs) (hc : Token.listWithoutComments ts = ts) :
    tokens x = ts := by
  rw [tokens, ofChars_of_scan hu hscan, hc]

theorem tokens_spaced {ws : List String} (h : ∀ w ∈ ws, IsWord w) :
    tokens (spaced ws) = rowTokens ws :=
  tokens_of_scan (unified_spaced h) (fun _ hs => scan_spaced h hs) (commentless_rowTokens h)

theorem splitAt_rowTokens {ws : List String} (h : ∀ w ∈ ws, IsWord w) (hne : ws ≠ []) :
    Token.splitAt Token.isWhitespace (rowTokens ws) = ws.map fun w => Token.ofChars w.toList := by
  refine splitAt_separated rfl (by simpa using hne) fun c hc => ?_
  obtain ⟨w, hw, rfl⟩ := List.mem_map.mp hc
  exact fun t ht => not_isWhitespace ((h w hw).significant t ht)

/-- The words of legible words in a row are these words. -/
theorem words_spaced {ws : List String} (h : ∀ w ∈ ws, IsWord w) :
    words (spaced ws) = ws := by
  rw [words, pieces, tokens_spaced h]
  by_cases hne : ws = []
  · rw [hne]
    rfl
  · have hword : (ws.map fun w => Token.ofChars w.toList).map
        (fun piece => String.ofList (Text.trim (Token.listWritten piece))) = ws := by
      rw [List.map_map]
      refine (List.map_congr_left fun w hw => ?_).trans (List.map_id ws)
      have hl := (h w hw)
      rw [Function.comp_apply, hl.written, trim_eq_self hl.first hl.last, String.ofList_toList]
      rfl
    rw [splitAt_rowTokens h hne, hword, List.filter_eq_self]
    intro w hw
    have := (h w hw).nonempty
    simpa using this

/-- A row at the end of a row is one row. -/
theorem spaced_append (ws : List String) {vs : List String} (h : vs ≠ []) :
    spaced (ws ++ [spaced vs]) = spaced (ws ++ vs) := by
  have htext : ∀ {us : List String} {u : String}, (spaced (u :: us)).toList =
      u.toList ++ us.flatMap fun v => ' ' :: v.toList := by
    intro us u
    rw [toList_spaced_cons, List.flatMap_map]
  obtain ⟨v, vs, rfl⟩ := List.exists_cons_of_ne_nil h
  rw [← String.toList_inj]
  cases ws with
  | nil => rw [List.nil_append, spaced, String.intercalate_singleton]; rfl
  | cons w ws =>
    rw [List.cons_append, List.cons_append, htext, htext, List.flatMap_append, List.flatMap_append,
      List.flatMap_cons, List.flatMap_nil, htext, List.flatMap_cons]
    simp

/-! ## 4. Layers of rows -/

/-- The comma between two layers, as a token. -/
def commaToken : Token := .atom (.literal [','])

/-- Rows of words with commas between them. -/
def layered (rows : List (List String)) : String := ", ".intercalate (rows.map spaced)

/-- The tokens of the layers of rows: all but the first one start with a space. -/
def layerTokens : List (List String) → List (List Token)
  | [] => []
  | row :: rows => rowTokens row :: rows.map fun row => spaceToken :: rowTokens row

/-- A row that is a layer: one or more legible words, none with a comma of its own. -/
def IsLayer (row : List String) : Prop :=
  row ≠ [] ∧ ∀ w ∈ row, IsWord w ∧ isCommaless w = true

theorem IsLayer.legible {row : List String} (h : IsLayer row) : ∀ w ∈ row, IsWord w :=
  fun w hw => (h.2 w hw).1

theorem IsLayer.head {row : List String} (h : IsLayer row) :
    ∃ c r, (spaced row).toList = c :: r ∧ Text.isBlank c = false := by
  obtain ⟨w, ws, rfl⟩ := List.exists_cons_of_ne_nil h.1
  obtain ⟨c, r, hw, hc⟩ := (h.legible w List.mem_cons_self).head
  exact ⟨c, _, by rw [toList_spaced_cons, hw, List.cons_append], hc⟩

theorem scan_comma (cs : List Char) :
    Lexeme.scan (',' :: cs) = .atom (.literal [',']) :: Lexeme.scan cs := by
  have hstop : LiteralStopsAt ',' cs := by constructor <;> simp
  exact Lexeme.scan_written (l := .atom (.literal [',']))
    (.inr ⟨',', rfl, rfl, by decide⟩) rfl hstop

theorem toList_layered_cons (row : List String) (rows : List (List String)) :
    (layered (row :: rows)).toList =
      (spaced row).toList ++ (rows.map fun r => (spaced r).toList).flatMap (',' :: ' ' :: ·) := by
  rw [layered, List.map_cons, toList_intercalate_cons, List.map_map]
  rfl

/-- Layers are read, in front of a separator, as the tokens of layers. -/
theorem scan_layered {rows : List (List String)} (h : ∀ row ∈ rows, IsLayer row) {cs : List Char}
    (hs : Separates cs) : Lexeme.scan ((layered rows).toList ++ cs) =
      Token.listFlat (separated commaToken (layerTokens rows)) ++ Lexeme.scan cs := by
  cases rows with
  | nil => rfl
  | cons row rows =>
    rw [List.forall_mem_cons] at h
    have hseparates : ∀ rs : List (List String), Separates
        ((rs.map fun r => (spaced r).toList).flatMap (',' :: ' ' :: ·) ++ cs) := by
      rintro (_ | ⟨r, rs⟩)
      · exact hs
      · exact separates_cons rfl _
    have htail : Lexeme.scan
        ((rows.map fun r => (spaced r).toList).flatMap (',' :: ' ' :: ·) ++ cs) =
        Token.listFlat ((rows.map fun r => spaceToken :: rowTokens r).flatMap (commaToken :: ·)) ++
          Lexeme.scan cs := by
      replace h := h.2
      induction rows with
      | nil => rfl
      | cons r rs ih =>
        rw [List.forall_mem_cons] at h
        simp only [List.map_cons, List.flatMap_cons, List.cons_append, List.append_assoc]
        rw [scan_comma, scan_space h.1.head, scan_spaced h.1.legible (hseparates rs), ih h.2,
          Token.listFlat, Token.listFlat, Token.listFlat_append]
        simp [spaceToken, commaToken, Token.flat]
    rw [toList_layered_cons, List.append_assoc, scan_spaced h.1.legible (hseparates rows), htail,
      layerTokens, separated, Token.listFlat_append, List.append_assoc]

theorem unified_layered {rows : List (List String)} (h : ∀ row ∈ rows, IsLayer row) :
    Unified (layered rows).toList := by
  cases rows with
  | nil => exact unified_nil
  | cons row rows =>
    rw [List.forall_mem_cons] at h
    rw [toList_layered_cons]
    refine unified_append.mpr ⟨unified_spaced h.1.legible, fun c hc => ?_⟩
    obtain ⟨x, hx, hc⟩ := List.mem_flatMap.mp hc
    obtain ⟨r, hr, rfl⟩ := List.mem_map.mp hx
    have hr := unified_spaced (h.2 r hr).legible
    exact unified_cons.mpr ⟨by decide, unified_cons.mpr ⟨by decide, hr⟩⟩ c hc

theorem commentless_layerTokens {rows : List (List String)} (h : ∀ row ∈ rows, IsLayer row) :
    Token.listWithoutComments (separated commaToken (layerTokens rows)) =
      separated commaToken (layerTokens rows) := by
  refine listWithoutComments_separated rfl fun c hc => ?_
  cases rows with
  | nil => cases hc
  | cons row rows =>
    rw [List.forall_mem_cons] at h
    rcases List.mem_cons.mp hc with rfl | hc
    · exact commentless_rowTokens h.1.legible
    · obtain ⟨r, hr, rfl⟩ := List.mem_map.mp hc
      rw [Token.listWithoutComments, commentless_rowTokens (h.2 r hr).legible]
      rfl

/-- A space is written between tokens as it is, unless it would be escaped. -/
theorem listWritten_append_space {ts : List Token}
    (h : ∀ t ∈ ts.getLast?, t.isLiteral ['\\'] = false) (us : List Token) :
    Token.listWritten (ts ++ spaceToken :: us) =
      Token.listWritten ts ++ ' ' :: Token.listWritten us := by
  have hglue : ∀ vs, spaceToken.glueBefore vs = [] := by
    rintro (_ | ⟨v, vs⟩)
    · rfl
    · have hclash : spaceToken.joint.clash v.joint = false :=
        Joint.not_clash_left rfl (by simp [spaceToken, Token.joint, Atom.joint]) _
      exact glue_eq_nil hclash rfl
  have hlast : ∀ t ∈ ts.getLast?, t.glueBefore (spaceToken :: us) = [] :=
    fun t ht => glue_eq_nil (Joint.not_clash_other t.joint) (h t ht)
  rw [listWritten_append hlast, Token.listWritten, hglue]
  rfl

/-- A row is written as its words with spaces between them. -/
theorem listWritten_rowTokens {ws : List String} (h : ∀ w ∈ ws, IsWord w) :
    Token.listWritten (rowTokens ws) = (spaced ws).toList := by
  cases ws with
  | nil => rfl
  | cons w ws =>
    rw [rowTokens, List.map_cons, separated, toList_spaced_cons]
    induction ws generalizing w with
    | nil => simpa using (h w List.mem_cons_self).written
    | cons v vs ih =>
      rw [List.forall_mem_cons] at h
      have hw := h.1
      simp only [List.map_cons, List.flatMap_cons, List.cons_append] at ih ⊢
      rw [listWritten_append_space hw.backslash, ih v h.2, hw.written]

/-- A row of words neither starts nor ends in a blank, since no word does. -/
theorem IsLayer.trim {row : List String} (h : IsLayer row) :
    Text.trim (spaced row).toList = (spaced row).toList := by
  obtain ⟨c, r, hcons, hc⟩ := h.head
  refine trim_eq_self (fun d hd => ?_) fun d hd => ?_
  · rw [hcons] at hd
    exact Option.some.inj hd ▸ hc
  · -- the last character is that of the last word
    obtain ⟨w, ws, rfl⟩ := List.exists_cons_of_ne_nil h.1
    rw [toList_spaced_cons] at hd
    rcases List.eq_nil_or_concat ws with rfl | ⟨vs, v, rfl⟩
    · exact (h.legible w List.mem_cons_self).last d (by simpa using hd)
    · have hv := (h.legible v (by simp))
      refine hv.last d ?_
      obtain ⟨b, r, hb, -⟩ := hv.head
      rw [List.concat_eq_append, List.map_append, List.flatMap_append, List.map_singleton, hb] at hd
      rw [hb]
      simpa [List.getLast?_append, List.getLast?_cons] using hd

theorem trim_space (x : List Char) : Text.trim (' ' :: x) = Text.trim x := by
  rw [Text.trim, Text.trim, List.dropWhile_cons_of_pos (by decide)]

theorem mem_separated {s t : Token} {chunks : List (List Token)} (h : t ∈ separated s chunks) :
    t = s ∨ ∃ c ∈ chunks, t ∈ c := by
  cases chunks with
  | nil => cases h
  | cons c cs =>
    rw [separated, List.mem_append, List.mem_flatMap] at h
    rcases h with h | ⟨d, hd, h⟩
    · exact .inr ⟨c, List.mem_cons_self, h⟩
    · rcases List.mem_cons.mp h with rfl | h
      · exact .inl rfl
      · exact .inr ⟨d, List.mem_cons_of_mem c hd, h⟩

theorem exists_row_of_mem_layerTokens {rows : List (List String)} {c : List Token}
    (h : c ∈ layerTokens rows) :
    ∃ row ∈ rows, c = rowTokens row ∨ c = spaceToken :: rowTokens row := by
  cases rows with
  | nil => cases h
  | cons row rows =>
    rcases List.mem_cons.mp h with rfl | h
    · exact ⟨row, List.mem_cons_self, .inl rfl⟩
    · obtain ⟨r, hr, rfl⟩ := List.mem_map.mp h
      exact ⟨r, List.mem_cons_of_mem row hr, .inr rfl⟩

theorem tokens_layered {rows : List (List String)} (h : ∀ row ∈ rows, IsLayer row) :
    tokens (layered rows) = separated commaToken (layerTokens rows) :=
  tokens_of_scan (unified_layered h) (fun _ hs => scan_layered h hs) (commentless_layerTokens h)

/-- Layers have no commas of their own. -/
theorem commaless_layerTokens {rows : List (List String)} (h : ∀ row ∈ rows, IsLayer row) :
    ∀ c ∈ layerTokens rows, ∀ t ∈ c, t.isComma = false := by
  have hrow : ∀ row ∈ rows, ∀ t ∈ rowTokens row, t.isComma = false := by
    intro row hr t ht
    rcases mem_separated ht with rfl | ⟨c, hc, ht⟩
    · rfl
    · obtain ⟨w, hw, rfl⟩ := List.mem_map.mp hc
      simpa using List.all_eq_true.mp ((h row hr).2 w hw).2 t ht
  intro c hc
  obtain ⟨row, hr, rfl | rfl⟩ := exists_row_of_mem_layerTokens hc
  · exact hrow row hr
  · exact List.forall_mem_cons.mpr ⟨rfl, hrow row hr⟩

theorem splitAt_layerTokens {rows : List (List String)} (hne : rows ≠ [])
    (h : ∀ row ∈ rows, IsLayer row) :
    Token.splitAt Token.isComma (separated commaToken (layerTokens rows)) = layerTokens rows :=
  splitAt_separated rfl (by cases rows <;> simp_all [layerTokens]) (commaless_layerTokens h)

/-- The texts of the layers, without the space in front of them. -/
theorem map_layerTokens {rows : List (List String)} (h : ∀ row ∈ rows, IsLayer row) :
    (layerTokens rows).map (fun piece => String.ofList (Text.trim (Token.listWritten piece))) =
      rows.map spaced := by
  have htext : ∀ row ∈ rows, String.ofList
      (Text.trim (Token.listWritten (rowTokens row))) = spaced row := fun row hr => by
    rw [listWritten_rowTokens (h row hr).legible, (h row hr).trim, String.ofList_toList]
  have hspace : ∀ row, Token.listWritten (spaceToken :: rowTokens row) =
      ' ' :: Token.listWritten (rowTokens row) := fun row => by
    rw [← List.nil_append (spaceToken :: _), listWritten_append_space (by simp)]
    rfl
  cases rows with
  | nil => rfl
  | cons row rows =>
    rw [List.forall_mem_cons] at htext
    rw [layerTokens, List.map_cons, List.map_cons, htext.1, List.map_map]
    congr 1
    refine List.map_congr_left fun r hr => ?_
    rw [Function.comp_apply, hspace, trim_space, htext.2 r hr]

theorem not_isBlankText_layered {rows : List (List String)} (hne : rows ≠ [])
    (h : ∀ row ∈ rows, IsLayer row) : Text.isBlankText (layered rows) = false := by
  obtain ⟨row, rs, rfl⟩ := List.exists_cons_of_ne_nil hne
  obtain ⟨c, r, hcons, hc⟩ := (h row List.mem_cons_self).head
  rw [Text.isBlankText, toList_layered_cons, hcons, List.cons_append, List.all_cons, hc,
    Bool.false_and]

/-- The layers of rows are these rows. -/
theorem layers_layered {rows : List (List String)} (hne : rows ≠ [])
    (h : ∀ row ∈ rows, IsLayer row) : layers (layered rows) = rows.map spaced := by
  rw [layers, not_isBlankText_layered hne h, pieces, tokens_layered h, splitAt_layerTokens hne h,
    map_layerTokens h]
  rfl

/-! ## 5. Words around a slash -/

/-- A slash outside all brackets, as a token. -/
def slashToken : Token := .atom (.literal ['/'])

theorem scan_slash {cs : List Char} (h : cs.head? ≠ some '*') :
    Lexeme.scan ('/' :: cs) = .atom (.literal ['/']) :: Lexeme.scan cs := by
  have hstop : LiteralStopsAt '/' cs := by
    constructor <;> simp
    exact h
  exact Lexeme.scan_written (l := .atom (.literal ['/']))
    (.inr ⟨'/', rfl, rfl, by decide⟩) rfl hstop

/-- A literal that is written first starts the text. -/
theorem head?_listWritten_literal {t : Token} {ts : List Token} {c : Char} {text : List Char}
    (h : t.joint = .literal (c :: text)) : (Token.listWritten (t :: ts)).head? = some c := by
  cases t with
  | atom a =>
    cases a with
    | literal text' =>
      rw [Token.joint, Atom.joint, Joint.literal.injEq] at h
      subst h
      rfl
    | _ => simp [Token.joint, Atom.joint] at h
  | function name arguments => simp [Token.joint] at h
  | block b content => cases b <;> simp [Token.joint] at h

/-- Two texts with a slash between them are read as they are, unless the slash opens a comment. -/
theorem Legible.slash {x y : List Char} {ts us : List Token} (hx : Legible x ts) (hy : Legible y us)
    (hstar : y.head? ≠ some '*') : Legible (x ++ '/' :: y) (ts ++ slashToken :: us) := by
  have hne : us ≠ [] := by
    rintro rfl
    exact hy.nonempty hy.written.symm
  -- Of what can follow a slash, only a star clashes with it.
  have hslash : slashToken.glueBefore us = [] := by
    obtain ⟨u, us', rfl⟩ := List.exists_cons_of_ne_nil hne
    refine glue_eq_nil (Bool.eq_false_iff.mpr fun hclash => hstar ?_) rfl
    have hjoint : u.joint = .literal ['*'] := by
      simpa [slashToken, Token.joint, Atom.joint, Joint.clash, Joint.endsInName] using hclash
    rw [← hy.written]
    exact head?_listWritten_literal hjoint
  -- And nothing clashes with a slash behind it.
  have hlast : ∀ t ∈ ts.getLast?, t.glueBefore (slashToken :: us) = [] := by
    refine fun t ht => glue_eq_nil (Bool.eq_false_iff.mpr fun hclash => ?_) (hx.backslash t ht)
    revert hclash
    simp [slashToken, Token.joint, Atom.joint, Joint.clash, Joint.startsWithName,
      Joint.startsWithNumber]
  refine ⟨unified_append.mpr ⟨hx.unified, unified_cons.mpr ⟨by decide, hy.unified⟩⟩, ?_, ?_, ?_, ?_,
    ?_, ?_, by simp, ?_, ?_⟩
  · intro cs hs
    have hstar' : (y ++ cs).head? ≠ some '*' := by
      obtain ⟨c, r, rfl⟩ := List.exists_cons_of_ne_nil hy.nonempty
      exact hstar
    rw [List.append_assoc, List.cons_append, hx.scan _ (separates_cons rfl _), scan_slash hstar',
      hy.scan cs hs, Token.listFlat_append, Token.listFlat, List.append_assoc]
    simp [slashToken, Token.flat]
  · rw [listWritten_append hlast, Token.listWritten, hslash, hx.written, hy.written]
    rfl
  · rw [Token.listHasFault_append, hx.faultless, Token.listHasFault, hy.faultless]
    rfl
  · rw [listWithoutComments_append, hx.commentless, Token.listWithoutComments, hy.commentless]
    rfl
  · rw [List.forall_mem_append, List.forall_mem_cons]
    exact ⟨hx.significant, rfl, hy.significant⟩
  · intro t ht
    refine hy.backslash t ?_
    obtain ⟨u, us', rfl⟩ := List.exists_cons_of_ne_nil hne
    simpa [List.getLast?_append, List.getLast?_cons] using ht
  · obtain ⟨c, r, rfl⟩ := List.exists_cons_of_ne_nil hx.nonempty
    exact hx.first
  · intro c hc
    refine hy.last c ?_
    obtain ⟨d, r, rfl⟩ := List.exists_cons_of_ne_nil hy.nonempty
    simpa [List.getLast?_append, List.getLast?_cons] using hc

/-- Two words with a slash between them are a word, unless the slash opens a comment. -/
theorem IsWord.slash {v w : String} (hv : IsWord v) (hw : IsWord w)
    (hstar : w.toList.head? ≠ some '*') : IsWord (v ++ "/" ++ w) := by
  have h : Legible (v ++ "/" ++ w).toList
      (Token.ofChars v.toList ++ slashToken :: Token.ofChars w.toList) := by
    simpa using Legible.slash hv hw hstar
  exact h.isWord

end CssExpand.Value
