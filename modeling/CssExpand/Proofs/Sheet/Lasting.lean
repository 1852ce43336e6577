import CssExpand.Proofs.Sheet.Shape
import CssExpand.Proofs.Sheet.Significant
import CssExpand.Sheet.Layout

/-!
# Stylesheets that are written and read again

A node lasts (`Node.Lasts`) if each of its texts is read as tokens that make the same text again. The
layout of a sheet of such nodes, whatever its indentation, is read as the same sheet
(`parse_write`).

The parts of a layout are texts that end where they end, whatever comes after them (`Scans`): a
semicolon, a brace or the end of a comment closes each of them. Only whitespace runs together, so the
text of a node is taken together with the whitespace in front of it (`Adds`).
-/

set_option autoImplicit false

namespace CssExpand

open Syntax

/-! ## 1. Texts that end where they end -/

/-- A text that is read as these tokens whatever comes after it. It is the strongest of the contracts
of a text: blanks, blocks and whole lines are of this kind. -/
structure Scans (x : List Char) (ts : List Token) : Prop where
  unified : Unified x
  scan : ∀ cs, Lexeme.scan (x ++ cs) = Token.listFlat ts ++ Lexeme.scan cs
  short : ∀ l ∈ Token.listFlat ts, l.overlong? = none

theorem scans_nil : Scans [] [] := ⟨unified_nil, fun _ => rfl, by simp [Token.listFlat]⟩

theorem Scans.append {x y : List Char} {ts us : List Token} (h : Scans x ts) (h' : Scans y us) :
    Scans (x ++ y) (ts ++ us) where
  unified := unified_append.mpr ⟨h.unified, h'.unified⟩
  scan cs := by
    rw [List.append_assoc, h.scan, h'.scan, Token.listFlat_append, List.append_assoc]
  short := by
    rw [Token.listFlat_append]
    exact List.forall_mem_append.mpr ⟨h.short, h'.short⟩

/-- The tokens of whitespace that may be empty. -/
def blank (w : List Char) : List Token := if w.isEmpty then [] else [.atom (.whitespace w)]

/-- What is true of every whitespace token is true of those of a text that may be empty. -/
theorem forall_blank {p : Token → Prop} (h : ∀ v, p (.atom (.whitespace v))) (w : List Char) :
    ∀ t ∈ blank w, p t := by
  intro t ht
  cases w with
  | nil => cases ht
  | cons c w => exact List.mem_singleton.mp ht ▸ h _

/-- Whitespace. -/
def IsBlank (w : List Char) : Prop := ∀ c ∈ w, isWhitespace c

theorem IsBlank.append {v w : List Char} (h : IsBlank v) (h' : IsBlank w) : IsBlank (v ++ w) :=
  List.forall_mem_append.mpr ⟨h, h'⟩

theorem IsBlank.unified {w : List Char} (h : IsBlank w) : Unified w := by
  intro c hc
  have := h c hc
  refine ⟨?_, ?_, ?_⟩ <;> rintro rfl <;> exact absurd this (by decide)

theorem scan_blank {w cs : List Char} (hw : IsBlank w) (h : ∀ c ∈ cs.head?, isWhitespace c = false) :
    Lexeme.scan (w ++ cs) = Token.listFlat (blank w) ++ Lexeme.scan cs := by
  cases w with
  | nil => rfl
  | cons c w => exact scan_whitespace (by simp) hw h

theorem scan_onlyBlank {w : List Char} (hw : IsBlank w) :
    Lexeme.scan w = Token.listFlat (blank w) := by
  have hend : Lexeme.scan (w ++ []) = Token.listFlat (blank w) ++ Lexeme.scan [] :=
    scan_blank hw (by simp)
  simpa using hend

theorem short_blank (w : List Char) : ∀ l ∈ Token.listFlat (blank w), l.overlong? = none := by
  intro l hl
  cases w with
  | nil => cases hl
  | cons c w =>
    rw [List.mem_singleton.mp hl]
    rfl

/-- Whitespace in front of a text that starts with none. -/
theorem Scans.after_blank {w x : List Char} {ts : List Token} (hw : IsBlank w) (h : Scans x ts)
    (hx : ∃ c r, x = c :: r ∧ isWhitespace c = false) : Scans (w ++ x) (blank w ++ ts) where
  unified := unified_append.mpr ⟨hw.unified, h.unified⟩
  scan cs := by
    obtain ⟨c, r, rfl, hc⟩ := hx
    have hhead : ∀ d ∈ (c :: r ++ cs).head?, isWhitespace d = false := by
      rintro d ⟨⟩
      exact hc
    rw [List.append_assoc, scan_blank hw hhead, h.scan, Token.listFlat_append, List.append_assoc]
  short := by
    rw [Token.listFlat_append]
    exact List.forall_mem_append.mpr ⟨short_blank w, h.short⟩

/-! ## 2. Texts that add a node -/

section Readers

/- The two readers of a `{}` block, and that of a sheet. -/
variable {read : List Token → Except Unfinished (List Node)}

/-- A text that adds a node to what is read after it, with any whitespace in front. -/
def Adds (read : List Token → Except Unfinished (List Node)) (x : List Char) (n : Node) : Prop :=
  ∀ w, IsBlank w → ∃ ts, Scans (w ++ x) ts ∧
    ∀ rest ns, read rest = .ok ns → read (ts ++ rest) = .ok (n :: ns)

theorem scans_all {xs : List (List Char)} {nodes : List Node} (h : List.Forall₂ (Adds read) xs nodes)
    {w : List Char} (hw : IsBlank w) : ∃ ts, Scans (xs.flatMap (w ++ ·)) ts ∧
      ∀ rest ns, read rest = .ok ns → read (ts ++ rest) = .ok (nodes ++ ns) := by
  induction h with
  | nil => exact ⟨[], scans_nil, fun _ _ h => h⟩
  | cons hx _ ih =>
    obtain ⟨ts, hts, hread⟩ := hx w hw
    obtain ⟨us, hus, hreads⟩ := ih
    refine ⟨ts ++ us, hts.append hus, fun rest ns hr => ?_⟩
    rw [List.append_assoc]
    exact hread _ _ (hreads _ _ hr)

/-- The text of a block after its header. -/
def blockChars (pad : List Char) (lines : List (List Char)) : List Char :=
  if lines.isEmpty then ['\x7b', '\x7d']
  else '\x7b' :: lines.flatMap ('\n' :: ·) ++ '\n' :: pad ++ ['\x7d']

theorem toList_intercalate_cons (sep text : String) (texts : List String) :
    (sep.intercalate (text :: texts)).toList =
      text.toList ++ (texts.map String.toList).flatMap (sep.toList ++ ·) := by
  rw [String.toList_intercalate]
  induction texts generalizing text with
  | nil => simp [List.intercalate]
  | cons t ts ih =>
    have := ih t
    simp only [List.map_cons, List.intercalate, List.intersperse, List.flatten_cons,
      List.flatMap_cons, List.append_assoc] at this ⊢
    rw [this]

theorem toList_blockText (pad header : String) (lines : List String) :
    (blockText pad header lines).toList =
      pad.toList ++ (header.toList ++ ' ' :: blockChars pad.toList (lines.map String.toList)) := by
  unfold blockText blockChars
  cases lines with
  | nil => simp
  | cons line lines =>
    rw [if_neg (by simp), if_neg (by simp), List.cons_append, toList_intercalate_cons]
    simp

theorem scan_opening (cs : List Char) :
    Lexeme.scan ('\x7b' :: cs) = .openBlock .curly :: Lexeme.scan cs :=
  Lexeme.scan_written (l := .openBlock .curly) trivial rfl trivial

theorem scan_closing (cs : List Char) :
    Lexeme.scan ('\x7d' :: cs) = .close .curly :: Lexeme.scan cs :=
  Lexeme.scan_written (l := .close .curly) trivial rfl trivial

/-- A text between braces, with whitespace at its end. -/
theorem Scans.block {x w : List Char} {ts : List Token} (h : Scans x ts) (hw : IsBlank w) :
    Scans ('\x7b' :: (x ++ w) ++ ['\x7d']) [.block .curly (ts ++ blank w)] where
  unified := unified_append.mpr ⟨unified_cons.mpr ⟨by decide,
    unified_append.mpr ⟨h.unified, hw.unified⟩⟩, by decide⟩
  scan cs := by
    have hhead : ∀ c ∈ ('\x7d' :: cs).head?, isWhitespace c = false := by
      rintro c ⟨⟩
      decide
    rw [List.cons_append, List.cons_append, scan_opening, List.append_assoc, List.append_assoc,
      h.scan, List.singleton_append, scan_blank hw hhead, scan_closing]
    simp [Token.listFlat, Token.flat, Token.listFlat_append]
  short := by
    intro l hl
    have hl : l = .openBlock .curly ∨ (l ∈ Token.listFlat ts ∨ l ∈ Token.listFlat (blank w)) ∨
        l = .close .curly := by
      simpa [Token.listFlat, Token.flat, Token.listFlat_append, or_assoc] using hl
    rcases hl with rfl | (hl | hl) | rfl
    · rfl
    · exact h.short l hl
    · exact short_blank w l hl
    · rfl

/-- The block of a node, with what is in it. -/
theorem scans_block {pad w : List Char} (hpad : IsBlank pad) (hw : IsBlank w)
    (hblank : ∀ v, read (blank v) = .ok []) {xs : List (List Char)} {nodes : List Node}
    (h : List.Forall₂ (Adds read) xs nodes) :
    ∃ content, Scans (blockChars pad (xs.map (w ++ ·))) [.block .curly content] ∧
      read content = .ok nodes := by
  have hbreak : ∀ v, IsBlank v → IsBlank ('\n' :: v) := fun v hv =>
    List.forall_mem_cons.mpr ⟨rfl, hv⟩
  obtain ⟨ts, hts, hread⟩ := scans_all h (hbreak w hw)
  have hnodes : ∀ v, read (ts ++ blank v) = .ok nodes := fun v => by
    simpa using hread (blank v) [] (hblank v)
  cases xs with
  | nil =>
    have hnil : IsBlank [] := by simp [IsBlank]
    exact ⟨ts ++ blank [], hts.block hnil, hnodes []⟩
  | cons x xs =>
    refine ⟨ts ++ blank ('\n' :: pad), ?_, hnodes _⟩
    have hchars : blockChars pad ((x :: xs).map (w ++ ·)) =
        '\x7b' :: ((x :: xs).flatMap (('\n' :: w) ++ ·) ++ '\n' :: pad) ++ ['\x7d'] := by
      simp [blockChars, List.flatMap_map]
    rw [hchars]
    exact hts.block (hbreak pad hpad)

end Readers

/-! ## 3. Bodies -/

/-- A text that stands in front of a semicolon and is read as a node of a body. The semicolon is part
of the contract, since a name or a number may go on in front of anything else. -/
structure Line (x : List Char) (n : Node) (ts : List Token) : Prop where
  unified : Unified x
  start : ∃ c r, x = c :: r ∧ isWhitespace c = false
  scan : ∀ cs, Lexeme.scan (x ++ ';' :: cs) = Token.listFlat ts ++ Lexeme.scan (';' :: cs)
  short : ∀ l ∈ Token.listFlat ts, l.overlong? = none
  semicolon : ∀ t ∈ ts, t.isSemicolon = false
  reads : readChunk ts = [n]

/-- A text that may stand in a comment. -/
def IsCommentText (text : String) : Prop := ¬['*', '/'] <:+: text.toList ∧ Unified text.toList

/-- A node of a body that is written and read again. -/
inductive Node.LastsInBody : Node → Prop
  | line {n : Node} {x : List Char} {ts : List Token} (written : n.written.toList = x ++ [';'])
    (line : Line x n ts) : LastsInBody n
  | comment {text : String} (h : IsCommentText text) : LastsInBody (.comment text)

/-- The reader of bodies, which never fails. -/
def readsBody (ts : List Token) : Except Unfinished (List Node) := .ok (readBody ts)

theorem readsBody_blank (w : List Char) : readsBody (blank w) = .ok [] := by
  cases w <;> rfl

theorem readBody_blank (w : List Char) (ts : List Token) :
    readBody (blank w ++ ts) = readBody ts := by
  cases w with
  | nil => rfl
  | cons c w => exact readBody_whitespace (c :: w) ts

theorem scan_semicolon (cs : List Char) :
    Lexeme.scan (';' :: cs) = .atom (.literal [';']) :: Lexeme.scan cs := by
  have hstop : LiteralStopsAt ';' cs := by constructor <;> simp
  exact Lexeme.scan_written (l := .atom (.literal [';']))
    (.inr ⟨';', rfl, rfl, by decide⟩) rfl hstop

/-- A text with the semicolon after it. -/
theorem scans_semicolon {x : List Char} {ts : List Token} (hu : Unified x)
    (hs : ∀ cs, Lexeme.scan (x ++ ';' :: cs) = Token.listFlat ts ++ Lexeme.scan (';' :: cs))
    (hi : ∀ l ∈ Token.listFlat ts, l.overlong? = none) :
    Scans (x ++ [';']) (ts ++ [.atom (.literal [';'])]) where
  unified := unified_append.mpr ⟨hu, by decide⟩
  scan cs := by
    rw [List.append_assoc, List.singleton_append, hs, scan_semicolon, Token.listFlat_append]
    simp [Token.listFlat, Token.flat]
  short := by
    rw [Token.listFlat_append]
    refine List.forall_mem_append.mpr ⟨hi, fun l hl => ?_⟩
    rw [List.mem_singleton.mp hl]
    rfl

theorem scans_comment {text : String} (h : IsCommentText text) :
    Scans (['/', '*'] ++ text.toList ++ ['*', '/']) [.atom (.comment text.toList)] where
  unified := by
    refine unified_append.mpr ⟨unified_append.mpr ⟨?_, h.2⟩, ?_⟩ <;> decide
  scan cs := scan_comment h.1 cs
  short l hl := by
    rw [List.mem_singleton.mp hl]
    rfl

/-- A line adds its node because the piece up to the semicolon is read as that node alone, and a
comment because it is read as a token of its own. -/
theorem Node.LastsInBody.adds {n : Node} (h : n.LastsInBody) :
    Adds readsBody n.written.toList n := by
  intro w hw
  cases h with
  | line written line =>
    rename_i x ts
    obtain ⟨c, r, rfl, hc⟩ := line.start
    have hscans := scans_semicolon line.unified line.scan line.short
    rw [written]
    refine ⟨_, hscans.after_blank hw ⟨c, r ++ [';'], rfl, hc⟩, fun rest ns hr => ?_⟩
    cases hr
    have hread : readBody (blank w ++ (ts ++ [.atom (.literal [';'])]) ++ rest) =
        readChunk ts ++ readBody rest := by
      rw [List.append_assoc, readBody_blank, List.append_assoc, List.singleton_append,
        readBody_chunk line.semicolon]
    rw [readsBody, hread, line.reads]
    rfl
  | comment h =>
    rename_i text
    have hwritten : (Node.comment text).written.toList = ['/', '*'] ++ text.toList ++ ['*', '/'] := by
      simp [Node.written]
    rw [hwritten]
    refine ⟨_, (scans_comment h).after_blank hw ⟨'/', _, rfl, rfl⟩, fun rest ns hr => ?_⟩
    cases hr
    rw [readsBody, List.append_assoc, readBody_blank, List.singleton_append, readBody_comment,
      String.ofList_toList]

/-! ## 4. Reading rules -/

/-- The reader of the content of a block. -/
def readerOf (asRules : Bool) : List Token → Except Unfinished (List Node) :=
  if asRules then readRules false .nothing else readsBody

theorem readBlock_eq_ok {asRules : Bool} {content : List Token} {nodes : List Node} :
    readBlock asRules (.block .curly content) = .ok nodes ↔ readerOf asRules content = .ok nodes := by
  unfold readBlock readerOf
  cases asRules with
  | true =>
    simp only [if_true]
    refine ⟨of_mapError, fun h => ?_⟩
    rw [h]
    rfl
  | false => rfl

theorem map_mapError_eq_ok {α β ε δ : Type} {f : ε → δ} {g : α → β} {x : Except ε α} {b : β} :
    (x.mapError f).map g = .ok b ↔ ∃ a, x = .ok a ∧ b = g a := by
  cases x with
  | error e => exact iff_of_false (fun h => by cases h) (fun ⟨_, h, _⟩ => by cases h)
  | ok a =>
    constructor
    · intro h
      cases h
      exact ⟨a, rfl, rfl⟩
    · rintro ⟨_, h, rfl⟩
      cases h
      rfl

theorem readRules_cons_plain {top : Bool} {p : Pending} {t : Token} {ts : List Token}
    {ns : List Node} (hc : isCurlyBlock t = false) : readRules top p (t :: ts) = .ok ns ↔
      ∃ rest, readRules top (p.take top t).2 ts = .ok rest ∧ ns = (p.take top t).1 ++ rest := by
  rw [readRules, if_neg (by simp [hc])]
  exact map_mapError_eq_ok

/-- A block in curly brackets closes what is pending, and what it holds decides whether it is read at
all: it is the only place where the reader of rules can fail. -/
theorem readRules_cons_block {top : Bool} {p : Pending} {content ts : List Token}
    {ns : List Node} : readRules top p (.block .curly content :: ts) = .ok ns ↔
      ∃ nodes rest, readerOf p.wantsRules content = .ok nodes ∧
        readRules top .nothing ts = .ok rest ∧ ns = p.close nodes :: rest := by
  have hcurly : isCurlyBlock (.block .curly content) = true := rfl
  simp only [← readBlock_eq_ok]
  rw [readRules, if_pos hcurly]
  cases hb : readBlock p.wantsRules (.block .curly content) with
  | error e => exact iff_of_false (fun h => by cases h) (fun ⟨_, _, h, _⟩ => by cases h)
  | ok nodes =>
    refine map_mapError_eq_ok.trans ⟨fun ⟨rest, h, heq⟩ => ⟨nodes, rest, rfl, h, heq⟩, ?_⟩
    rintro ⟨nodes', rest, h, h', heq⟩
    cases h
    exact ⟨rest, h', heq⟩

theorem exists_of_isCurlyBlock {t : Token} (h : isCurlyBlock t = true) :
    ∃ content, t = .block .curly content := by
  unfold isCurlyBlock at h
  split at h
  · exact ⟨_, rfl⟩
  · cases h

theorem isCurlyBlock_blank (w : List Char) : ∀ t ∈ blank w, isCurlyBlock t = false :=
  forall_blank (fun _ => rfl) w

/-- A selector is read up to its block. -/
theorem readRules_selector {top : Bool} {selector ts rest : List Token} {ns : List Node}
    (hc : ∀ t ∈ ts, isCurlyBlock t = false) :
    readRules top (.rule selector) (ts ++ rest) = .ok ns ↔
      readRules top (.rule (ts.reverse ++ selector)) rest = .ok ns := by
  induction ts generalizing selector with
  | nil => rfl
  | cons t ts ih =>
    rw [List.forall_mem_cons] at hc
    rw [List.cons_append, readRules_cons_plain hc.1, List.reverse_cons, List.append_assoc,
      List.singleton_append, ← ih hc.2]
    exact ⟨fun ⟨_, h, heq⟩ => heq ▸ h, fun h => ⟨ns, h, rfl⟩⟩

/-- A prelude is read up to its block or semicolon. -/
theorem readRules_prelude {top : Bool} {name : String} {prelude ts rest : List Token}
    {ns : List Node} (hc : ∀ t ∈ ts, isCurlyBlock t = false)
    (hs : ∀ t ∈ ts, t.isSemicolon = false) :
    readRules top (.atRule name prelude) (ts ++ rest) = .ok ns ↔
      readRules top (.atRule name (ts.reverse ++ prelude)) rest = .ok ns := by
  induction ts generalizing prelude with
  | nil => rfl
  | cons t ts ih =>
    rw [List.forall_mem_cons] at hc hs
    have htake : Pending.take top (.atRule name prelude) t = ([], .atRule name (t :: prelude)) := by
      simp [Pending.take, hs.1]
    rw [List.cons_append, readRules_cons_plain hc.1, htake, List.reverse_cons, List.append_assoc,
      List.singleton_append, ← ih hc.2 hs.2]
    exact ⟨fun ⟨_, h, heq⟩ => heq ▸ h, fun h => ⟨ns, h, rfl⟩⟩

theorem readRules_blank {top : Bool} {w : List Char} {rest : List Token} {ns : List Node} :
    readRules top .nothing (blank w ++ rest) = .ok ns ↔ readRules top .nothing rest = .ok ns := by
  cases w with
  | nil => rfl
  | cons c w =>
    exact (readRules_cons_plain rfl).trans
      ⟨fun ⟨_, h, heq⟩ => heq ▸ h, fun h => ⟨ns, h, rfl⟩⟩

/-! ## 5. Headers -/

/-- Whitespace around tokens is no part of their text. -/
theorem trim_blank {ts : List Token} (hfirst : ∀ t ∈ ts.head?, t.isWhitespace = false)
    (hlast : ∀ t ∈ ts.getLast?, t.isWhitespace = false) (v w : List Char) :
    Token.trim (blank v ++ ts ++ blank w) = ts := by
  have hdrop : ∀ (u : List Char) (us : List Token), (∀ t ∈ us.head?, t.isWhitespace = false) →
      (blank u ++ us).dropWhile Token.isWhitespace = us := by
    intro u us hus
    exact dropWhile_stop (forall_blank (fun _ => rfl) u) hus
  have hreverse : (blank w).reverse = blank w := by cases w <;> rfl
  unfold Token.trim
  cases ts with
  | nil =>
    have hall : (blank v ++ [] ++ blank w).dropWhile Token.isWhitespace = [] := by
      rw [List.dropWhile_eq_nil_iff]
      cases v <;> cases w <;> simp [blank, Token.isWhitespace]
    rw [hall]
    rfl
  | cons t ts =>
    have hhead : ∀ u ∈ (t :: ts ++ blank w).head?, u.isWhitespace = false := hfirst
    rw [List.append_assoc, hdrop v _ hhead, List.reverse_append, hreverse,
      hdrop w _ (by rw [List.head?_reverse]; exact hlast), List.reverse_reverse]

/-- The text of a selector or prelude, with the tokens that it is read as. It may stand in front of a
separator only, which is what a layout puts behind it. -/
structure Phrase (x : List Char) (ts : List Token) : Prop where
  unified : Unified x
  start : ∀ c ∈ x.head?, isWhitespace c = false
  scan : ∀ cs, Separates cs → Lexeme.scan (x ++ cs) = Token.listFlat ts ++ Lexeme.scan cs
  short : ∀ l ∈ Token.listFlat ts, l.overlong? = none
  written : Token.listWritten ts = x
  first : ∀ t ∈ ts.head?, t.isWhitespace = false
  last : ∀ t ∈ ts.getLast?, t.isWhitespace = false
  block : ∀ t ∈ ts, isCurlyBlock t = false

namespace Phrase

variable {x : List Char} {ts : List Token}

theorem eq_nil_iff (h : Phrase x ts) : x = [] ↔ ts = [] := by
  constructor
  · rintro rfl
    have := h.scan [] (by simp [Separates])
    cases ts with
    | nil => rfl
    | cons t ts =>
      obtain ⟨l, ls, heq, -⟩ := t.head?_flat
      simp [Token.listFlat, heq, Lexeme.scan_nil] at this
  · rintro rfl
    exact h.written.symm

theorem trimmedText_blank (h : Phrase x ts) (v w : List Char) :
    trimmedText (blank v ++ ts ++ blank w) = String.ofList x := by
  rw [trimmedText, trim_blank h.first h.last, Token.write, h.written]

end Phrase

theorem separates_blank {cs : List Char} : Separates (' ' :: cs) := separates_cons rfl cs

/-- A selector with the block after it. -/
theorem adds_rule {top : Bool} {x y : List Char} {ts content : List Token} {nodes : List Node}
    (h : Phrase x ts) (hstart : ∀ t ∈ ts.head?, Pending.take top .nothing t = ([], .rule [t]))
    (hy : Scans ('\x7b' :: y) [.block .curly content]) (hread : readerOf false content = .ok nodes) :
    Adds (readRules top .nothing) (x ++ ' ' :: '\x7b' :: y) (.rule (String.ofList x) nodes) := by
  intro w hw
  have hspace : IsBlank [' '] := by simp [IsBlank, isWhitespace]
  have hblock := hy.after_blank hspace ⟨'\x7b', y, rfl, rfl⟩
  cases ts with
  | nil =>
    obtain rfl := h.eq_nil_iff.mpr rfl
    -- Without a selector the block comes behind blanks alone.
    have hscans := hy.after_blank (hw.append hspace) ⟨'\x7b', y, rfl, rfl⟩
    refine ⟨blank (w ++ [' ']) ++ [.block .curly content], by simpa using hscans, ?_⟩
    intro rest ns hr
    rw [List.append_assoc]
    exact readRules_blank.mpr (readRules_cons_block.mpr ⟨nodes, ns, hread, hr, rfl⟩)
  | cons t ts =>
    have hne : ∃ c r, x = c :: r ∧ isWhitespace c = false := by
      cases x with
      | nil => exact absurd (h.eq_nil_iff.mp rfl) (by simp)
      | cons c r => exact ⟨c, r, rfl, h.start c rfl⟩
    have hscans : Scans (x ++ ' ' :: '\x7b' :: y)
        (t :: ts ++ (blank [' '] ++ [.block .curly content])) := by
      refine ⟨unified_append.mpr ⟨h.unified, hblock.unified⟩, fun cs => ?_, ?_⟩
      · have := hblock.scan cs
        rw [List.append_assoc, List.cons_append, h.scan _ separates_blank, Token.listFlat_append,
          List.append_assoc]
        exact congrArg _ this
      · rw [Token.listFlat_append]
        exact List.forall_mem_append.mpr ⟨h.short, hblock.short⟩
    refine ⟨_, hscans.after_blank hw ?_, fun rest ns hr => ?_⟩
    · obtain ⟨c, r, rfl, hc⟩ := hne
      exact ⟨c, _, rfl, hc⟩
    · have hcurly := h.block
      rw [List.forall_mem_cons] at hcurly
      rw [List.append_assoc, List.append_assoc]
      refine readRules_blank.mpr ((readRules_cons_plain hcurly.1).mpr
        ⟨.rule (String.ofList x) nodes :: ns, ?_, ?_⟩)
      · rw [hstart t rfl]
        refine (readRules_selector hcurly.2).mpr ?_
        rw [List.append_assoc]
        refine (readRules_selector (isCurlyBlock_blank _)).mpr ?_
        refine readRules_cons_block.mpr ⟨nodes, ns, hread, hr, ?_⟩
        have := h.trimmedText_blank [] [' ']
        rw [Pending.close]
        simp only [List.reverse_append, List.reverse_reverse, List.reverse_cons, List.append_assoc]
        simp only [blank] at this ⊢
        simpa using this.symm
      · rw [hstart t rfl]
        rfl

/-- A name of an at-rule that is written as itself. -/
structure AtName (name : List Char) : Prop where
  unified : Unified name
  ne_nil : name ≠ []
  written : identWritten name = name
  lower : Text.asciiLower name = name

/-- The tokens between the name of an at-rule and what ends it. -/
def preludeTokens (ts : List Token) : List Token := if ts.isEmpty then [] else blank [' '] ++ ts

/-- The text of an at-rule up to what ends it. -/
def headerChars (name x : List Char) : List Char :=
  '@' :: name ++ if x.isEmpty then [] else ' ' :: x

section Headers

variable {name x : List Char} {ts : List Token}

theorem unified_headerChars (hn : AtName name) (h : Phrase x ts) : Unified (headerChars name x) := by
  refine unified_append.mpr ⟨unified_cons.mpr ⟨by decide, hn.unified⟩, ?_⟩
  split
  · exact unified_nil
  · exact unified_cons.mpr ⟨by decide, h.unified⟩

/-- The head of an at-rule. Without a prelude there is no blank behind the name, so it is what stands
behind the head that ends the name. -/
theorem scan_headerChars (hn : AtName name) (h : Phrase x ts) {cs : List Char} (hs : Separates cs) :
    Lexeme.scan (headerChars name x ++ cs) =
      Token.listFlat (.atom (.atKeyword name) :: preludeTokens ts) ++ Lexeme.scan cs := by
  have hat : ∀ ds, startsName ds = false →
      Lexeme.scan ('@' :: name ++ ds) = .atom (.atKeyword name) :: Lexeme.scan ds := by
    intro ds hds
    have := scan_atKeyword hn.ne_nil hds
    rwa [hn.written] at this
  unfold headerChars preludeTokens
  cases x with
  | nil =>
    obtain rfl := h.eq_nil_iff.mp rfl
    have := hat cs hs.startsName
    simpa [Token.listFlat, Token.flat] using this
  | cons c r =>
    cases ts with
    | nil => exact absurd (h.eq_nil_iff.mpr rfl) (by simp)
    | cons t ts =>
      have hspace : IsBlank [' '] := by simp [IsBlank, isWhitespace]
      have hhead : ∀ d ∈ (c :: r ++ cs).head?, isWhitespace d = false := by
        rintro d ⟨⟩
        exact h.start c rfl
      have hblank := scan_blank hspace hhead
      have hname : startsName ([' '] ++ (c :: r ++ cs)) = false := by
        simp [startsName, startsEscape, isNameChar, isNameStart]
      have := hat _ hname
      rw [hblank, h.scan cs hs] at this
      simpa [Token.listFlat, Token.flat, Token.listFlat_append] using this

theorem short_preludeTokens (h : Phrase x ts) :
    ∀ l ∈ Token.listFlat (.atom (.atKeyword name) :: preludeTokens ts), l.overlong? = none := by
  rw [Token.listFlat, Token.flat, List.singleton_append, List.forall_mem_cons]
  refine ⟨rfl, ?_⟩
  unfold preludeTokens
  split
  · simp [Token.listFlat]
  · rw [Token.listFlat_append]
    exact List.forall_mem_append.mpr ⟨short_blank _, h.short⟩

theorem forall_preludeTokens {p : Token → Bool} (hb : ∀ w, p (.atom (.whitespace w)) = false)
    (h : ∀ t ∈ ts, p t = false) : ∀ t ∈ preludeTokens ts, p t = false := by
  unfold preludeTokens
  split
  · simp
  · exact List.forall_mem_append.mpr ⟨by simpa [blank] using hb _, h⟩

theorem trimmedText_prelude (h : Phrase x ts) (w : List Char) :
    trimmedText (preludeTokens ts ++ blank w) = String.ofList x := by
  unfold preludeTokens
  cases ts with
  | nil => exact h.trimmedText_blank [] w
  | cons t ts => exact h.trimmedText_blank [' '] w

/-- After its name, an at-rule is read up to what ends it. -/
theorem readRules_header {top : Bool} (hn : AtName name) (h : Phrase x ts)
    (hs : ∀ t ∈ ts, t.isSemicolon = false) {w : List Char} {rest : List Token} {ns : List Node}
    (hr : readRules top (.atRule (String.ofList name) (blank w ++ (preludeTokens ts).reverse)) rest =
      .ok ns) :
    readRules top .nothing (.atom (.atKeyword name) :: preludeTokens ts ++ (blank w ++ rest)) =
      .ok ns := by
  have hwhite : ∀ v, isCurlyBlock (.atom (.whitespace v)) = false := fun _ => rfl
  have hsemi : ∀ v, Token.isSemicolon (.atom (.whitespace v)) = false := fun _ => rfl
  have hblank : ∀ t ∈ blank w, t.isSemicolon = false := forall_blank (fun _ => rfl) w
  have hreverse : (blank w).reverse = blank w := by cases w <;> rfl
  refine (readRules_cons_plain rfl).mpr ⟨ns, ?_, rfl⟩
  have htake : (Pending.take top .nothing (.atom (.atKeyword name))).2 =
      .atRule (String.ofList name) [] := by
    rw [Pending.take, hn.lower]
  rw [htake]
  refine (readRules_prelude (forall_preludeTokens hwhite h.block)
    (forall_preludeTokens hsemi hs)).mpr ?_
  refine (readRules_prelude (isCurlyBlock_blank w) hblank).mpr ?_
  rwa [hreverse, List.append_nil]

/-- An at-rule without a block, which ends at its semicolon. -/
theorem adds_statement {top : Bool} (hn : AtName name) (h : Phrase x ts)
    (hs : ∀ t ∈ ts, t.isSemicolon = false) :
    Adds (readRules top .nothing) (headerChars name x ++ [';'])
      (.atStatement (String.ofList name) (String.ofList x) false) := by
  intro w hw
  have hscans := scans_semicolon (unified_headerChars hn h)
    (fun cs => scan_headerChars hn h (separates_cons rfl cs)) (short_preludeTokens h)
  refine ⟨_, hscans.after_blank hw ⟨'@', _, rfl, rfl⟩, fun rest ns hr => ?_⟩
  rw [List.append_assoc, List.append_assoc]
  refine readRules_blank.mpr ?_
  have hnil : ∀ us : List Token, us = blank [] ++ us := fun _ => rfl
  rw [hnil ([Token.atom (.literal [';'])] ++ rest)]
  refine readRules_header hn h hs ((readRules_cons_plain rfl).mpr ⟨ns, hr, ?_⟩)
  have hsemi : (Token.atom (.literal [';'])).isSemicolon = true := rfl
  have hreverse : (blank [] ++ (preludeTokens ts).reverse).reverse = preludeTokens ts ++ blank [] := by
    simp [blank]
  rw [Pending.take, if_pos hsemi, Pending.statement, hreverse, trimmedText_prelude h]
  rfl

/-- An at-rule with a block. By which reader the block is read depends on the name alone, and the
writer lays it out for the same one. -/
theorem adds_block {top : Bool} {y : List Char} {content : List Token} {nodes : List Node}
    (hn : AtName name) (h : Phrase x ts) (hs : ∀ t ∈ ts, t.isSemicolon = false)
    (hy : Scans ('\x7b' :: y) [.block .curly content])
    (hread : readerOf (holdsRules (String.ofList name)) content = .ok nodes) :
    Adds (readRules top .nothing) (headerChars name x ++ ' ' :: '\x7b' :: y)
      (.atBlock (String.ofList name) (String.ofList x) (holdsRules (String.ofList name)) nodes) := by
  intro w hw
  have hspace : IsBlank [' '] := by simp [IsBlank, isWhitespace]
  have hblock := hy.after_blank hspace ⟨'\x7b', y, rfl, rfl⟩
  have hscans : Scans (headerChars name x ++ ' ' :: '\x7b' :: y)
      (.atom (.atKeyword name) :: preludeTokens ts ++ (blank [' '] ++ [.block .curly content])) := by
    refine ⟨unified_append.mpr ⟨unified_headerChars hn h, hblock.unified⟩, fun cs => ?_, ?_⟩
    · have := hblock.scan cs
      rw [List.append_assoc, List.cons_append, scan_headerChars hn h separates_blank,
        Token.listFlat_append, List.append_assoc]
      exact congrArg _ this
    · rw [Token.listFlat_append]
      exact List.forall_mem_append.mpr ⟨short_preludeTokens h, hblock.short⟩
  refine ⟨_, hscans.after_blank hw ⟨'@', _, rfl, rfl⟩, fun rest ns hr => ?_⟩
  rw [List.append_assoc, List.append_assoc, List.append_assoc]
  refine readRules_blank.mpr (readRules_header hn h hs (readRules_cons_block.mpr
    ⟨nodes, ns, hread, hr, ?_⟩))
  have hreverse : (blank [' '] ++ (preludeTokens ts).reverse).reverse =
      preludeTokens ts ++ blank [' '] := by simp [blank]
  rw [Pending.close, hreverse, trimmedText_prelude h]

end Headers

/-! ## 6. Layouts -/

/-- A node of a list of rules that is written and read again, in the list of the sheet if `top`. The
conditions are those of each text in the node by itself; that they are enough is shown along the
layout. -/
inductive Node.Lasts : Bool → Node → Prop
  | comment {top : Bool} {text : String} (h : IsCommentText text) : Lasts top (.comment text)
  | rule {top : Bool} {selector : String} {ts : List Token} {nodes : List Node}
    (phrase : Phrase selector.toList ts)
    (start : ∀ t ∈ ts.head?, Pending.take top .nothing t = ([], .rule [t]))
    (body : ∀ n ∈ nodes, n.LastsInBody) : Lasts top (.rule selector nodes)
  | atStatement {top : Bool} {name prelude : String} {ts : List Token} (hn : AtName name.toList)
    (phrase : Phrase prelude.toList ts) (semicolon : ∀ t ∈ ts, t.isSemicolon = false) :
    Lasts top (.atStatement name prelude false)
  | atRules {top : Bool} {name prelude : String} {ts : List Token} {nodes : List Node}
    (hn : AtName name.toList) (phrase : Phrase prelude.toList ts)
    (semicolon : ∀ t ∈ ts, t.isSemicolon = false) (holds : holdsRules name = true)
    (rules : ∀ n ∈ nodes, Lasts false n) : Lasts top (.atBlock name prelude true nodes)
  | atBody {top : Bool} {name prelude : String} {ts : List Token} {nodes : List Node}
    (hn : AtName name.toList) (phrase : Phrase prelude.toList ts)
    (semicolon : ∀ t ∈ ts, t.isSemicolon = false) (holds : holdsRules name = false)
    (body : ∀ n ∈ nodes, n.LastsInBody) : Lasts top (.atBlock name prelude false nodes)

/-- The layout of a node after `pad` adds the node. -/
def LaidOut (top : Bool) (indent pad : String) (n : Node) : Prop :=
  ∃ text x, n.layout indent pad = .ok text ∧ text.toList = pad.toList ++ x ∧
    Adds (readRules top .nothing) x n

/-- The nodes of a list are laid out one by one, each with the same padding. -/
theorem layoutAll_eq_ok {top : Bool} {indent pad : String} {nodes : List Node}
    (h : ∀ n ∈ nodes, LaidOut top indent pad n) :
    ∃ texts xs, layoutAll indent pad nodes = .ok texts ∧
      texts.map String.toList = xs.map (pad.toList ++ ·) ∧
      List.Forall₂ (Adds (readRules top .nothing)) xs nodes := by
  induction nodes with
  | nil => exact ⟨[], [], rfl, rfl, .nil⟩
  | cons n nodes ih =>
    rw [List.forall_mem_cons] at h
    obtain ⟨text, x, hlayout, htext, hadds⟩ := h.1
    obtain ⟨texts, xs, hall, htexts, hadd⟩ := ih h.2
    refine ⟨text :: texts, x :: xs, ?_, by simp [htext, htexts], .cons hadds hadd⟩
    rw [layoutAll, hlayout, hall]
    rfl

theorem blockChars_cons (pad : List Char) (lines : List (List Char)) :
    ∃ y, blockChars pad lines = '\x7b' :: y := by
  unfold blockChars
  split <;> exact ⟨_, rfl⟩

theorem readRules_onlyBlank (top : Bool) (w : List Char) :
    readRules top .nothing (blank w) = .ok [] := by
  have hnil : readRules top .nothing [] = .ok [] := by
    rw [readRules]
    rfl
  have := (readRules_blank (w := w)).mpr hnil
  rwa [List.append_nil] at this

theorem toList_atHeader (name prelude : String) :
    (atHeader name prelude).toList = headerChars name.toList prelude.toList := by
  unfold atHeader headerChars
  have hempty : prelude.isEmpty = prelude.toList.isEmpty := by
    rw [Bool.eq_iff_iff, String.isEmpty_iff, List.isEmpty_iff, String.toList_eq_nil_iff]
  rw [hempty]
  split <;> simp

theorem scans_body {indent pad : String} (hi : IsBlank indent.toList) (hp : IsBlank pad.toList)
    {nodes : List Node} (body : ∀ n ∈ nodes, n.LastsInBody) :
    ∃ content, Scans (blockChars pad.toList
        ((nodes.map fun n => pad ++ indent ++ n.written).map String.toList))
        [.block .curly content] ∧ readerOf false content = .ok nodes := by
  have hadds : List.Forall₂ (Adds readsBody) (nodes.map fun n => n.written.toList) nodes := by
    rw [List.forall₂_map_left_iff, List.forall₂_same]
    exact fun n hn => (body n hn).adds
  obtain ⟨content, hscans, hread⟩ := scans_block hp (hp.append hi) readsBody_blank hadds
  refine ⟨content, ?_, hread⟩
  simpa [Function.comp_def] using hscans

/-- What lasts is laid out, after any whitespace and with any indentation. -/
theorem Node.Lasts.laidOut {top : Bool} {n : Node} (h : n.Lasts top) {indent : String}
    (hi : IsBlank indent.toList) {pad : String} (hp : IsBlank pad.toList) :
    LaidOut top indent pad n := by
  induction h generalizing pad with
  | @comment top text h =>
    refine ⟨_, ['/', '*'] ++ text.toList ++ ['*', '/'], rfl, by simp, fun w hw => ?_⟩
    refine ⟨_, (scans_comment h).after_blank hw ⟨'/', _, rfl, rfl⟩, fun rest ns hr => ?_⟩
    rw [List.append_assoc]
    refine readRules_blank.mpr ((readRules_cons_plain rfl).mpr ⟨ns, hr, ?_⟩)
    simp [Pending.take]
  | @rule top selector ts nodes phrase start body =>
    obtain ⟨content, hscans, hread⟩ := scans_body hi hp body
    obtain ⟨y, hy⟩ := blockChars_cons pad.toList
      ((nodes.map fun n => pad ++ indent ++ n.written).map String.toList)
    rw [hy] at hscans
    have hadds := adds_rule phrase start hscans hread
    rw [String.ofList_toList] at hadds
    exact ⟨_, _, rfl, by rw [toList_blockText, hy], hadds⟩
  | @atStatement top name prelude ts hn phrase semicolon =>
    have hadds : Adds (readRules top .nothing) _ _ := adds_statement hn phrase semicolon
    rw [String.ofList_toList, String.ofList_toList] at hadds
    exact ⟨_, _, rfl, by simp [toList_atHeader], hadds⟩
  -- The nodes inside are laid out one step further in, and by induction each adds itself there.
  | @atRules top name prelude ts nodes hn phrase semicolon holds rules ih =>
    have hpad : IsBlank (pad ++ indent).toList := by
      rw [String.toList_append]
      exact hp.append hi
    obtain ⟨texts, xs, hall, htexts, hadd⟩ := layoutAll_eq_ok fun n hn => ih n hn hpad
    obtain ⟨content, hscans, hread⟩ := scans_block hp hpad (readRules_onlyBlank false) hadd
    obtain ⟨y, hy⟩ := blockChars_cons pad.toList (texts.map String.toList)
    rw [← htexts, hy] at hscans
    have hreader : readerOf (holdsRules (String.ofList name.toList)) content = .ok nodes := by
      rw [String.ofList_toList, holds]
      exact hread
    have hadds : Adds (readRules top .nothing) _ _ := adds_block hn phrase semicolon hscans hreader
    rw [String.ofList_toList, String.ofList_toList, holds] at hadds
    refine ⟨blockText pad (atHeader name prelude) texts, _, ?_, ?_, hadds⟩
    · rw [Node.layout, hall]
      rfl
    · rw [toList_blockText, toList_atHeader, hy]
  | @atBody top name prelude ts nodes hn phrase semicolon holds body =>
    obtain ⟨content, hscans, hread⟩ := scans_body hi hp body
    obtain ⟨y, hy⟩ := blockChars_cons pad.toList
      ((nodes.map fun n => pad ++ indent ++ n.written).map String.toList)
    rw [hy] at hscans
    have hreader : readerOf (holdsRules (String.ofList name.toList)) content = .ok nodes := by
      rw [String.ofList_toList, holds]
      exact hread
    have hadds : Adds (readRules top .nothing) _ _ := adds_block hn phrase semicolon hscans hreader
    rw [String.ofList_toList, String.ofList_toList, holds] at hadds
    exact ⟨_, _, rfl, by rw [toList_blockText, toList_atHeader, hy], hadds⟩

/-- A text that ends in whitespace is parsed as what its tokens are read as. -/
theorem parse_eq_ok {text : String} {x w : List Char} {ts : List Token} {sheet : Sheet}
    (htext : text.toList = x ++ w) (h : Scans x ts) (hw : IsBlank w)
    (hr : readRules true .nothing (ts ++ blank w) = .ok sheet) : Sheet.parse text = .ok sheet := by
  have hunify : unifyBreaks text.toList = text.toList := by
    rw [htext]
    exact unifyBreaks_eq (unified_append.mpr ⟨h.unified, hw.unified⟩)
  have hscan : Lexeme.scan (unifyBreaks text.toList) = Token.listFlat (ts ++ blank w) := by
    rw [hunify, htext, h.scan, Token.listFlat_append, scan_onlyBlank hw]
  have hshort : checkIntegers text = .ok () := by
    rw [Token.checkIntegers_eq_ok, hscan, Token.listFlat_append]
    exact List.forall_mem_append.mpr ⟨h.short, short_blank w⟩
  rw [Sheet.parse, hshort, Sheet.ofChars, Token.ofChars, hscan, Token.nest_listFlat_eq, hr]
  rfl

/-- A sheet of nodes that last is written, and read again as it is. -/
theorem parse_write {sheet : Sheet} (h : ∀ n ∈ sheet, n.Lasts true) {indent : String}
    (hi : IsBlank indent.toList) :
    ∃ text, sheet.write indent = .ok text ∧ Sheet.parse text = .ok sheet := by
  have hnil : IsBlank [] := by simp [IsBlank]
  have hlaid : ∀ n ∈ sheet, LaidOut true indent "" n := fun n hn => (h n hn).laidOut hi hnil
  obtain ⟨texts, xs, hall, htexts, hadd⟩ := layoutAll_eq_ok hlaid
  have hwrite : sheet.write indent =
      .ok (if texts.isEmpty then "" else "\n\n".intercalate texts ++ "\n") := by
    rw [Sheet.write, hall]
    rfl
  refine ⟨_, hwrite, ?_⟩
  simp only [String.toList_empty, List.nil_append, List.map_id'] at htexts
  cases hadd with
  | nil =>
    obtain rfl : texts = [] := by simpa using htexts
    exact parse_eq_ok (x := []) (w := []) rfl scans_nil hnil (readRules_onlyBlank true [])
  | cons hx hxs =>
    rename_i x n xs nodes
    obtain ⟨text, texts, rfl, rfl, hrest⟩ := List.map_eq_cons_iff.mp htexts
    have hbreak : IsBlank ['\n', '\n'] := by simp [IsBlank, isWhitespace]
    have hend : IsBlank ['\n'] := by simp [IsBlank, isWhitespace]
    obtain ⟨ts, hts, hread⟩ := hx [] hnil
    obtain ⟨us, hus, hreads⟩ := scans_all hxs hbreak
    refine parse_eq_ok (w := ['\n']) ?_ (hts.append hus) hend ?_
    · rw [if_neg (by simp), String.toList_append, toList_intercalate_cons, hrest]
      rfl
    · rw [List.append_assoc]
      exact hread _ _ (by simpa using hreads _ _ (readRules_onlyBlank true ['\n']))

end CssExpand
