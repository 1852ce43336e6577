import CssExpand.Proofs.Syntax.Numeral
import CssExpand.Syntax.Lexeme
import CssExpand.Syntax.Written
import Mathlib.Data.List.Induction

/-!
# Reading written strings, urls, comments and ranges

What has a close of its own is read as itself whatever follows the close. For a url this has a
condition, and it is the one place where the writer's escapes do not suffice: a control character
that was escaped in the source is written bare, and a bare one breaks a url (`breaksWritten`). A
range of characters has no close; it is read as itself before a text that no digit, question mark or
second number begins (`RangeStopsAt`).
-/

set_option autoImplicit false

namespace CssExpand.Syntax

/-! ## 1. Strings -/

/-- Every character of a string is written so that it is read as itself: quotes, backslashes and line
breaks by an escape, and all others as they are. -/
theorem takeString_stringCharWritten (c : Char) (cs : List Char) :
    takeString '"' (stringCharWritten c ++ cs) = (takeString '"' cs).push c := by
  unfold stringCharWritten
  split
  · rename_i h
    have hhex : isHexDigit c = false ∧ c ≠ '\n' := by
      simp only [Bool.or_eq_true, decide_eq_true_eq] at h
      rcases h with rfl | rfl <;> decide
    rw [List.cons_append, List.singleton_append, takeString.eq_def]
    simp [hhex.2, takeEscape_plain hhex.1]
  · rename_i h
    simp only [Bool.or_eq_true, decide_eq_true_eq, not_or] at h
    cases hb : breakEscape c with
    | some e =>
      obtain ⟨d, hd, -, he⟩ := eq_backslash_of_breakEscape hb
      obtain ⟨t, ht, htake⟩ := takeEscape_break hb cs
      have hn : d ≠ '\n' := by
        rintro rfl
        exact absurd hd (by decide)
      subst he
      simp only [List.cons.injEq, true_and] at ht
      subst ht
      simp only [List.cons_append, List.nil_append] at htake
      rw [Option.getD_some, List.cons_append, takeString.eq_def]
      simp [hn, htake]
    | none =>
      rw [Option.getD_none, List.singleton_append, takeString.eq_def]
      simp [h.1, h.2, (ne_break_of_breakEscape hb).1]

/-- A written string is read up to its closing quote. -/
theorem takeString_written (value cs : List Char) :
    takeString '"' (value.flatMap stringCharWritten ++ '"' :: cs) = ⟨value, .closed, cs⟩ := by
  induction value with
  | nil =>
    rw [List.flatMap_nil, List.nil_append, takeString.eq_def]
    simp
  | cons c value ih =>
    rw [List.flatMap_cons, List.append_assoc, takeString_stringCharWritten, ih]
    rfl

/-! ## 2. Urls -/

/-- Whether a character that is written in a url breaks it: a control character, other than those
that are written as codes. -/
def breaksWritten (c : Char) : Bool :=
  let n := c.toNat
  n ≤ 0x08 || n == 0x0B || (0x0E ≤ n && n ≤ 0x1F) || n == 0x7F

theorem breaksUrl_eq (c : Char) :
    breaksUrl c = (c == '"' || c == '\'' || c == '(' || breaksWritten c) := by
  simp [breaksUrl, breaksWritten, Bool.or_assoc]

/-- One character of a written url, and that no whitespace starts it. -/
theorem takeUrl_urlCharWritten {c : Char} (h : breaksWritten c = false) (cs : List Char) :
    takeUrl (urlCharWritten c ++ cs) = (takeUrl cs).push c ∧
      ∃ d ds, urlCharWritten c = d :: ds ∧ isWhitespace d = false ∧ d ≠ '"' ∧ d ≠ '\'' := by
  -- an address reads an escape as a name does, a broken line apart
  have hescape : ∀ ds, ds.head? ≠ some '\n' → takeUrl ('\\' :: ds) =
      (takeUrl (takeEscape ds).2).push (takeEscape ds).1 := by
    intro ds hds
    rw [takeUrl]
    simp [isWhitespace, hds]
  unfold urlCharWritten
  split
  · rename_i hc
    have hhex : isHexDigit c = false ∧ c ≠ '\n' := by
      simp only [Bool.or_eq_true, decide_eq_true_eq] at hc
      rcases hc with ((((rfl | rfl) | rfl) | rfl) | rfl) | rfl <;> decide
    refine ⟨?_, '\\', [c], rfl, by decide, by decide, by decide⟩
    rw [List.cons_append, List.singleton_append, hescape _ (by simpa using hhex.2),
      takeEscape_plain hhex.1]
  · rename_i hc
    split
    · rename_i ht
      subst ht
      refine ⟨?_, '\\', ['9', ' '], rfl, by decide, by decide, by decide⟩
      -- the blank behind the code belongs to the escape, so the address is not ended by it
      have : takeEscape (['9'] ++ ' ' :: cs) = _ := takeEscape_code (List.all_eq_true.mp rfl) (by simp) (by simp)
      rw [List.cons_append, hescape _ (by simp)]
      rw [List.cons_append, List.singleton_append]
      rw [List.singleton_append] at this
      rw [this]
      rfl
    · rename_i ht
      cases hb : breakEscape c with
      | some e =>
        obtain ⟨d, hd, -, he⟩ := eq_backslash_of_breakEscape hb
        obtain ⟨t, ht, htake⟩ := takeEscape_break hb cs
        have hn : d ≠ '\n' := by
          rintro rfl
          exact absurd hd (by decide)
        subst he
        simp only [List.cons.injEq, true_and] at ht
        subst ht
        refine ⟨?_, '\\', [d, ' '], rfl, by decide, by decide, by decide⟩
        simp only [List.cons_append, List.nil_append] at htake
        rw [Option.getD_some, List.cons_append, hescape _ (by simpa using hn)]
        simp only [List.cons_append, List.nil_append, htake]
      | none =>
        have hn := (ne_break_of_breakEscape hb).1
        simp only [Bool.or_eq_true, decide_eq_true_eq, not_or] at hc
        have hw : isWhitespace c = false := by simp [isWhitespace, hc, hn, ht]
        have hbreak : breaksUrl c = false := by simp [breaksUrl_eq, hc, h]
        have hesc : startsEscape (c :: cs) = false := by
          unfold startsEscape
          split <;> simp_all
        refine ⟨?_, c, [], rfl, hw, by simp [hc], by simp [hc]⟩
        rw [Option.getD_none, List.singleton_append, takeUrl]
        simp [hc, hw, hbreak, hesc]

/-- A written url is read up to its closing bracket. -/
theorem takeUrl_written {value : List Char} (h : ∀ c ∈ value, breaksWritten c = false)
    (cs : List Char) :
    takeUrl (value.flatMap urlCharWritten ++ ')' :: cs) = ⟨value, .closed, cs⟩ := by
  induction value with
  | nil =>
    rw [List.flatMap_nil, List.nil_append, takeUrl]
    simp
  | cons c value ih =>
    rw [List.flatMap_cons, List.append_assoc,
      (takeUrl_urlCharWritten (h c List.mem_cons_self) _).1,
      ih fun d hd => h d (List.mem_cons_of_mem _ hd)]
    rfl

/-- The first character of what is written between the brackets of a url. -/
theorem head_urlWritten {value : List Char} (h : ∀ c ∈ value, breaksWritten c = false)
    (cs : List Char) :
    ∃ d ds, value.flatMap urlCharWritten ++ ')' :: cs = d :: ds ∧ isWhitespace d = false ∧
      d ≠ '"' ∧ d ≠ '\'' := by
  cases value with
  | nil => exact ⟨')', cs, rfl, by decide, by decide, by decide⟩
  | cons c value =>
    obtain ⟨-, d, ds, heq, hd⟩ := takeUrl_urlCharWritten (h c List.mem_cons_self) cs
    exact ⟨d, ds ++ (value.flatMap urlCharWritten ++ ')' :: cs), by simp [heq], hd⟩

/-! ## 3. Comments -/

/-- A comment without a close inside is read up to its close. -/
theorem takeComment_written {text : List Char} (h : ¬['*', '/'] <:+: text) (cs : List Char) :
    takeComment (text ++ '*' :: '/' :: cs) = (text, cs) := by
  induction text with
  | nil => rfl
  | cons c text ih =>
    have hrest : ¬['*', '/'] <:+: text := fun hi => h (hi.trans (List.suffix_cons c text).isInfix)
    have hstep : ∀ rest, ¬(c = '*' ∧ rest.head? = some '/') →
        takeComment (c :: rest) = (c :: (takeComment rest).1, (takeComment rest).2) := by
      intro rest hne
      rw [takeComment]
      rintro r rfl ⟨rfl⟩
      exact hne ⟨rfl, rfl⟩
    rw [List.cons_append, hstep, ih hrest]
    rintro ⟨rfl, hd⟩
    cases text with
    | nil => simp at hd
    | cons d text =>
      simp only [List.cons_append, List.head?_cons, Option.some.injEq] at hd
      subst hd
      exact h ⟨[], text, rfl⟩

/-- The text that is read of a comment holds no close. -/
theorem not_infix_takeComment (cs : List Char) : ¬['*', '/'] <:+: (takeComment cs).1 := by
  fun_induction takeComment cs with
  | case1 => simp
  | case2 rest => simp
  | case3 c rest hne ih =>
    intro hi
    rcases List.infix_cons_iff.mp hi with hp | hi
    · obtain ⟨t, ht⟩ := hp
      simp only [List.cons_append, List.nil_append, List.cons.injEq] at ht
      obtain ⟨rfl, ht⟩ := ht
      -- The slash behind the star would have closed the comment.
      cases rest with
      | nil => simp [takeComment] at ht
      | cons d r =>
        have hd : d ≠ '/' := fun hd => hne r rfl (by rw [hd])
        rw [takeComment.eq_def] at ht
        split at ht
        · simp at ht
        · simp at ht
        · rename_i heq
          simp only [List.cons.injEq] at heq ht
          exact hd (heq.1.trans ht.1.symm)
    · exact ih hi

/-! ## 4. Ranges -/

theorem isHexDigit_digitChar_toUpper : ∀ n < 16,
    isHexDigit (Nat.digitChar n).toUpper ∧ hexDigitValue (Nat.digitChar n).toUpper = n := by
  decide

theorem hexValue_append (as : List Char) (c : Char) :
    hexValue (as ++ [c]) = 16 * hexValue as + hexDigitValue c := by
  simp [hexValue]

/-- The hexadecimal digits of a number write it. -/
theorem hexDigits_spec (n : Nat) :
    (∀ d ∈ hexDigits n, isHexDigit d) ∧ hexValue (hexDigits n) = n := by
  induction n using Nat.strongRecOn with
  | ind n ih =>
    unfold hexDigits at ih ⊢
    by_cases h : n < 16
    · have := isHexDigit_digitChar_toUpper n h
      rw [Nat.toDigits_of_lt_base h]
      simp [this.1, hexValue, this.2]
    · have hm := isHexDigit_digitChar_toUpper (n % 16) (Nat.mod_lt _ (by decide))
      obtain ⟨h1, h2⟩ := ih (n / 16) (by omega)
      rw [Nat.toDigits_of_base_le (by decide) (by omega), List.map_append, List.map_singleton]
      refine ⟨?_, ?_⟩
      · intro d hd
        rcases List.mem_append.mp hd with hd | hd
        · exact h1 d hd
        · rw [List.mem_singleton.mp hd]
          exact hm.1
      · rw [hexValue_append, h2, hm.2]
        omega

theorem length_hexDigits {n : Nat} (h : n < Nat.pow 16 6) :
    (hexDigits n).length ≤ 6 ∧ hexDigits n ≠ [] := by
  unfold hexDigits
  rw [List.length_map]
  exact ⟨(Nat.length_toDigits_le_iff (by decide) (by decide)).mpr h, by simp⟩

/-- Texts that do not prolong a range of characters. -/
structure RangeStopsAt (cs : List Char) : Prop where
  digit : ∀ c ∈ cs.head?, isHexDigit c = false
  mark : cs.head? ≠ some '?'
  last : ∀ c rest, cs = '-' :: c :: rest → isHexDigit c = false

theorem takeWhile_take_stop {p : Char → Bool} {ds cs : List Char} {k : Nat}
    (hd : ∀ d ∈ ds, p d) (hc : ∀ c ∈ cs.head?, p c = false) (hk : ds.length ≤ k) :
    ((ds ++ cs).take k).takeWhile p = ds := by
  rw [List.take_append, List.take_of_length_le hk]
  refine takeWhile_stop hd fun c hc' => hc c ?_
  cases cs with
  | nil => simp at hc'
  | cons e rest =>
    cases hj : k - ds.length with
    | zero => simp [hj] at hc'
    | succ j => simpa [hj] using hc'

/-- A written range is read as itself before a text that does not prolong it. -/
theorem takeRange_written {first last : Nat} {cs : List Char} (hf : first < Nat.pow 16 6)
    (hl : last < Nat.pow 16 6) (h : RangeStopsAt cs) :
    takeRange (hexDigits first ++ (if first = last then [] else '-' :: hexDigits last) ++ cs) =
      ((first, last), cs) := by
  obtain ⟨hfd, hfv⟩ := hexDigits_spec first
  obtain ⟨hld, hlv⟩ := hexDigits_spec last
  rw [List.append_assoc]
  generalize htail : (if first = last then [] else '-' :: hexDigits last) ++ cs = tail
  -- the first bound ends where it was written: at a hyphen or at what follows the range
  have htail' : (∀ c ∈ tail.head?, isHexDigit c = false) ∧ tail.head? ≠ some '?' := by
    rw [← htail]
    split
    · exact ⟨h.digit, h.mark⟩
    · refine ⟨?_, by simp⟩
      rintro c ⟨⟩
      decide
  have hdigits : ((hexDigits first ++ tail).take 6).takeWhile isHexDigit = hexDigits first :=
    takeWhile_take_stop hfd htail'.1 (length_hexDigits hf).1
  have hmarks : ((tail.take (6 - (hexDigits first).length)).takeWhile (· == '?')).isEmpty = true := by
    have hmark : ∀ c ∈ tail.head?, (c == '?') = false := by
      intro c hc
      simp only [Option.mem_def] at hc
      rw [hc] at htail'
      simpa using htail'.2
    have : (([] ++ tail).take (6 - (hexDigits first).length)).takeWhile (· == '?') = [] :=
      takeWhile_take_stop (by simp) hmark (by simp)
    simpa using this
  simp only [takeRange, hdigits, List.drop_left, hmarks, Bool.not_true, Bool.false_eq_true,
    if_false, hfv]
  by_cases heq : first = last
  · rw [if_pos heq, List.nil_append] at htail
    subst htail heq
    split
    · rename_i rest
      have : ((rest.take 6).takeWhile isHexDigit).isEmpty = true := by
        cases rest with
        | nil => simp
        | cons c r => simp [h.last c r rfl]
      simp [this]
    · rfl
  · rw [if_neg heq, List.cons_append] at htail
    subst htail
    have : ((hexDigits last ++ cs).take 6).takeWhile isHexDigit = hexDigits last :=
      takeWhile_take_stop hld h.digit (length_hexDigits hl).1
    have hne : (hexDigits last).isEmpty = false := by simpa using (length_hexDigits hl).2
    simp only [this, hne, Bool.false_eq_true, if_false, hlv, List.drop_left]

/-- Each of the three runs of digits has its own offset, so each is a case. -/
theorem hexDigitValue_lt {c : Char} (h : isHexDigit c) : hexDigitValue c < 16 := by
  simp only [isHexDigit, Bool.or_eq_true, Bool.and_eq_true, decide_eq_true_eq] at h
  unfold hexDigitValue
  have h0 : ('0' : Char).toNat = 48 := rfl
  have ha : ('a' : Char).toNat = 97 := rfl
  have hA : ('A' : Char).toNat = 65 := rfl
  split
  · rename_i hd
    simp only [Char.isDigit, Bool.and_eq_true, decide_eq_true_eq] at hd
    have h9 : c.toNat ≤ 57 := hd.2
    omega
  · rename_i hd
    rcases h with (h | ⟨h1, h2⟩) | ⟨h1, h2⟩
    · exact absurd h hd
    · have : c.toNat ≤ 102 := h2
      rw [if_pos h1]
      omega
    · have h70 : c.toNat ≤ 70 := h2
      rw [if_neg]
      · omega
      · intro h3
        have : 97 ≤ c.toNat := h3
        omega

theorem hexValue_lt {ds : List Char} (h : ∀ d ∈ ds, isHexDigit d) :
    hexValue ds < Nat.pow 16 ds.length := by
  rw [Nat.pow_eq]
  induction ds using List.reverseRec with
  | nil => simp [hexValue]
  | append_singleton ds d ih =>
    have hd := hexDigitValue_lt (h d (by simp))
    have := ih fun e he => h e (by simp [he])
    rw [hexValue_append, List.length_append, List.length_singleton, Nat.pow_succ]
    omega

/-- The numbers that are read of a range have six digits at most. -/
theorem takeRange_lt (cs : List Char) :
    (takeRange cs).1.1 < Nat.pow 16 6 ∧ (takeRange cs).1.2 < Nat.pow 16 6 := by
  have hsix : ∀ ds : List Char, hexValue ((ds.take 6).takeWhile isHexDigit) < Nat.pow 16 6 := by
    intro ds
    refine Nat.lt_of_lt_of_le (hexValue_lt fun _ hd => List.mem_takeWhile_imp hd)
      (Nat.pow_le_pow_right (by decide : 0 < 16) ?_)
    exact Nat.le_trans (List.takeWhile_prefix _).length_le (List.length_take_le ..)
  have hfirst := hsix cs
  have hlen : ((cs.take 6).takeWhile isHexDigit).length ≤ 6 :=
    Nat.le_trans (List.takeWhile_prefix _).length_le (List.length_take_le ..)
  have hval : hexValue ((cs.take 6).takeWhile isHexDigit) < _ :=
    hexValue_lt fun _ hd => List.mem_takeWhile_imp hd
  unfold takeRange
  simp only [Nat.pow_eq] at hsix hfirst hval ⊢
  split
  · generalize hm : ((cs.drop ((cs.take 6).takeWhile isHexDigit).length).take
      (6 - ((cs.take 6).takeWhile isHexDigit).length)).takeWhile (· == '?') = marks
    have hmarks : marks.length ≤ 6 - ((cs.take 6).takeWhile isHexDigit).length := by
      rw [← hm]
      exact Nat.le_trans (List.takeWhile_prefix _).length_le (List.length_take_le ..)
    generalize (cs.take 6).takeWhile isHexDigit = ds at hlen hval hmarks ⊢
    have hpos : 0 < 16 ^ marks.length := Nat.pow_pos (by decide)
    have hle : (hexValue ds + 1) * 16 ^ marks.length ≤ 16 ^ 6 := by
      calc (hexValue ds + 1) * 16 ^ marks.length
          ≤ 16 ^ ds.length * 16 ^ marks.length := Nat.mul_le_mul_right _ hval
        _ = 16 ^ (ds.length + marks.length) := (Nat.pow_add ..).symm
        _ ≤ 16 ^ 6 := Nat.pow_le_pow_right (by decide) (by omega)
    have hmul : (hexValue ds + 1) * 16 ^ marks.length =
        hexValue ds * 16 ^ marks.length + 16 ^ marks.length := Nat.succ_mul ..
    constructor <;> dsimp only <;> omega
  · split
    · split
      · exact ⟨hfirst, hfirst⟩
      · exact ⟨hfirst, hsix _⟩
    · exact ⟨hfirst, hfirst⟩

/-! ## 5. Characters that are read -/

theorem charOfCode_ne (n : Nat) : charOfCode n ≠ '\x00' := by
  unfold charOfCode
  split
  · decide
  · split
    · rename_i h0 hv
      intro h
      rw [Char.ofNat, dif_pos hv] at h
      exact h0 (congrArg Char.toNat h)
    · decide

/-- An escape gives a character of the text or one that its digits stand for. No digits stand for the
null character, so if there is none in the text, none comes out of an escape. -/
theorem mem_takeEscape (cs : List Char) :
    (takeEscape cs).2 ⊆ cs ∧ ((takeEscape cs).1 ∈ cs ∨ (takeEscape cs).1 ≠ '\x00') := by
  unfold takeEscape
  dsimp only
  split
  · split
    · exact ⟨List.Subset.refl _, .inr (by decide)⟩
    · exact ⟨List.subset_cons_self .., .inl List.mem_cons_self⟩
  · refine ⟨?_, .inr (charOfCode_ne _)⟩
    generalize ((cs.take 6).takeWhile isHexDigit).length = k
    refine List.Subset.trans ?_ (List.drop_subset k cs)
    generalize cs.drop k = ds
    cases ds with
    | nil => exact List.Subset.refl _
    | cons d ds =>
      simp only [dropOneWhitespace]
      split
      · exact List.subset_cons_self ..
      · exact List.Subset.refl _

/-- A text without NUL has names without NUL. -/
theorem mem_takeName {cs : List Char} (h : '\x00' ∉ cs) : '\x00' ∉ (takeName cs).1 := by
  fun_induction takeName cs with
  | case1 => simp
  | case2 => simp
  | case3 rest _ tail ih =>
    obtain ⟨hs, hc⟩ := mem_takeEscape rest
    have hrest : '\x00' ∉ rest := fun hr => h (List.mem_cons_of_mem _ hr)
    simp only [List.mem_cons, not_or]
    refine ⟨fun he => ?_, ih fun hr => hrest (hs hr)⟩
    rcases hc with hc | hc
    · exact hrest (he ▸ hc)
    · exact hc he.symm
  | case4 c rest _ _ tail ih =>
    simp only [List.mem_cons, not_or] at h ⊢
    exact ⟨h.1, ih h.2⟩
  | case5 => simp

/-- So neither does one come out of a string, by induction along the recursion of the reader. -/
theorem mem_takeString {quote : Char} {cs : List Char} (h : '\x00' ∉ cs) :
    '\x00' ∉ (takeString quote cs).value := by
  fun_induction takeString quote cs with
  | case1 => simp
  | case2 => simp
  | case3 => simp
  | case4 rest' _ ih => exact ih (by simp_all)
  | case5 d rest' _ _ ih =>
    obtain ⟨hs, hc⟩ := mem_takeEscape (d :: rest')
    have hrest : '\x00' ∉ d :: rest' := fun hr => h (List.mem_cons_of_mem _ hr)
    simp only [Reading.push, List.mem_cons, not_or]
    refine ⟨fun he => ?_, ih fun hr => hrest (hs hr)⟩
    rcases hc with hc | hc
    · exact hrest (he ▸ hc)
    · exact hc he.symm
  | case6 => simp
  | case7 c rest _ _ _ ih =>
    simp only [Reading.push, List.mem_cons, not_or] at h ⊢
    exact ⟨h.1, ih h.2⟩

/-- Nor out of a url. -/
theorem mem_takeUrl {cs : List Char} (h : '\x00' ∉ cs) : '\x00' ∉ (takeUrl cs).value := by
  fun_induction takeUrl cs with
  | case1 => simp
  | case2 => simp
  | case3 => simp
  | case4 => simp
  | case5 => simp
  | case6 c rest _ _ _ ih =>
    obtain ⟨hs, hc⟩ := mem_takeEscape rest
    have hrest : '\x00' ∉ rest := fun hr => h (List.mem_cons_of_mem _ hr)
    simp only [Reading.push, List.mem_cons, not_or]
    refine ⟨fun he => ?_, ih fun hr => hrest (hs hr)⟩
    rcases hc with hc | hc
    · exact hrest (he ▸ hc)
    · exact hc he.symm
  | case7 => simp
  | case8 c rest _ _ _ _ ih =>
    simp only [Reading.push, List.mem_cons, not_or] at h ⊢
    exact ⟨h.1, ih h.2⟩

theorem takeComment_subset (cs : List Char) :
    (takeComment cs).1 ⊆ cs ∧ (takeComment cs).2 ⊆ cs := by
  fun_induction takeComment cs with
  | case1 => simp
  | case2 rest => simp
  | case3 c rest _ ih => exact ⟨List.cons_subset_cons _ ih.1, List.Subset.trans ih.2 (List.subset_cons_self ..)⟩

end CssExpand.Syntax
