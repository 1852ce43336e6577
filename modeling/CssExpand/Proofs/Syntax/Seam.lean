import CssExpand.Proofs.Syntax.Aligned
import CssExpand.Proofs.Syntax.Locality

/-!
# The end of a rule as a seam

Where a rule ends, the text before and the text behind do not touch each other. The scan comes to
the character that ends the rule with nothing of it taken before, and reads what is behind as a text
of its own (`scan_append_of_endsRule`); and the brackets that were open have been closed there, so
that the tokens behind are those of a text of its own too (`nest_append_of_upToRule`).

Which place that is cannot be seen from the last character. A brace may stand in a string, and the
brace that closes a block may stand in an open one. So the brackets are counted (`Lexeme.endsRule`).
-/

set_option autoImplicit false

namespace CssExpand.Syntax

namespace Lexeme

/-! ## 1. Where a rule ends -/

/-- The character of a lexeme that may end a rule. -/
def ending? : Lexeme → Option Char
  | .close .curly => some '\x7d'
  | .atom (.literal [';']) => some ';'
  | _ => none

/-- The brackets that are open after a lexeme, the innermost first, if these were open before it. -/
def openAfter (brackets : List Bracket) : Lexeme → List Bracket
  | .atom _ => brackets
  | .openFunction _ => .round :: brackets
  | .openBlock b => b :: brackets
  | .close b => if brackets.head? = some b then brackets.tail else brackets

/-- The brackets that lexemes leave open, the innermost first. -/
def leftOpen (ls : List Lexeme) : List Bracket := ls.foldl openAfter []

/-- Whether lexemes end where their last rule does, but for whitespace: in the brace of a block that
stands in no other one, or in a semicolon that stands in none. There may be nothing but whitespace,
and then there is no rule. -/
def endsRule (ls : List Lexeme) : Bool :=
  match ls.reverse.dropWhile isWhitespace with
  | [] => true
  | .close .curly :: before => leftOpen before.reverse = [.curly]
  | .atom (.literal [';']) :: before => leftOpen before.reverse = []
  | _ => false

/-- Lexemes up to the end of a rule. -/
inductive UpToRule : List Lexeme → Prop
  | block {ls : List Lexeme} (h : leftOpen ls = [.curly]) : UpToRule (ls ++ [.close .curly])
  | statement {ls : List Lexeme} (h : leftOpen ls = []) :
    UpToRule (ls ++ [.atom (.literal [';'])])

/-- A text that ends in a rule has nothing but whitespace behind the last rule. -/
theorem endsRule_cases {ls : List Lexeme} (h : endsRule ls) :
    (∀ l ∈ ls, l.isWhitespace) ∨
      ∃ front w, ls = front ++ w ∧ UpToRule front ∧ ∀ l ∈ w, l.isWhitespace := by
  have hwhite : ∀ l ∈ (ls.reverse.takeWhile isWhitespace).reverse, l.isWhitespace := fun l hl =>
    List.mem_takeWhile_imp (List.mem_reverse.mp hl)
  have hback : ∀ {l : Lexeme} {before : List Lexeme},
      ls.reverse.dropWhile isWhitespace = l :: before →
      ls = (before.reverse ++ [l]) ++ (ls.reverse.takeWhile isWhitespace).reverse := by
    intro l before hdrop
    calc ls = ls.reverse.reverse := ls.reverse_reverse.symm
      _ = (ls.reverse.takeWhile isWhitespace ++ l :: before).reverse := by
        rw [← hdrop, List.takeWhile_append_dropWhile]
      _ = before.reverse ++ [l] ++ (ls.reverse.takeWhile isWhitespace).reverse := by
        rw [List.reverse_append, List.reverse_cons]
  unfold endsRule at h
  split at h
  · next hdrop =>
    exact .inl fun l hl => List.dropWhile_eq_nil_iff.mp hdrop l (List.mem_reverse.mpr hl)
  · next before hdrop => exact .inr ⟨_, _, hback hdrop, .block (by simpa using h), hwhite⟩
  · next before hdrop => exact .inr ⟨_, _, hback hdrop, .statement (by simpa using h), hwhite⟩
  · cases h

end Lexeme

/-! ## 2. The scan -/

variable {c stop : Char} {cs : List Char} {l : Lexeme}

theorem inert_of_ending? (h : l.ending? = some stop) : Inert stop := by
  unfold Lexeme.ending? at h
  split at h <;> cases h
  · exact .inl rfl
  · exact .inr rfl

theorem not_isWhitespace_of_ending? (h : l.ending? = some stop) : l.isWhitespace = false := by
  unfold Lexeme.ending? at h
  split at h <;> cases h <;> rfl

/-- A character that ends a rule is a lexeme by itself. -/
theorem next_ending (h : l.ending? = some stop) (cs : List Char) : next stop cs = ([l], cs) := by
  unfold Lexeme.ending? at h
  split at h <;> cases h
  · rw [next_symbolLexemes (by decide) (by decide) (by simp) (by decide) (by decide)]
    rfl
  · rw [next_symbolLexemes (by decide) (by decide) (by simp) (by decide) (by decide),
      symbolLexemes_punctuation cs (by decide), punctuation_eq (by constructor <;> simp)]

/-- Whether a lexeme may stand at a seam of two texts: it is whitespace or may end a rule. -/
def Lexeme.isSeam (l : Lexeme) : Bool := l.isWhitespace || l.ending?.isSome

theorem not_mem_of_isSeam {m : Lexeme} (hl : l.isSeam) (hm : m.isSeam = false) : l ∉ [m] := by
  intro hmem
  rw [List.mem_singleton.mp hmem, hm] at hl
  cases hl

theorem not_isSeam_of_mem_stringLexemes {quote : Char} (h : l ∈ (stringLexemes quote cs).1) :
    l.isSeam = false :=
  forall_mem_stringLexemes (p := fun l => l.isSeam = false) (fun _ _ => rfl) (fun _ => rfl)
    quote cs l h

theorem not_isSeam_of_mem_nameLexemes (h : l ∈ (nameLexemes cs).1) : l.isSeam = false :=
  forall_mem_nameLexemes (p := fun l => l.isSeam = false) (fun _ => rfl) (fun _ => rfl)
    (fun _ _ => rfl) (fun _ => rfl) cs l h

theorem not_isSeam_of_mem_numberLexemes {n : Numeral} (h : l ∈ (numberLexemes n cs).1) :
    l.isSeam = false := by
  unfold numberLexemes at h
  repeat' split at h
  all_goals
    rw [List.mem_singleton.mp h]
    rfl

/-- Of punctuation only the semicolon is a seam, and it is read from one character. -/
theorem ending?_of_punctuation (h : l = (punctuation c cs).1) (hl : l.isSeam) :
    l.ending? = some c := by
  have hliteral : ∀ d : Char, (Lexeme.atom (.literal [d])).isSeam →
      (Lexeme.atom (.literal [d])).ending? = some d := by
    intro d hd
    by_cases hsemi : d = ';'
    · subst hsemi
      rfl
    · simp [Lexeme.isSeam, Lexeme.isWhitespace, Lexeme.ending?, hsemi] at hd
  unfold punctuation at h
  repeat' split at h
  all_goals subst h
  · cases hl
  · cases hl
  · cases hl
  · simp [Lexeme.isSeam, Lexeme.isWhitespace, Lexeme.ending?] at hl
  · exact hliteral _ hl
  · exact hliteral _ hl

/-- A seam among what a symbol gives is that symbol. -/
theorem ending?_of_mem_symbolLexemes (h : l ∈ (symbolLexemes c cs).1) (hl : l.isSeam) :
    l.ending? = some c := by
  unfold symbolLexemes at h
  split_ifs at h
  · exact absurd h (not_mem_of_isSeam hl rfl)
  · exact absurd h (not_mem_of_isSeam hl rfl)
  · exact absurd h (not_mem_of_isSeam hl rfl)
  · exact absurd h (not_mem_of_isSeam hl rfl)
  · exact absurd h (not_mem_of_isSeam hl rfl)
  · next hc =>
    rw [List.mem_singleton.mp h, hc]
    rfl
  · exact absurd h (not_mem_of_isSeam hl rfl)
  · exact absurd h (not_mem_of_isSeam hl rfl)
  · rw [not_isSeam_of_mem_stringLexemes h] at hl
    cases hl
  · exact ending?_of_punctuation (List.mem_singleton.mp h) hl

/-- A lexeme at a seam comes from whitespace, or from the character that ends a rule. -/
theorem cases_of_mem_next (h : l ∈ (next c cs).1) (hl : l.isSeam) :
    isWhitespace c ∨ l.ending? = some c := by
  unfold next at h
  split_ifs at h with hw
  · exact .inl hw
  · exact absurd h (not_mem_of_isSeam hl rfl)
  · exact absurd h (not_mem_of_isSeam hl rfl)
  · rw [not_isSeam_of_mem_nameLexemes h] at hl
    cases hl
  · split at h
    · rw [not_isSeam_of_mem_numberLexemes h] at hl
      cases hl
    · exact .inr (ending?_of_mem_symbolLexemes h hl)

/-- A lexeme that may end a rule comes from its character. -/
theorem ending?_of_mem_next (h : l ∈ (next c cs).1) (hl : l.ending? = some stop) : c = stop := by
  rcases cases_of_mem_next h (by simp [Lexeme.isSeam, hl]) with hw | hc
  · rw [next_whitespace hw] at h
    rw [List.mem_singleton.mp h] at hl
    cases hl
  · exact Option.some.inj (hc.symm.trans hl)

theorem mem_of_mem_scan (hl : l.ending? = some stop) (h : l ∈ Lexeme.scan cs) : stop ∈ cs := by
  fun_induction Lexeme.scan cs with
  | case1 => cases h
  | case2 c rest ih =>
    rcases List.mem_append.mp h with h | h
    · rw [ending?_of_mem_next h hl]
      exact List.mem_cons_self
    · exact (next_suffix c rest).subset (ih h)

/-- The text after a lexeme that may end a rule is read as it is by itself, and so is anything
behind it. -/
theorem scan_append_of_ending {ls w : List Lexeme} (hl : l.ending? = some stop)
    (h : Lexeme.scan cs = ls ++ l :: w) : ∃ v, Lexeme.scan v = w ∧
      ∀ ds, Lexeme.scan (cs ++ ds) = ls ++ l :: Lexeme.scan (v ++ ds) := by
  fun_induction Lexeme.scan cs generalizing ls with
  | case1 => simp at h
  | case2 c rest ih =>
    -- The lexeme is one of this step, or else the character is still left over.
    have hlater : ∀ as, ls = (next c rest).1 ++ as → Lexeme.scan (next c rest).2 = as ++ l :: w →
        ∃ v, Lexeme.scan v = w ∧
          ∀ ds, Lexeme.scan (c :: rest ++ ds) = ls ++ l :: Lexeme.scan (v ++ ds) := by
      intro as hls hscan
      obtain ⟨v, hv, hds⟩ := ih hscan
      have hstop : stop ∈ (next c rest).2 := mem_of_mem_scan hl (by simp [hscan])
      refine ⟨v, hv, fun ds => ?_⟩
      rw [List.cons_append, Lexeme.scan_cons, next_append (inert_of_ending? hl) hstop, hds, hls,
        List.append_assoc]
    rcases List.append_eq_append_iff.mp h with ⟨as, hls, hscan⟩ | ⟨bs, hnext, hscan⟩
    · exact hlater as hls hscan
    · cases bs with
      | nil => exact hlater [] (by simpa using hnext.symm) (by simpa using hscan.symm)
      | cons b bs =>
        obtain ⟨rfl, hw⟩ := List.cons.inj hscan
        have hmem : l ∈ (next c rest).1 := by simp [hnext]
        obtain rfl := ending?_of_mem_next hmem hl
        obtain ⟨rfl, rfl⟩ : ls = [] ∧ bs = [] := by
          rw [next_ending hl] at hnext
          cases ls with
          | nil => simpa using hnext
          | cons => simp at hnext
        rw [next_ending hl] at hw
        exact ⟨rest, hw.symm, fun ds => scan_of_next (next_ending hl (rest ++ ds))⟩

/-- A text that is read as whitespace is whitespace, by induction on the steps of the scan. -/
theorem forall_isWhitespace_of_scan {v : List Char} (h : ∀ m ∈ Lexeme.scan v, m.isWhitespace) :
    ∀ c ∈ v, isWhitespace c := by
  fun_induction Lexeme.scan v with
  | case1 => exact fun _ hc => absurd hc List.not_mem_nil
  | case2 c rest ih =>
    obtain ⟨hnext, hrest⟩ := List.forall_mem_append.mp h
    have hw : isWhitespace c := by
      obtain ⟨m, hm⟩ := List.exists_mem_of_ne_nil _ (next_ne_nil c rest)
      refine (cases_of_mem_next hm (by simp [Lexeme.isSeam, hnext m hm])).resolve_right fun hc => ?_
      have := not_isWhitespace_of_ending? hc
      rw [hnext m hm] at this
      cases this
    have ih := ih hrest
    rw [next_whitespace hw] at ih
    intro d hd
    rcases List.mem_cons.mp hd with rfl | hd
    · exact hw
    · rw [← List.takeWhile_append_dropWhile (p := isWhitespace) (l := rest)] at hd
      rcases List.mem_append.mp hd with hd | hd
      · exact List.mem_takeWhile_imp hd
      · exact ih d hd

/-- Before any text, a text that ends with a rule gives the lexemes up to the end of the rule, and
leaves whitespace in front of the other one. -/
theorem scan_append_of_endsRule (h : Lexeme.endsRule (Lexeme.scan cs)) : ∃ ls v,
    (ls = [] ∨ Lexeme.UpToRule ls) ∧ (∀ c ∈ v, isWhitespace c) ∧
      ∀ ds, Lexeme.scan (cs ++ ds) = ls ++ Lexeme.scan (v ++ ds) := by
  rcases Lexeme.endsRule_cases h with hw | ⟨front, w, hscan, hfront, hw⟩
  · exact ⟨[], cs, .inl rfl, forall_isWhitespace_of_scan hw, fun _ => rfl⟩
  · obtain ⟨ls, l, stop, rfl, hl⟩ : ∃ ls l stop, front = ls ++ [l] ∧ l.ending? = some stop := by
      cases hfront with
      | block => exact ⟨_, _, _, rfl, rfl⟩
      | statement => exact ⟨_, _, _, rfl, rfl⟩
    rw [List.append_assoc, List.singleton_append] at hscan
    obtain ⟨v, hv, hds⟩ := scan_append_of_ending hl hscan
    refine ⟨ls ++ [l], v, .inr hfront, forall_isWhitespace_of_scan (hv ▸ hw), fun ds => ?_⟩
    rw [hds, List.append_assoc, List.singleton_append]

/-! ## 3. The bracket tree -/

/-- The brackets of open frames. -/
def Frame.brackets (frames : List Frame) : List Bracket := frames.map fun f => f.opener.bracket

/-- Lexemes lead from open frames to open frames, whatever comes after them. -/
theorem nest_append (ls : List Lexeme) (frames : List Frame) (current : List Token) :
    ∃ frames' current', Frame.brackets frames' = ls.foldl Lexeme.openAfter (Frame.brackets frames) ∧
      ∀ ms, nest frames current (ls ++ ms) = nest frames' current' ms := by
  induction ls generalizing frames current with
  | nil => exact ⟨frames, current, rfl, fun _ => rfl⟩
  | cons l ls ih =>
    cases l with
    | atom a => exact ih frames (.atom a :: current)
    | openFunction name => exact ih (⟨.function name, current⟩ :: frames) []
    | openBlock b => exact ih (⟨.block b, current⟩ :: frames) []
    | close b =>
      cases frames with
      | nil => exact ih [] (.atom (.fault (.stray b)) :: current)
      | cons f frames =>
        by_cases hb : f.opener.bracket = b
        · obtain ⟨frames', current', hbrackets, hms⟩ := ih frames (f.close current)
          refine ⟨frames', current', ?_, fun ms => ?_⟩
          · rw [hbrackets, List.foldl_cons]
            simp [Frame.brackets, Lexeme.openAfter, hb]
          · rw [List.cons_append, nest, if_pos hb, hms]
        · obtain ⟨frames', current', hbrackets, hms⟩ :=
            ih (f :: frames) (.atom (.fault (.stray b)) :: current)
          refine ⟨frames', current', ?_, fun ms => ?_⟩
          · rw [hbrackets, List.foldl_cons]
            simp [Frame.brackets, Lexeme.openAfter, hb]
          · rw [List.cons_append, nest, if_neg hb, hms]

/-- Tokens in front of everything stay there, in the outermost list. -/
theorem nest_behind (front : List Token) (ls : List Lexeme) (current : List Token) :
    nest [] (current ++ front) ls = front.reverse ++ nest [] current ls ∧
      ∀ frames f, nest (frames ++ [⟨f.opener, f.before ++ front⟩]) current ls =
        front.reverse ++ nest (frames ++ [f]) current ls := by
  induction ls generalizing current with
  | nil =>
    refine ⟨by simp [nest], fun frames f => ?_⟩
    simp [nest, Frame.close]
  | cons l ls ih =>
    cases l with
    | atom a => exact ⟨(ih (.atom a :: current)).1, (ih (.atom a :: current)).2⟩
    | openFunction name =>
      exact ⟨(ih []).2 [] ⟨.function name, current⟩,
        fun frames f => (ih []).2 (⟨.function name, current⟩ :: frames) f⟩
    | openBlock b =>
      exact ⟨(ih []).2 [] ⟨.block b, current⟩,
        fun frames f => (ih []).2 (⟨.block b, current⟩ :: frames) f⟩
    | close b =>
      refine ⟨(ih (.atom (.fault (.stray b)) :: current)).1, fun frames f => ?_⟩
      cases frames with
      | nil =>
        simp only [List.nil_append, nest]
        split
        · exact (ih (f.close current)).1
        · exact (ih (.atom (.fault (.stray b)) :: current)).2 [] f
      | cons g frames =>
        simp only [List.cons_append, nest]
        split
        · exact (ih (g.close current)).2 frames f
        · exact (ih (.atom (.fault (.stray b)) :: current)).2 (g :: frames) f

/-- Where nothing is open, nesting starts anew. -/
theorem nest_nil (current : List Token) (ls : List Lexeme) :
    nest [] current ls = current.reverse ++ nest [] [] ls :=
  (nest_behind current ls []).1

/-- Lexemes up to the end of a rule give the same tokens before any others, a block or a semicolon
at the end of them, and the others give theirs. -/
theorem nest_append_of_upToRule {ls : List Lexeme} (h : Lexeme.UpToRule ls) : ∃ front t,
    ((∃ content, t = .block .curly content) ∨ t = .atom (.literal [';'])) ∧
      ∀ ms, nest [] [] (ls ++ ms) = front ++ t :: nest [] [] ms := by
  cases h with
  | @block ls hopen =>
    obtain ⟨frames, current, hbrackets, hms⟩ := nest_append ls [] []
    -- One frame is open, that of the block that the brace closes.
    obtain ⟨f, rfl, hf⟩ : ∃ f, frames = [f] ∧ f.opener.bracket = .curly :=
      List.map_eq_singleton_iff.mp (hbrackets.trans hopen)
    refine ⟨f.before.reverse, f.opener.token current.reverse, .inl ⟨current.reverse, ?_⟩,
      fun ms => ?_⟩
    · cases hopener : f.opener with
      | function name =>
        rw [hopener] at hf
        cases hf
      | block b =>
        rw [hopener] at hf
        rw [Opener.token, show b = .curly from hf]
    · rw [List.append_assoc, hms, List.singleton_append, nest, if_pos hf, nest_nil, Frame.close,
        List.reverse_cons, List.append_assoc, List.singleton_append]
  | @statement ls hopen =>
    obtain ⟨frames, current, hbrackets, hms⟩ := nest_append ls [] []
    obtain rfl : frames = [] := List.map_eq_nil_iff.mp (hbrackets.trans hopen)
    refine ⟨current.reverse, _, .inr rfl, fun ms => ?_⟩
    rw [List.append_assoc, hms, List.singleton_append, nest, nest_nil, List.reverse_cons,
      List.append_assoc, List.singleton_append]

end CssExpand.Syntax
