import CssExpand.Proofs.Syntax.Glue
import CssExpand.Syntax.Nesting

/-!
# Bracket trees and their lexemes

The tokens of a text and its lexemes say the same. Flattening a tree and nesting its lexemes again
gives the tree back (`nest_flat`). In the other direction the invariant of `nest` is that what
stands open, with the tokens read so far, spells the lexemes read so far (`opened`); so a tree
without faults has the lexemes of its text, and after them the brackets that were open at the end
(`flat_ofChars`).

With this the theorems about lexemes become theorems about tokens: what is written for tokens is the
text of their lexemes (`listWritten_eq`), and it reads back as the tokens with the empty comments
that the writer put in (`listReread`).
-/

set_option autoImplicit false

namespace CssExpand.Syntax

namespace Token

/-! ## 1. Flattening -/

mutual

/-- The lexemes of a token. -/
def flat : Token → List Lexeme
  | .atom a => [.atom a]
  | .function name arguments => .openFunction name :: (listFlat arguments ++ [.close .round])
  | .block b content => .openBlock b :: (listFlat content ++ [.close b])

/-- The lexemes of a list of tokens. -/
def listFlat : List Token → List Lexeme
  | [] => []
  | t :: ts => t.flat ++ listFlat ts

end

mutual

/-- Whether there is a fault in a token, at any depth. -/
def hasFault : Token → Bool
  | .atom (.fault _) => true
  | .atom _ => false
  | .function _ arguments => listHasFault arguments
  | .block _ content => listHasFault content

/-- Whether there is a fault in a list of tokens, at any depth. -/
def listHasFault : List Token → Bool
  | [] => false
  | t :: ts => t.hasFault || listHasFault ts

end

@[simp] theorem listFlat_append (as bs : List Token) :
    listFlat (as ++ bs) = listFlat as ++ listFlat bs := by
  induction as with
  | nil => rfl
  | cons t as ih => simp [listFlat, ih]

@[simp] theorem listFlat_singleton (t : Token) : listFlat [t] = t.flat := by simp [listFlat]

theorem listFlat_isInfix {as bs : List Token} (h : as <:+: bs) : listFlat as <:+: listFlat bs := by
  obtain ⟨xs, ys, rfl⟩ := h
  exact ⟨listFlat xs, listFlat ys, by simp [listFlat_append]⟩

mutual

theorem any_isFault_flat : ∀ t : Token, t.flat.any Lexeme.isFault = t.hasFault
  | .atom a => by cases a <;> simp [flat, hasFault, Lexeme.isFault]
  | .function name arguments => by
    simp [flat, hasFault, Lexeme.isFault, any_isFault_listFlat arguments]
  | .block b content => by
    simp [flat, hasFault, Lexeme.isFault, any_isFault_listFlat content]

theorem any_isFault_listFlat : ∀ ts : List Token,
    (listFlat ts).any Lexeme.isFault = listHasFault ts
  | [] => rfl
  | t :: ts => by
    simp [listFlat, listHasFault, any_isFault_flat t, any_isFault_listFlat ts]

end

theorem listHasFault_append (as bs : List Token) :
    listHasFault (as ++ bs) = (listHasFault as || listHasFault bs) := by
  induction as with
  | nil => rfl
  | cons t as ih => simp [listHasFault, ih, Bool.or_assoc]

/-! ## 2. Nesting flattened tokens -/

mutual

theorem nest_flat (t : Token) (frames : List Frame) (current : List Token) (ls : List Lexeme) :
    nest frames current (t.flat ++ ls) = nest frames (t :: current) ls := by
  match t with
  | .atom a => rfl
  | .function name arguments =>
    rw [flat, List.cons_append, nest, List.append_assoc, nest_listFlat arguments]
    simp [nest, Opener.bracket, Frame.close, Opener.token]
  | .block b content =>
    rw [flat, List.cons_append, nest, List.append_assoc, nest_listFlat content]
    simp [nest, Opener.bracket, Frame.close, Opener.token]

/-- The lexemes of tokens nest as these tokens. -/
theorem nest_listFlat (ts : List Token) (frames : List Frame) (current : List Token)
    (ls : List Lexeme) :
    nest frames current (listFlat ts ++ ls) = nest frames (ts.reverse ++ current) ls := by
  match ts with
  | [] => rfl
  | t :: ts =>
    rw [listFlat, List.append_assoc, nest_flat t, nest_listFlat ts]
    simp

end

/-- Flattening and nesting is the identity. -/
@[simp] theorem nest_listFlat_eq (ts : List Token) : nest [] [] (listFlat ts) = ts := by
  have := nest_listFlat ts [] [] []
  simpa [nest] using this

/-! ## 3. Flattening nested lexemes -/

/-- The lexeme that opened a frame. -/
def openerLexeme : Opener → Lexeme
  | .function name => .openFunction name
  | .block b => .openBlock b

/-- The lexemes that stand open: those of the frames with what is before them, innermost first, and
those of the innermost list so far. -/
def opened : List Frame → List Token → List Lexeme
  | [], current => listFlat current.reverse
  | f :: frames, current =>
    opened frames f.before ++ openerLexeme f.opener :: listFlat current.reverse

theorem opened_cons (frames : List Frame) (t : Token) (current : List Token) :
    opened frames (t :: current) = opened frames current ++ t.flat := by
  cases frames <;> simp [opened, listFlat_append, listFlat_singleton]

theorem opened_close (f : Frame) (frames : List Frame) (current : List Token) :
    opened frames (f.close current) = opened (f :: frames) current ++ [.close f.opener.bracket] := by
  rw [Frame.close, opened_cons, opened]
  cases f.opener <;> simp [Opener.token, Opener.bracket, openerLexeme, flat]

/-- The lexemes of nested lexemes without faults: those that stood open, those that were nested, and
the brackets that were open at the end. -/
theorem flat_nest (ls : List Lexeme) (frames : List Frame) (current : List Token)
    (h : listHasFault (nest frames current ls) = false) :
    ∃ closers : List Bracket,
      listFlat (nest frames current ls) = opened frames current ++ ls ++ closers.map .close := by
  -- A stray bracket becomes a fault, and what is nested is never lost.
  have stray : ∀ frames current rest b, (∃ closers : List Bracket,
      listFlat (nest frames (.atom (.fault (.stray b)) :: current) rest) =
        opened frames (.atom (.fault (.stray b)) :: current) ++ rest ++ closers.map .close) →
      listHasFault (nest frames (.atom (.fault (.stray b)) :: current) rest) = true := by
    rintro frames current rest b ⟨closers, heq⟩
    rw [← any_isFault_listFlat, heq, opened_cons]
    simp [flat, Lexeme.isFault]
  fun_induction nest frames current ls with
  | case1 frames current =>
    have close : ∀ (frames : List Frame) (current : List Token), ∃ closers : List Bracket,
        listFlat (frames.foldl (fun content f => f.close content) current).reverse =
          opened frames current ++ closers.map .close := by
      intro frames
      induction frames with
      | nil => exact fun current => ⟨[], by simp [opened]⟩
      | cons f frames ih =>
        intro current
        obtain ⟨closers, heq⟩ := ih (f.close current)
        refine ⟨f.opener.bracket :: closers, ?_⟩
        rw [List.foldl_cons, heq, opened_close]
        simp
    simpa using close frames current
  | case2 frames current a rest ih =>
    obtain ⟨closers, heq⟩ := ih h
    exact ⟨closers, by rw [heq, opened_cons]; simp [flat]⟩
  | case3 frames current name rest ih =>
    obtain ⟨closers, heq⟩ := ih h
    exact ⟨closers, by rw [heq]; simp [opened, openerLexeme, listFlat]⟩
  | case4 frames current b rest ih =>
    obtain ⟨closers, heq⟩ := ih h
    exact ⟨closers, by rw [heq]; simp [opened, openerLexeme, listFlat]⟩
  | case5 current b rest ih =>
    have := stray [] current rest b (ih h)
    rw [h] at this
    simp at this
  | case6 current rest f frames ih =>
    obtain ⟨closers, heq⟩ := ih h
    exact ⟨closers, by rw [heq, opened_close]; simp⟩
  | case7 f frames current b rest hne ih =>
    have := stray (f :: frames) current rest b (ih h)
    rw [h] at this
    simp at this

/-- The lexemes of the tokens of a text without faults. -/
theorem flat_ofChars {cs : List Char} (h : listHasFault (ofChars cs) = false) :
    ∃ closers : List Bracket,
      listFlat (ofChars cs) = Lexeme.scan (unifyBreaks cs) ++ closers.map .close := by
  obtain ⟨closers, heq⟩ := flat_nest _ _ _ h
  exact ⟨closers, by simpa [opened, listFlat, ofChars] using heq⟩

/-! ## 4. Tokens of a source -/

/-- Whether something among tokens is read back as something else once they are written. -/
def listMisread (ts : List Token) : Bool := Lexeme.misread (listFlat ts)

/-- Tokens as they may stand in a source that is accepted and has no faults, and that are read back as
themselves. It is kept by sublists and by what is inside brackets, and it is what reading back asks
for. -/
structure Settled (ts : List Token) : Prop where
  sourced : Lexeme.Sourced (listFlat ts)
  misread : listMisread ts = false
  short : ∀ l ∈ listFlat ts, l.overlong? = none

theorem Settled.of_listFlat_isInfix {as bs : List Token} (h : Settled bs)
    (hi : listFlat as <:+: listFlat bs) : Settled as :=
  ⟨h.sourced.of_isInfix hi, Lexeme.misread_of_isInfix h.misread hi, fun l hl => h.short l (hi.subset hl)⟩

theorem Settled.of_isInfix {as bs : List Token} (h : Settled bs) (hi : as <:+: bs) : Settled as :=
  h.of_listFlat_isInfix (listFlat_isInfix hi)

theorem Settled.left {as bs : List Token} (h : Settled (as ++ bs)) : Settled as :=
  h.of_isInfix (List.prefix_append as bs).isInfix

theorem Settled.right {as bs : List Token} (h : Settled (as ++ bs)) : Settled bs :=
  h.of_isInfix (List.suffix_append as bs).isInfix

theorem Settled.tail {t : Token} {ts : List Token} (h : Settled (t :: ts)) : Settled ts :=
  h.of_isInfix (List.suffix_cons t ts).isInfix

theorem Settled.head {t : Token} {ts : List Token} (h : Settled (t :: ts)) : Settled [t] :=
  h.of_isInfix ⟨[], ts, rfl⟩

theorem listFlat_arguments_isInfix (name : List Char) (arguments : List Token) :
    listFlat arguments <:+: listFlat [.function name arguments] :=
  ⟨[.openFunction name], [.close .round], by simp [listFlat, flat]⟩

theorem listFlat_content_isInfix (b : Bracket) (content : List Token) :
    listFlat content <:+: listFlat [.block b content] :=
  ⟨[.openBlock b], [.close b], by simp [listFlat, flat]⟩

theorem Settled.arguments {name : List Char} {arguments : List Token}
    (h : Settled [.function name arguments]) : Settled arguments :=
  h.of_listFlat_isInfix (listFlat_arguments_isInfix name arguments)

theorem Settled.content {b : Bracket} {content : List Token} (h : Settled [.block b content]) :
    Settled content :=
  h.of_listFlat_isInfix (listFlat_content_isInfix b content)

/-- The lexemes of a text without faults are those of a source. -/
theorem sourced_ofChars {cs : List Char} (h : listHasFault (ofChars cs) = false) :
    Lexeme.Sourced (listFlat (ofChars cs)) := by
  obtain ⟨closers, heq⟩ := flat_ofChars h
  rw [heq]
  refine sourced_scan (unified_unifyBreaks cs) (fun l hl => ?_) closers
  have hany := any_isFault_listFlat (ofChars cs)
  rw [h, heq, List.any_eq_false] at hany
  simpa using hany l (List.mem_append_left _ hl)

/-- A text is accepted if none of its lexemes is overlong. -/
theorem checkIntegers_eq_ok {text : String} : checkIntegers text = .ok () ↔
    ∀ l ∈ Lexeme.scan (unifyBreaks text.toList), l.overlong? = none := by
  rw [checkIntegers, ← List.findSome?_eq_none_iff]
  cases (Lexeme.scan (unifyBreaks text.toList)).findSome? Lexeme.overlong? with
  | none => exact iff_of_true rfl rfl
  | some digits => exact iff_of_false (by simp) (by simp)

/-- The tokens of a text that is accepted and has no faults, and in which nothing is misread. -/
theorem settled_parse {css : String} (hi : checkIntegers css = .ok ())
    (h : listHasFault (ofChars css.toList) = false)
    (hm : listMisread (ofChars css.toList) = false) : Settled (ofChars css.toList) := by
  obtain ⟨closers, heq⟩ := flat_ofChars h
  refine ⟨sourced_ofChars h, hm, ?_⟩
  rw [heq]
  intro l hl
  rcases List.mem_append.mp hl with hl | hl
  · exact checkIntegers_eq_ok.mp hi l hl
  · obtain ⟨b, -, rfl⟩ := List.mem_map.mp hl
    rfl

/-! ## 5. Tokens that are read back -/

/-- What the writer puts between a token and the ones after it. -/
def join (t : Token) : List Token → List Token
  | [] => []
  | u :: _ => if t.joint.clash u.joint then [.atom (.comment [])] else []

mutual

/-- What a token is read back as. -/
def reread : Token → Token
  | .atom a => .atom a.reread
  | .function name arguments => .function name (listReread arguments)
  | .block b content => .block b (listReread content)

/-- What a list of tokens is read back as, with the comments that the writer puts in. -/
def listReread : List Token → List Token
  | [] => []
  | t :: ts => t.reread :: (t.join ts ++ listReread ts)

end

end Token

theorem Joint.not_clash_left {a : Joint} (h : a.endsInName = false)
    (h' : a ∈ [.function, .roundBlock, .other]) (b : Joint) : a.clash b = false := by
  refine Bool.eq_false_iff.mpr fun hx => ?_
  have hleft := of_clash hx
  simp only [List.mem_cons, List.not_mem_nil, or_false] at h'
  rcases h' with rfl | rfl | rfl <;> simp [endsInName] at hleft

theorem Joint.not_clash_other (a : Joint) : a.clash .other = false := by
  simp [clash, startsWithName, startsWithNumber]

namespace Lexeme

/-- What is put between two lists of lexemes. -/
def seam (ls ms : List Lexeme) : List Lexeme :=
  match ls.getLast?, ms.head? with
  | some l, some l' => glue l l'
  | _, _ => []

/-- Two lists written one behind the other have a comment between them if their neighbours clash, and
no other difference. -/
theorem glued_append (ls ms : List Lexeme) :
    glued (ls ++ ms) = glued ls ++ seam ls ms ++ glued ms := by
  induction ls with
  | nil => simp [glued, seam]
  | cons l ls ih =>
    cases ls with
    | nil =>
      cases ms with
      | nil => simp [glued, seam]
      | cons m ms => simp [glued, seam]
    | cons l' ls =>
      simp only [List.cons_append, glued] at ih ⊢
      rw [ih]
      simp [seam, List.append_assoc]

@[simp] theorem text_append (ls ms : List Lexeme) : text (ls ++ ms) = text ls ++ text ms := by
  simp [text]

theorem seam_close (ls : List Lexeme) (b : Bracket) : seam ls [.close b] = [] := by
  unfold seam
  split
  · rename_i l l' _ h
    obtain rfl : Lexeme.close b = l' := by simpa using h
    simp [glue, joint, Joint.not_clash_other]
  · rfl

theorem seam_open {l : Lexeme} (h : l.joint ∈ [.function, .roundBlock, .other])
    (ms : List Lexeme) : seam [l] ms = [] := by
  have hname : l.joint.endsInName = false := by
    simp only [List.mem_cons, List.not_mem_nil, or_false] at h
    rcases h with h | h | h <;> rw [h] <;> rfl
  unfold seam
  split
  · rename_i l₁ l' h₁ _
    obtain rfl : l = l₁ := by simpa using h₁
    simp [glue, Joint.not_clash_left hname h]
  · rfl

/-- Brackets with something inside; nothing is put in at the brackets. -/
theorem glued_brackets {l : Lexeme} (h : l.joint ∈ [.function, .roundBlock, .other])
    (ls : List Lexeme) (b : Bracket) :
    glued (l :: (ls ++ [.close b])) = l :: (glued ls ++ [.close b]) := by
  have h1 : glued (ls ++ [.close b]) = glued ls ++ [.close b] := by
    rw [glued_append, seam_close]
    simp [glued]
  have h2 := glued_append [l] (ls ++ [.close b])
  rw [seam_open h] at h2
  simpa [glued, h1] using h2

end Lexeme

namespace Token

theorem joint_openBlock (b : Bracket) :
    (Lexeme.openBlock b).joint ∈ [.function, .roundBlock, .other] := by
  cases b <;> simp [Lexeme.joint]

/-- The last lexeme of a token clashes with what the token clashes with. -/
theorem getLast?_flat (t : Token) :
    ∃ l, t.flat.getLast? = some l ∧ ∀ j, l.joint.clash j = t.joint.clash j := by
  have hclose : ∀ (b : Bracket) (j : Joint), (Lexeme.close b).joint.clash j = false :=
    fun b j => Joint.not_clash_left rfl (by simp [Lexeme.joint]) j
  cases t with
  | atom a => exact ⟨.atom a, rfl, fun _ => rfl⟩
  | function name arguments =>
    refine ⟨.close .round, by simp [flat, List.getLast?_cons], fun j => ?_⟩
    rw [hclose, joint, Joint.not_clash_left rfl (by simp)]
  | block b content =>
    refine ⟨.close b, by simp [flat, List.getLast?_cons], fun j => ?_⟩
    rw [hclose]
    cases b <;> exact (Joint.not_clash_left rfl (by simp [joint]) j).symm

/-- The first lexeme of a token shows what the token shows. -/
theorem head?_flat (t : Token) : ∃ l ls, t.flat = l :: ls ∧ l.joint = t.joint := by
  cases t with
  | atom a => exact ⟨.atom a, [], rfl, rfl⟩
  | function name arguments => exact ⟨_, _, rfl, rfl⟩
  | block b content => cases b <;> exact ⟨_, _, rfl, rfl⟩

/-- Between tokens the writer puts what it puts between their lexemes. -/
theorem seam_flat (t : Token) (ts : List Token) :
    Lexeme.seam t.flat (listFlat ts) = listFlat (t.join ts) := by
  obtain ⟨l, hl, hclash⟩ := t.getLast?_flat
  cases ts with
  | nil => simp [Lexeme.seam, listFlat, join]
  | cons u us =>
    obtain ⟨l', ls', heq, hjoint⟩ := u.head?_flat
    simp only [Lexeme.seam, hl, listFlat, heq, List.cons_append, List.head?_cons, Lexeme.glue,
      hclash, hjoint, join]
    split <;> simp [listFlat, flat]

mutual

theorem flat_reread : ∀ t : Token, t.reread.flat = (Lexeme.glued t.flat).map Lexeme.reread
  | .atom a => rfl
  | .function name arguments => by
    rw [reread, flat, flat, Lexeme.glued_brackets (by simp [Lexeme.joint]),
      listFlat_listReread arguments]
    simp [Lexeme.reread]
  | .block b content => by
    rw [reread, flat, flat, Lexeme.glued_brackets (joint_openBlock b),
      listFlat_listReread content]
    simp [Lexeme.reread]

/-- The lexemes that tokens are read back as. -/
theorem listFlat_listReread : ∀ ts : List Token,
    listFlat (listReread ts) = (Lexeme.glued (listFlat ts)).map Lexeme.reread
  | [] => rfl
  | t :: ts => by
    have hjoin : (listFlat (t.join ts)).map Lexeme.reread = listFlat (t.join ts) := by
      cases ts with
      | nil => rfl
      | cons u us =>
        rw [join]
        split <;> rfl
    rw [listReread, listFlat, listFlat_append, listFlat, Lexeme.glued_append, seam_flat,
      flat_reread t, listFlat_listReread ts]
    simp [hjoin]

end

/-- Gluing adds empty comments only. -/
theorem mem_glued {ls : List Lexeme} {l : Lexeme} (h : l ∈ Lexeme.glued ls) :
    l = .atom (.comment []) ∨ l ∈ ls := by
  induction ls with
  | nil => exact .inr h
  | cons k ls ih =>
    cases ls with
    | nil => exact .inr h
    | cons k' ls =>
      simp only [Lexeme.glued, List.mem_cons, List.mem_append] at h
      rcases h with rfl | h | h
      · exact .inr List.mem_cons_self
      · left
        unfold Lexeme.glue at h
        split at h
        · exact List.mem_singleton.mp h
        · cases h
      · exact (ih h).imp id (List.mem_cons_of_mem k)

/-- The lexemes that tokens are read back as are their own, read back, and empty comments. -/
theorem mem_listFlat_listReread {ts : List Token} {l : Lexeme}
    (h : l ∈ listFlat (listReread ts)) :
    l = .atom (.comment []) ∨ ∃ k ∈ listFlat ts, l = k.reread := by
  rw [listFlat_listReread] at h
  obtain ⟨k, hk, rfl⟩ := List.mem_map.mp h
  rcases mem_glued hk with rfl | hk
  · exact .inl rfl
  · exact .inr ⟨k, hk, rfl⟩

theorem short_listReread {ts : List Token} (h : ∀ l ∈ listFlat ts, l.overlong? = none) :
    ∀ l ∈ listFlat (listReread ts), l.overlong? = none := by
  have hreread : ∀ k : Lexeme, k.reread.overlong? = k.overlong? := by
    intro k
    cases k with
    | atom a => cases a <;> rfl
    | _ => rfl
  intro l hl
  rcases mem_listFlat_listReread hl with rfl | ⟨k, hk, rfl⟩
  · rfl
  · rw [hreread, h k hk]

theorem faultless_listReread {ts : List Token} (h : listHasFault ts = false) :
    listHasFault (listReread ts) = false := by
  have hreread : ∀ k : Lexeme, k.reread.isFault = k.isFault := by
    intro k
    cases k with
    | atom a => cases a <;> rfl
    | _ => rfl
  rw [← any_isFault_listFlat, List.any_eq_false] at h ⊢
  intro l hl
  rcases mem_listFlat_listReread hl with rfl | ⟨k, hk, rfl⟩
  · exact Bool.false_ne_true
  · rw [hreread]
    exact h k hk

/-! ## 6. Written tokens -/

/-- A string that is open at the end of the text is a fault of the source, so where there are none the
writer never has to close one. -/
theorem lastEndsInOpenString_eq {ts : List Token} (h : Lexeme.Sourced (listFlat ts)) :
    lastEndsInOpenString ts = false := by
  have key : ∀ (k : Nat) (ts : List Token), listSize ts ≤ k → Lexeme.Sourced (listFlat ts) →
      lastEndsInOpenString ts = false := by
    intro k
    induction k with
    | zero =>
      intro ts hk _
      cases ts with
      | nil => rfl
      | cons t ts => cases t <;> simp [listSize, size] at hk
    | succ k ih =>
      intro ts hk h
      match ts with
      | [] => rfl
      | [t] =>
        rw [lastEndsInOpenString]
        match t with
        | .atom a =>
          have hwf : a.WellFormed := h.1
          cases a with
          | fault kind => exact hwf.elim
          | _ => rfl
        | .function name arguments =>
          rw [endsInOpenString]
          refine ih arguments ?_ (h.of_isInfix (listFlat_arguments_isInfix name arguments))
          simp only [listSize, size] at hk
          omega
        | .block b content => rfl
      | t :: u :: us =>
        rw [lastEndsInOpenString]
        refine ih (u :: us) ?_ ?_
        · have : 1 ≤ t.size := by cases t <;> simp [size]
          simp only [listSize] at hk ⊢
          omega
        · rw [listFlat] at h
          exact h.of_append
  exact key _ ts (Nat.le_refl _) h

/-- What is written between neighbours in a source. -/
theorem glueBefore_eq {t : Token} {ts : List Token} (h : Lexeme.Sourced (listFlat (t :: ts))) :
    t.glueBefore ts = Lexeme.text (listFlat (t.join ts)) := by
  cases ts with
  | nil => rfl
  | cons u us =>
    rw [glueBefore, glue, join]
    split
    · simp [listFlat, flat, Lexeme.text, Lexeme.written, Atom.written]
    · rw [if_neg]
      · rfl
      · -- A backslash that is a literal has its line break behind it.
        rw [Bool.and_eq_true, not_and]
        intro hlit
        cases t with
        | atom a =>
          cases a with
          | literal text =>
            obtain rfl : text = ['\\'] := by simpa [isLiteral] using hlit
            obtain ⟨l, ls, heq, -⟩ := u.head?_flat
            have hmeet := h.2.1 l (by simp [listFlat, heq])
            obtain ⟨text, rfl⟩ := hmeet.backslash rfl
            cases u with
            | atom b =>
              simp only [flat, List.cons.injEq, Lexeme.atom.injEq] at heq
              simp [startsWithBreak, heq.1]
            | function name arguments => simp [flat] at heq
            | block b content => simp [flat] at heq
          | _ => simp [isLiteral] at hlit
        | function name arguments => simp [isLiteral] at hlit
        | block b content => simp [isLiteral] at hlit

mutual

/-- The writer of trees and the writer of lists agree. What a bracket stands next to inside never
clashes with it, so the list needs no comment where the tree has none. -/
theorem written_eq (t : Token) (h : Lexeme.Sourced t.flat) :
    t.written = Lexeme.text (Lexeme.glued t.flat) := by
  match t with
  | .atom a => simp [written, flat, Lexeme.glued, Lexeme.text, Lexeme.written]
  | .function name arguments =>
    have harg : Lexeme.Sourced (listFlat arguments) :=
      h.of_isInfix ⟨[.openFunction name], [.close .round], by simp [flat]⟩
    rw [written, lastEndsInOpenString_eq harg, flat,
      Lexeme.glued_brackets (by simp [Lexeme.joint]), listWritten_eq arguments harg]
    simp [Lexeme.text, Lexeme.written, Bracket.closing]
  | .block b content =>
    have hcon : Lexeme.Sourced (listFlat content) :=
      h.of_isInfix ⟨[.openBlock b], [.close b], by simp [flat]⟩
    rw [written, flat, Lexeme.glued_brackets (joint_openBlock b), listWritten_eq content hcon]
    simp [Lexeme.text, Lexeme.written]

/-- The text of tokens of a source is that of their lexemes. -/
theorem listWritten_eq (ts : List Token) (h : Lexeme.Sourced (listFlat ts)) :
    listWritten ts = Lexeme.text (Lexeme.glued (listFlat ts)) := by
  match ts with
  | [] => rfl
  | t :: ts =>
    have ht : Lexeme.Sourced t.flat := by
      rw [listFlat] at h
      exact h.left
    have hts : Lexeme.Sourced (listFlat ts) := by
      rw [listFlat] at h
      exact h.of_append
    rw [listWritten, glueBefore_eq h, written_eq t ht, listWritten_eq ts hts, listFlat,
      Lexeme.glued_append, seam_flat, Lexeme.text_append, Lexeme.text_append]

end

end Token

end CssExpand.Syntax
