import CssExpand.Proofs.Sheet.Significant

/-!
# Chunks of a body

A body is read chunk by chunk, and a semicolon ends a chunk whatever stands around it. So bodies with
a semicolon between them are read as if they stood alone (`readBody_append`): what cannot be read as
a declaration reaches no further than to the next semicolon. A chunk gives its leading comments and
one node for all the rest of it, so that nothing of a chunk is lost either (`readBody_chunkwise`).
-/

set_option autoImplicit false

namespace CssExpand

open Syntax

/-! ## 1. One chunk -/

/-- The comments that a chunk starts with. -/
def leadingComments (ts : List Token) : List Node :=
  ((ts.takeWhile (!·.isSignificant)).filterMap commentText?).map Node.comment

/-- Whether a node stands for the text of a chunk itself: it is a declaration or a raw piece. -/
def Node.isEntry : Node → Bool
  | .declaration _ | .raw _ => true
  | .comment _ | .rule _ _ | .atStatement _ _ _ | .atBlock _ _ _ _ => false

theorem isEntry_of_mem_leadingComments {ts : List Token} {n : Node} (h : n ∈ leadingComments ts) :
    n.isEntry = false := by
  obtain ⟨text, -, rfl⟩ := List.mem_map.mp h
  rfl

/-- The node for what follows the leading comments of a chunk. -/
theorem readChunk_entry (ts : List Token) : ∃ entry : Option Node,
    readChunk ts = leadingComments ts ++ entry.toList ∧ (∀ n ∈ entry, n.isEntry = true) ∧
      (entry.isSome ↔ ∃ t ∈ ts, t.isSignificant) := by
  induction ts with
  | nil => exact ⟨none, rfl, by simp, by simp⟩
  | cons t ts ih =>
    cases ht : t.isSignificant with
    | true =>
      -- Here the comments end, and what is left makes one node.
      refine ⟨some ((readDeclaration? (t :: ts)).elim (.raw (authoredText (t :: ts)))
        Node.declaration), ?_, ?_, by simp [ht]⟩
      · simp [readChunk_significant ht, leadingComments, ht]
      · intro n hn
        rw [← Option.some.inj hn]
        cases readDeclaration? (t :: ts) <;> rfl
    | false =>
      obtain ⟨entry, hread, hentry, hiff⟩ := ih
      have hstep : readChunk (t :: ts) = leadingComments (t :: ts) ++ entry.toList := by
        match t, ht with
        | .atom (.whitespace text), _ => exact hread
        | .atom (.comment text), _ =>
          rw [readChunk_comment, hread]
          rfl
      exact ⟨entry, hstep, hentry, by simp [hiff, ht]⟩

/-! ## 2. Chunks side by side -/

/-- What ends a chunk. -/
def semicolon : Token := .atom (.literal [';'])

/-- A separator outside both lists cuts between them. -/
theorem splitAt_append_cons {separates : Token → Bool} {s : Token} (hs : separates s)
    (xs ys : List Token) : Token.splitAt separates (xs ++ s :: ys) =
      Token.splitAt separates xs ++ Token.splitAt separates ys := by
  obtain ⟨piece, pieces, hys⟩ := List.exists_cons_of_ne_nil (splitAt_ne_nil separates ys)
  induction xs with
  | nil => simp [Token.splitAt, hys, hs]
  | cons x xs ih =>
    obtain ⟨first, others, hxs⟩ := List.exists_cons_of_ne_nil (splitAt_ne_nil separates xs)
    rw [List.cons_append, Token.splitAt, Token.splitAt, ih, hxs]
    cases separates x <;> rfl

theorem readBody_append (xs ys : List Token) :
    readBody (xs ++ semicolon :: ys) = readBody xs ++ readBody ys := by
  rw [readBody, splitAt_append_cons rfl, List.flatMap_append]
  rfl

/-- Without a semicolon a body is a single chunk. -/
theorem readBody_of_unended {ts : List Token} (h : ∀ t ∈ ts, t.isSemicolon = false) :
    readBody ts = readChunk ts := by
  have hsplit := splitAt_append h (t := semicolon) rfl []
  rw [splitAt_append_cons rfl] at hsplit
  have hone : Token.splitAt Token.isSemicolon ts = [ts] := List.append_cancel_right hsplit
  rw [readBody, hone, List.flatMap_singleton]

theorem readBody_intercalate (chunks : List (List Token)) :
    readBody ([semicolon].intercalate chunks) = chunks.flatMap readBody := by
  induction chunks with
  | nil => rfl
  | cons chunk chunks ih =>
    cases chunks with
    | nil => simp [List.intercalate]
    | cons next others =>
      have hcons : [semicolon].intercalate (chunk :: next :: others) =
          chunk ++ semicolon :: [semicolon].intercalate (next :: others) := by
        simp [List.intercalate, List.intersperse]
      rw [hcons, readBody_append, ih]
      rfl

/-- Every chunk with anything in it but whitespace and comments has a node of its own. -/
theorem countP_isEntry_readBody (ts : List Token) :
    (readBody ts).countP Node.isEntry =
      (Token.splitAt Token.isSemicolon ts).countP (·.any Token.isSignificant) := by
  have hchunk : ∀ chunk : List Token, (readChunk chunk).countP Node.isEntry =
      if chunk.any Token.isSignificant then 1 else 0 := by
    intro chunk
    obtain ⟨entry, hread, hentry, hiff⟩ := readChunk_entry chunk
    have hnone : (leadingComments chunk).countP Node.isEntry = 0 := by
      rw [List.countP_eq_zero]
      intro n hn
      simp [isEntry_of_mem_leadingComments hn]
    rw [hread, List.countP_append, hnone, Nat.zero_add]
    cases entry with
    | none =>
      have hany : chunk.any Token.isSignificant = false := by simpa using hiff
      simp [hany]
    | some n =>
      have hany : chunk.any Token.isSignificant = true := by simpa using hiff
      simp [hany, hentry n rfl]
  rw [readBody]
  induction Token.splitAt Token.isSemicolon ts with
  | nil => rfl
  | cons chunk chunks ih =>
    rw [List.flatMap_cons, List.countP_append, ih, hchunk, List.countP_cons, Nat.add_comm]

/-! ## 3. Bodies -/

/-- Bodies with semicolons between them are read one by one, so a chunk has no say in what the others
are read as. One chunk gives its leading comments and, if there is anything else in it, one
declaration or raw piece. So nothing gets lost in a body: there are as many entries as there are chunks
with something in them, in the order of the chunks. -/
theorem readBody_chunkwise :
    (∀ xs ys : List Token, readBody (xs ++ semicolon :: ys) = readBody xs ++ readBody ys) ∧
    (∀ chunks : List (List Token),
      readBody ([semicolon].intercalate chunks) = chunks.flatMap readBody) ∧
    (∀ ts : List Token, (readBody ts).countP Node.isEntry =
      (Token.splitAt Token.isSemicolon ts).countP (·.any Token.isSignificant)) ∧
    ∀ ts : List Token, (∀ t ∈ ts, t.isSemicolon = false) → ∃ entry : Option Node,
      readBody ts = leadingComments ts ++ entry.toList ∧ (∀ n ∈ entry, n.isEntry = true) ∧
        (entry.isSome ↔ ∃ t ∈ ts, t.isSignificant) := by
  refine ⟨readBody_append, readBody_intercalate, countP_isEntry_readBody, ?_⟩
  intro ts hts
  rw [readBody_of_unended hts]
  exact readChunk_entry ts

/-- The comment in front of a piece that is no declaration is a node of its own; the one behind it
belongs to the piece. -/
theorem readBody_chunkwise_starHack :
    (∀ t ∈ Token.ofChars "/*a*/ *zoom: 1 /*b*/".toList, t.isSemicolon = false) ∧
      ∃ entry : Option Node,
        readBody (Token.ofChars "/*a*/ *zoom: 1 /*b*/".toList) =
          leadingComments (Token.ofChars "/*a*/ *zoom: 1 /*b*/".toList) ++ entry.toList ∧
        (∀ n ∈ entry, n.isEntry = true) ∧
        (entry.isSome ↔ ∃ t ∈ Token.ofChars "/*a*/ *zoom: 1 /*b*/".toList, t.isSignificant) := by
  have hall : (Token.ofChars "/*a*/ *zoom: 1 /*b*/".toList).all (!·.isSemicolon) = true := by cbv
  have h : ∀ t ∈ Token.ofChars "/*a*/ *zoom: 1 /*b*/".toList, t.isSemicolon = false := by
    simpa using hall
  exact ⟨h, readBody_chunkwise.2.2.2 _ h⟩

end CssExpand
