import CssExpand.Pass
import CssExpand.Sheet.Rules

/-!
# The shape of parsed stylesheets

The type of nodes admits every node everywhere. What the parser builds is narrower: bodies hold
declarations, raw pieces and comments (`Node.InBody`), lists of rules hold rules, at-rules and
comments (`Node.InRules`), and every property name was put into the case that its kind asks for.
-/

set_option autoImplicit false

namespace CssExpand

open Syntax

/-- What the parser puts into a body. -/
inductive Node.InBody : Node → Prop
  | declaration (name : List Char) (value : String) (important : Bool) :
    InBody (.declaration ⟨propertyName name, value, important⟩)
  | raw (text : String) : InBody (.raw text)
  | comment (text : String) : InBody (.comment text)

/-- What the parser puts into a list of rules. -/
inductive Node.InRules : Node → Prop
  | comment (text : String) : InRules (.comment text)
  | rule (selector : String) {nodes : List Node} (body : ∀ n ∈ nodes, n.InBody) :
    InRules (.rule selector nodes)
  | atStatement (name prelude : String) (nested : Bool) : InRules (.atStatement name prelude nested)
  | atRules (name prelude : String) {nodes : List Node} (rules : ∀ n ∈ nodes, n.InRules) :
    InRules (.atBlock name prelude true nodes)
  | atBody (name prelude : String) {nodes : List Node} (body : ∀ n ∈ nodes, n.InBody) :
    InRules (.atBlock name prelude false nodes)

/-! ## 1. Bodies -/

theorem inBody_of_readDeclaration? {ts : List Token} {d : Declaration}
    (h : readDeclaration? ts = some d) : Node.InBody (.declaration d) := by
  rw [readDeclaration?] at h
  split at h
  · next name rest _ =>
    split at h
    · split at h
      · obtain ⟨value, -, rfl⟩ := Option.map_eq_some_iff.mp h
        exact .declaration name _ _
      · cases h
    · cases h
  · cases h

theorem inBody_of_readChunk {ts : List Token} {n : Node} (h : n ∈ readChunk ts) : n.InBody := by
  rw [readChunk, List.mem_append] at h
  rcases h with h | h
  · obtain ⟨text, -, rfl⟩ := List.mem_map.mp h
    exact .comment text
  · split at h
    · cases h
    · split at h
      · next d hd =>
        rw [List.mem_singleton.mp h]
        exact inBody_of_readDeclaration? hd
      · rw [List.mem_singleton.mp h]
        exact .raw _

theorem inBody_of_readBody {ts : List Token} {n : Node} (h : n ∈ readBody ts) : n.InBody := by
  obtain ⟨chunk, -, h⟩ := List.mem_flatMap.mp h
  exact inBody_of_readChunk h

/-! ## 2. Rules -/

/-- What one token completes is a comment or a rule without a block, or nothing. -/
theorem inRules_of_take {top : Bool} {pending : Pending} {t : Token} {n : Node}
    (h : n ∈ (pending.take top t).1) : n.InRules := by
  unfold Pending.take at h
  split at h
  · split at h
    · cases h
    · rw [List.mem_singleton.mp h]
      exact .comment _
    · cases h
    · cases h
  · cases h
  · split at h
    · rw [List.mem_singleton.mp h]
      exact .atStatement _ _ _
    · cases h

theorem inRules_of_finish {pending : Pending} {ns : List Node} (h : pending.finish = .ok ns) :
    ∀ n ∈ ns, n.InRules := by
  cases pending with
  | nothing =>
    cases h
    exact fun _ hn => absurd hn List.not_mem_nil
  | rule => cases h
  | atRule name prelude =>
    cases h
    intro n hn
    rw [List.mem_singleton.mp hn]
    exact .atStatement _ _ _

/-- A closed node has the shape that its content has. -/
theorem inRules_close (pending : Pending) {nodes : List Node}
    (h : if pending.wantsRules then ∀ n ∈ nodes, n.InRules else ∀ n ∈ nodes, n.InBody) :
    (pending.close nodes).InRules := by
  cases pending with
  | nothing => exact .rule _ h
  | rule => exact .rule _ h
  | atRule name prelude =>
    rw [Pending.wantsRules] at h
    rw [Pending.close]
    split at h
    · next hr =>
      rw [hr]
      exact .atRules _ _ h
    · next hr =>
      rw [Bool.eq_false_iff.mpr hr]
      exact .atBody _ _ h

theorem of_mapError {α ε δ : Type} {f : ε → δ} {x : Except ε α} {a : α}
    (h : x.mapError f = .ok a) : x = .ok a := by
  cases x with
  | ok =>
    cases h
    rfl
  | error => cases h

mutual

/-- What is in a block has the shape that the reader of the block gives. The two proofs call each
other as the two readers do. -/
theorem shape_of_readBlock (asRules : Bool) : ∀ (t : Token) {ns : List Node},
    readBlock asRules t = .ok ns →
    if asRules then ∀ n ∈ ns, n.InRules else ∀ n ∈ ns, n.InBody
  | .block .curly content, ns, h => by
    rw [readBlock] at h
    cases asRules with
    | true => exact inRules_of_readRules false .nothing content (of_mapError h)
    | false =>
      cases h
      exact fun n hn => inBody_of_readBody hn
  | .block .round _, ns, h => by
    cases h
    split <;> exact fun _ hn => absurd hn List.not_mem_nil
  | .block .square _, ns, h => by
    cases h
    split <;> exact fun _ hn => absurd hn List.not_mem_nil
  | .function _ _, ns, h => by
    cases h
    split <;> exact fun _ hn => absurd hn List.not_mem_nil
  | .atom _, ns, h => by
    cases h
    split <;> exact fun _ hn => absurd hn List.not_mem_nil

/-- A list of rules holds nothing that only a body may hold, whatever is pending. -/
theorem inRules_of_readRules (top : Bool) (pending : Pending) : ∀ (ts : List Token)
    {ns : List Node}, readRules top pending ts = .ok ns → ∀ n ∈ ns, n.InRules
  | [], ns, h => inRules_of_finish h
  | t :: ts, ns, h => by
    rw [readRules] at h
    split at h
    · cases hb : readBlock pending.wantsRules t with
      | error e =>
        rw [hb] at h
        cases h
      | ok nodes =>
        rw [hb] at h
        change ((readRules top .nothing ts).mapError _).map _ = _ at h
        cases hr : readRules top .nothing ts with
        | error e =>
          rw [hr] at h
          cases h
        | ok rest =>
          rw [hr] at h
          cases h
          intro n hn
          rcases List.mem_cons.mp hn with rfl | hn
          · exact inRules_close pending (shape_of_readBlock _ t hb)
          · exact inRules_of_readRules top .nothing ts hr n hn
    · dsimp only at h
      cases hr : readRules top (pending.take top t).2 ts with
      | error e =>
        rw [hr] at h
        cases h
      | ok rest =>
        rw [hr] at h
        cases h
        intro n hn
        rcases List.mem_append.mp hn with hn | hn
        · exact inRules_of_take hn
        · exact inRules_of_readRules top _ ts hr n hn

end

/-- A text that parses has no overlong integer, and the rules are read from its tokens. -/
theorem readRules_of_parse {css : String} {sheet : Sheet} (h : Sheet.parse css = .ok sheet) :
    checkIntegers css = .ok () ∧ readRules true .nothing (Token.ofChars css.toList) = .ok sheet := by
  rw [Sheet.parse] at h
  cases hc : checkIntegers css with
  | error e =>
    rw [hc] at h
    cases h
  | ok =>
    rw [hc] at h
    exact ⟨rfl, of_mapError h⟩

/-- Every parsed stylesheet is a list of rules. -/
theorem inRules_of_parse {css : String} {sheet : Sheet} (h : Sheet.parse css = .ok sheet) :
    ∀ n ∈ sheet, n.InRules :=
  inRules_of_readRules true .nothing _ (readRules_of_parse h).2

/-! ## 3. Bodies that a pass goes to -/

mutual

theorem inBody_of_bodies (p : Pass) : ∀ {n : Node}, n.InRules →
    ∀ body ∈ p.bodies n, ∀ m ∈ body, m.InBody
  | .rule _ nodes, .rule _ hn, body, hb => List.mem_singleton.mp hb ▸ hn
  | .atBlock _ _ true nodes, .atRules _ _ hn, body, hb => inBody_of_listBodies p hn body hb
  | .atBlock _ _ false nodes, .atBody _ _ hn, body, hb => by
    rw [Pass.bodies] at hb
    split at hb
    · exact List.mem_singleton.mp hb ▸ hn
    · cases hb
  | .comment _, _, _, hb => absurd hb List.not_mem_nil
  | .atStatement _ _ _, _, _, hb => absurd hb List.not_mem_nil

/-- The bodies that a pass goes to are bodies that the parser makes. -/
theorem inBody_of_listBodies (p : Pass) : ∀ {ns : List Node}, (∀ n ∈ ns, n.InRules) →
    ∀ body ∈ p.listBodies ns, ∀ m ∈ body, m.InBody
  | [], _, _, hb => absurd hb List.not_mem_nil
  | n :: ns, h, body, hb => by
    rw [List.forall_mem_cons] at h
    rw [Pass.listBodies, List.mem_append] at hb
    rcases hb with hb | hb
    · exact inBody_of_bodies p h.1 body hb
    · exact inBody_of_listBodies p h.2 body hb

end

/-- A declaration in a parsed body has a name in the case that its kind asks for. -/
theorem exists_propertyName {body : List Node} (h : ∀ m ∈ body, m.InBody) {d : Declaration}
    (hd : d ∈ Node.declarations body) : ∃ name, d.prop = propertyName name := by
  obtain ⟨m, hm, hmd⟩ := List.mem_filterMap.mp hd
  cases h m hm with
  | declaration name value important =>
    cases hmd
    exact ⟨name, rfl⟩
  | raw => cases hmd
  | comment => cases hmd

end CssExpand
