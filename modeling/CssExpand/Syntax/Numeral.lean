/-!
# Numerals

A numeral keeps the spelling of a number: an optional sign, digits, an optional fraction and an
optional exponent. Two readings matter to the rest of the library. The text, which every pass
writes back as the author wrote it (`chars`); and the value, which is the binary64 number nearest
to what is written. The value is never computed: the three questions asked of it are comparisons
of the exact decimal with the midpoint where the rounding tips (`compareTo`).
-/

set_option autoImplicit false

namespace CssExpand.Syntax

/-- A written sign. -/
inductive Sign where
  | plus
  | minus
  deriving DecidableEq, Repr

/-- The character of a sign. -/
def Sign.char : Sign → Char
  | .plus => '+'
  | .minus => '-'

/-- A written exponent, with the letter that introduces it. -/
structure Exponent where
  mark : Char
  sign : Option Sign
  digits : List Char
  deriving DecidableEq, Repr

/-- A written number. It is kept as it was written. Its value is asked for in a few comparisons only,
and these are decided on the digits. -/
structure Numeral where
  sign : Option Sign
  whole : List Char
  fraction : Option (List Char)
  exponent : Option Exponent
  deriving DecidableEq, Repr

/-! ## Spelling -/

/-- The characters of an optional sign. -/
def signChars (s : Option Sign) : List Char := (s.map Sign.char).toList

/-- The characters of an exponent. -/
def Exponent.chars (e : Exponent) : List Char := e.mark :: (signChars e.sign ++ e.digits)

namespace Numeral

/-- The characters of a numeral. -/
def chars (n : Numeral) : List Char :=
  signChars n.sign ++ n.whole ++ (n.fraction.map ('.' :: ·)).getD [] ++
    (n.exponent.map Exponent.chars).getD []

/-- Whether a numeral is written as an integer. -/
def isInteger (n : Numeral) : Bool := n.fraction.isNone && n.exponent.isNone

/-- The most digits an integer may be written with. -/
def digitLimit : Nat := 4300

/-- The number of digits of an integer that is written with too many of them. -/
def overlong? (n : Numeral) : Option Nat :=
  if n.isInteger && digitLimit < n.whole.length then some n.whole.length else none

end Numeral

/-! ## Reading -/

/-- Reads an optional sign. -/
def takeSign : List Char → Option Sign × List Char
  | '+' :: rest => (some .plus, rest)
  | '-' :: rest => (some .minus, rest)
  | cs => (none, cs)

/-- Reads a point with at least one digit after it. -/
def takeFraction : List Char → Option (List Char) × List Char
  | '.' :: rest =>
    if (rest.takeWhile Char.isDigit).isEmpty then (none, '.' :: rest)
    else (some (rest.takeWhile Char.isDigit), rest.dropWhile Char.isDigit)
  | cs => (none, cs)

/-- Reads an exponent: its letter, an optional sign and at least one digit. -/
def takeExponent : List Char → Option Exponent × List Char
  | [] => (none, [])
  | c :: rest =>
    let signed := takeSign rest
    if (c == 'e' || c == 'E') && !(signed.2.takeWhile Char.isDigit).isEmpty then
      (some ⟨c, signed.1, signed.2.takeWhile Char.isDigit⟩, signed.2.dropWhile Char.isDigit)
    else (none, c :: rest)

/-- Reads the longest numeral at the start, if there is one. -/
def Numeral.read? (cs : List Char) : Option (Numeral × List Char) :=
  let signed := takeSign cs
  let whole := signed.2.takeWhile Char.isDigit
  let fraction := takeFraction (signed.2.dropWhile Char.isDigit)
  if whole.isEmpty && fraction.1.isNone then none
  else
    let exponent := takeExponent fraction.2
    some (⟨signed.1, whole, fraction.1, exponent.1⟩, exponent.2)

theorem length_dropWhile_le {α : Type} (p : α → Bool) (l : List α) :
    (l.dropWhile p).length ≤ l.length :=
  (List.dropWhile_suffix p).length_le

theorem length_takeSign (cs : List Char) : (takeSign cs).2.length ≤ cs.length := by
  unfold takeSign; split <;> simp

theorem length_takeFraction (cs : List Char) : (takeFraction cs).2.length ≤ cs.length := by
  unfold takeFraction
  split
  · rename_i rest
    have := length_dropWhile_le Char.isDigit rest
    split
    · exact Nat.le_refl _
    · simp only [List.length_cons]
      omega
  · exact Nat.le_refl _

/-- A fraction that is read shortens the text. -/
theorem length_takeFraction_lt {cs : List Char} (h : (takeFraction cs).1.isSome) :
    (takeFraction cs).2.length < cs.length := by
  unfold takeFraction at h ⊢
  split at h
  · rename_i rest
    have := length_dropWhile_le Char.isDigit rest
    split at h
    · simp at h
    · rename_i hne
      simp only [hne, Bool.false_eq_true, if_false, List.length_cons]
      omega
  · simp at h

theorem length_takeExponent (cs : List Char) : (takeExponent cs).2.length ≤ cs.length := by
  unfold takeExponent
  split
  · simp
  · rename_i c rest
    have h1 := length_takeSign rest
    have h2 := length_dropWhile_le Char.isDigit (takeSign rest).2
    dsimp only
    split
    · simp only [List.length_cons]
      omega
    · exact Nat.le_refl _

/-- Reading a numeral shortens the text. -/
theorem Numeral.length_read_lt {cs rest : List Char} {n : Numeral}
    (h : Numeral.read? cs = some (n, rest)) : rest.length < cs.length := by
  simp only [Numeral.read?] at h
  split at h
  · simp at h
  · rename_i hne
    simp only [Option.some.injEq, Prod.mk.injEq] at h
    have h1 := length_takeSign cs
    have h2 := length_dropWhile_le Char.isDigit (takeSign cs).2
    have h3 := length_takeFraction ((takeSign cs).2.dropWhile Char.isDigit)
    have h4 := length_takeExponent (takeFraction ((takeSign cs).2.dropWhile Char.isDigit)).2
    rw [← h.2]
    by_cases hw : ((takeSign cs).2.takeWhile Char.isDigit).isEmpty
    · have hf : (takeFraction ((takeSign cs).2.dropWhile Char.isDigit)).1.isSome := by
        cases hf : (takeFraction ((takeSign cs).2.dropWhile Char.isDigit)).1 with
        | none => simp [hw, hf] at hne
        | some _ => rfl
      have := length_takeFraction_lt hf
      omega
    · have hsplit : ((takeSign cs).2.takeWhile Char.isDigit).length +
          ((takeSign cs).2.dropWhile Char.isDigit).length = (takeSign cs).2.length := by
        rw [← List.length_append, List.takeWhile_append_dropWhile]
      have : 0 < ((takeSign cs).2.takeWhile Char.isDigit).length := by
        rw [List.length_pos_iff]
        intro h0
        exact hw (by simp [h0])
      omega

/-! ## Value -/

/-- The number that decimal digits write. -/
def digitsValue (ds : List Char) : Nat := ds.foldl (fun n d => 10 * n + (d.toNat - '0'.toNat)) 0

namespace Numeral

/-- The digits of the whole part and the fraction, read as one number. -/
def mantissa (n : Numeral) : Nat := digitsValue (n.whole ++ n.fraction.getD [])

/-- The power of ten that the mantissa is multiplied by. -/
def scale (n : Numeral) : Int :=
  let written : Int :=
    match n.exponent with
    | none => 0
    | some e => if e.sign = some .minus then -(digitsValue e.digits) else digitsValue e.digits
  written - (n.fraction.getD []).length

/-- The magnitude of a numeral other than zero lies from `10 ^ (order - 1)` up to `10 ^ order`. -/
def order (n : Numeral) : Int :=
  ((n.whole ++ n.fraction.getD []).dropWhile (· == '0')).length + n.scale

/-- Compares the magnitude with `p / q`, a bound between `10 ^ (-400)` and `10 ^ 400`. The order
alone decides for magnitudes outside that span, so that no huge power is ever computed. -/
def compareTo (n : Numeral) (p q : Nat) : Ordering :=
  if n.mantissa = 0 then .lt
  else if 400 < n.order then .gt
  else if n.order < -400 then .lt
  else if 0 ≤ n.scale then compare (n.mantissa * Nat.pow 10 n.scale.toNat * q) p
  else compare (n.mantissa * q) (p * Nat.pow 10 (-n.scale).toNat)

/-- Whether the value is zero: half the least positive binary64 number still rounds down. -/
def isZero (n : Numeral) : Bool := (n.compareTo 1 (Nat.pow 2 1075)).isLE

/-- Whether the value is zero or positive. -/
def isNonnegative (n : Numeral) : Bool := n.sign != some .minus || n.isZero

/-- Whether the value is at least one and at most a thousand; both ends take in what rounds to
them. -/
def isOneToThousand (n : Numeral) : Bool :=
  n.sign != some .minus && (n.compareTo (Nat.pow 2 54 - 1) (Nat.pow 2 54)).isGE &&
    (n.compareTo (1000 * Nat.pow 2 44 + 1) (Nat.pow 2 44)).isLE

end Numeral

end CssExpand.Syntax
