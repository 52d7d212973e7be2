/-
Module: ScriptBytecode.Decimal.Shortest
Purpose: Decimal text of single-precision numbers. A number is written with the fewest digits that read back
  as it, and of those with the nearest; all digits are written out, without an exponent.
Main exports: shortestDecimal, positional, Single.text, Single.sourceText
-/
import ScriptBytecode.Single

namespace ScriptBytecode.Decimal

/-!
### The rounding interval

The finite number `m * 2 ^ e` is read from every decimal between the midpoints to its two neighbours. Scaled
by four, the interval of `m` runs from `4 * m - 2` (or `4 * m - 1`, where the neighbour below is only half as
far) to `4 * m + 2`, and its ends belong to it exactly when `m` is even. All comparisons below are made in
natural numbers: a quantity `x * 2 ^ e * 10 ^ s` is kept as a fraction over a common denominator.
-/

/-- The decimals that read back as one number, over a common denominator: `value`, the interval around it,
    and whether the interval's ends belong to it. -/
structure Interval where
  low : Nat
  value : Nat
  high : Nat
  denominator : Nat
  closed : Bool
deriving Repr, Inhabited

/-- The interval of `m * 2 ^ e`. The neighbour below is half as far away when `m` is the least mantissa of
    its exponent and there is a smaller exponent. -/
def Interval.ofFinite (m : Nat) (e : Int) : Interval :=
  let near := if m = 0x800000 ∧ -149 < e then 1 else 2
  let scale := Nat.pow 2 e.toNat
  { low := (4 * m - near) * scale
    value := 4 * m * scale
    high := (4 * m + 2) * scale
    denominator := 4 * Nat.pow 2 (-e).toNat
    closed := m % 2 = 0 }

/-- The decimal `digits * 10 ^ exponent` lies in the interval. -/
def Interval.contains (i : Interval) (digits : Nat) (exponent : Int) : Bool :=
  let x := digits * Nat.pow 10 exponent.toNat * i.denominator
  let scale := Nat.pow 10 (-exponent).toNat
  if i.closed then i.low * scale ≤ x && x ≤ i.high * scale
  else i.low * scale < x && x < i.high * scale

/-- The decimal on the grid of `10 ^ exponent` nearest to the value among those of its two neighbours on
    that grid that lie in the interval; of two equally near ones, the larger. -/
def Interval.pick? (i : Interval) (exponent : Int) : Option Nat :=
  let unit := Nat.pow 10 exponent.toNat * i.denominator
  let scaled := i.value * Nat.pow 10 (-exponent).toNat
  let below := scaled / unit
  let rest := scaled % unit
  let lower := if 0 < below && i.contains below exponent then some below else none
  let upper := if i.contains (below + 1) exponent then some (below + 1) else none
  match lower, upper with
  | some a, some b =>
    if 2 * rest < unit then some a else some b
  | some a, none => some a
  | none, upper => upper

/-- The first grid, from the coarsest, on which the interval has a decimal. -/
def Interval.search (i : Interval) : (grids : Nat) → (exponent : Int) → Nat × Int
  | 0, exponent => (0, exponent)
  | grids + 1, exponent =>
    match i.pick? exponent with
    | some digits => (digits, exponent)
    | none => i.search grids (exponent - 1)

/-- Digits and exponent of the shortest decimal of `m * 2 ^ e`, for `m` above zero. Single-precision
    numbers lie below `10 ^ 39` and above `10 ^ (-46)`, and nine digits are always enough. -/
def shortestDecimal (m : Nat) (e : Int) : Nat × Int :=
  (Interval.ofFinite m e).search 100 39

/-- The decimal `digits * 10 ^ exponent`, written out. -/
def positional (digits : Nat) (exponent : Int) : String :=
  if 0 ≤ exponent then
    toString (digits * Nat.pow 10 exponent.toNat)
  else
    let places := (-exponent).toNat
    let fraction := toString (digits % Nat.pow 10 places)
    let zeros := String.ofList (List.replicate (places - fraction.length) '0')
    toString (digits / Nat.pow 10 places) ++ "." ++ zeros ++ fraction

end ScriptBytecode.Decimal

namespace ScriptBytecode.Single

/-- Sign of a number's text. -/
def sign (v : Single) : String := if v.isNegative then "-" else ""

/-- Text of a number: fewest digits, no exponent, and nothing after the point of a whole number. -/
def text (v : Single) : String :=
  match v.magnitude with
  | .notANumber => "NaN"
  | .infinite => v.sign ++ "inf"
  | .finite 0 _ => v.sign ++ "0"
  | .finite m e =>
    let (digits, exponent) := Decimal.shortestDecimal m e
    v.sign ++ Decimal.positional digits exponent

/-- The absolute value of a whole number below `10 ^ 9`. -/
def smallWhole? (v : Single) : Option Nat :=
  match v.magnitude with
  | .finite m e =>
    let scale := Nat.pow 2 (-e).toNat
    let whole := m * Nat.pow 2 e.toNat / scale
    if m % scale = 0 ∧ whole < 1000000000 then some whole else none
  | _ => none

/-- Text of a number in source: whole numbers below `10 ^ 9` get one decimal. -/
def sourceText (v : Single) : String :=
  match v.smallWhole? with
  | some whole => v.sign ++ toString whole ++ ".0"
  | none => v.text

end ScriptBytecode.Single
