import Unwind.Json.Value

/-!
# Numbers in JSON text

A number is an optional minus sign, digits without a needless zero in front, and perhaps a fraction
and an exponent. Its value is only of interest when it is an integer. Of every other number just the
range is checked, and the check has the accuracy of a quick conversion to a double: of the digits
those count that fit into 64 bits, they and the power of ten are each rounded to a double, and the
product of the two is rounded again. A number is out of range when that product is infinite, which
happens to a few numbers slightly below the largest double.
-/

namespace Unwind.Json

/-- The value of a decimal digit. -/
def digitValue (c : Char) : Nat := c.toNat - 48

/-- The value of a list of decimal digits. -/
def digitsValue (ds : List Char) : Nat := ds.foldl (fun n c => 10 * n + digitValue c) 0

/-! ## Range -/

/-- The number of binary digits of a double. -/
def doublePrecision : Nat := 53

/-- The least integer that is too large for a double, rounding to nearest. -/
def doubleLimit : Nat := Nat.pow 2 1024 - Nat.pow 2 970

/-- The double nearest to an integer, of two the one with the even last digit. -/
def nearestDouble (n : Nat) : Nat :=
  let unit := Nat.pow 2 (n.log2 + 1 - doublePrecision)
  let quotient := n / unit
  let rest := n % unit
  let up := unit < 2 * rest || (unit == 2 * rest && quotient % 2 == 1)
  (if up then quotient + 1 else quotient) * unit

/-- An integer of 64 bits, to be multiplied by a power of ten. -/
structure Scaled where
  significand : Nat
  exponent : Int

/-- Append digits to a significand as long as it fits into 64 bits, and count them. -/
def appendDigits (significand : Nat) : List Char → Nat × Nat
  | [] => (significand, 0)
  | d :: ds =>
    let next := 10 * significand + digitValue d
    if next < UInt64.size then
      let (result, count) := appendDigits next ds
      (result, count + 1)
    else (significand, 0)

/-- The leading digits of a number, of those before the point and then of those behind it. -/
def scaled (whole frac : List Char) (exponent : Int) : Scaled :=
  let (front, count) := appendDigits 0 whole
  let (significand, places) := appendDigits front frac
  { significand, exponent := (whole.length - count : Nat) - (places : Int) + exponent }

/-- The largest power of ten that is a double. -/
def maxExponent : Nat := 308

/-- The product, computed in doubles, is finite. -/
def inRange (s : Scaled) : Bool :=
  if s.exponent ≤ 0 || s.significand = 0 then true
  else if maxExponent < s.exponent then false
  else
    nearestDouble s.significand * nearestDouble (Nat.pow 10 s.exponent.toNat) < doubleLimit

/-! ## Text -/

/-- The exponent at the end of a number, `0` when there is none. -/
def exponent? : List Char → Option Int
  | [] => some 0
  | c :: cs =>
    if c = 'e' || c = 'E' then
      let (negative, ds) :=
        match cs with
        | '-' :: ds => (true, ds)
        | '+' :: ds => (false, ds)
        | ds => (false, ds)
      if ds.isEmpty || !ds.all Char.isDigit then none
      else some (if negative then -(digitsValue ds : Int) else digitsValue ds)
    else none

/-- The digits after the point and what follows them; no digits when there is no point. -/
def fraction? : List Char → Option (List Char × List Char)
  | '.' :: cs =>
    let ds := cs.takeWhile Char.isDigit
    if ds.isEmpty then none else some (ds, cs.dropWhile Char.isDigit)
  | cs => some ([], cs)

/-- A number without its sign. The digits before the point have no needless zero in front. A
number with a point or an exponent is no integer, whatever its value, and neither is `-0`. -/
def unsigned? (negative : Bool) (cs : List Char) (text : String) : Option Json := do
  let whole := cs.takeWhile Char.isDigit
  guard (!whole.isEmpty && (whole.length == 1 || whole.head? != some '0'))
  let tail := cs.dropWhile Char.isDigit
  let (frac, rest) ← fraction? tail
  let exp ← exponent? rest
  let n : Int := if negative then -(digitsValue whole : Int) else digitsValue whole
  if !inRange (scaled whole frac exp) then some .unreadable
  else if tail.isEmpty && fitsWord n && !(negative && n == 0) then some (.int n)
  else some (.real text)

/-- A number. A plus sign in its exponent says nothing and is not kept. -/
def number? (cs : List Char) : Option Json :=
  let text := String.ofList (cs.filter (· ≠ '+'))
  match cs with
  | '-' :: rest => unsigned? true rest text
  | _ => unsigned? false cs text

end Unwind.Json
