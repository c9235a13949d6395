/-!
# Numbers and blanks in arguments

Numbers on the command line and in the environment are decimal, with an optional sign. Blanks are
the characters of Unicode's `White_Space` property.
-/

namespace Unwind.CommandLine

/-- The characters that are trimmed off. -/
def isBlank (c : Char) : Bool :=
  let n := c.toNat
  (9 ≤ n && n ≤ 13) || n == 32 || n == 0x85 || n == 0xA0 || n == 0x1680 ||
    (0x2000 ≤ n && n ≤ 0x200A) || n == 0x2028 || n == 0x2029 || n == 0x202F || n == 0x205F ||
    n == 0x3000

/-- Drop the blanks on both sides. -/
def trimBlanks (s : String) : String :=
  let front := s.toList.dropWhile isBlank
  String.ofList (front.reverse.dropWhile isBlank).reverse

/-- The value of at least one decimal digit. -/
def digits? (cs : List Char) : Option Nat :=
  if cs.isEmpty || !cs.all Char.isDigit then none
  else some (cs.foldl (fun n c => 10 * n + (c.toNat - 48)) 0)

/-- A number without a minus sign, below `bound`. -/
def natBelow? (bound : Nat) (s : String) : Option Nat :=
  let n? :=
    match s.toList with
    | '+' :: cs => digits? cs
    | cs => digits? cs
  n?.filter (· < bound)

/-- A number whose value lies below `bound` and is not negative; `-0` is a way to write zero. -/
def signedBelow? (bound : Nat) (s : String) : Option Nat :=
  match s.toList with
  | '-' :: cs => (digits? cs).filter (· == 0)
  | _ => natBelow? bound s

end Unwind.CommandLine
