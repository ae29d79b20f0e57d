import Sharp.Settings.Mark

/-!
# Natural numbers in settings

* `readDigits`: digits in some base, with `_` allowed between two of them.
* `readNatural`: a number with its sign or its base.
-/

namespace Sharp

def digitValue? (base : Nat) (c : Char) : Option Nat :=
  (hexValue? c).filter (· < base)

/-- Reads the digits after one that has been read; `value` is the number so far. -/
def readDigitsAfter (base value : Nat) : List Char → Option Nat
  | [] => some value
  | '_' :: c :: cs => do
    let digit ← digitValue? base c
    readDigitsAfter base (base * value + digit) cs
  | c :: cs => do
    let digit ← digitValue? base c
    readDigitsAfter base (base * value + digit) cs

def readDigits (base : Nat) : List Char → Option Nat
  | [] => none
  | c :: cs => do
    let digit ← digitValue? base c
    readDigitsAfter base digit cs

/-- Reads a decimal number, which starts with `0` only if it is `0`. -/
def readDecimal : List Char → Option Nat
  | ['0'] => some 0
  | '0' :: _ => none
  | cs => readDigits 10 cs

/-- Numbers have 64 bits with a sign, so this is the largest one. -/
def maxNatural : Nat :=
  9223372036854775807

/-- Reads a number that is not negative.  A decimal number may have a sign; other numbers start with
the letter of their base. -/
def readNatural (text : String) : Option Nat :=
  (readAny text.toList).filter (· ≤ maxNatural)
where
  readAny : List Char → Option Nat
    | '0' :: 'x' :: cs => readDigits 16 cs
    | '0' :: 'o' :: cs => readDigits 8 cs
    | '0' :: 'b' :: cs => readDigits 2 cs
    | '+' :: cs => readDecimal cs
    | '-' :: cs => (readDecimal cs).filter (· = 0)
    | cs => readDecimal cs

end Sharp
