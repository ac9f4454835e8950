import Marmoset.Number.Binary
import Marmoset.Number.Word

namespace Marmoset.Number

def digitValue (c : Char) : Nat := c.toNat - '0'.toNat

def digitsValue (ds : List Char) : Nat :=
  ds.foldl (fun n c => 10 * n + digitValue c) 0

def maxWordDigits : Nat := 19

/-- The value of an integer literal, unless it is beyond the words. Digits that are too many are
refused without working out their value. -/
def integer? (literal : String) : Option Int :=
  let ds := literal.toList.dropWhile (· == '0')
  if ds.length ≤ maxWordDigits then
    let n : Int := digitsValue ds
    if n ≤ maxWord then some n else none
  else none

def double (literal : String) : Float :=
  let whole := literal.toList.takeWhile (· != '.')
  let fraction := (literal.toList.dropWhile (· != '.')).drop 1
  ofDecimal (digitsValue (whole ++ fraction)) (-(fraction.length : Int))

def double? (text : String) : Option Float :=
  let cs := text.toList
  let negative := cs.head? = some '-'
  match if negative then cs.drop 1 else cs with
  | ['i', 'n', 'f'] => some (withSign negative (1.0 / 0.0))
  | ['n', 'a', 'n'] => some notANumber
  | ds =>
      let mantissa := ds.takeWhile (· != 'e')
      let power := (ds.dropWhile (· != 'e')).drop 1
      let whole := mantissa.takeWhile (· != '.')
      let fraction := (mantissa.dropWhile (· != '.')).drop 1
      let size : Int := digitsValue (power.dropWhile fun c => c == '+' || c == '-')
      let exponent := if power.head? = some '-' then -size else size
      if !whole.isEmpty && (whole ++ fraction).all Char.isDigit then
        some (withSign negative
          (ofDecimal (digitsValue (whole ++ fraction)) (exponent - fraction.length)))
      else none

end Marmoset.Number
