import Marmoset.Number.Binary

namespace Marmoset.Number

/-!
The decimal form of a double: the fewest digits that read back as the same double, and among those
the digits nearest to it.
-/

structure Decimal where
  digits : Nat
  exponent : Int
deriving DecidableEq, Repr

/-- The exact value of a positive double and the ends of the interval that rounds to it, all over
one denominator. The ends belong to it when the mantissa is even. -/
structure Neighbourhood where
  value : Nat
  low : Nat
  high : Nat
  den : Nat
  closed : Bool
deriving Repr

def Neighbourhood.of (b : Binary) : Neighbourhood :=
  let below := if b.mantissa = leadingBit ∧ Binary.least < b.exponent then 1 else 2
  let e := b.exponent - 2
  let up := twoTo e.toNat
  ⟨4 * b.mantissa * up, (4 * b.mantissa - below) * up, (4 * b.mantissa + 2) * up,
    twoTo (-e).toNat, b.mantissa % 2 = 0⟩

def Neighbourhood.has (n : Neighbourhood) (x : Nat) : Bool :=
  if n.closed then n.low ≤ x && x ≤ n.high else n.low < x && x < n.high

def Neighbourhood.inUnits (n : Neighbourhood) (k : Int) : Neighbourhood :=
  let up := tenTo (-k).toNat
  ⟨n.value * up, n.low * up, n.high * up, n.den * tenTo k.toNat, n.closed⟩

/-- The multiple of the unit in the interval that is nearest to the value, and of two as near the
even one. -/
def Neighbourhood.nearest? (n : Neighbourhood) : Option Nat :=
  let near := roundDiv n.value n.den
  let far := if near * n.den ≤ n.value then near + 1 else near - 1
  if n.has (near * n.den) then some near
  else if n.has (far * n.den) then some far
  else none

def leadingPlace (num den : Nat) : Int :=
  if den ≤ num then ((Nat.toDigits 10 (num / den)).length : Int) - 1
  else
    let k := (Nat.toDigits 10 (den / num)).length
    if den ≤ num * tenTo (k - 1) then -((k : Int) - 1) else -(k : Int)

def Decimal.trim : Nat → Decimal → Decimal
  | 0, d => d
  | fuel + 1, d =>
      if d.digits ≠ 0 ∧ d.digits % 10 = 0 then Decimal.trim fuel ⟨d.digits / 10, d.exponent + 1⟩
      else d

/-- Seventeen digits are always enough. -/
def Decimal.shortest (b : Binary) : Decimal :=
  let n := Neighbourhood.of b
  let place := leadingPlace n.value n.den
  let found := (List.range 17).findSome? fun (i : Nat) =>
    (n.inUnits (place - i)).nearest?.map fun c => (⟨c, place - i⟩ : Decimal)
  Decimal.trim 17 (found.getD ⟨b.mantissa, b.exponent⟩)

/-- Positional notation from `0.0001` up to sixteen places before the point, and a mark for the
exponent, with a sign and two digits at least, beyond that. -/
def Decimal.text (d : Decimal) : String :=
  let ds := Nat.toDigits 10 d.digits
  let point := (ds.length : Int) + d.exponent
  let zeros (n : Int) := List.replicate n.toNat '0'
  String.ofList <|
    if -4 < point ∧ point ≤ 16 then
      if point ≤ 0 then '0' :: '.' :: zeros (-point) ++ ds
      else if (ds.length : Int) ≤ point then ds ++ zeros d.exponent ++ ['.', '0']
      else ds.take point.toNat ++ '.' :: ds.drop point.toNat
    else
      let e := point - 1
      let es := Nat.toDigits 10 e.natAbs
      let fraction := match ds.drop 1 with
        | [] => []
        | rest => '.' :: rest
      ds.take 1 ++ fraction ++ ['e', if e < 0 then '-' else '+'] ++ zeros (2 - es.length) ++ es

def doubleText (x : Float) : String :=
  if x.isNaN then "nan"
  else match Binary.ofFloat? x with
    | none => if x < 0.0 then "-inf" else "inf"
    | some b =>
        let sign := if b.negative then "-" else ""
        sign ++ (if b.mantissa = 0 then "0.0" else (Decimal.shortest b).text)

end Marmoset.Number
