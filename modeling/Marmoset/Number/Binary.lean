namespace Marmoset.Number

/-!
Doubles as exact numbers: a finite double is a sign and `mantissa * 2 ^ exponent`. A ratio of natural
numbers is rounded to the nearest double, and to the one with the even mantissa between two.
-/

structure Binary where
  negative : Bool
  mantissa : Nat
  exponent : Int
deriving DecidableEq, Repr

def twoTo (n : Nat) : Nat := Nat.pow 2 n

def tenTo (n : Nat) : Nat := Nat.pow 10 n

def leadingBit : Nat := twoTo 52

/-- The exponent of the least positive double. -/
def Binary.least : Int := -1074

def infinityBits : Nat := 0x7ff0000000000000

def Binary.ofFloat? (x : Float) : Option Binary :=
  let bits : Nat := x.toBits.toNat
  let field : Nat := bits / leadingBit % twoTo 11
  let fraction := bits % leadingBit
  let negative := bits / twoTo 63 = 1
  if field = 2047 then none
  else if field = 0 then some ⟨negative, fraction, Binary.least⟩
  else some ⟨negative, fraction + leadingBit, (field : Int) - 1075⟩

/-- The quotient rounded to the nearest natural number, a half to the even one. -/
def roundDiv (num den : Nat) : Nat :=
  let q := num / den
  let r := num % den
  if 2 * r < den then q
  else if den < 2 * r then q + 1
  else if q % 2 = 0 then q else q + 1

def scaled (num den : Nat) (e : Int) : Nat × Nat :=
  if 0 ≤ e then (num, den * twoTo e.toNat) else (num * twoTo (-e).toNat, den)

/-- The exponent at which the ratio has a mantissa of 53 bits, or the least one. -/
def exponentOf (num den : Nat) : Int :=
  let guess := (num.log2 : Int) - den.log2 - 53
  let (n, d) := scaled num den guess
  max Binary.least (if n / d < twoTo 53 then guess else guess + 1)

/-- The bits of the positive double with this mantissa, of 53 bits unless the exponent is least. -/
def encode (mantissa : Nat) (exponent : Int) : Nat :=
  if mantissa < leadingBit then mantissa
  else min infinityBits ((exponent + 1075).toNat * leadingBit + (mantissa - leadingBit))

def ofRatio (num den : Nat) : Float :=
  if num = 0 then 0.0
  else
    let e := exponentOf num den
    let (n, d) := scaled num den e
    Float.ofBits (UInt64.ofNat (encode (roundDiv n d) e))

def withSign (negative : Bool) (x : Float) : Float :=
  if negative then -x else x

def ofInt (n : Int) : Float :=
  withSign (n < 0) (ofRatio n.natAbs 1)

def ofDecimal (digits : Nat) (exponent : Int) : Float :=
  if 0 ≤ exponent then ofRatio (digits * tenTo exponent.toNat) 1
  else ofRatio digits (tenTo (-exponent).toNat)

def notANumber : Float := 0.0 / 0.0

/-- What is left of `x` after taking away `y` as often as it fits; it has the sign of `x`. -/
def remainder (x y : Float) : Float :=
  match Binary.ofFloat? x, Binary.ofFloat? y with
  | none, _ => notANumber
  | some _, none => if y.isNaN then notANumber else x
  | some a, some b =>
      let e := min a.exponent b.exponent
      let m := a.mantissa * twoTo (a.exponent - e).toNat
      let n := b.mantissa * twoTo (b.exponent - e).toNat
      let r := m % n
      withSign a.negative (ofRatio (r * twoTo e.toNat) (twoTo (-e).toNat))

end Marmoset.Number
