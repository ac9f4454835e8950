namespace Marmoset

/-- Tells things apart that are made at different times. -/
abbrev Stamp := Nat

namespace Stamp

/-- The stamp of the undefined number that an infinity leaves when it is divided, and of the doubles
of a text, of which none is undefined. -/
def shared : Stamp := 0

def first : Stamp := 1

end Stamp

/-- Doubles are the same if they are equal, or if they are one undefined number. -/
def sameDouble (s t : Stamp) (x y : Float) : Bool :=
  x == y || (s == t && x.isNaN && y.isNaN)

end Marmoset
