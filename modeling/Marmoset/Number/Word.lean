namespace Marmoset.Number

/-- Integers of the language have 64 bits, one of them for the sign. -/
def minWord : Int := -9223372036854775808

def maxWord : Int := 9223372036854775807

def InWord (n : Int) : Prop := minWord ≤ n ∧ n ≤ maxWord

def wordCount : Int := 18446744073709551616

def wrap (n : Int) : Int := (n - minWord) % wordCount + minWord

theorem wrap_inWord (n : Int) : InWord (wrap n) := by
  unfold InWord wrap wordCount minWord maxWord
  omega

theorem wrap_of_inWord {n : Int} (h : InWord n) : wrap n = n := by
  unfold InWord minWord maxWord at h
  unfold wrap wordCount minWord
  omega

/-- The quotient of `a` by `b` without its fraction: that of their sizes, with a minus if just one of them
has one. There is none by zero. -/
def quotient? (a b : Int) : Option Int :=
  if b = 0 then none
  else
    let q : Int := a.natAbs / b.natAbs
    some (if decide (a < 0) != decide (b < 0) then -q else q)

end Marmoset.Number
