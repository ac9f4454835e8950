import Marmoset.Token
import Marmoset.Tree

namespace Marmoset

inductive Mistake where
  | expected (wanted found : Token.Kind)
  | noExpression (found : Token.Kind)
  | tooLarge (literal : String)
deriving DecidableEq, Repr, Inhabited

def Mistake.message : Mistake → String
  | .expected wanted found =>
      "expected next token to be " ++ wanted.name ++ ", got " ++ found.name ++ " instead"
  | .noExpression found => "no prefix parse function for " ++ found.name ++ " found"
  | .tooLarge literal => "could not parse " ++ literal ++ " as integer"

/-- The tokens left, the first of which is the current one, and the mistakes found so far. Past the
last token there are end tokens only. -/
structure Reading where
  tokens : List Token
  mistakes : Array Mistake
deriving Repr

inductive Reading.Stop where
  | mistaken
  | tooDeep
deriving DecidableEq, Repr

/-- Reading a part of a tree. A mistake leaves the tokens where it was found. -/
abbrev Read := EStateM Reading.Stop Reading

namespace Read

def endToken : Token := ⟨.eof, "", Pos.absent⟩

def current : Read Token := do
  return (← get).tokens.head?.getD endToken

def currentKind : Read Token.Kind := do
  return (← current).kind

def nextKind : Read Token.Kind := do
  return ((← get).tokens.tail.head?.getD endToken).kind

def advance : Read Unit :=
  modify fun r => { r with tokens := r.tokens.tail }

def mistake {α : Type} (m : Mistake) : Read α := do
  modify fun r => { r with mistakes := r.mistakes.push m }
  throw .mistaken

def expect (kind : Token.Kind) : Read Unit := do
  let found ← nextKind
  if found = kind then advance else mistake (.expected kind found)

def skip (kind : Token.Kind) : Read Unit := do
  if (← nextKind) = kind then advance

def attempt {α : Type} (part : Read α) : Read (Option α) := fun r =>
  match part r with
  | .ok a r => .ok (some a) r
  | .error .mistaken r => .ok none r
  | .error .tooDeep r => .error .tooDeep r

/-- The part that was attempted; its mistake has been noted. -/
def require {α : Type} : Option α → Read α
  | some a => pure a
  | none => throw .mistaken

end Read

end Marmoset
