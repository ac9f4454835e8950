namespace Marmoset

/-- A place in a text: lines and columns count from one. -/
structure Pos where
  line : Nat
  col : Nat
deriving DecidableEq, Repr, Inhabited

namespace Pos

def start : Pos := ⟨1, 1⟩

def absent : Pos := ⟨0, 0⟩

def step (p : Pos) (c : Char) : Pos :=
  if c = '\n' then ⟨p.line + 1, 1⟩ else ⟨p.line, p.col + 1⟩

def after (p : Pos) (cs : List Char) : Pos :=
  cs.foldl step p

@[simp]
theorem after_nil (p : Pos) : p.after [] = p := rfl

@[simp]
theorem after_cons (p : Pos) (c : Char) (cs : List Char) :
    p.after (c :: cs) = (p.step c).after cs := rfl

theorem after_append (p : Pos) (cs ds : List Char) :
    p.after (cs ++ ds) = (p.after cs).after ds :=
  List.foldl_append

end Pos

end Marmoset
