namespace Marmoset

/-!
Comparisons that may give up, with no answer: they go down only so many levels.
-/

def andThen : Option Bool → (Unit → Option Bool) → Option Bool
  | some true, next => next ()
  | answer, _ => answer

def allSame {α : Type} (same : α → α → Option Bool) : List α → List α → Option Bool
  | [], [] => some true
  | x :: xs, y :: ys => andThen (same x y) fun _ => allSame same xs ys
  | _, _ => some false

def sameList {α : Type} (same : α → α → Option Bool) (xs ys : List α) : Option Bool :=
  if xs.length = ys.length then allSame same xs ys else some false

def sameOption {α : Type} (same : α → α → Option Bool) : Option α → Option α → Option Bool
  | none, none => some true
  | some x, some y => same x y
  | _, _ => some false

end Marmoset
