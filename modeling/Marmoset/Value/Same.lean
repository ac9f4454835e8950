import Marmoset.Comparison
import Marmoset.Value

namespace Marmoset.Value

/-!
Equality of values. Arrays are equal when their elements are, in order, hashes when they have equal
entries under the same keys, in any order, and functions when they were made at the same time.
Values of different kinds are never equal.
-/

def sameEntries (same : Value → Value → Option Bool) (u : Table Value) : Table Value → Option Bool
  | [] => some true
  | e :: t =>
      match u.find? e.id with
      | none => some false
      | some f =>
          andThen (same e.key f.key) fun _ =>
            andThen (same e.value f.value) fun _ => sameEntries same u t

def sameParts (same : Value → Value → Option Bool) : Value → Value → Option Bool
  | .null, .null => some true
  | .boolean a, .boolean b => some (a == b)
  | .integer a, .integer b => some (a == b)
  | .double s x, .double t y => some (sameDouble s t x y)
  | .string a, .string b => some (a == b)
  | .array s xs, .array t ys => if s = t then some true else sameList same xs ys
  | .hash s t, .hash s' u =>
      if s = s' then some true
      else if t.length = u.length then sameEntries same u t
      else some false
  | .range a b, .range c d => some (a == c && b == d)
  | .function s _ _ _, .function t _ _ _ => some (s == t)
  | .builtin f, .builtin g => some (f == g)
  | .returned a, .returned b => same a b
  | .error f, .error g => some (f.message == g.message)
  | _, _ => some false

def same? : Nat → Value → Value → Option Bool
  | 0, _, _ => none
  | depth + 1, a, b => sameParts (same? depth) a b

def without? (depth : Nat) (x : Value) : List Value → Option (List Value)
  | [] => some []
  | y :: ys =>
      match same? depth y x with
      | none => none
      | some true => some ys
      | some false => (without? depth x ys).map (y :: ·)

def difference? (depth : Nat) (xs ys : List Value) : Option (List Value) :=
  ys.foldlM (fun rest y => without? depth y rest) xs

end Marmoset.Value
