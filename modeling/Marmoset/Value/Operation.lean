import Marmoset.Number.Word
import Marmoset.Value.Same

namespace Marmoset

def BinaryOp.holds? (op : BinaryOp) (less equal greater : Bool) : Option Bool :=
  match op with
  | .lt => some less
  | .gt => some greater
  | .le => some (less || equal)
  | .ge => some (greater || equal)
  | .eq => some equal
  | .ne => some !equal
  | _ => none

namespace Value

def maxLength : Int := 268435456

def invalid (l : Value) (op : BinaryOp) (r : Value) : Value :=
  if l.kind = r.kind then .error (.unknownBinary l.kind op.symbol r.kind)
  else .error (.typeMismatch l.kind op.symbol r.kind)

def unary (stamp : Stamp) (op : UnaryOp) (v : Value) : Value :=
  match op, v with
  | .not, v => .boolean !v.truthy
  | .neg, .integer n => .integer (Number.wrap (-n))
  | .neg, .double _ x => .double stamp (-x)
  | op, v => .error (.unknownUnary op.symbol v.kind)

def integers (op : BinaryOp) (a b : Int) : Value :=
  match op with
  | .add => .integer (Number.wrap (a + b))
  | .sub => .integer (Number.wrap (a - b))
  | .mul => .integer (Number.wrap (a * b))
  | .div =>
      match Number.quotient? a b with
      | some q => .integer (Number.wrap q)
      | none => .error .divisionByZero
  | .mod =>
      match Number.quotient? a b with
      | some q => .integer (Number.wrap (a - b * q))
      | none => .error .divisionByZero
  | op =>
      match op.holds? (a < b) (a = b) (b < a) with
      | some h => .boolean h
      | none => .error (.unknownBinary .integer op.symbol .integer)

/-- Arithmetic on doubles; the kinds are those of the operands before they became doubles. -/
def doubles (stamp : Stamp) (op : BinaryOp) (a b : Float) (l r : Value) : Value :=
  match op with
  | .add => .double stamp (a + b)
  | .sub => .double stamp (a - b)
  | .mul => .double stamp (a * b)
  | .div => if b == 0.0 then .error .divisionByZero else .double stamp (a / b)
  | .mod =>
      if b == 0.0 then .error .divisionByZero
      else if a.isInf then .double Stamp.shared Number.notANumber
      else .double stamp (Number.remainder a b)
  | op =>
      match op.holds? (a < b) (a == b) (b < a) with
      | some h => .boolean h
      | none => invalid l op r

def strings (op : BinaryOp) (a b : String) : Value :=
  match op with
  | .add => .string (a ++ b)
  | op =>
      match op.holds? (a < b) (a = b) (b < a) with
      | some h => .boolean h
      | none => .error (.unknownBinary .string op.symbol .string)

def repeated (s : String) (n : Int) : Value :=
  if maxLength < s.length * n then .error .tooLong
  else if s.isEmpty then .string ""
  else .string (Nat.repeat (· ++ s) n.toNat "")

def compared (depth : Nat) (op : BinaryOp) (l r : Value) : Option Value :=
  match op with
  | .eq => (same? depth l r).map .boolean
  | .ne => (same? depth l r).map fun b => .boolean !b
  | op => some (invalid l op r)

def arrays (depth : Nat) (stamp : Stamp) (op : BinaryOp) (xs ys : List Value) (l r : Value) :
    Option Value :=
  match op with
  | .add => some (.array stamp (xs ++ ys))
  | .sub => (difference? depth xs ys).map (.array stamp)
  | op => compared depth op l r

def hashes (depth : Nat) (stamp : Stamp) (op : BinaryOp) (t u : Table Value) (l r : Value) :
    Option Value :=
  match op with
  | .add => some (.hash stamp (t.union u))
  | .sub => some (.hash stamp (t.minus u))
  | op => compared depth op l r

/-- The value of an operation on two values. A new value gets the given stamp; there is no answer
where a comparison nests too deeply. -/
def binary (depth : Nat) (stamp : Stamp) (op : BinaryOp) (l r : Value) : Option Value :=
  match l, r with
  | .integer a, .integer b => some (integers op a b)
  | .integer a, .double _ y => some (doubles stamp op (Number.ofInt a) y l r)
  | .double _ x, .integer b => some (doubles stamp op x (Number.ofInt b) l r)
  | .double _ x, .double _ y => some (doubles stamp op x y l r)
  | .string a, .integer n =>
      match op with
      | .add => some (.string (a ++ toString n))
      | .mul => some (repeated a n)
      | op => compared depth op l r
  | .string a, .string b => some (strings op a b)
  | .array _ xs, .array _ ys => arrays depth stamp op xs ys l r
  | .hash _ t, .hash _ u => hashes depth stamp op t u l r
  | l, r => compared depth op l r

def rangeOf (lo hi : Value) : Value :=
  match lo, hi with
  | .integer a, .integer b => .range a b
  | l, r => invalid l (.unknown "..") r

def elementAt? (xs : List Value) (i : Int) : Option Value :=
  let j := if i < 0 then i + xs.length else i
  if 0 ≤ j ∧ j < xs.length then xs[j.toNat]? else none

def slice? (xs : List Value) (lo hi : Int) : Option (List Value) :=
  if 0 ≤ lo ∧ lo ≤ hi ∧ hi < xs.length then
    some ((xs.drop lo.toNat).take (hi - lo + 1).toNat)
  else none

def index (stamp : Stamp) (collection i : Value) : Value :=
  match collection, i with
  | .array _ xs, .integer n => (elementAt? xs n).getD .null
  | .array _ xs, .range lo hi => ((slice? xs lo hi).map (.array stamp)).getD .null
  | .hash _ t, i =>
      match i.key? with
      | none => .error (.unusableKey i.kind)
      | some k => ((Table.find? t k).map Entry.value).getD .null
  | c, _ => .error (.notIndexable c.kind)

end Value

end Marmoset
