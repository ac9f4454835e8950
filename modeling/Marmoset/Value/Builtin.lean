import Marmoset.Value

namespace Marmoset

/-- What a builtin function makes of its arguments; printing is left to the caller. -/
def Builtin.value (f : Builtin) (stamp : Stamp) (args : List Value) : Value :=
  match f, args with
  | .puts, _ => .null
  | .len, [.array _ xs] => .integer xs.length
  | .len, [.string s] => .integer s.length
  | .len, [v] => .error (.unsupported .len v.kind)
  | .first, [.array _ xs] => xs.head?.getD .null
  | .first, [.string s] => (s.toList.head?.map fun c => Value.string c.toString).getD .null
  | .last, [.array _ xs] => xs.getLast?.getD .null
  | .last, [.string s] => (s.toList.getLast?.map fun c => Value.string c.toString).getD .null
  | .rest, [.array _ (_ :: xs)] => .array stamp xs
  | .rest, [.array _ []] => .null
  | .push, [.array _ xs, v] => .array stamp (xs ++ [v])
  | .first, [v] => .error (.mustBe .first "ARRAY or STRING" v.kind)
  | .last, [v] => .error (.mustBe .last "ARRAY or STRING" v.kind)
  | .rest, [v] => .error (.mustBe .rest "ARRAY" v.kind)
  | .push, [v, _] => .error (.mustBe .push "ARRAY" v.kind)
  | .push, args => .error (.wrongCount args.length 2)
  | _, args => .error (.wrongCount args.length 1)

abbrev Registry := List (String × Builtin)

def Registry.standard : Registry :=
  Builtin.all.map fun f => (f.name, f)

end Marmoset
