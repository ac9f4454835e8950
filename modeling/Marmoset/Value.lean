import Marmoset.Text.Digest
import Marmoset.Tree.Text
import Marmoset.Value.Table

namespace Marmoset

inductive Value.Kind where
  | integer | double | boolean | string | null | array | hash | range | function | builtin
  | returned | error
deriving DecidableEq, Repr, Inhabited

def Value.Kind.name : Value.Kind → String
  | .integer => "INTEGER"
  | .double => "DOUBLE"
  | .boolean => "BOOLEAN"
  | .string => "STRING"
  | .null => "NULL"
  | .array => "ARRAY"
  | .hash => "HASH"
  | .range => "RANGE"
  | .function => "FUNCTION"
  | .builtin => "BUILTIN"
  | .returned => "RETURN_VALUE"
  | .error => "ERROR"

inductive Builtin where
  | len | puts | first | last | rest | push
deriving DecidableEq, Repr, Inhabited

def Builtin.all : List Builtin := [.len, .puts, .first, .last, .rest, .push]

def Builtin.name : Builtin → String
  | .len => "len"
  | .puts => "puts"
  | .first => "first"
  | .last => "last"
  | .rest => "rest"
  | .push => "push"

inductive Failure where
  | typeMismatch (left : Value.Kind) (op : String) (right : Value.Kind)
  | unknownBinary (left : Value.Kind) (op : String) (right : Value.Kind)
  | unknownUnary (op : String) (operand : Value.Kind)
  | notFound (name : String)
  | notCallable (kind : Value.Kind)
  | unusableKey (kind : Value.Kind)
  | notIndexable (kind : Value.Kind)
  | wrongCount (got want : Nat)
  | unsupported (callee : Builtin) (got : Value.Kind)
  | mustBe (callee : Builtin) (want : String) (got : Value.Kind)
  | divisionByZero
  | tooLong
  | other (message : String)
deriving DecidableEq, Repr, Inhabited

def Failure.message : Failure → String
  | .typeMismatch l op r => "type mismatch: " ++ l.name ++ " " ++ op ++ " " ++ r.name
  | .unknownBinary l op r => "unknown operator: " ++ l.name ++ " " ++ op ++ " " ++ r.name
  | .unknownUnary op k => "unknown operator: " ++ op ++ k.name
  | .notFound name => "identifier not found: " ++ name
  | .notCallable k => "not a function: " ++ k.name
  | .unusableKey k => "unusable as hash key: " ++ k.name
  | .notIndexable k => "index operator not supported: " ++ k.name
  | .wrongCount got want =>
      "wrong number of arguments. got=" ++ toString got ++ ", want=" ++ toString want
  | .unsupported f k => "argument to `" ++ f.name ++ "` not supported, got " ++ k.name
  | .mustBe f want k => "argument to `" ++ f.name ++ "` must be " ++ want ++ ", got " ++ k.name
  | .divisionByZero => "division by zero"
  | .tooLong => "string repetition too long"
  | .other message => message

abbrev ScopeId := Nat

/-- Values. What `return` hands on and what goes wrong are values too, on their way to the call or
to the top of the program. Functions are the same only if they were made at the same time; the stamp
of an array or a hash makes it equal to itself at once, and that of a double tells one undefined
number from another. -/
inductive Value where
  | null
  | boolean (b : Bool)
  | integer (n : Int)
  | double (stamp : Stamp) (x : Float)
  | string (s : String)
  | array (stamp : Stamp) (elements : List Value)
  | hash (stamp : Stamp) (table : List (Entry Value))
  | range (lo hi : Int)
  | function (stamp : Stamp) (params : List Ident) (body : Block) (scope : ScopeId)
  | builtin (f : Builtin)
  | returned (v : Value)
  | error (f : Failure)

instance : Inhabited Value := ⟨.null⟩

namespace Value

def kind : Value → Kind
  | .null => .null
  | .boolean _ => .boolean
  | .integer _ => .integer
  | .double _ _ => .double
  | .string _ => .string
  | .array _ _ => .array
  | .hash _ _ => .hash
  | .range _ _ => .range
  | .function _ _ _ _ => .function
  | .builtin _ => .builtin
  | .returned _ => .returned
  | .error _ => .error

def isError : Value → Bool
  | .error _ => true
  | _ => false

def leaves : Value → Bool
  | .error _ | .returned _ => true
  | _ => false

def settle : Value → Value
  | .returned v => v
  | v => v

def truthy : Value → Bool
  | .null | .boolean false => false
  | _ => true

def key? : Value → Option Key
  | .integer n => some (.integer n)
  | .boolean b => some (.boolean b)
  | .string s => some (.string (Text.Digest.leading64 s))
  | _ => none

mutual

def text : Value → String
  | .null => "null"
  | .boolean b => if b then "true" else "false"
  | .integer n => toString n
  | .double _ x => Number.doubleText x
  | .string s => s
  | .array _ es => "[" ++ commaSeparated (texts es) ++ "]"
  | .hash _ t => "\x7b" ++ commaSeparated (entryTexts t) ++ "\x7d"
  | .range lo hi => toString lo ++ ".." ++ toString hi
  | .function _ ps body _ =>
      "fn(" ++ commaSeparated (ps.map Ident.name) ++ ") \x7b\n" ++ body.text ++ "\n\x7d"
  | .builtin _ => "builtin function"
  | .returned v => v.text
  | .error f => "ERROR: " ++ f.message

def texts : List Value → List String
  | [] => []
  | v :: vs => v.text :: texts vs

def entryTexts : List (Entry Value) → List String
  | [] => []
  | ⟨_, k, v⟩ :: es => (k.text ++ ": " ++ v.text) :: entryTexts es

end

def fits : Nat → Value → Bool
  | 0, _ => false
  | n + 1, v =>
      match v with
      | .array _ es => es.all (fits n)
      | .hash _ t => t.all fun e => fits n e.key && fits n e.value
      | .function _ _ body _ => Node.fits n (.block body)
      | .returned v => fits n v
      | _ => true

def text? (depth : Nat) (v : Value) : Option String :=
  if v.fits depth then some v.text else none

end Value

end Marmoset
