import Marmoset.Text.Digit
import Marmoset.Text.Quoted

namespace Marmoset.Command

/-!
The words of the command line. A word that begins with a dash is a flag or several, unless it is a
dash alone or a number below zero, or has a space in it and is no flag; `--` ends the flags. A long
flag may be cut short. The first other word is the path.
-/

inductive Flag where
  | help | tokens | ast | verbose
deriving DecidableEq, Repr

def Flag.all : List Flag := [.help, .tokens, .ast, .verbose]

def Flag.letter : Flag → Char
  | .help => 'h'
  | .tokens => 't'
  | .ast => 'a'
  | .verbose => 'v'

def Flag.word : Flag → String
  | .help => "help"
  | .tokens => "tokens"
  | .ast => "ast"
  | .verbose => "verbose"

def Flag.name (f : Flag) : String :=
  "-" ++ f.letter.toString ++ "/--" ++ f.word

def Flag.ofLetter? (c : Char) : Option Flag :=
  Flag.all.find? fun f => f.letter = c

def Flag.startingWith (start : List Char) : List Flag :=
  Flag.all.filter fun f => start.isPrefixOf f.word.toList

inductive Complaint where
  | ambiguous (word : String) (choices : List Flag)
  | unwanted (flag : Flag) (value : String)
  | unrecognized (words : List String)
deriving DecidableEq, Repr

def Complaint.message : Complaint → String
  | .ambiguous word choices =>
      "ambiguous option: " ++ word ++ " could match " ++
        ", ".intercalate (choices.map fun f => "--" ++ f.word)
  | .unwanted flag value =>
      "argument " ++ flag.name ++ ": ignored explicit argument " ++ Text.quoted value
  | .unrecognized words => "unrecognized arguments: " ++ " ".intercalate words

inductive Word where
  | plain
  | flags (fs : List Flag)
  | unwanted (flag : Flag) (value : String)
  | ambiguous (choices : List Flag)
  | unknown
deriving DecidableEq, Repr

namespace Word

def letters (before : List Flag) (f : Flag) : List Char → Word
  | [] => .flags (before ++ [f])
  | c :: cs =>
      match Flag.ofLetter? c with
      | some g => letters (before ++ [f]) g cs
      | none => .unwanted f (String.ofList (c :: cs))

/-- A dash, and digits with at most one point among them and none after it missing. A line break at
the end does not matter. -/
def isNegativeNumber (cs : List Char) : Bool :=
  let ds := if cs.getLast? = some '\n' then cs.dropLast else cs
  match ds with
  | '-' :: ds =>
      match ds.dropWhile Text.isDecimalDigit with
      | [] => !ds.isEmpty
      | '.' :: rest => !rest.isEmpty && rest.all Text.isDecimalDigit
      | _ => false
  | _ => false

def unmatched (cs : List Char) : Word :=
  if isNegativeNumber cs || cs.contains ' ' then .plain else .unknown

def long (name : List Char) : Word :=
  match Flag.startingWith (name.takeWhile (· != '=')) with
  | [] => unmatched ('-' :: '-' :: name)
  | [f] =>
      match name.dropWhile (· != '=') with
      | [] => .flags [f]
      | _ :: value => .unwanted f (String.ofList value)
  | fs => .ambiguous fs

def short (c : Char) (rest : List Char) : Word :=
  match Flag.ofLetter? c with
  | none => unmatched ('-' :: c :: rest)
  | some f =>
      match rest with
      | ['='] => .unwanted f ""
      | '=' :: value => letters [] f value
      | rest => letters [] f rest

def classify (word : String) : Word :=
  match word.toList with
  | '-' :: '-' :: name => long name
  | '-' :: c :: rest => short c rest
  | _ => .plain

end Word

structure Arguments where
  path : Option String
  flags : List Flag
deriving DecidableEq, Repr

namespace Arguments

def finish (a : Arguments) (extra : List String) : Except Complaint Arguments :=
  if extra.isEmpty then .ok a else .error (.unrecognized extra)

/-- Takes the words in from left to right. A `--` next to the path goes with it. Help ends it all. -/
def take (a : Arguments) (extra : List String) : List String → Except Complaint Arguments
  | [] => a.finish extra
  | "--" :: rest =>
      match a.path, rest with
      | some _, rest => a.finish (extra ++ "--" :: rest)
      | none, [] => a.finish extra
      | none, path :: rest => finish { a with path := some path } (extra ++ rest)
  | word :: rest =>
      match Word.classify word with
      | .plain =>
          match a.path, rest with
          | some _, rest => take a (extra ++ [word]) rest
          | none, "--" :: rest => finish { a with path := some word } (extra ++ rest)
          | none, rest => take { a with path := some word } extra rest
      | .flags fs =>
          let a := { a with flags := a.flags ++ fs }
          if .help ∈ fs then .ok a else take a extra rest
      | .unwanted f value => .error (.unwanted f value)
      | .ambiguous fs => .error (.ambiguous word fs)
      | .unknown => take a (extra ++ [word]) rest

def ambiguous? : List String → Option Complaint
  | [] => none
  | "--" :: _ => none
  | word :: rest =>
      match Word.classify word with
      | .ambiguous fs => some (.ambiguous word fs)
      | _ => ambiguous? rest

def parse (words : List String) : Except Complaint Arguments :=
  match ambiguous? words with
  | some c => .error c
  | none => take ⟨none, []⟩ [] words

end Arguments

def usage : String :=
  "usage: monkey [-h] [-t] [-a] [-v] [path]\n"

def helpText : String :=
  usage ++
  "\nEvaluate Monkey source code\n" ++
  "\npositional arguments:\n" ++
  "  path           path to the code to evaluate; omit to start a repl\n" ++
  "\noptions:\n" ++
  "  -h, --help     show this help message and exit\n" ++
  "  -t, --tokens   whether or not to show the tokens\n" ++
  "  -a, --ast      whether or not to show the ast\n" ++
  "  -v, --verbose  enable debug logging\n"

def complaintText (c : Complaint) : String :=
  usage ++ "monkey: error: " ++ c.message ++ "\n"

end Marmoset.Command
