import Marmoset.Session
import Marmoset.Text.Blank

namespace Marmoset

inductive Piece where
  | reply (text : String)
  | printed (text : String)
  | noted (text : String)
deriving DecidableEq, Repr

namespace Piece

def replyText : Piece → String
  | .reply t => t
  | _ => ""

def printedText : Piece → String
  | .printed t => t
  | _ => ""

def screenText : Piece → String
  | .reply t | .printed t => t
  | .noted _ => ""

def noteText : Piece → String
  | .noted t => t
  | _ => ""

def joined (part : Piece → String) (ps : List Piece) : String :=
  String.join (ps.map part)

end Piece

def opensBracket (c : Char) : Bool :=
  c == '(' || c == '[' || c == '\x7b'

def closesBracket (c : Char) : Bool :=
  c == ')' || c == ']' || c == '\x7d'

def needsMore (text : String) : Bool :=
  text.toList.countP closesBracket < text.toList.countP opensBracket

def splitLines : List Char → List (List Char)
  | [] => []
  | c :: cs =>
      if c = '\n' then [c] :: splitLines cs
      else match splitLines cs with
        | [] => [[c]]
        | line :: rest => (c :: line) :: rest

def lines (text : String) : List String :=
  (splitLines text.toList).map String.ofList

def logLine (topic message : String) : String :=
  "[DEBUG] " ++ topic ++ ": " ++ message ++ "\n"

def Program.Draft.note (d : Program.Draft) : String :=
  logLine "parse.parser" ("parsed " ++ toString d.program.stmts.length ++ " statements with " ++
    toString d.mistakes.length ++ " errors")

structure Dialogue where
  session : Session
  pending : String

namespace Dialogue

def start (setting : Setting) : Dialogue := ⟨Session.start setting, ""⟩

def face : String :=
  "            __,__\n" ++
  "   .--.  .-\"     \"-.  .--.\n" ++
  "  / .. \\/  .-. .-.  \\/ .. \\\n" ++
  " | |  '|  /   Y   \\  |'  | |\n" ++
  " | \\   \\  \\ 0 | 0 /  /   / |\n" ++
  "  \\ '- ,\\.-“““““““-./, -' /\n" ++
  "   ''-' /_   ^ ^   _\\ '-''\n" ++
  "       |  \\._   _./  |\n" ++
  "       \\   \\ '~' /   /\n" ++
  "        '._ '-=-' _.'\n" ++
  "           '-----'\n"

def mistakesText (ms : List Mistake) : String :=
  face ++ "Woops! We ran into some monkey business here!\n" ++ " parser errors:\n" ++
    String.join (ms.map fun m => "\t" ++ m.message ++ "\n")

def prompt (d : Dialogue) : String :=
  if d.pending.isEmpty then ">> " else "... "

structure Turn where
  pieces : List Piece
  session : Session
  broken : Bool

def tooDeepText : String :=
  "ERROR: " ++ Halt.tooDeep.message ++ "\n"

/-- The reply to a program without mistakes. There is none to a value that nests too deeply to be shown,
and none to a program that stops for any reason but its depth. -/
def reply? (depth : Nat) : Except Halt Value → Option String
  | .ok v => (v.text? depth).map (· ++ "\n")
  | .error .tooDeep => some tooDeepText
  | .error _ => none

def answer (s : Session) (d : Program.Draft) : Turn :=
  let (result, s) := s.runProgram d.program
  let (printed, s) := s.takePrinted
  let before := [.noted d.note, .printed printed]
  match reply? s.setting.depth result with
  | some t => ⟨before ++ [.reply t], s, false⟩
  | none => ⟨before, s, true⟩

def respond (s : Session) (text : String) : Turn :=
  match Program.ofText? s.setting.depth text with
  | none => ⟨[.reply tooDeepText], s, false⟩
  | some d =>
      if d.mistakes.isEmpty then answer s d
      else ⟨[.noted d.note, .reply (mistakesText d.mistakes)], s, false⟩

def read (d : Dialogue) (line : String) : Dialogue × List Piece × Bool :=
  let text := d.pending ++ line
  if needsMore text then ({ d with pending := text }, [], false)
  else if Text.blank text then ({ d with pending := "" }, [], false)
  else
    let turn := respond d.session text
    (⟨turn.session, ""⟩, turn.pieces, turn.broken)

structure Course where
  pieces : List Piece
  state : Dialogue
  broken : Bool

/-- Takes all lines in. Lines that wait for more at the end are dropped. -/
def readAll : Dialogue → List String → Course
  | d, [] => ⟨[.reply d.prompt, .reply "\n"], d, false⟩
  | d, line :: rest =>
      match d.read line with
      | (next, pieces, true) => ⟨.reply d.prompt :: pieces, next, true⟩
      | (next, pieces, false) =>
          let course := readAll next rest
          { course with pieces := .reply d.prompt :: pieces ++ course.pieces }

def run (setting : Setting) (text : String) : Course :=
  readAll (start setting) (lines text)

end Dialogue

end Marmoset
