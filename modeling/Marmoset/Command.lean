import Marmoset.Command.Arguments
import Marmoset.Dialogue

namespace Marmoset.Command

/-- How a run ends: with an exit code, after all that it said. A broken run has no exit code of its
own. -/
structure Report where
  exit : Nat
  out : String
  err : String
  broken : Bool
deriving DecidableEq, Repr

def unifyBreaks : List Char → List Char
  | [] => []
  | '\r' :: '\n' :: cs => '\n' :: unifyBreaks cs
  | '\r' :: cs => '\n' :: unifyBreaks cs
  | c :: cs => c :: unifyBreaks cs

def report (a : Arguments) (exit : Nat) (pieces : List Piece) (broken : Bool) : Report :=
  ⟨exit, Piece.joined Piece.screenText pieces,
    if .verbose ∈ a.flags then Piece.joined Piece.noteText pieces else "", broken⟩

def greeting : String :=
  "This is the Monkey programming language!\nFeel free to type in commands\n\n"

def dialogueStarted : Piece := .noted (logLine "repl" "repl session started")

def dialogueEnded : Piece := .noted (logLine "repl" "repl session ended")

def runDialogue (s : Setting) (a : Arguments) (input : String) : Report :=
  let course := Dialogue.run s input
  let before := [.reply greeting, dialogueStarted]
  if course.broken then report a 1 (before ++ course.pieces) true
  else report a 0 (before ++ course.pieces ++ [dialogueEnded]) false

def tokenLines (text : String) : List Piece :=
  (Token.ofText text).map (fun t => .reply (t.text ++ "\n")) ++ [.reply "\n"]

def stmtLines (depth : Nat) : List Stmt → List Piece × Bool
  | [] => ([.reply "\n"], true)
  | st :: rest =>
      match st.text? depth with
      | none => ([], false)
      | some t =>
          let (pieces, whole) := stmtLines depth rest
          (.reply (t ++ "\n") :: pieces, whole)

def tooDeepLine : Piece :=
  .reply ("runtime error: " ++ Halt.tooDeep.message ++ "\n")

/-- Runs a program without mistakes, and says how it ended. There is no exit code if it stops for any
reason but its depth. -/
def runDraft (s : Setting) (d : Program.Draft) : List Piece × Option Nat :=
  let (result, session) := (Session.start s).runProgram d.program
  let printed := Piece.printed session.store.printed
  let produced (v : Value) := Piece.noted (logLine "monkey" ("program of " ++
    toString d.program.stmts.length ++ " statements produced " ++ v.kind.name))
  match result with
  | .error .tooDeep => ([printed, tooDeepLine], some 1)
  | .error _ => ([printed], none)
  | .ok (.error f) =>
      ([printed, produced (.error f), .reply ("runtime error: " ++ f.message ++ "\n")], some 1)
  | .ok v => ([printed, produced v], some 0)

def runText (s : Setting) (a : Arguments) (text : String) : Report :=
  let tokens := if .tokens ∈ a.flags then tokenLines text else []
  match Program.ofText? s.depth text with
  | none => report a 1 (tokens ++ [tooDeepLine]) false
  | some d =>
      let before := tokens ++ [.noted d.note]
      if d.mistakes.isEmpty then
        let (tree, whole) :=
          if .ast ∈ a.flags then stmtLines s.depth d.program.stmts else ([], true)
        if whole then
          let (pieces, exit) := runDraft s d
          report a (exit.getD 1) (before ++ tree ++ pieces) exit.isNone
        else report a 1 (before ++ tree ++ [tooDeepLine]) false
      else
        let rejecting := logLine "monkey" ("rejecting program with " ++
          toString d.mistakes.length ++ " parse errors")
        let said := d.mistakes.map fun m => Piece.reply ("syntax error: " ++ m.message ++ "\n")
        report a 1 (before ++ .noted rejecting :: said) false

def runFile (s : Setting) (a : Arguments) (content : Option String) : Report :=
  match content with
  | none => report a 1 [.reply "the path specified does not exist\n"] false
  | some c => runText s a (String.ofList (unifyBreaks c.toList))

def run (s : Setting) (files : String → Option String) (input : String) (words : List String) :
    Report :=
  match Arguments.parse words with
  | .error c => ⟨2, "", complaintText c, false⟩
  | .ok a =>
      if .help ∈ a.flags then ⟨0, helpText, "", false⟩
      else match a.path with
        | none => runDialogue s a input
        | some path => runFile s a (files path)

end Marmoset.Command
