import Marmoset.Command

namespace Marmoset.Terminal

def put (verbose : Bool) (pieces : List Piece) : IO Unit := do
  IO.print (Piece.joined Piece.screenText pieces)
  (← IO.getStdout).flush
  if verbose then IO.eprint (Piece.joined Piece.noteText pieces)

def converse (verbose : Bool) : IO UInt32 := do
  let stdin ← IO.getStdin
  put verbose [.reply Command.greeting, Command.dialogueStarted]
  let mut d := Dialogue.start Setting.standard
  while true do
    put verbose [.reply d.prompt]
    let line ← stdin.getLine
    if line.isEmpty then break
    let (next, pieces, broken) := d.read line
    put verbose pieces
    if broken then return 1
    d := next
  put verbose [.reply "\n", Command.dialogueEnded]
  return 0

def contentOf (path : String) : IO (Option String) := do
  try
    return some (← IO.FS.readFile path)
  catch _ =>
    return none

end Marmoset.Terminal

open Marmoset in
def main (words : List String) : IO UInt32 := do
  match Command.Arguments.parse words with
  | .error c =>
      IO.eprint (Command.complaintText c)
      return 2
  | .ok a =>
      if .help ∈ a.flags then
        IO.print Command.helpText
        return 0
      match a.path with
      | none => Terminal.converse (.verbose ∈ a.flags)
      | some path =>
          let r := Command.runFile Setting.standard a (← Terminal.contentOf path)
          IO.print r.out
          IO.eprint r.err
          return r.exit.toUInt32
