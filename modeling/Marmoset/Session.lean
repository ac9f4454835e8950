import Marmoset.Eval
import Marmoset.Tree.Grammar

namespace Marmoset

inductive Verdict where
  | value (v : Value)
  | rejected (mistakes : List Mistake)
  | halted (why : Halt)

structure Session where
  setting : Setting
  scope : ScopeId
  store : Store

namespace Session

def start (setting : Setting) : Session :=
  let (scope, store) := Store.empty.root
  ⟨setting, scope, store⟩

def find? (s : Session) (name : String) : Option Value :=
  s.store.find? s.scope name

/-- Runs a program that has been read, whatever mistakes there were in it. -/
def runProgram (s : Session) (p : Program) : Except Halt Value × Session :=
  match Eval.program s.setting s.scope p s.store with
  | .ok v store => (.ok v, { s with store })
  | .error why store => (.error why, { s with store })

def run (s : Session) (text : String) : Verdict × Session :=
  match Program.ofText? s.setting.depth text with
  | none => (.halted .tooDeep, s)
  | some d =>
      if d.mistakes.isEmpty then
        match s.runProgram d.program with
        | (.ok v, s) => (.value v, s)
        | (.error why, s) => (.halted why, s)
      else (.rejected d.mistakes, s)

def takePrinted (s : Session) : String × Session :=
  (s.store.printed, { s with store := { s.store with printed := "" } })

end Session

end Marmoset
