import Marmoset.Store
import Marmoset.Value.Builtin

namespace Marmoset

/-!
Running programs. Each part of a program is given the running of the parts inside it, so that only
`Eval.run` recurs; it has one level less for the parts inside. Errors and returns are values, and each
part looks at the values of its parts in turn: an error ends it at once.
-/

/-- Why a program stops without a value: it nests too deeply, a loop has no rounds left, or it has a
part without a meaning. -/
inductive Halt where
  | tooDeep
  | endless
  | unknownExpr (name : String)
  | unknownStmt (name : String)
deriving DecidableEq, Repr, Inhabited

/-- What is said of a program that stops so: nothing of one that goes round and round. -/
def Halt.message : Halt → String
  | .tooDeep => "maximum recursion depth exceeded"
  | .endless => ""
  | .unknownExpr name => "internal error: interpreter: unhandled expr node type: " ++ name
  | .unknownStmt name => "internal error: interpreter: unhandled statement node type: " ++ name

/-- What programs run with: the builtin functions, how deeply they may nest, and how many rounds a
loop may take. -/
structure Setting where
  registry : Registry
  depth : Nat
  rounds : Nat

def Setting.standard : Setting := ⟨Registry.standard, 1000, 1000000000000000000⟩

/-- Running a part of a program; a halt keeps what was done before it. -/
abbrev Eval := EStateM Halt Store

inductive Code where
  | expr (e : Expr)
  | block (b : Block)

abbrev Runner := Code → ScopeId → Eval Value

namespace Eval

def fresh : Eval Stamp :=
  modifyGet fun s => (s.stamp, { s with stamp := s.stamp + 1 })

def print (text : String) : Eval Unit :=
  modify fun s => { s with printed := s.printed ++ text }

def assign (scope : ScopeId) (name : String) (v : Value) : Eval Unit :=
  modify fun s => s.bind scope name v

def lookup (scope : ScopeId) (name : String) : Eval (Option Value) := do
  return (← get).find? scope name

def child (scope : ScopeId) : Eval ScopeId :=
  modifyGet fun s => s.child scope

def within {α : Type} : Option α → Eval α
  | some a => pure a
  | none => throw .tooDeep

def printAll (depth : Nat) : List Value → Eval Unit
  | [] => pure ()
  | v :: vs => do
      let text ← within (v.text? depth)
      print (text ++ "\n")
      printAll depth vs

def assignAll (scope : ScopeId) : List Ident → List Value → Eval Unit
  | p :: ps, v :: vs => do
      assign scope p.name v
      assignAll scope ps vs
  | _, _ => pure ()

/-- Calls a function. Arguments beyond the parameters are ignored, parameters beyond the arguments
stay unbound. -/
def call (depth : Nat) (run : Runner) (f : Value) (args : List Value) : Eval Value :=
  match f with
  | .function _ params body scope => do
      let inner ← child scope
      assignAll inner params args
      let v ← run (.block body) inner
      return v.settle
  | .builtin f => do
      if f = .puts then printAll depth args
      let stamp ← fresh
      return f.value stamp args
  | v => return .error (.notCallable v.kind)

def values (run : Runner) (scope : ScopeId) : List Expr → Eval (Except Failure (List Value))
  | [] => return .ok []
  | e :: es => do
      match ← run (.expr e) scope with
      | .error f => return .error f
      | v =>
          match ← values run scope es with
          | .error f => return .error f
          | .ok vs => return .ok (v :: vs)

/-- The table of a hash literal, or the first error in it. A key is checked before its value is
evaluated. -/
def entries (run : Runner) (scope : ScopeId) (t : Table Value) :
    List (Expr × Expr) → Eval (Except Failure (Table Value))
  | [] => return .ok t
  | (k, v) :: ps => do
      match ← run (.expr k) scope with
      | .error f => return .error f
      | key =>
          match key.key? with
          | none => return .error (.unusableKey key.kind)
          | some id =>
              match ← run (.expr v) scope with
              | .error f => return .error f
              | value => entries run scope (t.insert ⟨id, key, value⟩) ps

def loop (run : Runner) (scope : ScopeId) (test : Expr) (body : Block) : Nat → Eval Value
  | 0 => throw .endless
  | rounds + 1 => do
      let c ← run (.expr test) scope
      if c.isError then return c
      if !c.truthy then return .null
      let v ← run (.block body) scope
      if v.leaves then return v
      loop run scope test body rounds

def ident (s : Setting) (scope : ScopeId) (name : String) : Eval Value := do
  match ← lookup scope name with
  | some v => return v
  | none =>
      match s.registry.lookup name with
      | some f => return .builtin f
      | none => return .error (.notFound name)

def binary (depth : Nat) (run : Runner) (scope : ScopeId) (op : BinaryOp) (l r : Expr) :
    Eval Value := do
  let a ← run (.expr l) scope
  if a.isError then return a
  if op = .and ∧ !a.truthy then return .boolean false
  if op = .or ∧ a.truthy then return .boolean true
  let b ← run (.expr r) scope
  if b.isError then return b
  if op = .and ∨ op = .or then return .boolean b.truthy
  let stamp ← fresh
  within (Value.binary depth stamp op a b)

def expr (s : Setting) (depth : Nat) (run : Runner) (scope : ScopeId) : Expr → Eval Value
  | .missing => throw (.unknownExpr "NoneType")
  | .foreign _ name => throw (.unknownExpr name)
  | .ident i => ident s scope i.name
  | .int _ n => return .integer n
  | .double _ stamp x => return .double stamp x
  | .string _ t => return .string t
  | .bool _ b => return .boolean b
  | .array _ es => do
      match ← values run scope es with
      | .error f => return .error f
      | .ok vs =>
          let stamp ← fresh
          return .array stamp vs
  | .hash _ ps => do
      match ← entries run scope [] ps with
      | .error f => return .error f
      | .ok t =>
          let stamp ← fresh
          return .hash stamp t
  | .range _ lo hi => do
      let a ← run (.expr lo) scope
      if a.isError then return a
      let b ← run (.expr hi) scope
      if b.isError then return b
      return Value.rangeOf a b
  | .unary _ op e => do
      let v ← run (.expr e) scope
      if v.isError then return v
      let stamp ← fresh
      return Value.unary stamp op v
  | .binary _ op l r => binary depth run scope op l r
  | .cond _ t yes no => do
      let c ← run (.expr t) scope
      if c.isError then return c
      if c.truthy then run (.block yes) scope
      else match no with
        | some b => run (.block b) scope
        | none => return .null
  | .loop _ t b => loop run scope t b s.rounds
  | .fn _ ps b => do
      let stamp ← fresh
      return .function stamp ps b scope
  | .call _ f args => do
      let callee ← run (.expr f) scope
      if callee.isError then return callee
      match ← values run scope args with
      | .error f => return .error f
      | .ok vs => call depth run callee vs
  | .index _ c i => do
      let a ← run (.expr c) scope
      if a.isError then return a
      let b ← run (.expr i) scope
      if b.isError then return b
      let stamp ← fresh
      return Value.index stamp a b

def stmt (run : Runner) (scope : ScopeId) : Stmt → Eval Value
  | .expr _ e => run (.expr e) scope
  | .bind _ name e => do
      let v ← run (.expr e) scope
      if v.isError then return v
      assign scope name.name v
      return v
  | .ret _ none => return .returned .null
  | .ret _ (some e) => do
      let v ← run (.expr e) scope
      if v.isError then return v
      return .returned v
  | .block b => run (.block b) scope
  | .foreign _ name => throw (.unknownStmt name)

def stmts (run : Runner) (scope : ScopeId) : Value → List Stmt → Eval Value
  | last, [] => return last
  | _, st :: rest => do
      let v ← stmt run scope st
      if v.leaves then return v
      stmts run scope v rest

def code (s : Setting) (depth : Nat) (run : Runner) (scope : ScopeId) : Code → Eval Value
  | .expr e => expr s depth run scope e
  | .block b => stmts run scope .null b.stmts

def run (s : Setting) : Nat → Runner
  | 0, _, _ => throw .tooDeep
  | depth + 1, c, scope => code s depth (run s depth) scope c

def program (s : Setting) (scope : ScopeId) (p : Program) : Eval Value := do
  let v ← stmts (run s s.depth) scope .null p.stmts
  return v.settle

def node (s : Setting) (scope : ScopeId) : Node → Eval Value
  | .expr e => run s s.depth (.expr e) scope
  | .stmt st => stmt (run s s.depth) scope st
  | .block b => run s s.depth (.block b) scope

def apply (s : Setting) (f : Value) (args : List Value) : Eval Value :=
  call s.depth (run s s.depth) f args

end Eval

end Marmoset
