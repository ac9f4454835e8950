import Marmoset.Number.Literal
import Marmoset.Token.Lexer
import Marmoset.Tree.Reading

namespace Marmoset

/-!
Reading trees off tokens. Operators bind by level, and those of one level group to the left. Each
production starts at the current token and ends at its own last token. The productions are given the
reading of the expressions inside them, so that only `Expr.read` recurs; it has one level of nesting
less for the expressions inside. A loop takes at least one token each time around and so needs no
more rounds than there are tokens.
-/

inductive Level where
  | lowest | equals | range | order | logic | sum | product | modulo | unary | call | index
deriving DecidableEq, Repr, Inhabited

def Level.rank : Level → Nat
  | .lowest => 0
  | .equals => 1
  | .range => 2
  | .order => 3
  | .logic => 4
  | .sum => 5
  | .product => 6
  | .modulo => 7
  | .unary => 8
  | .call => 9
  | .index => 10

def Token.Kind.level : Token.Kind → Level
  | .eq | .ne => .equals
  | .dots => .range
  | .lt | .gt | .le | .ge => .order
  | .and | .or => .logic
  | .plus | .minus => .sum
  | .star | .slash => .product
  | .percent => .modulo
  | .lparen => .call
  | .lbracket => .index
  | _ => .lowest

/-- What productions need of their surroundings: how many tokens there are, and how to read an
expression inside. -/
structure Inside where
  size : Nat
  expr : Level → Read Expr

namespace Grammar

open Read

def ident : Read Ident := do
  let t ← current
  return ⟨t.pos, t.literal⟩

/-- Statements up to the token that ends them; one with a mistake in its head is left out. -/
def statements (stmt : Read Stmt) (ends : Token.Kind → Bool) : Nat → Read (List Stmt)
  | 0 => return []
  | rounds + 1 => do
      if ends (← currentKind) then return []
      let s ← attempt stmt
      advance
      let rest ← statements stmt ends rounds
      return s.toList ++ rest

def letStmt (g : Inside) : Read Stmt := do
  let t ← current
  expect .ident
  let name ← ident
  expect .assign
  advance
  let value ← attempt (g.expr .lowest)
  skip .semicolon
  return .bind t.pos name (value.getD .missing)

def returnStmt (g : Inside) : Read Stmt := do
  let t ← current
  let next ← nextKind
  if next = .semicolon ∨ next = .rbrace ∨ next = .eof then
    skip .semicolon
    return .ret t.pos none
  advance
  let value ← attempt (g.expr .lowest)
  skip .semicolon
  return .ret t.pos value

def exprStmt (g : Inside) : Read Stmt := do
  let t ← current
  let value ← attempt (g.expr .lowest)
  skip .semicolon
  return .expr t.pos (value.getD .missing)

def stmt (g : Inside) : Read Stmt := do
  match ← currentKind with
  | .kwLet => letStmt g
  | .kwReturn => returnStmt g
  | _ => exprStmt g

/-- A block is ended by a brace, or by the end of the text. -/
def block (g : Inside) : Read Block := do
  let t ← current
  advance
  let ss ← statements (stmt g) (fun k => k = .rbrace ∨ k = .eof) g.size
  return .mk t.pos ss

def moreExprs (g : Inside) : Nat → Read (List (Option Expr))
  | 0 => return []
  | rounds + 1 => do
      if (← nextKind) ≠ .comma then return []
      advance
      advance
      let e ← attempt (g.expr .lowest)
      let rest ← moreExprs g rounds
      return e :: rest

def allOf {α : Type} : List (Option α) → Option (List α)
  | [] => some []
  | some a :: rest => (allOf rest).map (a :: ·)
  | none :: _ => none

/-- Expressions with commas between them. All are read, even after a mistake in one of them. -/
def exprList (g : Inside) (close : Token.Kind) : Read (List Expr) := do
  if (← nextKind) = close then
    advance
    return []
  advance
  let first ← attempt (g.expr .lowest)
  let rest ← moreExprs g g.size
  expect close
  require (allOf (first :: rest))

def moreParams : Nat → Read (List Ident)
  | 0 => return []
  | rounds + 1 => do
      if (← nextKind) ≠ .comma then return []
      advance
      expect .ident
      let p ← ident
      let rest ← moreParams rounds
      return p :: rest

def params (size : Nat) : Read (List Ident) := do
  if (← nextKind) = .rparen then
    advance
    return []
  expect .ident
  let first ← ident
  let rest ← moreParams size
  expect .rparen
  return first :: rest

/-- Pairs up to the closing brace, which may follow a comma. -/
def pairs (g : Inside) : Nat → Read (List (Expr × Expr))
  | 0 => return []
  | rounds + 1 => do
      if (← nextKind) = .rbrace then return []
      advance
      let key ← g.expr .lowest
      expect .colon
      advance
      let value ← g.expr .lowest
      if (← nextKind) ≠ .rbrace then expect .comma
      let rest ← pairs g rounds
      return (key, value) :: rest

def bracketed (g : Inside) : Read Expr := do
  advance
  let e ← attempt (g.expr .lowest)
  expect .rparen
  require e

def test (g : Inside) : Read Expr := do
  expect .lparen
  bracketed g

def condExpr (g : Inside) (pos : Pos) : Read Expr := do
  let t ← test g
  expect .lbrace
  let yes ← block g
  if (← nextKind) = .kwElse then
    advance
    expect .lbrace
    let no ← block g
    return .cond pos t yes (some no)
  return .cond pos t yes none

def loopExpr (g : Inside) (pos : Pos) : Read Expr := do
  let t ← test g
  expect .lbrace
  let body ← block g
  return .loop pos t body

def fnExpr (g : Inside) (pos : Pos) : Read Expr := do
  expect .lparen
  let ps ← params g.size
  expect .lbrace
  let body ← block g
  return .fn pos ps body

def operand (g : Inside) : Read Expr := do
  let t ← current
  match t.kind with
  | .ident => return .ident ⟨t.pos, t.literal⟩
  | .int =>
      match Number.integer? t.literal with
      | some n => return .int t.pos n
      | none => mistake (.tooLarge t.literal)
  | .double => return .double t.pos Stamp.shared (Number.double t.literal)
  | .string => return .string t.pos t.literal
  | .kwTrue => return .bool t.pos true
  | .kwFalse => return .bool t.pos false
  | .bang | .minus =>
      advance
      let e ← g.expr .unary
      return .unary t.pos (UnaryOp.ofSymbol t.literal) e
  | .lparen => bracketed g
  | .kwIf => condExpr g t.pos
  | .kwWhile => loopExpr g t.pos
  | .kwFn => fnExpr g t.pos
  | .lbracket =>
      let es ← exprList g .rbracket
      return .array t.pos es
  | .lbrace =>
      let ps ← pairs g g.size
      advance
      return .hash t.pos ps
  | k => mistake (.noExpression k)

def operation (g : Inside) (left : Expr) : Read Expr := do
  let t ← current
  match t.kind with
  | .lparen =>
      let args ← exprList g .rparen
      return .call left.pos left args
  | .lbracket =>
      advance
      let i ← g.expr .lowest
      expect .rbracket
      return .index left.pos left i
  | k =>
      advance
      let right ← g.expr k.level
      if k = .dots then return .range left.pos left right
      return .binary left.pos (BinaryOp.ofSymbol t.literal) left right

def operations (g : Inside) (level : Level) : Nat → Expr → Read Expr
  | 0, left => return left
  | rounds + 1, left => do
      if level.rank < (← nextKind).level.rank then
        advance
        let e ← operation g left
        operations g level rounds e
      else return left

def expr (g : Inside) (level : Level) : Read Expr := do
  let left ← operand g
  operations g level g.size left

end Grammar

def Expr.read (size : Nat) : Nat → Level → Read Expr
  | 0, _ => throw .tooDeep
  | depth + 1, level => Grammar.expr ⟨size, Expr.read size depth⟩ level

structure Program.Draft where
  program : Program
  mistakes : List Mistake

def Program.ofTokens? (depth : Nat) (tokens : List Token) : Option Program.Draft :=
  let size := tokens.length
  let g : Inside := ⟨size, Expr.read size depth⟩
  match Grammar.statements (Grammar.stmt g) (· = .eof) size ⟨tokens, #[]⟩ with
  | .ok ss r => some ⟨⟨ss⟩, r.mistakes.toList⟩
  | .error _ _ => none

def Program.ofText? (depth : Nat) (text : String) : Option Program.Draft :=
  Program.ofTokens? depth (Token.ofText text)

end Marmoset
