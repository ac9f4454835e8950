import Marmoset.Operator
import Marmoset.Position
import Marmoset.Stamp

namespace Marmoset

structure Ident where
  pos : Pos
  name : String
deriving DecidableEq, Repr, Inhabited

mutual

/-- Expressions. A `missing` one stands where none could be read; a `foreign` one is a node of
another tool, which has a name and a place and no meaning here. A double keeps its stamp however often
it is evaluated. -/
inductive Expr where
  | missing
  | ident (name : Ident)
  | int (pos : Pos) (value : Int)
  | double (pos : Pos) (stamp : Stamp) (value : Float)
  | string (pos : Pos) (value : String)
  | bool (pos : Pos) (value : Bool)
  | array (pos : Pos) (elements : List Expr)
  | hash (pos : Pos) (pairs : List (Expr × Expr))
  | range (pos : Pos) (lo hi : Expr)
  | unary (pos : Pos) (op : UnaryOp) (operand : Expr)
  | binary (pos : Pos) (op : BinaryOp) (left right : Expr)
  | cond (pos : Pos) (test : Expr) (yes : Block) (no : Option Block)
  | loop (pos : Pos) (test : Expr) (body : Block)
  | fn (pos : Pos) (params : List Ident) (body : Block)
  | call (pos : Pos) (callee : Expr) (args : List Expr)
  | index (pos : Pos) (collection index : Expr)
  | foreign (pos : Pos) (name : String)

inductive Stmt where
  | bind (pos : Pos) (name : Ident) (value : Expr)
  | ret (pos : Pos) (value : Option Expr)
  | expr (pos : Pos) (value : Expr)
  | block (body : Block)
  | foreign (pos : Pos) (name : String)

inductive Block where
  | mk (pos : Pos) (stmts : List Stmt)

end

structure Program where
  stmts : List Stmt

instance : Inhabited Expr := ⟨.missing⟩

instance : Inhabited Block := ⟨.mk Pos.start []⟩

instance : Inhabited Stmt := ⟨.expr Pos.start .missing⟩

instance : Inhabited Program := ⟨⟨[]⟩⟩

def Block.pos : Block → Pos
  | .mk p _ => p

def Block.stmts : Block → List Stmt
  | .mk _ ss => ss

def Expr.pos : Expr → Pos
  | .missing => Pos.absent
  | .ident i => i.pos
  | .int p _ | .double p _ _ | .string p _ | .bool p _ | .array p _ | .hash p _ | .range p _ _
  | .unary p _ _ | .binary p _ _ _ | .cond p _ _ _ | .loop p _ _ | .fn p _ _ | .call p _ _
  | .index p _ _ | .foreign p _ => p

def Stmt.pos : Stmt → Pos
  | .bind p _ _ | .ret p _ | .expr p _ | .foreign p _ => p
  | .block b => b.pos

inductive Node where
  | expr (e : Expr)
  | stmt (s : Stmt)
  | block (b : Block)

namespace Node

def children : Node → List Node
  | .expr e => match e with
      | .array _ es => es.map .expr
      | .hash _ ps => ps.flatMap fun p => [.expr p.1, .expr p.2]
      | .range _ lo hi => [.expr lo, .expr hi]
      | .unary _ _ e => [.expr e]
      | .binary _ _ l r => [.expr l, .expr r]
      | .cond _ t y n => .expr t :: .block y :: n.toList.map .block
      | .loop _ t b => [.expr t, .block b]
      | .fn _ _ b => [.block b]
      | .call _ f args => .expr f :: args.map .expr
      | .index _ c i => [.expr c, .expr i]
      | .missing | .ident _ | .int _ _ | .double _ _ _ | .string _ _ | .bool _ _ | .foreign _ _ => []
  | .stmt s => match s with
      | .bind _ _ e => [.expr e]
      | .ret _ e => e.toList.map .expr
      | .expr _ e => [.expr e]
      | .block b => [.block b]
      | .foreign _ _ => []
  | .block b => b.stmts.map .stmt

def fits : Nat → Node → Bool
  | 0, _ => false
  | n + 1, x => x.children.all (fits n)

end Node

end Marmoset
