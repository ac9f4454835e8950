import Marmoset.Number.Decimal
import Marmoset.Tree

namespace Marmoset

/-!
Trees as text. Every operation has brackets of its own, so that the text shows the shape of the tree.
-/

def foreignText (pos : Pos) (name : String) : String :=
  name ++ "(line=" ++ toString pos.line ++ ", col=" ++ toString pos.col ++ ")"

def commaSeparated (parts : List String) : String :=
  ", ".intercalate parts

mutual

def Expr.text : Expr → String
  | .missing => "None"
  | .ident i => i.name
  | .int _ n => toString n
  | .double _ _ x => Number.doubleText x
  | .string _ s => s
  | .bool _ b => if b then "true" else "false"
  | .array _ es => "[" ++ commaSeparated (Expr.texts es) ++ "]"
  | .hash _ ps => "\x7b" ++ commaSeparated (Expr.pairTexts ps) ++ "\x7d"
  | .range _ lo hi => "(" ++ lo.text ++ ".." ++ hi.text ++ ")"
  | .unary _ op e => "(" ++ op.symbol ++ e.text ++ ")"
  | .binary _ op l r => "(" ++ l.text ++ " " ++ op.symbol ++ " " ++ r.text ++ ")"
  | .cond _ t y n => "if" ++ t.text ++ " " ++ y.text ++ Block.elseText n
  | .loop _ t b => "while" ++ t.text ++ " " ++ b.text
  | .fn _ ps b => "fn(" ++ commaSeparated (ps.map Ident.name) ++ ") " ++ b.text
  | .call _ f args => f.text ++ "(" ++ commaSeparated (Expr.texts args) ++ ")"
  | .index _ c i => "(" ++ c.text ++ "[" ++ i.text ++ "])"
  | .foreign p name => foreignText p name

def Expr.texts : List Expr → List String
  | [] => []
  | e :: es => e.text :: Expr.texts es

def Expr.pairTexts : List (Expr × Expr) → List String
  | [] => []
  | (k, v) :: ps => (k.text ++ ":" ++ v.text) :: Expr.pairTexts ps

def Block.elseText : Option Block → String
  | none => ""
  | some b => " else " ++ b.text

def Block.text : Block → String
  | .mk _ ss => Stmt.joined ss

def Stmt.text : Stmt → String
  | .bind _ i e => "let " ++ i.name ++ " = " ++ e.text ++ ";"
  | .ret _ none => "return;"
  | .ret _ (some e) => "return " ++ e.text ++ ";"
  | .expr _ .missing => ""
  | .expr _ e => e.text
  | .block b => b.text
  | .foreign p name => foreignText p name

def Stmt.joined : List Stmt → String
  | [] => ""
  | s :: ss => s.text ++ Stmt.joined ss

end

def Program.text (p : Program) : String :=
  Stmt.joined p.stmts

def Stmt.text? (depth : Nat) (s : Stmt) : Option String :=
  if Node.fits depth (.stmt s) then some s.text else none

def Expr.text? (depth : Nat) (e : Expr) : Option String :=
  if Node.fits depth (.expr e) then some e.text else none

def Block.text? (depth : Nat) (b : Block) : Option String :=
  if Node.fits depth (.block b) then some b.text else none

def Program.text? (depth : Nat) (p : Program) : Option String :=
  if p.stmts.all fun s => Node.fits depth (.stmt s) then some p.text else none

end Marmoset
