import Marmoset.Comparison
import Marmoset.Tree

namespace Marmoset

namespace Node

def sameExpr (same : Node → Node → Option Bool) (a b : Expr) : Option Bool :=
  let expr (x y : Expr) := same (.expr x) (.expr y)
  let block (x y : Block) := same (.block x) (.block y)
  if a.pos ≠ b.pos then some false
  else match a, b with
  | .missing, .missing => some true
  | .ident i, .ident j => some (i == j)
  | .int _ m, .int _ n => some (m == n)
  | .double _ s x, .double _ t y => some (sameDouble s t x y)
  | .string _ s, .string _ t => some (s == t)
  | .bool _ x, .bool _ y => some (x == y)
  | .array _ xs, .array _ ys => sameList expr xs ys
  | .hash _ ps, .hash _ qs =>
      sameList (fun p q => andThen (expr p.1 q.1) fun _ => expr p.2 q.2) ps qs
  | .range _ l h, .range _ l' h' => andThen (expr l l') fun _ => expr h h'
  | .unary _ op e, .unary _ op' e' => andThen (some (op == op')) fun _ => expr e e'
  | .binary _ op l r, .binary _ op' l' r' =>
      andThen (some (op == op')) fun _ => andThen (expr l l') fun _ => expr r r'
  | .cond _ t y n, .cond _ t' y' n' =>
      andThen (expr t t') fun _ => andThen (block y y') fun _ => sameOption block n n'
  | .loop _ t b, .loop _ t' b' => andThen (expr t t') fun _ => block b b'
  | .fn _ ps b, .fn _ ps' b' => andThen (some (ps == ps')) fun _ => block b b'
  | .call _ f xs, .call _ f' xs' => andThen (expr f f') fun _ => sameList expr xs xs'
  | .index _ c i, .index _ c' i' => andThen (expr c c') fun _ => expr i i'
  | .foreign _ name, .foreign _ name' => some (name == name')
  | _, _ => some false

def sameStmt (same : Node → Node → Option Bool) (a b : Stmt) : Option Bool :=
  let expr (x y : Expr) := same (.expr x) (.expr y)
  if a.pos ≠ b.pos then some false
  else match a, b with
  | .bind _ i e, .bind _ i' e' => andThen (some (i == i')) fun _ => expr e e'
  | .ret _ e, .ret _ e' => sameOption expr e e'
  | .expr _ e, .expr _ e' => expr e e'
  | .block b, .block b' => same (.block b) (.block b')
  | .foreign _ name, .foreign _ name' => some (name == name')
  | _, _ => some false

def sameParts (same : Node → Node → Option Bool) : Node → Node → Option Bool
  | .expr a, .expr b => sameExpr same a b
  | .stmt a, .stmt b => sameStmt same a b
  | .block a, .block b =>
      if a.pos ≠ b.pos then some false
      else sameList (fun s t => same (.stmt s) (.stmt t)) a.stmts b.stmts
  | _, _ => some false

def same? : Nat → Node → Node → Option Bool
  | 0, _, _ => none
  | depth + 1, a, b => sameParts (same? depth) a b

end Node

def Program.same? (depth : Nat) (p q : Program) : Option Bool :=
  sameList (fun s t => Node.same? depth (.stmt s) (.stmt t)) p.stmts q.stmts

end Marmoset
