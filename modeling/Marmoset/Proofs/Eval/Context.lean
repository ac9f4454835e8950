import Marmoset.Proofs.Eval.Visits

/-!
Programs with a hole where an expression is evaluated, and how a run comes to the hole. The hole is at
any depth, but not inside of a function, whose body is not run where it stands.
-/

namespace Marmoset

inductive Form where
  | expr | stmt | block | program
deriving DecidableEq, Repr

abbrev Form.Tree : Form → Type
  | .expr => Expr
  | .stmt => Stmt
  | .block => Block
  | .program => Program

def Form.run (s : Setting) (depth : Nat) (scope : ScopeId) : (k : Form) → k.Tree → Eval Value
  | .expr, e => Eval.run s depth (.expr e) scope
  | .stmt, x => Eval.stmt (Eval.run s depth) scope x
  | .block, b => Eval.run s depth (.block b) scope
  | .program, p => do
      let v ← Eval.stmts (Eval.run s depth) scope .null p.stmts
      return v.settle

inductive Context : Form → Type where
  | hole : Context .expr
  | array (pos : Pos) (before : List Expr) (inner : Context .expr) (after : List Expr) : Context .expr
  | key (pos : Pos) (before : List (Expr × Expr)) (inner : Context .expr) (value : Expr)
      (after : List (Expr × Expr)) : Context .expr
  | value (pos : Pos) (before : List (Expr × Expr)) (key : Expr) (inner : Context .expr)
      (after : List (Expr × Expr)) : Context .expr
  | low (pos : Pos) (inner : Context .expr) (hi : Expr) : Context .expr
  | high (pos : Pos) (lo : Expr) (inner : Context .expr) : Context .expr
  | operand (pos : Pos) (op : UnaryOp) (inner : Context .expr) : Context .expr
  | left (pos : Pos) (op : BinaryOp) (inner : Context .expr) (r : Expr) : Context .expr
  | right (pos : Pos) (op : BinaryOp) (l : Expr) (inner : Context .expr) : Context .expr
  | test (pos : Pos) (inner : Context .expr) (yes : Block) (no : Option Block) : Context .expr
  | yes (pos : Pos) (t : Expr) (inner : Context .block) (no : Option Block) : Context .expr
  | no (pos : Pos) (t : Expr) (yes : Block) (inner : Context .block) : Context .expr
  | again (pos : Pos) (inner : Context .expr) (body : Block) : Context .expr
  | round (pos : Pos) (t : Expr) (inner : Context .block) : Context .expr
  | callee (pos : Pos) (inner : Context .expr) (args : List Expr) : Context .expr
  | argument (pos : Pos) (f : Expr) (before : List Expr) (inner : Context .expr) (after : List Expr) :
      Context .expr
  | collection (pos : Pos) (inner : Context .expr) (i : Expr) : Context .expr
  | index (pos : Pos) (c : Expr) (inner : Context .expr) : Context .expr
  | expr (pos : Pos) (inner : Context .expr) : Context .stmt
  | bind (pos : Pos) (name : Ident) (inner : Context .expr) : Context .stmt
  | ret (pos : Pos) (inner : Context .expr) : Context .stmt
  | nested (inner : Context .block) : Context .stmt
  | block (pos : Pos) (before : List Stmt) (inner : Context .stmt) (after : List Stmt) : Context .block
  | program (before : List Stmt) (inner : Context .stmt) (after : List Stmt) : Context .program

def Context.fill (e : Expr) : {k : Form} → Context k → k.Tree
  | _, .hole => e
  | _, .array pos before inner after => .array pos (before ++ fill e inner :: after)
  | _, .key pos before inner v after => .hash pos (before ++ (fill e inner, v) :: after)
  | _, .value pos before k inner after => .hash pos (before ++ (k, fill e inner) :: after)
  | _, .low pos inner hi => .range pos (fill e inner) hi
  | _, .high pos lo inner => .range pos lo (fill e inner)
  | _, .operand pos op inner => .unary pos op (fill e inner)
  | _, .left pos op inner r => .binary pos op (fill e inner) r
  | _, .right pos op l inner => .binary pos op l (fill e inner)
  | _, .test pos inner y n => .cond pos (fill e inner) y n
  | _, .yes pos t inner n => .cond pos t (fill e inner) n
  | _, .no pos t y inner => .cond pos t y (some (fill e inner))
  | _, .again pos inner body => .loop pos (fill e inner) body
  | _, .round pos t inner => .loop pos t (fill e inner)
  | _, .callee pos inner args => .call pos (fill e inner) args
  | _, .argument pos f before inner after => .call pos f (before ++ fill e inner :: after)
  | _, .collection pos inner i => .index pos (fill e inner) i
  | _, .index pos c inner => .index pos c (fill e inner)
  | _, .expr pos inner => .expr pos (fill e inner)
  | _, .bind pos name inner => .bind pos name (fill e inner)
  | _, .ret pos inner => .ret pos (some (fill e inner))
  | _, .nested inner => .block (fill e inner)
  | _, .block pos before inner after => .mk pos (before ++ fill e inner :: after)
  | _, .program before inner after => ⟨before ++ fill e inner :: after⟩

namespace Eval

inductive Through {α : Type} (done : α → Store → Store → Prop) : List α → Store → Store → Prop where
  | nil {st} : Through done [] st st
  | cons {x xs st mid st'} :
      done x st mid → Through done xs mid st' → Through done (x :: xs) st st'

theorem Through.along {α : Type} {done : α → Store → Store → Prop} {xs : List α} {st st' : Store}
    (h : Through done xs st st') (x : α) (after : List α) :
    Along done (xs ++ x :: after) st x st' := by
  induction h with
  | nil => exact .here
  | cons hdone _ ih => exact .later hdone ih

end Eval

open Eval in
/-- The run of a context with `e` in it comes to the hole: from which depth and store to which. In a
loop this may be in any round, after `e` has been evaluated in the rounds before. -/
inductive Context.Reaches (s : Setting) (scope : ScopeId) (e : Expr) :
    {k : Form} → Context k → Nat → Store → Nat → Store → Prop where
  | hole {d st} : Reaches s scope e .hole d st d st
  | array {pos before C after d st mid n st'} :
      Through (ExprDone (run s d) scope) before st mid → Reaches s scope e C d mid n st' →
      Reaches s scope e (.array pos before C after) (d + 1) st n st'
  | key {pos before C v after d st mid n st'} :
      Through (PairDone (run s d) scope) before st mid → Reaches s scope e C d mid n st' →
      Reaches s scope e (.key pos before C v after) (d + 1) st n st'
  | value {pos before x C after k id d st mid mid' n st'} :
      Through (PairDone (run s d) scope) before st mid →
      run s d (.expr x) scope mid = .ok k mid' → k.key? = some id → Reaches s scope e C d mid' n st' →
      Reaches s scope e (.value pos before x C after) (d + 1) st n st'
  | low {pos C hi d st n st'} : Reaches s scope e C d st n st' →
      Reaches s scope e (.low pos C hi) (d + 1) st n st'
  | high {pos lo C d st mid n st'} :
      ExprDone (run s d) scope lo st mid → Reaches s scope e C d mid n st' →
      Reaches s scope e (.high pos lo C) (d + 1) st n st'
  | operand {pos op C d st n st'} : Reaches s scope e C d st n st' →
      Reaches s scope e (.operand pos op C) (d + 1) st n st'
  | left {pos op C r d st n st'} : Reaches s scope e C d st n st' →
      Reaches s scope e (.left pos op C r) (d + 1) st n st'
  | right {pos op l C a d st mid n st'} :
      run s d (.expr l) scope st = .ok a mid → a.isError = false →
      ¬(op = .and ∧ a.truthy = false) → ¬(op = .or ∧ a.truthy = true) →
      Reaches s scope e C d mid n st' → Reaches s scope e (.right pos op l C) (d + 1) st n st'
  | test {pos C yes no d st n st'} : Reaches s scope e C d st n st' →
      Reaches s scope e (.test pos C yes no) (d + 1) st n st'
  | yes {pos t C no c d st mid n st'} :
      run s d (.expr t) scope st = .ok c mid → c.isError = false → c.truthy = true →
      Reaches s scope e C d mid n st' → Reaches s scope e (.yes pos t C no) (d + 1) st n st'
  | no {pos t yes C c d st mid n st'} :
      run s d (.expr t) scope st = .ok c mid → c.isError = false → c.truthy = false →
      Reaches s scope e C d mid n st' → Reaches s scope e (.no pos t yes C) (d + 1) st n st'
  | again {pos C body m d st mid n st'} :
      Rounds (run s d) scope (C.fill e) body m st mid → m < s.rounds →
      Reaches s scope e C d mid n st' → Reaches s scope e (.again pos C body) (d + 1) st n st'
  | round {pos t C c m d st mid mid' n st'} :
      Rounds (run s d) scope t (C.fill e) m st mid → m < s.rounds →
      run s d (.expr t) scope mid = .ok c mid' → c.isError = false → c.truthy = true →
      Reaches s scope e C d mid' n st' → Reaches s scope e (.round pos t C) (d + 1) st n st'
  | callee {pos C args d st n st'} : Reaches s scope e C d st n st' →
      Reaches s scope e (.callee pos C args) (d + 1) st n st'
  | argument {pos f before C after d st mid mid' n st'} :
      ExprDone (run s d) scope f st mid → Through (ExprDone (run s d) scope) before mid mid' →
      Reaches s scope e C d mid' n st' →
      Reaches s scope e (.argument pos f before C after) (d + 1) st n st'
  | collection {pos C i d st n st'} : Reaches s scope e C d st n st' →
      Reaches s scope e (.collection pos C i) (d + 1) st n st'
  | index {pos c C d st mid n st'} :
      ExprDone (run s d) scope c st mid → Reaches s scope e C d mid n st' →
      Reaches s scope e (.index pos c C) (d + 1) st n st'
  | expr {pos C d st n st'} : Reaches s scope e C d st n st' →
      Reaches s scope e (.expr pos C) d st n st'
  | bind {pos name C d st n st'} : Reaches s scope e C d st n st' →
      Reaches s scope e (.bind pos name C) d st n st'
  | ret {pos C d st n st'} : Reaches s scope e C d st n st' →
      Reaches s scope e (.ret pos C) d st n st'
  | nested {C d st n st'} : Reaches s scope e C d st n st' →
      Reaches s scope e (.nested C) d st n st'
  | block {pos before C after d st mid n st'} :
      Through (StmtDone (run s d) scope) before st mid → Reaches s scope e C d mid n st' →
      Reaches s scope e (.block pos before C after) (d + 1) st n st'
  | program {before C after d st mid n st'} :
      Through (StmtDone (run s d) scope) before st mid → Reaches s scope e C d mid n st' →
      Reaches s scope e (.program before C after) d st n st'

end Marmoset
