import Marmoset.Eval

namespace Marmoset

def Expr.passes : Expr → Bool
  | .cond _ _ _ _ | .loop _ _ _ => true
  | _ => false

namespace Eval

structure Point where
  depth : Nat
  code : Code
  scope : ScopeId
  store : Store

def Point.result (s : Setting) (p : Point) : EStateM.Result Halt Store Value :=
  run s p.depth p.code p.scope p.store

/-- A whole program: its statements are run like those of a block. -/
def Point.top (s : Setting) (scope : ScopeId) (p : Program) (st : Store) : Point :=
  ⟨s.depth + 1, .block (.mk Pos.start p.stmts), scope, st⟩

/-- What becomes of the value of a part: it is only looked at, it is kept under a name or in another
value, it is handed on as it is, or it is the answer to a call. -/
inductive Role where
  | seen
  | kept
  | passed
  | called
deriving DecidableEq, Repr

section Along

variable {α : Type}

inductive Along (done : α → Store → Store → Prop) : List α → Store → α → Store → Prop where
  | here {x xs st} : Along done (x :: xs) st x st
  | later {x xs y st mid st'} :
      done x st mid → Along done xs mid y st' → Along done (x :: xs) st y st'

theorem Along.mem {done : α → Store → Store → Prop} {xs : List α} {x : α} {st st' : Store}
    (h : Along done xs st x st') : x ∈ xs := by
  induction h with
  | here => exact List.mem_cons_self
  | later _ _ ih => exact List.mem_cons_of_mem _ ih

variable (run : Runner) (scope : ScopeId)

def ExprDone (e : Expr) (st st' : Store) : Prop :=
  ∃ v, run (.expr e) scope st = .ok v st' ∧ v.isError = false

def PairDone (p : Expr × Expr) (st st' : Store) : Prop :=
  ∃ k id mid, run (.expr p.1) scope st = .ok k mid ∧ k.key? = some id ∧ ExprDone run scope p.2 mid st'

def StmtDone (x : Stmt) (st st' : Store) : Prop :=
  ∃ v, stmt run scope x st = .ok v st' ∧ v.leaves = false

inductive Rounds (test : Expr) (body : Block) : Nat → Store → Store → Prop where
  | none {st} : Rounds test body 0 st st
  | more {n st st₁ st₂ st₃ c v} :
      run (.expr test) scope st = .ok c st₁ → c.isError = false → c.truthy = true →
      run (.block body) scope st₁ = .ok v st₂ → v.leaves = false →
      Rounds test body n st₂ st₃ → Rounds test body (n + 1) st st₃

end Along

/-- The first point runs the second one on its way. -/
inductive Enters (s : Setting) : Point → Role → Point → Prop where
  | array {d pos es e scope st st'} :
      Along (ExprDone (run s d) scope) es st e st' →
      Enters s ⟨d + 1, .expr (.array pos es), scope, st⟩ .kept ⟨d, .expr e, scope, st'⟩
  | key {d pos ps p scope st st'} :
      Along (PairDone (run s d) scope) ps st p st' →
      Enters s ⟨d + 1, .expr (.hash pos ps), scope, st⟩ .seen ⟨d, .expr p.1, scope, st'⟩
  | value {d pos ps p k id scope st st' st''} :
      Along (PairDone (run s d) scope) ps st p st' →
      run s d (.expr p.1) scope st' = .ok k st'' → k.key? = some id →
      Enters s ⟨d + 1, .expr (.hash pos ps), scope, st⟩ .kept ⟨d, .expr p.2, scope, st''⟩
  | low {d pos lo hi scope st} :
      Enters s ⟨d + 1, .expr (.range pos lo hi), scope, st⟩ .seen ⟨d, .expr lo, scope, st⟩
  | high {d pos lo hi scope st st'} :
      ExprDone (run s d) scope lo st st' →
      Enters s ⟨d + 1, .expr (.range pos lo hi), scope, st⟩ .seen ⟨d, .expr hi, scope, st'⟩
  | operand {d pos op e scope st} :
      Enters s ⟨d + 1, .expr (.unary pos op e), scope, st⟩ .seen ⟨d, .expr e, scope, st⟩
  | left {d pos op l r scope st} :
      Enters s ⟨d + 1, .expr (.binary pos op l r), scope, st⟩ .seen ⟨d, .expr l, scope, st⟩
  | right {d pos op l r a scope st st'} :
      run s d (.expr l) scope st = .ok a st' → a.isError = false →
      ¬(op = .and ∧ a.truthy = false) → ¬(op = .or ∧ a.truthy = true) →
      Enters s ⟨d + 1, .expr (.binary pos op l r), scope, st⟩ .seen ⟨d, .expr r, scope, st'⟩
  | test {d pos t yes no scope st} :
      Enters s ⟨d + 1, .expr (.cond pos t yes no), scope, st⟩ .seen ⟨d, .expr t, scope, st⟩
  | yes {d pos t yes no c scope st st'} :
      run s d (.expr t) scope st = .ok c st' → c.isError = false → c.truthy = true →
      Enters s ⟨d + 1, .expr (.cond pos t yes no), scope, st⟩ .passed ⟨d, .block yes, scope, st'⟩
  | no {d pos t yes no c scope st st'} :
      run s d (.expr t) scope st = .ok c st' → c.isError = false → c.truthy = false →
      Enters s ⟨d + 1, .expr (.cond pos t yes (some no)), scope, st⟩ .passed ⟨d, .block no, scope, st'⟩
  | again {d pos t b n scope st st'} :
      Rounds (run s d) scope t b n st st' → n < s.rounds →
      Enters s ⟨d + 1, .expr (.loop pos t b), scope, st⟩ .seen ⟨d, .expr t, scope, st'⟩
  | round {d pos t b n c scope st st' st''} :
      Rounds (run s d) scope t b n st st' → n < s.rounds →
      run s d (.expr t) scope st' = .ok c st'' → c.isError = false → c.truthy = true →
      Enters s ⟨d + 1, .expr (.loop pos t b), scope, st⟩ .passed ⟨d, .block b, scope, st''⟩
  | callee {d pos f args scope st} :
      Enters s ⟨d + 1, .expr (.call pos f args), scope, st⟩ .seen ⟨d, .expr f, scope, st⟩
  | argument {d pos f args e scope st mid st'} :
      ExprDone (run s d) scope f st mid → Along (ExprDone (run s d) scope) args mid e st' →
      Enters s ⟨d + 1, .expr (.call pos f args), scope, st⟩ .kept ⟨d, .expr e, scope, st'⟩
  | body {d pos f args stamp ps b outer vs inner scope st st₁ st₂ st₃ st₄} :
      run s d (.expr f) scope st = .ok (.function stamp ps b outer) st₁ →
      values (run s d) scope args st₁ = .ok (.ok vs) st₂ →
      child outer st₂ = .ok inner st₃ → assignAll inner ps vs st₃ = .ok () st₄ →
      Enters s ⟨d + 1, .expr (.call pos f args), scope, st⟩ .called ⟨d, .block b, inner, st₄⟩
  | collection {d pos c i scope st} :
      Enters s ⟨d + 1, .expr (.index pos c i), scope, st⟩ .seen ⟨d, .expr c, scope, st⟩
  | index {d pos c i scope st st'} :
      ExprDone (run s d) scope c st st' →
      Enters s ⟨d + 1, .expr (.index pos c i), scope, st⟩ .seen ⟨d, .expr i, scope, st'⟩
  | expr {d b pos e scope st st'} :
      Along (StmtDone (run s d) scope) b.stmts st (.expr pos e) st' →
      Enters s ⟨d + 1, .block b, scope, st⟩ .passed ⟨d, .expr e, scope, st'⟩
  | bind {d b pos name e scope st st'} :
      Along (StmtDone (run s d) scope) b.stmts st (.bind pos name e) st' →
      Enters s ⟨d + 1, .block b, scope, st⟩ .kept ⟨d, .expr e, scope, st'⟩
  | ret {d b pos e scope st st'} :
      Along (StmtDone (run s d) scope) b.stmts st (.ret pos (some e)) st' →
      Enters s ⟨d + 1, .block b, scope, st⟩ .kept ⟨d, .expr e, scope, st'⟩
  | block {d b inner scope st st'} :
      Along (StmtDone (run s d) scope) b.stmts st (.block inner) st' →
      Enters s ⟨d + 1, .block b, scope, st⟩ .passed ⟨d, .block inner, scope, st'⟩

inductive Visits (s : Setting) : Point → Role → Point → Prop where
  | here {p r q} : Enters s p r q → Visits s p r q
  | inside {p r q r' q'} : Enters s p r q → Visits s q r' q' → Visits s p r' q'

end Eval

end Marmoset
