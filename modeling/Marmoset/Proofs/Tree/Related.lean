import Marmoset.Proofs.Tree.Soundness

/-!
Relations between readings that are kept by all ways to put readings together. A production is given the reading of the
expressions inside it, and here of the statements in its blocks too. Where these are related, so are the productions.
-/

set_option synthInstance.maxSize 1000

namespace Marmoset

namespace Read

variable {α β : Type}

class Kept (R : (α : Type) → Read α → Read α → Prop) : Prop where
  answer {α : Type} (p : Read α) [Grows p] : (∀ r, ∃ a o, p r = .ok a o) → R α p p
  stop {α : Type} : R α (throw .mistaken) (throw .mistaken)
  bind {α β : Type} {p q : Read α} {f f' : α → Read β} :
    R α p q → (∀ a, R β (f a) (f' a)) → R β (p >>= f) (q >>= f')
  attempt {α : Type} {p q : Read α} : R α p q → R (Option α) (attempt p) (attempt q)

class Related (R : (α : Type) → Read α → Read α → Prop) (p q : Read α) : Prop where
  holds : R α p q

variable {R : (α : Type) → Read α → Read α → Prop} [hR : Kept R]

instance (a : α) : Related R (pure a) (pure a) := ⟨hR.answer _ fun r => ⟨a, r, rfl⟩⟩

instance : Related R current current := ⟨hR.answer _ fun r => ⟨_, r, rfl⟩⟩

instance : Related R currentKind currentKind := ⟨hR.answer _ fun r => ⟨_, r, rfl⟩⟩

instance : Related R nextKind nextKind := ⟨hR.answer _ fun r => ⟨_, r, rfl⟩⟩

instance : Related R advance advance := ⟨hR.answer _ fun _ => ⟨_, _, rfl⟩⟩

instance related_bind {p q : Read α} {f f' : α → Read β} [h : Related R p q] [k : ∀ a, Related R (f a) (f' a)] :
    Related R (p >>= f) (q >>= f') :=
  ⟨hR.bind h.holds fun a => (k a).holds⟩

instance {c : Prop} [Decidable c] {p q p' q' : Read α} [h : Related R p q] [h' : Related R p' q'] :
    Related R (if c then p else p') (if c then q else q') := by
  split
  · exact h
  · exact h'

instance (m : Mistake) : Related R (mistake m : Read α) (mistake m) := by
  have hnote : Grows (modify fun r => { r with mistakes := r.mistakes.push m } : Read Unit) :=
    ⟨fun r => ⟨List.suffix_refl r.tokens, (Nat.le_succ _).trans_eq (Array.size_push m).symm⟩⟩
  exact ⟨hR.bind (hR.answer _ fun _ => ⟨_, _, rfl⟩) fun _ => hR.stop⟩

instance (kind : Token.Kind) : Related R (expect kind) (expect kind) := by
  unfold expect
  infer_instance

instance (kind : Token.Kind) : Related R (skip kind) (skip kind) := by
  unfold skip
  infer_instance

instance {p q : Read α} [h : Related R p q] : Related R (attempt p) (attempt q) := ⟨hR.attempt h.holds⟩

instance (a : Option α) : Related R (require a) (require a) := by
  cases a with
  | none => exact ⟨hR.stop⟩
  | some a => exact inferInstanceAs (Related R (pure a) (pure a))

end Read

namespace Grammar

open Read

section Open

variable (g : Inside) (s : Read Stmt)

def blockOf : Read Block := do
  let t ← current
  advance
  let ss ← statements s (fun k => k = .rbrace ∨ k = .eof) g.size
  return .mk t.pos ss

def condOf (pos : Pos) : Read Expr := do
  let t ← test g
  expect .lbrace
  let yes ← blockOf g s
  if (← nextKind) = .kwElse then
    advance
    expect .lbrace
    let no ← blockOf g s
    return .cond pos t yes (some no)
  return .cond pos t yes none

def loopOf (pos : Pos) : Read Expr := do
  let t ← test g
  expect .lbrace
  let body ← blockOf g s
  return .loop pos t body

def fnOf (pos : Pos) : Read Expr := do
  expect .lparen
  let ps ← params g.size
  expect .lbrace
  let body ← blockOf g s
  return .fn pos ps body

def operandOf : Read Expr := do
  let t ← current
  match t.kind with
  | .ident => return .ident ⟨t.pos, t.literal⟩
  | .int =>
      match Number.integer? t.literal with
      | some n => return .int t.pos n
      | none => mistake (.tooLarge t.literal)
  | .double => return .double t.pos Stamp.shared (Number.double t.literal)
  | .string => return .string t.pos t.literal
  | .kwTrue => return .bool t.pos true
  | .kwFalse => return .bool t.pos false
  | .bang | .minus =>
      advance
      let e ← g.expr .unary
      return .unary t.pos (UnaryOp.ofSymbol t.literal) e
  | .lparen => bracketed g
  | .kwIf => condOf g s t.pos
  | .kwWhile => loopOf g s t.pos
  | .kwFn => fnOf g s t.pos
  | .lbracket =>
      let es ← exprList g .rbracket
      return .array t.pos es
  | .lbrace =>
      let ps ← pairs g g.size
      advance
      return .hash t.pos ps
  | k => mistake (.noExpression k)

def exprOf (level : Level) : Read Expr := do
  let left ← operandOf g s
  operations g level g.size left

theorem exprOf_stmt (level : Level) : exprOf g (stmt g) level = expr g level := rfl

end Open

variable {R : (α : Type) → Read α → Read α → Prop} [Kept R] {size : Nat} {e e' : Level → Read Expr}
  [he : ∀ level, Related R (e level) (e' level)] {s s' : Read Stmt} [Related R s s']

instance : Related R ident ident := by
  unfold ident
  infer_instance

instance : Related R (stmt ⟨size, e⟩) (stmt ⟨size, e'⟩) := by
  unfold stmt letStmt returnStmt exprStmt
  refine related_bind (k := fun k => ?_)
  cases k <;> infer_instance

instance {ends : Token.Kind → Bool} {rounds : Nat} :
    Related R (statements s ends rounds) (statements s' ends rounds) := by
  induction rounds with
  | zero => exact inferInstanceAs (Related R (pure _) (pure _))
  | succ n ih =>
      unfold statements
      infer_instance

instance : Related R (blockOf ⟨size, e⟩ s) (blockOf ⟨size, e'⟩ s') := by
  unfold blockOf
  infer_instance

instance {rounds : Nat} : Related R (moreExprs ⟨size, e⟩ rounds) (moreExprs ⟨size, e'⟩ rounds) := by
  induction rounds with
  | zero => exact inferInstanceAs (Related R (pure _) (pure _))
  | succ n ih =>
      unfold moreExprs
      infer_instance

instance {close : Token.Kind} : Related R (exprList ⟨size, e⟩ close) (exprList ⟨size, e'⟩ close) := by
  unfold exprList
  infer_instance

instance {rounds : Nat} : Related R (moreParams rounds) (moreParams rounds) := by
  induction rounds with
  | zero => exact inferInstanceAs (Related R (pure _) (pure _))
  | succ n ih =>
      unfold moreParams
      infer_instance

instance : Related R (params size) (params size) := by
  unfold params
  infer_instance

instance : Related R pairEnd pairEnd := by
  unfold pairEnd
  infer_instance

instance {rounds : Nat} : Related R (pairs ⟨size, e⟩ rounds) (pairs ⟨size, e'⟩ rounds) := by
  induction rounds with
  | zero => exact inferInstanceAs (Related R (pure _) (pure _))
  | succ n ih =>
      rw [pairs_succ, pairs_succ]
      infer_instance

instance : Related R (bracketed ⟨size, e⟩) (bracketed ⟨size, e'⟩) := by
  unfold bracketed
  infer_instance

instance : Related R (test ⟨size, e⟩) (test ⟨size, e'⟩) := by
  unfold test
  infer_instance

instance {pos : Pos} : Related R (condOf ⟨size, e⟩ s pos) (condOf ⟨size, e'⟩ s' pos) := by
  unfold condOf
  infer_instance

instance {pos : Pos} : Related R (loopOf ⟨size, e⟩ s pos) (loopOf ⟨size, e'⟩ s' pos) := by
  unfold loopOf
  infer_instance

instance {pos : Pos} : Related R (fnOf ⟨size, e⟩ s pos) (fnOf ⟨size, e'⟩ s' pos) := by
  unfold fnOf
  infer_instance

instance : Related R (operandOf ⟨size, e⟩ s) (operandOf ⟨size, e'⟩ s') := by
  unfold operandOf
  refine related_bind (k := fun t => ?_)
  cases t.kind with
  | int => cases Number.integer? t.literal <;> infer_instance
  | _ => infer_instance

instance {left : Expr} : Related R (operation ⟨size, e⟩ left) (operation ⟨size, e'⟩ left) := by
  unfold operation
  refine related_bind (k := fun t => ?_)
  cases t.kind <;> infer_instance

instance {level : Level} {rounds : Nat} {left : Expr} :
    Related R (operations ⟨size, e⟩ level rounds left) (operations ⟨size, e'⟩ level rounds left) := by
  induction rounds generalizing left with
  | zero => exact inferInstanceAs (Related R (pure _) (pure _))
  | succ n ih =>
      unfold operations
      infer_instance

instance {level : Level} : Related R (exprOf ⟨size, e⟩ s level) (exprOf ⟨size, e'⟩ s' level) := by
  unfold exprOf
  infer_instance

instance {level : Level} : Related R (expr ⟨size, e⟩ level) (expr ⟨size, e'⟩ level) :=
  inferInstanceAs (Related R (exprOf ⟨size, e⟩ (stmt ⟨size, e⟩) level) (exprOf ⟨size, e'⟩ (stmt ⟨size, e'⟩) level))

end Grammar

end Marmoset
