import Marmoset.Proofs.Tree.Tracks

namespace Marmoset

open Read

structure Loop (β : Type) where
  goes : List Token → Bool
  round : β → Read β

namespace Loop

variable {α β : Type} {l : Loop β}

def run (l : Loop β) : Nat → β → Read β
  | 0, b => pure b
  | n + 1, b => fun r => if l.goes r.tokens then (l.round b >>= l.run n) r else .ok b r

theorem run_succ (n : Nat) (b : β) (r : Reading) :
    l.run (n + 1) b r = if l.goes r.tokens then (l.round b >>= l.run n) r else .ok b r := rfl

theorem run_keeps {P : β → Reading → Prop}
    (hround : ∀ {b b' r o}, P b r → l.goes r.tokens = true → l.round b r = .ok b' o → P b' o)
    {n : Nat} {b b' : β} {r o : Reading} (hP : P b r) (h : l.run n b r = .ok b' o) : P b' o := by
  induction n generalizing b r with
  | zero =>
      cases h
      exact hP
  | succ n ih =>
      rw [run_succ] at h
      split at h
      · obtain ⟨c, mid, hc, hrun⟩ := bind_eq_ok h
        exact ih (hround hP ‹_› hc) hrun
      · cases h
        exact hP

def collect (goes : List Token → Bool) (step : Read (List α)) : Loop (List α) :=
  ⟨goes, fun as => do return as ++ (← step)⟩

variable {goes : List Token → Bool} {step : Read (List α)}

theorem round_collect (goes : List Token → Bool) (step : Read (List α)) (as : List α) :
    (collect goes step).round as = (do return as ++ (← step)) := rfl

theorem collect_round {as bs : List α} {r o : Reading} (h : (collect goes step).round as r = .ok bs o) :
    ∃ cs, step r = .ok cs o ∧ bs = as ++ cs := by
  obtain ⟨cs, mid, hstep, hbs⟩ := bind_eq_ok h
  cases hbs
  exact ⟨cs, hstep, rfl⟩

theorem collect_run {p : Nat → Read (List α)} (hzero : p 0 = pure [])
    (hstop : ∀ n r, ¬goes r.tokens = true → p (n + 1) r = .ok [] r)
    (hgo : ∀ n r, goes r.tokens = true → p (n + 1) r = (do return (← step) ++ (← p n)) r) (n : Nat) :
    p n = (collect goes step).run n [] := by
  suffices h : ∀ as, (collect goes step).run n as = (do return as ++ (← p n)) by
    rw [h []]
    exact (bind_pure (p n)).symm
  induction n with
  | zero =>
      intro as
      rw [hzero, pure_bind, List.append_nil]
      rfl
  | succ n ih =>
      intro as
      funext r
      rw [run_succ]
      split
      · rename_i hr
        rw [bind_of_eq (hgo n r hr), round_collect]
        simp only [bind_assoc, pure_bind, ih, List.append_assoc]
      · rename_i hr
        rw [bind_ok (hstop n r hr), List.append_nil]
        rfl

end Loop

namespace Grammar

variable (g : Inside)

def stmtLoop (s : Read Stmt) (ends : Token.Kind → Bool) : Loop (List Stmt) :=
  .collect (fun ts => !ends (firstKind ts)) do
    let s ← attempt s
    advance
    return s.toList

def exprLoop : Loop (List (Option Expr)) :=
  .collect (fun ts => firstKind ts.tail = .comma) do
    advance
    advance
    return [← attempt (g.expr .lowest)]

def paramLoop : Loop (List Ident) :=
  .collect (fun ts => firstKind ts.tail = .comma) do
    advance
    expect .ident
    return [← ident]

def pairLoop : Loop (List (Expr × Expr)) :=
  .collect (fun ts => firstKind ts.tail ≠ .rbrace) do
    advance
    let key ← g.expr .lowest
    expect .colon
    advance
    let value ← g.expr .lowest
    pairEnd
    return [(key, value)]

def operationLoop (level : Level) : Loop Expr where
  goes ts := level.rank < (firstKind ts.tail).level.rank
  round left := do
    advance
    operation g left

theorem statements_run (s : Read Stmt) (ends : Token.Kind → Bool) (n : Nat) :
    statements s ends n = (stmtLoop s ends).run n [] := by
  refine Loop.collect_run rfl (fun n r hr => ?_) (fun n r hr => ?_) n
  · exact statements_stop (by simpa using hr) (n + 1)
  · rw [statements_go (by simpa using hr)]
    simp only [bind_assoc, pure_bind]

theorem moreExprs_run (n : Nat) : moreExprs g n = (exprLoop g).run n [] := by
  refine Loop.collect_run rfl (fun n r hr => ?_) (fun n r hr => ?_) n
  · exact moreExprs_stop (by simpa using hr) (n + 1)
  · have hnext : ¬firstKind r.tokens.tail ≠ .comma := by simpa using hr
    rw [moreExprs, bind_ok (yields_nextKind r.tokens r.mistakes), if_neg hnext]
    simp only [bind_assoc, pure_bind, List.singleton_append]

theorem moreParams_run (n : Nat) : moreParams n = paramLoop.run n [] := by
  refine Loop.collect_run rfl (fun n r hr => ?_) (fun n r hr => ?_) n
  · exact moreParams_stop (by simpa using hr) (n + 1)
  · have hnext : ¬firstKind r.tokens.tail ≠ .comma := by simpa using hr
    rw [moreParams, bind_ok (yields_nextKind r.tokens r.mistakes), if_neg hnext]
    simp only [bind_assoc, pure_bind, List.singleton_append]

theorem pairs_run (n : Nat) : pairs g n = (pairLoop g).run n [] := by
  refine Loop.collect_run rfl (fun n r hr => ?_) (fun n r hr => ?_) n
  · exact pairs_stop (by simpa using hr) (n + 1)
  · have hnext : firstKind r.tokens.tail ≠ .rbrace := by simpa using hr
    rw [pairs_succ, bind_ok (yields_nextKind r.tokens r.mistakes), if_neg hnext]
    simp only [bind_assoc, pure_bind, List.singleton_append]

theorem operations_run (level : Level) (n : Nat) (left : Expr) :
    operations g level n left = (operationLoop g level).run n left := by
  induction n generalizing left with
  | zero => rfl
  | succ n ih =>
      funext r
      rw [Loop.run_succ]
      split
      · rename_i hgo
        rw [operations, bind_ok (yields_nextKind r.tokens r.mistakes), if_pos (of_decide_eq_true hgo)]
        simp only [operationLoop, bind_assoc, ih]
      · rename_i hgo
        exact operations_stop (fun hlt => hgo (decide_eq_true hlt)) (n + 1) left

end Grammar

end Marmoset
