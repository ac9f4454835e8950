import Marmoset.Proofs.Eval.Visits
import Marmoset.Proofs.Outcome

namespace Marmoset.Eval

variable {s : Setting} {run : Runner} {scope : ScopeId} {st st' mid : Store} {w : Value}

section Forward

theorem Rounds.loop_eq {t : Expr} {b : Block} {n : Nat} (h : Rounds run scope t b n st st')
    (rounds : Nat) : loop run scope t b (rounds + n) st = loop run scope t b rounds st' := by
  induction h with
  | none => rfl
  | more hc hok htruthy hv hleaves _ ih =>
      rw [← ih, ← Nat.add_assoc, loop, bind_ok hc]
      simp only [hok, htruthy, Bool.false_eq_true, Bool.not_true, if_false]
      rw [bind_ok hv]
      simp only [hleaves, Bool.false_eq_true, if_false]

theorem loop_of_round {t : Expr} {b : Block} {n rounds : Nat} {c v : Value}
    (h : Rounds run scope t b n st mid) (hn : n < rounds) {mid' : Store}
    (hc : run (.expr t) scope mid = .ok c mid') (hok : c.isError = false) (htruthy : c.truthy = true)
    (hv : run (.block b) scope mid' = .ok v st') (hleaves : v.leaves = true) :
    loop run scope t b rounds st = .ok v st' := by
  obtain ⟨m, rfl⟩ : ∃ m, rounds = m + 1 + n := ⟨rounds - n - 1, by omega⟩
  rw [h.loop_eq, loop, bind_ok hc]
  simp only [hok, htruthy, Bool.false_eq_true, Bool.not_true, if_false]
  rw [bind_ok hv]
  simp only [hleaves, if_true]
  rfl

theorem Along.stmts_eq {xs : List Stmt} {x : Stmt} {v : Value}
    (h : Along (StmtDone run scope) xs st x mid) (hx : stmt run scope x mid = .ok v st')
    (hleaves : v.leaves = true) (last : Value) : stmts run scope last xs st = .ok v st' := by
  induction h generalizing last with
  | here =>
      rw [stmts, bind_ok hx]
      simp only [hleaves, if_true]
      rfl
  | later hdone _ ih =>
      obtain ⟨u, hu, hstays⟩ := hdone
      rw [stmts, bind_ok hu]
      simp only [hstays, Bool.false_eq_true, if_false]
      exact ih hx u

theorem stmts_append {last : Value} (hlast : last.leaves = false) (pre post : List Stmt) :
    stmts run scope last (pre ++ post) = (do
      let v ← stmts run scope last pre
      if v.leaves then return v
      stmts run scope v post) := by
  induction pre generalizing last with
  | nil => simp [stmts, hlast]
  | cons x pre ih =>
      simp only [List.cons_append, stmts, bind_assoc]
      congr 1
      funext v
      by_cases hv : v.leaves = true
      · simp [hv]
      · rw [if_neg hv, if_neg hv]
        exact ih (Bool.eq_false_iff.mpr hv)

theorem Enters.passes {p q : Point} (h : Enters s p .passed q)
    (hq : q.result s = .ok (.returned w) st') : p.result s = .ok (.returned w) st' := by
  cases h with
  | yes hc hok htruthy =>
      refine (bind_ok hc).trans ?_
      simp only [hok, htruthy, Bool.false_eq_true, if_false, if_true]
      exact hq
  | no hc hok htruthy =>
      refine (bind_ok hc).trans ?_
      simp only [hok, htruthy, Bool.false_eq_true, if_false]
      exact hq
  | round hn hlt hc hok htruthy => exact loop_of_round hn hlt hc hok htruthy hq rfl
  | expr hx => exact hx.stmts_eq hq rfl _
  | block hx => exact hx.stmts_eq hq rfl _

theorem Enters.settles {p q : Point} {v : Value} (h : Enters s p .called q)
    (hq : q.result s = .ok v st') : p.result s = .ok v.settle st' := by
  cases h with
  | body hf hvs hchild hassign =>
      refine (bind_ok hf).trans ?_
      simp only [Value.isError, Bool.false_eq_true]
      refine (bind_ok hvs).trans ?_
      refine (bind_ok hchild).trans ?_
      refine (bind_ok hassign).trans ?_
      exact bind_ok hq

end Forward

section Backward

end Backward

end Marmoset.Eval
