import Marmoset.Proofs.Tree.Forward

/-!
Where expressions and statements start inside others. An expression is read alike by readings of its parts that agree
where less is left of the tokens than at its start.
-/

set_option synthInstance.maxSize 1000

namespace Marmoset

open Grammar

namespace Read

variable {α β : Type} {n : Nat}

def later (n : Nat) (p : Read α) : Read α := fun r => if r.left < n then p r else .error .tooDeep r

structure Alike (n : Nat) (α : Type) (p q : Read α) : Prop where
  grows : Grows p
  same {r : Reading} : Ended r.tokens → r.left < n → p r = q r

theorem Alike.refl (p : Read α) [h : Grows p] : Alike n α p p := ⟨h, fun _ _ => rfl⟩

theorem Alike.bind {p q : Read α} {f f' : α → Read β} (hp : Alike n α p q) (hf : ∀ a, Alike n β (f a) (f' a)) :
    Alike n β (p >>= f) (q >>= f') where
  grows := @Grows.bind _ _ _ _ hp.grows fun a => (hf a).grows
  same {r} hr hn := by
    have hgrows := hp.grows
    have hsame := hp.same hr hn
    cases h : p r with
    | ok a o =>
        have ho := suffix_of_ok h
        rw [bind_ok h, bind_ok (hsame.symm.trans h)]
        exact (hf a).same (hr.suffix ho) (Nat.lt_of_le_of_lt (left_le hr ho) hn)
    | error e o => rw [bind_error h, bind_error (hsame.symm.trans h)]

theorem Alike.attempt {p q : Read α} (hp : Alike n α p q) :
    Alike n (Option α) (attempt p) (Read.attempt q) where
  grows := by
    have := hp.grows
    infer_instance
  same hr hn := by
    unfold Read.attempt
    rw [hp.same hr hn]

instance : Kept (Alike n) where
  answer p _ _ := .refl p
  stop := .refl _
  bind := .bind
  attempt := .attempt

/-- Past the first token there is less left, so the readings of what comes then have to agree there only. -/
theorem Alike.past {p q : Read α} {f f' : α → Read β} [hm : Moves p] (hp : Alike (n + 2) α p q)
    (hf : ∀ a, Alike (n + 1) β (f a) (f' a)) : Alike (n + 2) β (p >>= f) (q >>= f') where
  grows := @Grows.bind _ _ _ _ hp.grows fun a => (hf a).grows
  same {r} hr hn := by
    have hsame := hp.same hr hn
    cases h : p r with
    | ok a o =>
        have ho := hm.past h
        have hle := left_past hr ho
        rw [bind_ok h, bind_ok (hsame.symm.trans h)]
        exact (hf a).same (hr.suffix (ho.trans (List.tail_suffix _))) (by omega)
    | error e o => rw [bind_error h, bind_error (hsame.symm.trans h)]

end Read

namespace Grammar

open Read

instance {g : Inside} [Steady g] : Moves (test g) := by
  unfold test
  infer_instance

section Past

variable {n size : Nat} {e e' : Level → Read Expr} [he : ∀ level, Related (Alike (n + 1)) (e level) (e' level)]
  {s s' : Read Stmt} [Related (Alike (n + 1)) s s']

theorem alike_bracketed : Alike (n + 2) Expr (bracketed ⟨size, e⟩) (bracketed ⟨size, e'⟩) :=
  .past (.refl _) fun _ => Related.holds

theorem alike_test : Alike (n + 2) Expr (test ⟨size, e⟩) (test ⟨size, e'⟩) :=
  .past (.refl _) fun _ => Related.holds

theorem alike_exprList (close : Token.Kind) :
    Alike (n + 2) (List Expr) (exprList ⟨size, e⟩ close) (exprList ⟨size, e'⟩ close) := by
  refine .bind (.refl _) fun k => ?_
  split
  · exact .refl _
  · exact .past (.refl _) fun _ => Related.holds

theorem alike_pairs (rounds : Nat) :
    Alike (n + 2) (List (Expr × Expr)) (pairs ⟨size, e⟩ rounds) (pairs ⟨size, e'⟩ rounds) := by
  cases rounds with
  | zero => exact .refl (pure [])
  | succ rounds =>
      rw [pairs_succ, pairs_succ]
      refine .bind (.refl _) fun k => ?_
      split
      · exact .refl _
      · exact .past (.refl _) fun _ => Related.holds

theorem alike_operandOf : Alike (n + 2) Expr (operandOf ⟨size, e⟩ s) (operandOf ⟨size, e'⟩ s') := by
  have hsteady : Steady ⟨size, e⟩ := ⟨fun level => (he level).holds.grows⟩
  refine .bind (.refl _) fun t => ?_
  cases t.kind with
  | int => cases Number.integer? t.literal <;> exact .refl _
  | bang => exact .past (.refl _) fun _ => Related.holds
  | minus => exact .past (.refl _) fun _ => Related.holds
  | lparen => exact alike_bracketed
  | kwIf => exact .past alike_test fun _ => Related.holds
  | kwWhile => exact .past alike_test fun _ => Related.holds
  | kwFn => exact .past (.refl _) fun _ => Related.holds
  | lbracket => exact .bind (alike_exprList _) fun _ => .refl _
  | lbrace => exact .bind (alike_pairs _) fun _ => .refl _
  | _ => exact .refl _

theorem alike_operations (level : Level) (rounds : Nat) (left : Expr) :
    Alike (n + 2) Expr (operations ⟨size, e⟩ level rounds left) (operations ⟨size, e'⟩ level rounds left) := by
  cases rounds with
  | zero => exact .refl (pure left)
  | succ rounds =>
      refine .bind (.refl _) fun k => ?_
      split
      · exact .past (.refl _) fun _ => Related.holds
      · exact .refl _

end Past

theorem exprOf_at_end (g : Inside) (s : Read Stmt) (level : Level) {r : Reading} (hr : r.left = 0) :
    exprOf g s level r = .error .mistaken { r with mistakes := r.mistakes.push (.noExpression .eof) } := by
  have heof : (r.tokens.head?.getD endToken).kind = .eof := left_eq_zero.mp hr
  have hoperand : operandOf g s r = .error .mistaken { r with mistakes := r.mistakes.push (.noExpression .eof) } := by
    rw [operandOf, bind_ok (yields_current r.tokens r.mistakes), heof]
    rfl
  exact bind_error hoperand

theorem alike_exprOf {n size : Nat} {e e' : Level → Read Expr} {s s' : Read Stmt}
    (he : ∀ level, Alike n Expr (e level) (e' level)) (hs : Alike n Stmt s s') (level : Level) :
    Alike (n + 1) Expr (exprOf ⟨size, e⟩ s level) (exprOf ⟨size, e'⟩ s' level) := by
  have hparts (level : Level) : Related (Alike n) (e level) (e' level) := ⟨he level⟩
  have hstmts : Related (Alike n) s s' := ⟨hs⟩
  cases n with
  | zero =>
      have hgrows : Related (Alike 0) (exprOf ⟨size, e⟩ s level) (exprOf ⟨size, e'⟩ s' level) := inferInstance
      refine ⟨hgrows.holds.grows, fun _ hr => ?_⟩
      have hleft := Nat.lt_one_iff.mp hr
      rw [exprOf_at_end _ _ _ hleft, exprOf_at_end _ _ _ hleft]
  | succ n => exact .bind alike_operandOf fun left => alike_operations level size left

end Grammar

section Later

open Read

variable {α : Type} {n : Nat} {p : Read α}

theorem Read.alike_later (n : Nat) (p : Read α) [hp : Grows p] : Alike n α (later n p) p where
  grows := ⟨fun r => by
    by_cases h : r.left < n
    · rw [finalState, later, if_pos h]
      exact hp.stop_le r
    · rw [finalState, later, if_neg h]
      exact ⟨List.suffix_refl _, Nat.le_refl _⟩⟩
  same _ hr := if_pos hr

def Inside.later (n : Nat) (g : Inside) : Inside := ⟨g.size, fun level => Read.later n (g.expr level)⟩

variable {g : Inside} [Steady g] {r : Reading} (hr : Ended r.tokens)

include hr

theorem Grammar.exprOf_later (level : Level) :
    exprOf (g.later r.left) (Read.later r.left (stmt g)) level r = expr g level r := by
  rw [← exprOf_stmt]
  exact (alike_exprOf (fun _ => alike_later _ _) (alike_later _ _) level).same hr (Nat.lt_succ_self _)

theorem Grammar.stmt_later : stmt (g.later (r.left + 1)) r = stmt g r := by
  have hparts (level : Level) : Related (Alike (r.left + 1)) (Read.later (r.left + 1) (g.expr level)) (g.expr level) :=
    ⟨alike_later _ _⟩
  have hstmt : Related (Alike (r.left + 1)) (stmt (g.later (r.left + 1))) (stmt g) :=
    inferInstanceAs (Related (Alike (r.left + 1)) (stmt ⟨g.size, _⟩) (stmt ⟨g.size, _⟩))
  exact hstmt.holds.same hr (Nat.lt_succ_self _)

theorem Grammar.stmt_later_stmt :
    stmt ⟨g.size, exprOf g (Read.later r.left (stmt g))⟩ r = stmt ⟨g.size, expr g⟩ r := by
  have hparts (level : Level) :
      Related (Alike (r.left + 1)) (exprOf g (Read.later r.left (stmt g)) level) (exprOf g (stmt g) level) :=
    ⟨alike_exprOf (fun _ => .refl _) (alike_later _ _) level⟩
  have hstmt : Related (Alike (r.left + 1)) (stmt ⟨g.size, exprOf g (Read.later r.left (stmt g))⟩)
    (stmt ⟨g.size, exprOf g (stmt g)⟩) := inferInstance
  exact hstmt.holds.same hr (Nat.lt_succ_self _)

end Later

end Marmoset
