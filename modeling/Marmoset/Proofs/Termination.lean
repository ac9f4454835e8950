import Marmoset.Proofs.Tree.Depth
import Marmoset.Proofs.Tree.Entries
import Marmoset.Proofs.Tree.Layout

namespace Marmoset

open Grammar

namespace Read

variable {α β : Type}

theorem attempt_error {p : Read α} {r o : Reading} {e : Reading.Stop} (h : attempt p r = .error e o) :
    e = .tooDeep := by
  unfold attempt at h
  split at h <;> cases h
  rfl

def Shallow (α : Type) (p _ : Read α) : Prop := ∀ r o, p r ≠ .error .tooDeep o

theorem Shallow.bind {p q : Read α} {f f' : α → Read β} (hp : Shallow α p q) (hf : ∀ a, Shallow β (f a) (f' a)) :
    Shallow β (p >>= f) (q >>= f') := by
  intro r o
  cases h : p r with
  | ok a mid =>
      rw [bind_ok h]
      exact hf a mid o
  | error e mid =>
      rw [bind_error h]
      intro he
      cases he
      exact hp r o h

theorem Shallow.attempt {p q : Read α} (hp : Shallow α p q) : Shallow (Option α) (attempt p) (attempt q) := by
  intro r o h
  unfold Read.attempt at h
  split at h
  · cases h
  · cases h
  · exact hp r _ ‹_›

instance : Kept Shallow where
  answer p _ h := fun r o hr => by
    obtain ⟨a, o', hok⟩ := h r
    rw [hok] at hr
    cases hr
  stop := fun r o h => by cases h
  bind := .bind
  attempt := .attempt

def tame (p : Read α) : Read α := fun r =>
  match p r with
  | .ok a o => .ok a o
  | .error _ o => .error .mistaken o

theorem shallow_tame (p q : Read α) : Shallow α (tame p) q := by
  intro r o h
  unfold tame at h
  split at h <;> cases h

theorem alike_tame {n : Nat} {p : Read α} [hp : Grows p]
    (h : ∀ r, Ended r.tokens → r.left < n → ∀ o, p r ≠ .error .tooDeep o) : Alike n α p (tame p) where
  grows := hp
  same {r} hr hn := by
    unfold tame
    cases hpr : p r with
    | ok a o => rfl
    | error e o =>
        cases e with
        | mistaken => rfl
        | tooDeep => exact absurd hpr (h r hr hn o)

end Read

open Read

/-- The levels that an expression needs are no more than the tokens that are left, and one for the end of the text. -/
theorem Expr.read_shallow (size : Nat) {depth : Nat} (level : Level) {r : Reading} (hr : Ended r.tokens)
    (hn : r.left < depth) (o : Reading) : Expr.read size depth level r ≠ .error .tooDeep o := by
  induction depth generalizing level r o with
  | zero => exact absurd hn (Nat.not_lt_zero _)
  | succ depth ih =>
      let e := Expr.read size depth
      have hgrows (level : Level) : Grows (e level) := (sound_read size depth).grows_expr level
      have htame (level : Level) : Alike depth Expr (e level) (tame (e level)) :=
        alike_tame fun r hr hn o => ih level hr hn o
      have hparts (level : Level) : Related (Alike depth) (e level) (tame (e level)) := ⟨htame level⟩
      have hstmt : Related (Alike depth) (stmt ⟨size, e⟩) (stmt ⟨size, fun level => tame (e level)⟩) := inferInstance
      have hsame : expr ⟨size, e⟩ level r = expr ⟨size, fun level => tame (e level)⟩ level r :=
        (alike_exprOf htame hstmt.holds level).same hr hn
      have hshallow (level : Level) : Related Shallow (tame (e level)) (tame (e level)) := ⟨shallow_tame _ _⟩
      have hexpr : Related Shallow (expr ⟨size, fun level => tame (e level)⟩ level)
        (expr ⟨size, fun level => tame (e level)⟩ level) := inferInstance
      intro h
      exact hexpr.holds r o (hsame.symm.trans h)

namespace Grammar

theorem statements_error {s : Read Stmt} {ends : Token.Kind → Bool} {n : Nat} {r o : Reading} {e : Reading.Stop}
    (h : statements s ends n r = .error e o) : e = .tooDeep := by
  induction n generalizing r with
  | zero => cases h
  | succ n ih =>
      by_cases hend : ends (firstKind r.tokens) = true
      · rw [statements_stop hend] at h
        cases h
      · rw [statements_go hend] at h
        rcases bind_eq_error h with hs | ⟨_, q, -, h⟩
        · exact attempt_error hs
        · rcases bind_eq_error h with ha | ⟨_, q', -, h⟩
          · cases ha
          · rcases bind_eq_error h with hrest | ⟨_, q'', -, h⟩
            · exact ih hrest
            · cases h

theorem program_answers (n : Nat) {depth : Nat} {tokens : List Token} (hend : Ended tokens)
    (hn : (live tokens).length < depth) : ∃ ss o, program n depth ⟨tokens, #[]⟩ = .ok ss o := by
  let e := Expr.read n depth
  have hgrows (level : Level) : Grows (e level) := (sound_read n depth).grows_expr level
  have hparts (level : Level) : Related (Alike depth) (e level) (tame (e level)) :=
    ⟨alike_tame fun r hr hn o => Expr.read_shallow n level hr hn o⟩
  have halike : Related (Alike depth) (statements (stmt ⟨n, e⟩) (· = .eof) n)
    (statements (stmt ⟨n, fun level => tame (e level)⟩) (· = .eof) n) := inferInstance
  have hshallow (level : Level) : Related Shallow (tame (e level)) (tame (e level)) := ⟨shallow_tame _ _⟩
  have hread : Related Shallow (statements (stmt ⟨n, fun level => tame (e level)⟩) (· = .eof) n)
    (statements (stmt ⟨n, fun level => tame (e level)⟩) (· = .eof) n) := inferInstance
  have hsame := halike.holds.same (r := ⟨tokens, #[]⟩) hend hn
  cases h : program n depth ⟨tokens, #[]⟩ with
  | ok ss o => exact ⟨ss, o, rfl⟩
  | error stop o =>
      obtain rfl := statements_error h
      exact absurd (hsame.symm.trans h) (hread.holds _ o)

end Grammar

/-- Reading a text comes to an end, whatever the text is. Each loop of the grammar has less left of the tokens each time
around. An expression is read alike if the expressions and the statements inside it are read only where less is left
than at its start; at the end of the text nothing is read inside. The expressions of a statement start at the statement
or after it, and the statements inside these start where less is left. So a round and a level for each token are enough,
and there is a tree. -/
theorem every_text_is_read (text : String) :
    let tokens := Token.ofText text
    (∀ size depth, let g : Inside := ⟨size, Expr.read size depth⟩
      (∀ ends, ends .eof = true → (stmtLoop (stmt g) ends).Forward tokens [] (statements (stmt g) ends)) ∧
      (∀ level left, (operationLoop g level).Forward tokens left (operations g level · left)) ∧
      (exprLoop g).Forward tokens [] (moreExprs g) ∧ (pairLoop g).Forward tokens [] (pairs g) ∧
      paramLoop.Forward tokens [] moreParams) ∧
    (∀ size depth r, r.tokens <:+ tokens → let g : Inside := ⟨size, Expr.read size depth⟩
      (∀ level, exprOf (g.later r.left) (later r.left (stmt g)) level r = Expr.read size (depth + 1) level r) ∧
      stmt (g.later (r.left + 1)) r = stmt g r ∧
      stmt ⟨size, exprOf g (later r.left (stmt g))⟩ r = stmt ⟨size, Expr.read size (depth + 1)⟩ r) ∧
    ∃ d, (∀ depth, tokens.length ≤ depth → Program.ofText? depth text = some d) ∧
      ∀ rounds depth, tokens.length ≤ rounds → tokens.length ≤ depth →
        Program.Draft.of? (program rounds depth ⟨tokens, #[]⟩) = some d := by
  intro tokens
  have hend := ended_ofText text
  refine ⟨fun size depth => ?_, fun size depth r hr => ?_, ?_⟩
  · intro g
    exact ⟨fun ends heof => forward_statements hend heof, forward_operations hend, forward_moreExprs hend,
      forward_pairs hend, forward_moreParams hend⟩
  · intro g
    have hr := hend.suffix hr
    exact ⟨exprOf_later hr, stmt_later hr, stmt_later_stmt hr⟩
  · obtain ⟨ss, o, hread⟩ := program_answers tokens.length hend (live_ofText_lt text)
    have hdraft : Program.ofTokens? tokens.length tokens = some ⟨⟨ss⟩, o.mistakes.toList⟩ :=
      congrArg Program.Draft.of? hread
    have hdeeper (depth : Nat) (hd : tokens.length ≤ depth) :
        Program.ofTokens? depth tokens = some ⟨⟨ss⟩, o.mistakes.toList⟩ := by
      rcases Program.ofTokens?_deeper hd tokens with hnone | hsame
      · cases hnone.symm.trans hdraft
      · exact hsame.symm.trans hdraft
    refine ⟨_, hdeeper, fun rounds depth hrounds hd => ?_⟩
    exact (Program.Draft.of?_rounds depth hrounds).trans (hdeeper depth hd)

theorem every_text_is_read_unclosed :
    (Token.ofText "\x7b1: [fn(").length ≤ 7 ∧ ∃ d, Program.ofText? 7 "\x7b1: [fn(" = some d := by
  have hlength : (Token.ofText "\x7b1: [fn(").length ≤ 7 := by cbv
  obtain ⟨-, -, d, hread, -⟩ := every_text_is_read "\x7b1: [fn("
  exact ⟨hlength, d, hread 7 hlength⟩

end Marmoset
