import Marmoset.Proofs.Tree.Related

namespace Marmoset

namespace Read

variable {α : Type}

def Deepens (α : Type) (p q : Read α) : Prop := Outlasts (· = Reading.Stop.tooDeep) p q

theorem Deepens.attempt {p q : Read α} (hp : Deepens α p q) : Deepens (Option α) (attempt p) (attempt q) where
  ends r := by
    unfold Read.attempt
    rcases hp.ends r with h | ⟨e, o, h, rfl⟩
    · rw [h]
      exact .inl rfl
    · rw [h]
      exact .inr ⟨.tooDeep, o, rfl, rfl⟩

instance : Kept Deepens where
  answer p _ _ := Outlasts.refl p
  stop := Outlasts.refl _
  bind hp hf := Outlasts.bind (h := hp) (k := hf)
  attempt := .attempt

end Read

open Read

theorem Expr.read_deepens {size d d' : Nat} (h : d ≤ d') (level : Level) :
    Related Deepens (Expr.read size d level) (Expr.read size d' level) := by
  induction d generalizing d' level with
  | zero => exact ⟨outlasts_throw rfl⟩
  | succ d ih =>
      obtain ⟨d', rfl⟩ := Nat.exists_eq_add_of_le' h
      -- what holds of the expressions one level down is looked for where the productions are related
      have hinside (level : Level) : Related Deepens (Expr.read size d level) (Expr.read size (d' + d) level) :=
        ih (Nat.le_add_left d d') level
      exact inferInstanceAs (Related Deepens (Grammar.expr ⟨size, Expr.read size d⟩ level)
        (Grammar.expr ⟨size, Expr.read size (d' + d)⟩ level))

theorem Program.ofTokens?_deeper {d d' : Nat} (h : d ≤ d') (tokens : List Token) :
    Program.ofTokens? d tokens = none ∨ Program.ofTokens? d tokens = Program.ofTokens? d' tokens := by
  have hexpr (level : Level) :
      Related Deepens (Expr.read tokens.length d level) (Expr.read tokens.length d' level) :=
    Expr.read_deepens h level
  have hread : Related Deepens
      (Grammar.statements (Grammar.stmt ⟨tokens.length, Expr.read tokens.length d⟩) (· = .eof) tokens.length)
      (Grammar.statements (Grammar.stmt ⟨tokens.length, Expr.read tokens.length d'⟩) (· = .eof)
        tokens.length) := inferInstance
  unfold Program.ofTokens?
  rcases hread.holds.ends ⟨tokens, #[]⟩ with heq | ⟨e, o, ho, -⟩
  · simp only [heq]
    exact .inr trivial
  · simp only [ho]
    exact .inl trivial

end Marmoset
