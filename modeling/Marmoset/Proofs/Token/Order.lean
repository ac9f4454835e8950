import Mathlib.Data.Prod.Lex
import Marmoset.Token.Lexer

namespace Marmoset

instance : Preorder Pos := Preorder.lift fun p => toLex (p.line, p.col)

namespace Pos

theorem lt_iff {p q : Pos} : p < q ↔ p.line < q.line ∨ p.line = q.line ∧ p.col < q.col :=
  Prod.Lex.toLex_lt_toLex

theorem lt_step (p : Pos) (c : Char) : p < p.step c := by
  rw [lt_iff]
  unfold step
  split
  · exact .inl (Nat.lt_succ_self _)
  · exact .inr ⟨rfl, Nat.lt_succ_self _⟩

theorem le_after (p : Pos) (cs : List Char) : p ≤ p.after cs := by
  induction cs generalizing p with
  | nil => exact le_refl p
  | cons c cs ih => exact (p.lt_step c).le.trans (ih (p.step c))

theorem lt_after (p : Pos) {cs : List Char} (h : cs ≠ []) : p < p.after cs := by
  obtain ⟨c, cs, rfl⟩ := List.exists_cons_of_ne_nil h
  exact (p.lt_step c).trans_le ((p.step c).le_after cs)

end Pos

namespace Cursor

theorem pos_le_next (c : Cursor) : c.pos ≤ c.next.1.pos := by
  have hspaces : c.pos ≤ c.skipSpaces.pos := c.pos.le_after _
  unfold next
  cases hrest : c.skipSpaces.rest with
  | nil => simpa [hrest] using hspaces
  | cons x xs => simpa [hrest] using hspaces

theorem next_lt_pos {c : Cursor} (h : c.skipSpaces.rest ≠ []) : c.next.1.pos < c.next.2.pos := by
  unfold next
  cases hrest : c.skipSpaces.rest with
  | nil => exact absurd hrest h
  | cons x xs => simpa [hrest] using Pos.lt_after _ (Lexeme.read_span_ne_nil x xs)

theorem pos_le_tokens (c : Cursor) : ∀ t ∈ c.tokens, c.pos ≤ t.pos := by
  fun_induction tokens c with
  | case1 c h =>
      intro t ht
      obtain rfl := List.mem_singleton.mp ht
      exact c.pos_le_next
  | case2 c h ih =>
      intro t ht
      rcases List.mem_cons.mp ht with rfl | ht
      · exact c.pos_le_next
      · exact c.pos_le_next.trans ((next_lt_pos h).le.trans (ih t ht))

theorem tokens_ordered (c : Cursor) : c.tokens.Pairwise (·.pos < ·.pos) := by
  fun_induction tokens c with
  | case1 c h => exact List.pairwise_singleton _ _
  | case2 c h ih => exact .cons (fun t ht => (next_lt_pos h).trans_le (c.next.2.pos_le_tokens t ht)) ih

end Cursor

theorem Token.ofText_ordered (text : String) : (Token.ofText text).Pairwise (·.pos < ·.pos) :=
  Cursor.tokens_ordered _

end Marmoset
