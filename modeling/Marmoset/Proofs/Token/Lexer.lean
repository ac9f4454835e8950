import Marmoset.Token.Lexer

namespace Marmoset

namespace Lexeme

theorem keywords_kind_ne_eof : ∀ p ∈ keywords, p.2 ≠ .eof := by
  decide

theorem wordKind_ne_eof (w : List Char) : wordKind w ≠ .eof := by
  unfold wordKind
  cases hw : keywords.lookup w with
  | none => simp
  | some k =>
      obtain ⟨l, r, hl, -⟩ := List.lookup_eq_some_iff.mp hw
      exact keywords_kind_ne_eof (w, k) (by simp [hl])

theorem number_kind (cs : List Char) : (number cs).kind = .int ∨ (number cs).kind = .double := by
  unfold number
  split
  · split
    · exact .inr rfl
    · exact .inl rfl
  · exact .inl rfl

theorem quotedRest_kind (cs : List Char) : (quotedRest cs).kind = .string := by
  fun_cases quotedRest cs <;> rfl

theorem signKind_ne_eof (c : Char) : signKind c ≠ some .eof := by
  fun_cases signKind c <;> simp

theorem pairKind_ne_eof {c second : Char} {both alone : Token.Kind}
    (h : pairKind c = some (second, both, alone)) : both ≠ .eof ∧ alone ≠ .eof := by
  revert h
  fun_cases pairKind c <;> grind

theorem sign_kind_ne_eof (c : Char) (cs : List Char) : (sign c cs).kind ≠ .eof := by
  unfold sign
  split
  · rename_i kind hk
    rintro rfl
    exact signKind_ne_eof c hk
  · split
    · rename_i hp
      split
      · exact (pairKind_ne_eof hp).1
      · exact (pairKind_ne_eof hp).2
    · exact (pairKind_ne_eof ‹_›).2
    · simp

theorem read_kind_ne_eof (c : Char) (cs : List Char) : (read c cs).kind ≠ .eof := by
  unfold read
  split
  · exact wordKind_ne_eof _
  · split
    · rcases number_kind (c :: cs) with h | h <;> simp [h]
    · split
      · simp [quotedRest_kind]
      · exact sign_kind_ne_eof c cs

end Lexeme

namespace Cursor

theorem next_kind (c : Cursor) : c.next.1.kind = .eof ↔ c.skipSpaces.rest = [] := by
  unfold next
  cases hr : c.skipSpaces.rest with
  | nil => simp [hr]
  | cons x xs => simpa [hr] using Lexeme.read_kind_ne_eof x xs

theorem tokens_ending (c : Cursor) :
    ∃ ts e, c.tokens = ts ++ [e] ∧ e.kind = .eof ∧ ∀ t ∈ ts, t.kind ≠ .eof := by
  fun_induction tokens c with
  | case1 c h => exact ⟨[], c.next.1, rfl, c.next_kind.mpr h, by simp⟩
  | case2 c h ih =>
      obtain ⟨ts, e, hts, he, hall⟩ := ih
      refine ⟨c.next.1 :: ts, e, by rw [hts, List.cons_append], he, ?_⟩
      rintro t (_ | ht)
      · exact fun hk => h (c.next_kind.mp hk)
      · exact hall t ‹_›

end Cursor

def Token.move (f : Pos → Pos) (t : Token) : Token := { t with pos := f t.pos }

theorem Token.ofText_ending (text : String) :
    ∃ ts e, Token.ofText text = ts ++ [e] ∧ e.kind = .eof ∧ ∀ t ∈ ts, t.kind ≠ .eof :=
  Cursor.tokens_ending _

end Marmoset
