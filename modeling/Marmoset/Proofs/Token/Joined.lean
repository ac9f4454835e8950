import Mathlib.Data.List.TakeWhile
import Marmoset.Proofs.Token.Lexer

namespace Marmoset

section Space

variable {p : Char → Bool} {w : Char}

theorem takeWhile_before (hw : p w = false) (cs ds : List Char) :
    (cs ++ w :: ds).takeWhile p = cs.takeWhile p := by
  induction cs with
  | nil => simp [hw]
  | cons c cs ih => simp [List.takeWhile_cons, ih]

theorem dropWhile_before (hw : p w = false) (cs ds : List Char) :
    (cs ++ w :: ds).dropWhile p = cs.dropWhile p ++ w :: ds := by
  induction cs with
  | nil => simp [hw]
  | cons c cs ih =>
      simp only [List.cons_append, List.dropWhile_cons, ih]
      split <;> rfl

theorem isSpace_cases (h : isSpace w = true) : w = ' ' ∨ w = '\t' ∨ w = '\r' ∨ w = '\n' := by
  simpa [isSpace, or_assoc] using h

end Space

namespace Lexeme

def closes : List Char → Bool
  | [] => false
  | '"' :: _ => true
  | '\\' :: _ :: cs => closes cs
  | _ :: cs => closes cs

def extend (l : Lexeme) (ds : List Char) : Lexeme := { l with rest := l.rest ++ ds }

theorem pairKind_second {c second : Char} {both alone : Token.Kind}
    (h : pairKind c = some (second, both, alone)) : isSpace second = false := by
  revert h
  fun_cases pairKind c <;> intro h <;> cases h <;> decide

variable {w : Char} (hw : isSpace w = true) (cs ds : List Char)

include hw

theorem word_append : word (cs ++ w :: ds) = (word cs).extend (w :: ds) := by
  have hletter : isLetter w = false := by
    rcases isSpace_cases hw with rfl | rfl | rfl | rfl <;> decide
  simp only [word, extend, takeWhile_before hletter, dropWhile_before hletter]

theorem number_append : number (cs ++ w :: ds) = (number cs).extend (w :: ds) := by
  have hdigit : isDigit w = false := by
    rcases isSpace_cases hw with rfl | rfl | rfl | rfl <;> decide
  have hpoint : w ≠ '.' := by
    rcases isSpace_cases hw with rfl | rfl | rfl | rfl <;> decide
  unfold number
  simp only [takeWhile_before hdigit, dropWhile_before hdigit]
  cases cs.dropWhile isDigit with
  | nil => simp [extend, hpoint]
  | cons c rest =>
      by_cases hc : c = '.'
      · subst hc
        cases rest with
        | nil => simp [extend, hdigit]
        | cons d rest =>
            simp only [List.cons_append]
            split
            · rw [← List.cons_append, takeWhile_before hdigit, dropWhile_before hdigit]
              rfl
            · rfl
      · simp [extend, hc]

theorem sign_append (c : Char) : sign c (cs ++ w :: ds) = (sign c cs).extend (w :: ds) := by
  unfold sign
  cases signKind c with
  | some kind => rfl
  | none =>
      cases hpair : pairKind c with
      | none => rfl
      | some pair =>
          obtain ⟨second, both, alone⟩ := pair
          cases cs with
          | nil =>
              have hsecond : w ≠ second := by
                rintro rfl
                rw [pairKind_second hpair] at hw
                cases hw
              simp [extend, hsecond]
          | cons d rest =>
              simp only [List.cons_append]
              split <;> rfl

omit hw in
theorem nil_of_slash {c : Char} {cs : List Char} (h : ∀ d ds, c = '\\' → cs = d :: ds → False)
    (hc : c = '\\') : cs = [] := by
  cases cs with
  | nil => rfl
  | cons d cs => exact absurd rfl (h d cs hc)

omit hw in
theorem ne_slash_of_closes {c : Char} {cs : List Char} (h : ∀ d ds, c = '\\' → cs = d :: ds → False)
    (hcloses : closes cs = true) : c ≠ '\\' := by
  intro hc
  rw [nil_of_slash h hc] at hcloses
  cases hcloses

omit hw in
theorem quotedRest_append (h : closes cs = true) :
    quotedRest (cs ++ ds) = (quotedRest cs).extend ds := by
  fun_induction closes cs with
  | case1 => cases h
  | case2 cs => rfl
  | case3 c cs ih => simp only [List.cons_append, quotedRest, ih h, extend]
  | case4 c cs _ hslash ih => simp [quotedRest, ih h, extend, ne_slash_of_closes hslash h]

theorem read_append {c : Char} (h : c = '"' → closes cs = true) :
    read c (cs ++ w :: ds) = (read c cs).extend (w :: ds) := by
  unfold read
  split
  · exact word_append hw (c :: cs) ds
  · split
    · exact number_append hw (c :: cs) ds
    · split
      · rw [quotedRest_append cs (w :: ds) (h ‹_›)]
        rfl
      · exact sign_append hw cs ds c

omit hw in
theorem closes_of_rest {cs : List Char} (h : (quotedRest cs).rest ≠ []) : closes cs = true := by
  fun_induction quotedRest cs with
  | case1 => exact absurd rfl h
  | case2 cs => rfl
  | case3 c cs l ih => exact ih h
  | case4 c cs l hquote hslash ih => simp [closes, ih h]

end Lexeme

namespace Cursor

variable {c d : Cursor} {x : Char} {xs : List Char}

inductive Closed : Cursor → Prop where
  | done {c : Cursor} : c.skipSpaces.rest = [] → Closed c
  | next {c : Cursor} {x : Char} {xs : List Char} : c.skipSpaces.rest = x :: xs →
      (x = '"' → Lexeme.closes xs = true) → Closed c.next.2 → Closed c

theorem tokens_of_skipSpaces (h : c.skipSpaces = d.skipSpaces) : c.tokens = d.tokens := by
  have hnext : c.next = d.next := by simp only [next, h]
  rw [tokens.eq_def c, tokens.eq_def d, h, hnext]

theorem skipSpaces_append (cs ds : List Char) (p : Pos) (hcs : ∀ c ∈ cs, isSpace c = true) :
    (⟨cs ++ ds, p⟩ : Cursor).skipSpaces = (⟨ds, p.after cs⟩ : Cursor).skipSpaces := by
  simp only [skipSpaces, List.dropWhile_append_of_pos hcs, List.takeWhile_append_of_pos hcs,
    Pos.after_append]

theorem rest_of_cons (h : c.skipSpaces.rest = x :: xs) :
    isSpace x = false ∧ c.rest = c.rest.takeWhile isSpace ++ x :: xs := by
  have hx := List.head?_dropWhile_not isSpace c.rest
  have hsplit := List.takeWhile_append_dropWhile (p := isSpace) (l := c.rest)
  change c.rest.dropWhile isSpace = x :: xs at h
  rw [h] at hx hsplit
  exact ⟨hx, hsplit.symm⟩

theorem next_of_nil (h : c.skipSpaces.rest = []) :
    c.next = (⟨.eof, "", c.skipSpaces.pos⟩, c.skipSpaces) := by
  simp only [next, h]

theorem next_of_cons (h : c.skipSpaces.rest = x :: xs) :
    c.next = (⟨(Lexeme.read x xs).kind, String.ofList (Lexeme.read x xs).literal, c.skipSpaces.pos⟩,
      ⟨(Lexeme.read x xs).rest, c.skipSpaces.pos.after (Lexeme.read x xs).span⟩) := by
  simp only [next, h]

theorem skipSpaces_before (h : c.skipSpaces.rest = x :: xs) (ds : List Char) :
    (⟨c.rest ++ ds, c.pos⟩ : Cursor).skipSpaces = ⟨x :: (xs ++ ds), c.skipSpaces.pos⟩ := by
  obtain ⟨hx, hrest⟩ := rest_of_cons h
  have hspaces : ∀ y ∈ c.rest.takeWhile isSpace, isSpace y = true := fun y hy => List.mem_takeWhile_imp hy
  rw [hrest, List.append_assoc, skipSpaces_append _ _ _ hspaces]
  simp [skipSpaces, hx]

theorem next_append {w : Char} (hw : isSpace w = true) (ds : List Char)
    (h : c.skipSpaces.rest = x :: xs) (hx : x = '"' → Lexeme.closes xs = true) :
    (⟨c.rest ++ w :: ds, c.pos⟩ : Cursor).next =
      (c.next.1, ⟨c.next.2.rest ++ w :: ds, c.next.2.pos⟩) := by
  have hskip := skipSpaces_before h (w :: ds)
  rw [next_of_cons (congrArg rest hskip), next_of_cons h, hskip, Lexeme.read_append hw xs ds hx]
  rfl

theorem next_pos (h : c.skipSpaces.rest = x :: xs) (ds : List Char) :
    c.next.2.pos.after (c.next.2.rest ++ ds) = c.pos.after (c.rest ++ ds) := by
  obtain ⟨-, hrest⟩ := rest_of_cons h
  have hsplit := Lexeme.read_split x xs
  rw [next_of_cons h, hrest, ← hsplit]
  simp only [skipSpaces, Pos.after_append]

theorem Closed.tokens_append (h : c.Closed) {w : Char} (hw : isSpace w = true) (ds : List Char) :
    (⟨c.rest ++ w :: ds, c.pos⟩ : Cursor).tokens =
      c.tokens.dropLast ++ (⟨ds, c.pos.after (c.rest ++ [w])⟩ : Cursor).tokens := by
  induction h with
  | @done c hrest =>
      have hspaces : ∀ x ∈ c.rest ++ [w], isSpace x = true := by
        intro x hx
        rcases List.mem_append.mp hx with hx | hx
        · exact List.dropWhile_eq_nil_iff.mp hrest x hx
        · exact List.mem_singleton.mp hx ▸ hw
      rw [tokens.eq_def c, if_pos hrest]
      refine tokens_of_skipSpaces ?_
      rw [← skipSpaces_append _ ds _ hspaces, List.append_assoc]
      rfl
  | @next c x xs hrest hx _ ih =>
      have hne : c.skipSpaces.rest ≠ [] := hrest ▸ List.cons_ne_nil x xs
      have hne' : (⟨c.rest ++ w :: ds, c.pos⟩ : Cursor).skipSpaces.rest ≠ [] := by
        rw [skipSpaces_before hrest]
        exact List.cons_ne_nil x _
      obtain ⟨ts, e, hts, -⟩ := tokens_ending c.next.2
      have hlast : (c.next.1 :: (ts ++ [e])).dropLast = c.next.1 :: ts := by
        rw [← List.cons_append, List.dropLast_concat]
      rw [tokens.eq_def, if_neg hne', next_append hw ds hrest hx, ih, next_pos hrest,
        tokens.eq_def c, if_neg hne, hts, List.dropLast_concat, hlast]
      rfl

theorem closed_of_last (h : ∀ t, c.tokens.dropLast.getLast? = some t → t.kind ≠ .string) :
    c.Closed := by
  fun_induction tokens c with
  | case1 c hrest => exact .done hrest
  | case2 c hrest ih =>
      obtain ⟨x, xs, hx⟩ := List.exists_cons_of_ne_nil hrest
      obtain ⟨ts, e, hts, -⟩ := tokens_ending c.next.2
      rw [hts] at h ih
      simp only [← List.cons_append, List.dropLast_concat] at h ih
      refine .next hx (fun hquote => ?_) (ih fun t ht => h t ?_)
      · subst hquote
        have hnext := next_of_cons hx
        by_cases hend : c.next.2.rest = []
        · -- the string would be the last token
          have hlast : c.next.2.tokens = [c.next.2.next.1] := by
            rw [tokens.eq_def, if_pos (by simp [skipSpaces, hend])]
          rw [hlast] at hts
          obtain rfl : ts = [] := by simpa using (congrArg List.length hts).symm
          refine absurd ?_ (h c.next.1 rfl)
          rw [hnext]
          exact Lexeme.quotedRest_kind xs
        · rw [hnext] at hend
          exact Lexeme.closes_of_rest hend
      · rw [List.getLast?_cons, ht]
        rfl

end Cursor

section Down

/-- The same column, `n` lines further down. What has no place still has none. -/
def Pos.down (n : Nat) (p : Pos) : Pos :=
  if p.line = 0 then p else ⟨p.line + n, p.col⟩

variable {p : Pos} (n : Nat)

theorem Pos.down_absent : Pos.absent.down n = Pos.absent := rfl

theorem Pos.down_of_line (hp : p.line ≠ 0) : p.down n = ⟨p.line + n, p.col⟩ := if_neg hp

theorem Pos.step_down (hp : p.line ≠ 0) (c : Char) :
    (p.step c).line ≠ 0 ∧ (p.down n).step c = (p.step c).down n := by
  rw [Pos.down_of_line n hp]
  unfold Pos.step
  split
  · exact ⟨Nat.succ_ne_zero _, by simp [Pos.down, Nat.add_right_comm]⟩
  · exact ⟨hp, by simp [Pos.down, hp]⟩

theorem Pos.after_down (hp : p.line ≠ 0) (cs : List Char) :
    (p.after cs).line ≠ 0 ∧ (p.down n).after cs = (p.after cs).down n := by
  induction cs generalizing p with
  | nil => exact ⟨hp, rfl⟩
  | cons c cs ih =>
      obtain ⟨hline, hstep⟩ := Pos.step_down n hp c
      rw [Pos.after_cons, Pos.after_cons, hstep]
      exact ih hline

theorem Pos.after_line (p : Pos) (cs : List Char) : (p.after cs).line = p.line + cs.count '\n' := by
  induction cs generalizing p with
  | nil => rfl
  | cons c cs ih =>
      rw [Pos.after_cons, ih, List.count_cons]
      unfold Pos.step
      by_cases hc : c = '\n'
      · simp [hc]
        omega
      · simp [hc]

def Cursor.down (c : Cursor) : Cursor := ⟨c.rest, c.pos.down n⟩

theorem Cursor.next_down {c : Cursor} (hc : c.pos.line ≠ 0) :
    c.next.2.pos.line ≠ 0 ∧ (c.down n).skipSpaces.rest = c.skipSpaces.rest ∧
      (c.down n).next = (c.next.1.move (Pos.down n), c.next.2.down n) := by
  obtain ⟨hline, hpos⟩ := Pos.after_down n hc (c.rest.takeWhile isSpace)
  have hskip : (c.down n).skipSpaces = c.skipSpaces.down n := congrArg (Cursor.mk _) hpos
  have hrest : (c.down n).skipSpaces.rest = c.skipSpaces.rest := rfl
  rcases hx : c.skipSpaces.rest with - | ⟨x, xs⟩
  · rw [next_of_nil hx, next_of_nil (hrest.trans hx), hskip]
    exact ⟨hline, hrest.trans hx, rfl⟩
  · obtain ⟨hline', hpos'⟩ := Pos.after_down n hline (Lexeme.read x xs).span
    rw [next_of_cons hx, next_of_cons (hrest.trans hx), hskip]
    exact ⟨hline', hrest.trans hx, congrArg (fun p => (_, Cursor.mk _ p)) hpos'⟩

theorem Cursor.tokens_down {c : Cursor} (hc : c.pos.line ≠ 0) :
    (c.down n).tokens = c.tokens.map (Token.move (Pos.down n)) := by
  fun_induction tokens c with
  | case1 c hrest =>
      obtain ⟨-, hskip, hnext⟩ := Cursor.next_down n hc
      rw [tokens.eq_def, if_pos (hskip.trans hrest), hnext]
      rfl
  | case2 c hrest ih =>
      obtain ⟨hline, hskip, hnext⟩ := Cursor.next_down n hc
      rw [tokens.eq_def, if_neg (hskip ▸ hrest), hnext, ih hline]
      rfl

theorem Token.ofText_join {a : String} (h : (Cursor.start a).Closed) (b : String) :
    Token.ofText (a ++ "\n" ++ b) = (Token.ofText a).dropLast ++
      (Token.ofText b).map (Token.move (Pos.down (1 + a.toList.count '\n'))) := by
  have hbreak : Pos.start.after (a.toList ++ ['\n']) =
      Pos.start.down (1 + a.toList.count '\n') := by
    have hline := Pos.after_line Pos.start a.toList
    rw [Pos.after_append, Pos.after_cons, Pos.after_nil, Pos.step, if_pos rfl, hline]
    simp [Pos.start, Pos.down]
    omega
  have htext : (a ++ "\n" ++ b).toList = a.toList ++ '\n' :: b.toList := by simp
  have hjoin := h.tokens_append (w := '\n') rfl b.toList
  rw [Cursor.start, hbreak] at hjoin
  have hb := Cursor.tokens_down (c := Cursor.start b) (1 + a.toList.count '\n') Nat.one_ne_zero
  rw [Token.ofText, Cursor.start, htext, hjoin]
  exact congrArg (_ ++ ·) hb

end Down

end Marmoset
