import Mathlib.Data.Nat.Digits.Defs
import Marmoset.Proofs.Number.Literal
import Marmoset.Proofs.Tree.Printed

namespace Marmoset

namespace Number

def decimal (literal : String) : Nat := Nat.ofDigits 10 (literal.toList.reverse.map digitValue)

theorem digitsValue_eq_ofDigits (ds : List Char) :
    digitsValue ds = Nat.ofDigits 10 (ds.reverse.map digitValue) := by
  induction ds with
  | nil => rfl
  | cons d ds ih =>
      rw [digitsValue_cons, ih, List.reverse_cons, List.map_append, Nat.ofDigits_append, List.length_map,
        List.length_reverse, List.map_singleton, Nat.ofDigits_singleton, Nat.add_comm]

theorem isDigit_char {c : Char} (h : isDigit c = true) : c.isDigit = true := by
  simpa [isDigit, Char.isDigit, Char.le_def] using h

theorem integer?_eq_decimal {literal : String} (h : ∀ c ∈ literal.toList, isDigit c = true) :
    integer? literal = if decimal literal ≤ 2 ^ 63 - 1 then some (decimal literal : Int) else none := by
  have hvalue : digitsValue literal.toList = decimal literal := digitsValue_eq_ofDigits _
  have hword : (decimal literal : Int) ≤ maxWord ↔ decimal literal ≤ 2 ^ 63 - 1 := by
    unfold maxWord
    omega
  rw [integer?_of_digits fun c hc => isDigit_char (h c hc), hvalue]
  simp only [hword]

end Number

namespace Grammar

open Read Number

variable {literal : String}

theorem operand_int (g : Inside) (pos : Pos) (rest : List Token) (m : Array Mistake)
    (h : ∀ c ∈ literal.toList, isDigit c = true) :
    operand g ⟨⟨.int, literal, pos⟩ :: rest, m⟩ =
      if decimal literal ≤ 2 ^ 63 - 1 then .ok (.int pos (decimal literal)) ⟨⟨.int, literal, pos⟩ :: rest, m⟩
      else .error .mistaken ⟨⟨.int, literal, pos⟩ :: rest, m.push (.tooLarge literal)⟩ := by
  rw [operand, bind_ok (yields_current _ _)]
  dsimp only [List.head?_cons, Option.getD_some]
  rw [integer?_eq_decimal h]
  by_cases hle : decimal literal ≤ 2 ^ 63 - 1
  · rw [if_pos hle, if_pos hle]
    rfl
  · rw [if_neg hle, if_neg hle]
    rfl

theorem ofTokens?_single {depth : Nat} {t e : Token} {value : Option Expr} {m : Array Mistake}
    (ht : t.kind = .int) (he : e.kind = .eof)
    (h : attempt (Expr.read 2 depth .lowest) ⟨[t, e], #[]⟩ = .ok value ⟨[t, e], m⟩) :
    Program.ofTokens? depth [t, e] = some ⟨⟨[.expr t.pos (value.getD .missing)]⟩, m.toList⟩ := by
  obtain ⟨kind, literal, pos⟩ := t
  obtain ⟨last, text, place⟩ := e
  obtain rfl : kind = .int := ht
  obtain rfl : last = .eof := he
  have hstmt : stmt ⟨2, Expr.read 2 depth⟩ ⟨[⟨.int, literal, pos⟩, ⟨.eof, text, place⟩], #[]⟩ =
      .ok (.expr pos (value.getD .missing)) ⟨[⟨.int, literal, pos⟩, ⟨.eof, text, place⟩], m⟩ :=
    bind_ok h
  exact congrArg Program.Draft.of? (bind_ok (attempt_eq_some.mpr hstmt))

theorem ofTokens?_int (depth : Nat) (pos last : Pos) (h : ∀ c ∈ literal.toList, isDigit c = true) :
    Program.ofTokens? (depth + 1) [⟨.int, literal, pos⟩, ⟨.eof, "", last⟩] = some
      (if decimal literal ≤ 2 ^ 63 - 1 then ⟨⟨[.expr pos (.int pos (decimal literal))]⟩, []⟩
      else ⟨⟨[.expr pos .missing]⟩, [.tooLarge literal]⟩) := by
  let r : Reading := ⟨[⟨.int, literal, pos⟩, ⟨.eof, "", last⟩], #[]⟩
  have hop := operand_int ⟨2, Expr.read 2 depth⟩ pos [⟨.eof, "", last⟩] #[] h
  by_cases hle : decimal literal ≤ 2 ^ 63 - 1
  · rw [if_pos hle] at hop ⊢
    have hvalue : attempt (Expr.read 2 (depth + 1) .lowest) r = .ok (some (.int pos (decimal literal))) r :=
      attempt_eq_some.mpr (bind_ok hop)
    exact ofTokens?_single rfl rfl hvalue
  · rw [if_neg hle] at hop ⊢
    have hgap : attempt (Expr.read 2 (depth + 1) .lowest) r = .ok none ⟨r.tokens, #[.tooLarge literal]⟩ :=
      attempt_eq_none.mpr (bind_error hop)
    exact ofTokens?_single rfl rfl hgap

theorem ofText_digits (hne : literal ≠ "") (h : ∀ c ∈ literal.toList, isDigit c = true) :
    ∃ pos last, Token.ofText literal = [⟨.int, literal, pos⟩, ⟨.eof, "", last⟩] := by
  have hsome : literal.toList ≠ [] := fun hnil => hne (String.toList_eq_nil_iff.mp hnil)
  obtain ⟨ts, last, hts, htokens⟩ := lexes_int hsome h breaks_nil Pos.start
  obtain ⟨⟨kind, text, pos⟩, rfl, ht⟩ := List.map_eq_singleton_iff.mp hts
  rw [String.ofList_toList] at ht
  cases ht
  rw [List.append_nil, Cursor.tokens_of_end] at htokens
  exact ⟨pos, last, htokens⟩

/-- A literal of decimal digits is read as the number that they stand for if that is at most `2 ^ 63 - 1`, and
otherwise as nothing, with one mistake that has the literal as it was written. It does not matter where the
literal stands, nor how long it is; alone it is a whole program. -/
theorem integer_literals_are_exact {literal : String} (h : ∀ c ∈ literal.toList, isDigit c = true) :
    (∀ (g : Inside) (pos : Pos) (rest : List Token) (m : Array Mistake),
      operand g ⟨⟨.int, literal, pos⟩ :: rest, m⟩ =
        if decimal literal ≤ 2 ^ 63 - 1
        then .ok (.int pos (decimal literal)) ⟨⟨.int, literal, pos⟩ :: rest, m⟩
        else .error .mistaken ⟨⟨.int, literal, pos⟩ :: rest, m.push (.tooLarge literal)⟩) ∧
    (literal ≠ "" → ∃ pos, ∀ depth, Program.ofText? (depth + 1) literal = some
      (if decimal literal ≤ 2 ^ 63 - 1
      then ⟨⟨[.expr pos (.int pos (decimal literal))]⟩, []⟩
      else ⟨⟨[.expr pos .missing]⟩, [.tooLarge literal]⟩)) ∧
    (Mistake.tooLarge literal).message = "could not parse " ++ literal ++ " as integer" := by
  refine ⟨fun g pos rest m => operand_int g pos rest m h, fun hne => ?_, rfl⟩
  obtain ⟨pos, last, htokens⟩ := ofText_digits hne h
  refine ⟨pos, fun depth => ?_⟩
  rw [Program.ofText?, htokens]
  exact ofTokens?_int depth pos last h

theorem integer_literals_are_exact_edge :
    let largest := "00009223372036854775807"
    let beyond := "9223372036854775808"
    ((∀ c ∈ largest.toList, isDigit c = true) ∧ decimal largest = 2 ^ 63 - 1 ∧
      ∃ pos, Program.ofText? 1 largest = some ⟨⟨[.expr pos (.int pos 9223372036854775807)]⟩, []⟩) ∧
    (∀ c ∈ beyond.toList, isDigit c = true) ∧ decimal beyond = 2 ^ 63 ∧
      ∃ pos, Program.ofText? 1 beyond = some ⟨⟨[.expr pos .missing]⟩, [.tooLarge beyond]⟩ := by
  intro largest beyond
  have hlargest : ∀ c ∈ largest.toList, isDigit c = true := by simp [largest, isDigit]
  have hbeyond : ∀ c ∈ beyond.toList, isDigit c = true := by simp [beyond, isDigit]
  have hmax : decimal largest = 2 ^ 63 - 1 := by decide +kernel
  have hnext : decimal beyond = 2 ^ 63 := by decide +kernel
  obtain ⟨pos, hread⟩ := (integer_literals_are_exact hlargest).2.1 (by decide)
  obtain ⟨pos', hread'⟩ := (integer_literals_are_exact hbeyond).2.1 (by decide)
  refine ⟨⟨hlargest, hmax, pos, ?_⟩, hbeyond, hnext, pos', ?_⟩
  · simpa [hmax] using hread 0
  · simpa [hnext] using hread' 0

end Grammar

end Marmoset
