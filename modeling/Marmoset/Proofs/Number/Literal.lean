import Mathlib.Algebra.Group.Nat.Defs
import Marmoset.Number.Literal

namespace Marmoset.Number

theorem digitsValue_cons (c : Char) (cs : List Char) :
    digitsValue (c :: cs) = 10 ^ cs.length * digitValue c + digitsValue cs := by
  have h := @Nat.ofDigitChars_eq_ofDigitChars_zero cs (digitValue c)
  simpa [digitsValue, Nat.ofDigitChars_eq_foldl, digitValue] using h

theorem digitsValue_dropZeros (ds : List Char) :
    digitsValue (ds.dropWhile (· == '0')) = digitsValue ds := by
  induction ds with
  | nil => rfl
  | cons c cs ih =>
      by_cases hc : c = '0'
      · subst hc
        have hzero : digitValue '0' = 0 := rfl
        rw [List.dropWhile_cons_of_pos rfl, ih, digitsValue_cons, hzero, Nat.mul_zero, Nat.zero_add]
      · rw [List.dropWhile_cons_of_neg (by simpa using hc)]

theorem digitValue_pos {c : Char} (hc : c.isDigit = true) (h0 : c ≠ '0') : 0 < digitValue c := by
  have hge : 48 ≤ c.toNat := by
    simp only [Char.isDigit, Bool.and_eq_true, decide_eq_true_eq] at hc
    exact hc.1
  have hne : c.toNat ≠ 48 := fun h => h0 (Char.toNat_inj.mp h)
  change 0 < c.toNat - 48
  omega

theorem pow_le_digitsValue {ds : List Char} (hds : ∀ c ∈ ds, c.isDigit = true)
    (h0 : ds.head? ≠ some '0') (hne : ds ≠ []) : 10 ^ (ds.length - 1) ≤ digitsValue ds := by
  cases ds with
  | nil => exact absurd rfl hne
  | cons c cs =>
      have hpos : 0 < digitValue c :=
        digitValue_pos (hds c List.mem_cons_self) fun h => h0 (by rw [h]; rfl)
      rw [digitsValue_cons, List.length_cons, Nat.add_sub_cancel]
      exact Nat.le_trans (Nat.le_mul_of_pos_right _ hpos) (Nat.le_add_right _ _)

theorem head_dropZeros_ne (ds : List Char) : (ds.dropWhile (· == '0')).head? ≠ some '0' := by
  intro h
  have := List.head?_dropWhile_not (· == '0') ds
  simp [h] at this

theorem integer?_of_digits {literal : String} (h : ∀ c ∈ literal.toList, c.isDigit = true) :
    integer? literal = if (digitsValue literal.toList : Int) ≤ maxWord
      then some (digitsValue literal.toList : Int) else none := by
  simp only [integer?, digitsValue_dropZeros]
  by_cases hlen : (literal.toList.dropWhile (· == '0')).length ≤ maxWordDigits
  · rw [if_pos hlen]
  · have hdigits : ∀ c ∈ literal.toList.dropWhile (· == '0'), c.isDigit = true := fun c hc =>
      h c ((List.dropWhile_sublist _).subset hc)
    have hne : literal.toList.dropWhile (· == '0') ≠ [] := fun hnil => by simp [hnil] at hlen
    have hle := pow_le_digitsValue hdigits (head_dropZeros_ne _) hne
    have hpow : 10 ^ maxWordDigits ≤ 10 ^ ((literal.toList.dropWhile (· == '0')).length - 1) :=
      Nat.pow_le_pow_right (by decide) (by omega)
    rw [digitsValue_dropZeros] at hle
    have hbig : (10 ^ maxWordDigits : Nat) ≤ digitsValue literal.toList := Nat.le_trans hpow hle
    rw [if_neg hlen, if_neg]
    unfold maxWordDigits at hbig
    unfold maxWord
    omega

theorem integer?_toString {n : Int} (h0 : 0 ≤ n) (h : n ≤ maxWord) :
    integer? (toString n) = some n := by
  obtain ⟨m, rfl⟩ := Int.eq_ofNat_of_zero_le h0
  have hlist : (toString (m : Int)).toList = Nat.toDigits 10 m := Nat.toList_repr
  have hvalue : digitsValue (Nat.toDigits 10 m) = m := Nat.ofDigitChars_ten_toDigits
  have hdigits : ∀ c ∈ (toString (m : Int)).toList, c.isDigit = true := fun c hc =>
    Nat.isDigit_of_mem_toDigits (by decide) (by decide) (hlist ▸ hc)
  rw [integer?_of_digits hdigits, hlist, hvalue, if_pos h]

end Marmoset.Number
