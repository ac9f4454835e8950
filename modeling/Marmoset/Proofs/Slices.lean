import Marmoset.Value.Operation

namespace Marmoset.Value

variable {xs : List Value} {lo hi i : Int}

section Element

theorem elementAt?_natCast (xs : List Value) (k : Nat) : elementAt? xs k = xs[k]? := by
  have hk : ¬(k : Int) < 0 := Int.not_lt.mpr (Int.natCast_nonneg k)
  simp only [elementAt?, if_neg hk, Int.toNat_natCast]
  split
  · rfl
  · rw [List.getElem?_eq_none (by omega)]

theorem elementAt?_add_length (hlow : -(xs.length : Int) ≤ i) (hneg : i < 0) :
    elementAt? xs i = elementAt? xs (i + xs.length) := by
  have hback : ¬i + xs.length < 0 := by omega
  simp only [elementAt?, if_pos hneg, if_neg hback]

theorem elementAt?_outside (h : i < -(xs.length : Int) ∨ (xs.length : Int) ≤ i) : elementAt? xs i = none := by
  unfold elementAt?
  dsimp only
  split <;> exact if_neg (by omega)

theorem elementAt?_neg {k : Nat} (hpos : 0 < k) (hk : k ≤ xs.length) :
    elementAt? xs (-(k : Int)) = xs[xs.length - k]? := by
  have hback : -(k : Int) + xs.length = ((xs.length - k : Nat) : Int) := by omega
  rw [elementAt?_add_length (by omega) (by omega), hback, elementAt?_natCast]

end Element

section Slice

def between (xs : List Value) (a b : Nat) : List Value := (xs.drop a).take (b - a + 1)

variable {a b : Nat}

theorem length_between (hab : a ≤ b) (hb : b < xs.length) : (between xs a b).length = b - a + 1 := by
  rw [between, List.length_take, List.length_drop]
  omega

theorem getElem?_between {k : Nat} (hk : k ≤ b - a) : (between xs a b)[k]? = xs[a + k]? := by
  rw [between, List.getElem?_take_of_lt (by omega), List.getElem?_drop]

theorem between_between {c d : Nat} (hcd : c ≤ d) (hd : a + d ≤ b) :
    between (between xs a b) c d = between xs (a + c) (a + d) := by
  simp only [between, List.drop_take, List.take_take, List.drop_drop]
  rw [Nat.min_eq_left (by omega), Nat.add_sub_add_left]

theorem between_append {k n : Nat} (hk : 0 < k) (hn : k ≤ n) (hlen : n + 1 = xs.length) :
    between xs 0 (k - 1) ++ between xs k n = xs := by
  have hleft : between xs 0 (k - 1) = xs.take k := by
    rw [between, List.drop_zero]
    congr 1
    omega
  have hright : between xs k n = xs.drop k := by
    rw [between, List.take_of_length_le]
    rw [List.length_drop]
    omega
  rw [hleft, hright, List.take_append_drop]

theorem slice?_natCast (hab : a ≤ b) (hb : b < xs.length) :
    slice? xs a b = some (between xs a b) := by
  have hcount : ((b : Int) - a + 1).toNat = b - a + 1 := by omega
  rw [slice?, if_pos (by omega), hcount, Int.toNat_natCast]
  rfl

end Slice

section Index

variable {own new : Stamp} {a b : Nat}

theorem index_integer (i : Int) : index new (.array own xs) (.integer i) = (elementAt? xs i).getD .null := rfl

theorem index_between (hab : a ≤ b) (hb : b < xs.length) :
    index new (.array own xs) (.range a b) = .array new (between xs a b) := by
  rw [index, slice?_natCast hab hb]
  rfl

theorem index_range_ne_null :
    index new (.array own xs) (.range lo hi) ≠ .null ↔ 0 ≤ lo ∧ lo ≤ hi ∧ hi < xs.length := by
  by_cases h : 0 ≤ lo ∧ lo ≤ hi ∧ hi < xs.length
  · simp [index, slice?, h]
  · simp [index, slice?, h]

theorem element_of_front {j : Int} (hj : 0 ≤ j) (hin : j ≤ b - a) :
    index new (.array new (between xs a b)) (.integer j) = index new (.array own xs) (.integer (a + j)) := by
  obtain ⟨k, rfl⟩ := Int.eq_ofNat_of_zero_le hj
  rw [index_integer, index_integer, elementAt?_natCast, ← Int.natCast_add, elementAt?_natCast,
    getElem?_between (by omega)]

theorem element_of_back (hab : a ≤ b) (hb : b < xs.length) {j : Int} (hj : 1 ≤ j) (hin : j ≤ b - a + 1) :
    index new (.array new (between xs a b)) (.integer (-j)) = index new (.array own xs) (.integer (b + 1 - j)) := by
  obtain ⟨k, rfl⟩ := Int.eq_ofNat_of_zero_le (Int.le_trans (by decide) hj)
  have hlength := length_between hab hb
  have hplace : (b : Int) + 1 - k = ((a + (b - a + 1 - k) : Nat) : Int) := by omega
  rw [index_integer, index_integer, elementAt?_neg (by omega) (by omega), hplace, elementAt?_natCast, hlength,
    getElem?_between (by omega)]

theorem slice_of_slice (hab : a ≤ b) (hb : b < xs.length) {l h : Int} (hl : 0 ≤ l) (hlh : l ≤ h)
    (hin : h ≤ b - a) :
    index new (.array new (between xs a b)) (.range l h) = index new (.array own xs) (.range (a + l) (a + h)) := by
  obtain ⟨c, rfl⟩ := Int.eq_ofNat_of_zero_le hl
  obtain ⟨d, rfl⟩ := Int.eq_ofNat_of_zero_le (Int.le_trans hl hlh)
  have hlength := length_between hab hb
  rw [index_between (by omega) (by omega), ← Int.natCast_add, ← Int.natCast_add, index_between (by omega) (by omega),
    between_between (by omega) (by omega)]

theorem slices_add (depth : Nat) {k : Int} (hk : 0 < k) (hn : k < xs.length) :
    binary depth new .add (index new (.array own xs) (.range 0 (k - 1)))
      (index new (.array own xs) (.range k (xs.length - 1))) = some (.array new xs) := by
  obtain ⟨m, rfl⟩ := Int.eq_ofNat_of_zero_le (Int.le_of_lt hk)
  have hfirst : (m : Int) - 1 = ((m - 1 : Nat) : Int) := by omega
  have hlast : (xs.length : Int) - 1 = ((xs.length - 1 : Nat) : Int) := by omega
  have hleft : index new (.array own xs) (.range 0 (m - 1)) = .array new (between xs 0 (m - 1)) := by
    rw [hfirst]
    exact index_between (Nat.zero_le _) (by omega)
  have hright : index new (.array own xs) (.range m (xs.length - 1)) =
      .array new (between xs m (xs.length - 1)) := by
    rw [hlast]
    exact index_between (by omega) (by omega)
  have hjoin : between xs 0 (m - 1) ++ between xs m (xs.length - 1) = xs :=
    between_append (by omega) (by omega) (by omega)
  rw [hleft, hright, binary, arrays, hjoin]

end Index

/-- Slices and elements count alike. Of an array with `n` elements there is a slice from `lo` to `hi` just where these are
places of the array in this order. It has the elements from the one to the other, found in it from the front and from the
end; a slice of a slice is one of the array, and two slices that meet make up the array. Places before the first one
count from the end, and there is nothing further out on either side. -/
theorem slices_count_like_arrays (xs : List Value) (own new : Stamp) :
    let n : Int := xs.length
    let array := Value.array own xs
    let element (v : Value) (i : Int) := index new v (.integer i)
    let slice (v : Value) (lo hi : Int) := index new v (.range lo hi)
    (∀ k : Nat, element array k = xs[k]?.getD .null) ∧
    (∀ i, -n ≤ i → i < 0 → element array i = element array (i + n)) ∧
    (∀ i, i < -n ∨ n ≤ i → element array i = .null) ∧
    (∀ lo hi, slice array lo hi ≠ .null ↔ 0 ≤ lo ∧ lo ≤ hi ∧ hi < n) ∧
    (∀ lo hi, 0 ≤ lo → lo ≤ hi → hi < n →
      (∃ ys, slice array lo hi = .array new ys ∧ ys.length = hi - lo + 1) ∧
      (∀ j, 0 ≤ j → j ≤ hi - lo → element (slice array lo hi) j = element array (lo + j)) ∧
      (∀ j, 1 ≤ j → j ≤ hi - lo + 1 → element (slice array lo hi) (-j) = element array (hi + 1 - j)) ∧
      ∀ l h, 0 ≤ l → l ≤ h → h ≤ hi - lo → slice (slice array lo hi) l h = slice array (lo + l) (lo + h)) ∧
    ∀ depth k, 0 < k → k < n →
      binary depth new .add (slice array 0 (k - 1)) (slice array k (n - 1)) = some (.array new xs) := by
  intro n array element slice
  refine ⟨?_, ?_, ?_, fun _ _ => index_range_ne_null, ?_, fun depth k => slices_add depth⟩
  · intro k
    exact congrArg (fun x => Option.getD x Value.null) (elementAt?_natCast xs k)
  · intro i hlow hneg
    exact congrArg (fun x => Option.getD x Value.null) (elementAt?_add_length hlow hneg)
  · intro i hout
    exact congrArg (fun x => Option.getD x Value.null) (elementAt?_outside hout)
  · intro lo hi hlo hle hhi
    obtain ⟨a, rfl⟩ := Int.eq_ofNat_of_zero_le hlo
    obtain ⟨b, rfl⟩ := Int.eq_ofNat_of_zero_le (Int.le_trans hlo hle)
    have hab : a ≤ b := by omega
    have hb : b < xs.length := by omega
    have hslice : slice array a b = .array new (between xs a b) := index_between hab hb
    have hlength := length_between hab hb
    rw [hslice]
    refine ⟨⟨_, rfl, by omega⟩, ?_, ?_, ?_⟩
    · exact fun j => element_of_front
    · exact fun j => element_of_back hab hb
    · exact fun l h => slice_of_slice hab hb

theorem slices_count_like_arrays_inner :
    let array := Value.array Stamp.first [.integer 10, .integer 20, .integer 30, .integer 40, .integer 50]
    let slice := index Stamp.shared array (.range 1 3)
    ((0 : Int) ≤ 1 ∧ (1 : Int) ≤ 3 ∧ (3 : Int) < 5) ∧
      index Stamp.shared slice (.integer (-2)) = index Stamp.shared array (.integer 2) ∧
      index Stamp.shared slice (.range 1 2) = .array Stamp.shared [.integer 30, .integer 40] := by
  intro array slice
  obtain ⟨-, -, -, -, hslice, -⟩ := slices_count_like_arrays
    [.integer 10, .integer 20, .integer 30, .integer 40, .integer 50] Stamp.first Stamp.shared
  obtain ⟨-, -, hback, hinner⟩ := hslice 1 3 (by decide) (by decide) (by decide)
  have hpart := hinner 1 2 (by decide) (by decide) (by decide)
  exact ⟨by decide, hback 2 (by decide) (by decide), hpart.trans rfl⟩

end Marmoset.Value
