import Mathlib.Algebra.Order.Floor.Ring
import Mathlib.Data.Int.ModEq
import Mathlib.Data.Rat.Floor
import Marmoset.Number.Word

/-!
Words as remainders. Wrapping picks from each class of integers modulo `wordCount` the one that is a word,
so that sums and products may be wrapped at any point.
-/

namespace Marmoset.Number

variable {a b n w : Int}

theorem inWord_iff : InWord n ↔ -2 ^ 63 ≤ n ∧ n ≤ 2 ^ 63 - 1 := by
  unfold InWord minWord maxWord
  norm_num

theorem wordCount_eq : wordCount = 2 ^ 64 := by decide

section Wrapping

theorem wrap_modEq (n : Int) : wrap n ≡ n [ZMOD wordCount] := by
  have hshift : wrap n ≡ n - minWord + minWord [ZMOD wordCount] := (Int.mod_modEq _ _).add_right _
  rwa [Int.sub_add_cancel] at hshift

theorem eq_of_modEq (ha : InWord a) (hb : InWord b) (h : a ≡ b [ZMOD wordCount]) : a = b := by
  unfold InWord minWord maxWord at ha hb
  unfold Int.ModEq wordCount at h
  omega

theorem wrap_eq_iff : wrap n = w ↔ InWord w ∧ w ≡ n [ZMOD wordCount] := by
  constructor
  · rintro rfl
    exact ⟨wrap_inWord n, wrap_modEq n⟩
  · rintro ⟨hw, h⟩
    exact eq_of_modEq (wrap_inWord n) hw ((wrap_modEq n).trans h.symm)

theorem wrap_congr (h : a ≡ b [ZMOD wordCount]) : wrap a = wrap b :=
  wrap_eq_iff.mpr ⟨wrap_inWord b, (wrap_modEq b).trans h.symm⟩

theorem wrap_neg (a : Int) : wrap (-wrap a) = wrap (-a) :=
  wrap_congr (wrap_modEq a).neg

theorem wrap_add (a b : Int) : wrap (wrap a + wrap b) = wrap (a + b) :=
  wrap_congr ((wrap_modEq a).add (wrap_modEq b))

theorem wrap_sub (a b : Int) : wrap (wrap a - wrap b) = wrap (a - b) :=
  wrap_congr ((wrap_modEq a).sub (wrap_modEq b))

theorem wrap_mul (a b : Int) : wrap (wrap a * wrap b) = wrap (a * b) :=
  wrap_congr ((wrap_modEq a).mul (wrap_modEq b))

end Wrapping

section Division

variable {r t : Int}

def LeftOver (a b r : Int) : Prop := |r| < |b| ∧ (r = 0 ∨ r.sign = a.sign)

def truncated (x : ℚ) : Int := if 0 ≤ x then ⌊x⌋ else ⌈x⌉

theorem leftOver_tmod (a : Int) (hb : b ≠ 0) : LeftOver a b (a.tmod b) := by
  constructor
  · have hlt : a.natAbs % b.natAbs < b.natAbs := Nat.mod_lt _ (Int.natAbs_pos.mpr hb)
    rw [← Int.natAbs_tmod] at hlt
    rw [Int.abs_eq_natAbs, Int.abs_eq_natAbs]
    exact Int.ofNat_lt.mpr hlt
  · by_cases hdvd : b ∣ a
    · exact .inl (Int.tmod_eq_zero_of_dvd hdvd)
    · exact .inr (by rw [Int.sign_tmod, if_neg hdvd])

theorem tdiv_of_leftOver (hb : b ≠ 0) (h : LeftOver a b (a - b * t)) : a.tdiv b = t := by
  obtain ⟨hlt, hside⟩ := h
  rw [abs_lt, Int.abs_eq_natAbs] at hlt
  have hsum : a - b * t + b * t = a := Int.sub_add_cancel a (b * t)
  rcases Int.le_total 0 a with ha | ha
  · have hr : 0 ≤ a - b * t := by
      rcases hside with h0 | hsign
      · exact h0.ge
      · exact Int.sign_nonneg_iff.mp (hsign ▸ Int.sign_nonneg_iff.mpr ha)
    exact ((Int.tdiv_tmod_unique ha hb).mpr ⟨hsum, hr, hlt.2⟩).1
  · have hr : a - b * t ≤ 0 := by
      rcases hside with h0 | hsign
      · exact h0.le
      · exact Int.sign_nonpos_iff.mp (hsign ▸ Int.sign_nonpos_iff.mpr ha)
    exact ((Int.tdiv_tmod_unique' ha hb).mpr ⟨hsum, hlt.1, hr⟩).1

theorem quotient?_eq (a : Int) (hb : b ≠ 0) : quotient? a b = some (a.tdiv b) := by
  have hsize : (a.natAbs : Int) / b.natAbs = (a.tdiv b).natAbs := by
    rw [Int.natAbs_tdiv]
    exact (Int.natCast_ediv _ _).symm
  rw [quotient?, if_neg hb, hsize, Option.some.injEq]
  -- the quotient has the sign that the two signs make, and its size is that of the sizes
  rcases lt_or_ge a 0 with ha | ha <;> rcases lt_or_ge b 0 with hb | hb
  · rw [if_neg (by simp [ha, hb])]
    exact Int.natAbs_of_nonneg (Int.tdiv_nonneg_of_nonpos_of_nonpos ha.le hb.le)
  · have hneg : a.tdiv b ≤ 0 := by
      have hnonneg := Int.tdiv_nonneg (Int.neg_nonneg.mpr ha.le) hb
      rwa [Int.neg_tdiv, Int.neg_nonneg] at hnonneg
    rw [if_pos (by simp [ha, hb.not_gt]), Int.ofNat_natAbs_of_nonpos hneg, Int.neg_neg]
  · have hneg := Int.tdiv_nonpos_of_nonneg_of_nonpos ha hb.le
    rw [if_pos (by simp [ha.not_gt, hb]), Int.ofNat_natAbs_of_nonpos hneg, Int.neg_neg]
  · rw [if_neg (by simp [ha.not_gt, hb.not_gt])]
    exact Int.natAbs_of_nonneg (Int.tdiv_nonneg ha hb)

theorem quotient?_eq_some_iff (hb : b ≠ 0) : quotient? a b = some t ↔ LeftOver a b (a - b * t) := by
  rw [quotient?_eq a hb, Option.some.injEq]
  constructor
  · rintro rfl
    rw [← Int.tmod_def]
    exact leftOver_tmod a hb
  · exact tdiv_of_leftOver hb

theorem quotient?_unique (a : Int) (hb : b ≠ 0) :
    ∃ t, quotient? a b = some t ∧ ∀ t', LeftOver a b (a - b * t') ↔ t' = t := by
  refine ⟨a.tdiv b, quotient?_eq a hb, fun t' => ?_⟩
  rw [← quotient?_eq_some_iff hb, quotient?_eq a hb, Option.some.injEq, eq_comm]

theorem truncated_eq {x : ℚ} (hlt : |x - t| < 1) (hside : 0 ≤ (x - t) * x) : truncated x = t := by
  obtain ⟨hlow, hhigh⟩ := abs_lt.mp hlt
  unfold truncated
  split
  · rename_i hx
    have hle : 0 ≤ x - t := by
      rcases hx.eq_or_lt with rfl | hx
      · have : |t| < 1 := by exact_mod_cast (by simpa using hlt : |(t : ℚ)| < 1)
        simp [Int.abs_lt_one_iff.mp this]
      · exact nonneg_of_mul_nonneg_left hside hx
    exact Int.floor_eq_iff.mpr ⟨by linarith, by linarith⟩
  · rename_i hx
    have hle : x - t ≤ 0 := by
      by_contra hpos
      exact absurd hside (not_le.mpr (mul_neg_of_pos_of_neg (not_le.mp hpos) (not_le.mp hx)))
    exact Int.ceil_eq_iff.mpr ⟨by linarith, by linarith⟩

theorem truncated_div (a : Int) (hb : b ≠ 0) : truncated (a / b) = a.tdiv b := by
  obtain ⟨hlt, hside⟩ := leftOver_tmod a hb
  have hb' : (b : ℚ) ≠ 0 := Int.cast_ne_zero.mpr hb
  have hrest : (a / b - a.tdiv b : ℚ) = a.tmod b / b := by
    have hsum : ((a.tmod b + b * a.tdiv b : Int) : ℚ) = a := by rw [Int.tmod_add_mul_tdiv]
    push_cast at hsum
    field_simp
    linarith
  have hprod : 0 ≤ a.tmod b * a := by
    rcases hside with h0 | hsign
    · rw [h0, Int.zero_mul]
    · rw [← Int.sign_nonneg_iff, Int.sign_mul, hsign]
      exact mul_self_nonneg _
  apply truncated_eq
  · rw [hrest, abs_div, div_lt_one (abs_pos.mpr hb')]
    exact_mod_cast hlt
  · rw [hrest, div_mul_div_comm]
    exact div_nonneg (by exact_mod_cast hprod) (mul_self_nonneg _)

theorem tdiv_inWord (ha : InWord a) (hb : b ≠ 0) (h : ¬(a = minWord ∧ b = -1)) :
    InWord (a.tdiv b) := by
  have habs : (a.tdiv b).natAbs = a.natAbs / b.natAbs := Int.natAbs_tdiv a b
  unfold InWord minWord maxWord at *
  by_cases hone : b.natAbs = 1
  · obtain rfl | rfl : b = 1 ∨ b = -1 := by omega
    · rwa [Int.tdiv_one]
    · rw [Int.tdiv_neg, Int.tdiv_one]
      omega
  · have hhalf : a.natAbs / b.natAbs ≤ a.natAbs / 2 := Nat.div_le_div_left (by omega) (by decide)
    omega

theorem tmod_inWord (a : Int) (hb : b ≠ 0) (h : InWord b) : InWord (a.tmod b) := by
  obtain ⟨hlt, -⟩ := leftOver_tmod a hb
  rw [Int.abs_eq_natAbs, Int.abs_eq_natAbs] at hlt
  unfold InWord minWord maxWord at *
  omega

theorem wrap_make_up (b : Int) (ha : InWord a) :
    wrap (wrap (wrap (a.tdiv b) * b) + a.tmod b) = a := by
  have hproduct : wrap (wrap (a.tdiv b) * b) ≡ a.tdiv b * b [ZMOD wordCount] :=
    (wrap_modEq _).trans ((wrap_modEq _).mul_right b)
  calc wrap (wrap (wrap (a.tdiv b) * b) + a.tmod b)
      = wrap (a.tdiv b * b + a.tmod b) := wrap_congr (hproduct.add_right _)
    _ = wrap a := by rw [Int.mul_comm, Int.mul_tdiv_add_tmod]
    _ = a := wrap_of_inWord ha

end Division

end Marmoset.Number
