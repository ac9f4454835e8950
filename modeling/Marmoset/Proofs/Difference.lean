import Marmoset.Proofs.Eval.Ledger

namespace Marmoset.Value

structure Comparable (L : Ledger) (v : Value) : Prop where
  listed : v.Listed L
  sound : v.Sound
  doubleFree : v.DoubleFree

variable {L : Ledger} {v x y : Value} {d : Nat} {xs ys zs : List Value}

section Comparable

theorem Comparable.symm (hx : x.Comparable L) (h : Equal x v) : Equal v x :=
  equal_symm hx.doubleFree hx.sound h

theorem Comparable.trans (hx : x.Comparable L) (hy : y.Listed L) (hv : v.Listed L) (h : Equal x y)
    (h' : Equal y v) : Equal x v :=
  equal_trans hx.doubleFree hx.listed hy hv h h'

theorem Comparable.equal_comm (hx : x.Comparable L) (hy : y.Comparable L) : x.equal y = y.equal x :=
  Bool.eq_iff_iff.mpr ⟨hx.symm, hy.symm⟩

theorem Comparable.equal_congr (hx : x.Comparable L) (hy : y.Comparable L) (hv : v.Listed L)
    (h : Equal x y) : x.equal v = y.equal v :=
  Bool.eq_iff_iff.mpr ⟨hy.trans hx.listed hv (hx.symm h), hx.trans hy.listed hv h⟩

theorem comparable_of_plain (hv : v.plain = true) (hdouble : v.kind ≠ .double) : v.Comparable L := by
  have hparts := parts_of_plain hv
  refine ⟨listed_of_plain hv, (every_atom hparts).mpr ?_, (every_atom hparts).mpr hdouble⟩
  cases v with
  | hash s t => cases hv
  | _ => trivial

theorem comparable_array {s : Stamp} (hs : L s = some (.array s xs)) (hxs : ∀ x ∈ xs, x.Comparable L) :
    (array s xs).Comparable L := by
  refine ⟨every_array.mpr ⟨fun m hm => ?_, fun x hx => (hxs x hx).listed⟩,
    every_array.mpr ⟨trivial, fun x hx => (hxs x hx).sound⟩,
    every_array.mpr ⟨by simp [kind], fun x hx => (hxs x hx).doubleFree⟩⟩
  cases hm
  exact hs

theorem countP_equal_congr (hxs : ∀ x ∈ xs, x.Comparable L) (hy : y.Comparable L) (hv : v.Listed L)
    (h : Equal y v) : xs.countP (·.equal y) = xs.countP (·.equal v) := by
  refine List.countP_congr fun x hx => ?_
  exact ⟨fun hxy => (hxs x hx).trans hy.listed hv hxy h,
    fun hxv => (hxs x hx).trans hv hy.listed hxv (hy.symm h)⟩

theorem countP_reordered (hxs : ∀ x ∈ xs, x.Comparable L) (hys : ∀ y ∈ ys, y.Comparable L)
    (h : ∃ zs, xs.Perm zs ∧ List.Forall₂ Equal zs ys) (hv : v.Listed L) :
    ys.countP (·.equal v) = xs.countP (·.equal v) := by
  obtain ⟨zs, hperm, hequal⟩ := h
  rw [hperm.countP_eq]
  have hzs : ∀ z ∈ zs, z.Comparable L := fun z hz => hxs z (hperm.mem_iff.mpr hz)
  clear hperm hxs
  induction hequal with
  | nil => rfl
  | cons hzy _ ih =>
      obtain ⟨hz, hzs⟩ := List.forall_mem_cons.mp hzs
      obtain ⟨hy, hys⟩ := List.forall_mem_cons.mp hys
      rw [List.countP_cons, List.countP_cons, ih hys hzs, hz.equal_congr hy hv hzy]

end Comparable

section Remaining

def remaining (xs ys : List Value) : List Value :=
  ys.foldl (fun rest y => rest.eraseP (·.equal y)) xs

theorem without?_eq_some (h : without? d x ys = some zs) : zs = ys.eraseP (·.equal x) := by
  induction ys generalizing zs with
  | nil => exact (Option.some.inj h).symm
  | cons y ys ih =>
      rw [without?] at h
      cases hsame : same? d y x with
      | none => simp [hsame] at h
      | some b =>
          rw [List.eraseP_cons, same?_eq_some hsame]
          cases b with
          | true => simpa [hsame] using h.symm
          | false =>
              simp only [hsame] at h
              obtain ⟨rest, hrest, rfl⟩ := Option.map_eq_some_iff.mp h
              rw [ih hrest]
              rfl

theorem without?_of_le (h : ∀ y ∈ ys, y.levels ≤ d) (x : Value) :
    without? d x ys = some (ys.eraseP (·.equal x)) := by
  induction ys with
  | nil => rfl
  | cons y ys ih =>
      obtain ⟨hy, hys⟩ := List.forall_mem_cons.mp h
      rw [without?, same?_of_le hy, List.eraseP_cons]
      cases y.equal x with
      | true => rfl
      | false => simp [ih hys]

theorem difference?_eq_some (h : difference? d xs ys = some zs) : zs = remaining xs ys := by
  induction ys generalizing xs with
  | nil => exact (Option.some.inj h).symm
  | cons y ys ih =>
      obtain ⟨rest, hrest, hzs⟩ := Option.bind_eq_some_iff.mp h
      rw [ih hzs, without?_eq_some hrest]
      rfl

theorem difference?_of_le (h : ∀ x ∈ xs, x.levels ≤ d) (ys : List Value) :
    difference? d xs ys = some (remaining xs ys) := by
  induction ys generalizing xs with
  | nil => rfl
  | cons y ys ih =>
      change (without? d y xs).bind _ = _
      rw [without?_of_le h]
      exact ih fun x hx => h x (List.mem_of_mem_eraseP hx)

theorem remaining_sublist (xs ys : List Value) : (remaining xs ys).Sublist xs := by
  induction ys generalizing xs with
  | nil => exact List.Sublist.refl xs
  | cons y ys ih => exact (ih _).trans List.eraseP_sublist

end Remaining

section Counts

theorem countP_eraseP {p : Value → Bool} (hxs : ∀ x ∈ xs, x.Comparable L) (hy : y.Comparable L)
    (hp : ∀ x ∈ xs, p x = x.equal y) (hv : v.Listed L) :
    (xs.eraseP p).countP (·.equal v) = xs.countP (·.equal v) - if y.equal v then 1 else 0 := by
  induction xs with
  | nil => simp
  | cons x xs ih =>
      obtain ⟨hx, hxs⟩ := List.forall_mem_cons.mp hxs
      obtain ⟨hpx, hp⟩ := List.forall_mem_cons.mp hp
      rw [List.eraseP_cons, hpx, List.countP_cons]
      cases hxy : x.equal y with
      | true => simp [hx.equal_congr hy hv hxy]
      | false =>
          -- `x` stays: it cannot be equal to `v` if `y` is, since it is not equal to `y`
          have hnot (hxv : x.equal v = true) (hyv : y.equal v = true) : False := by
            have hboth : Equal x y := hx.trans hv hy.listed hxv (hy.symm hyv)
            rw [Equal, hxy] at hboth
            cases hboth
          rw [cond_false, List.countP_cons, ih hxs hp]
          cases hxv : x.equal v with
          | false => simp
          | true =>
              cases hyv : y.equal v with
              | false => simp
              | true => exact (hnot hxv hyv).elim

theorem countP_remaining (hxs : ∀ x ∈ xs, x.Comparable L) (hys : ∀ y ∈ ys, y.Comparable L)
    (hv : v.Listed L) :
    (remaining xs ys).countP (·.equal v) = xs.countP (·.equal v) - ys.countP (·.equal v) := by
  induction ys generalizing xs with
  | nil => rfl
  | cons y ys ih =>
      obtain ⟨hy, hys⟩ := List.forall_mem_cons.mp hys
      have hrest : ∀ x ∈ xs.eraseP (·.equal y), x.Comparable L :=
        fun x hx => hxs x (List.mem_of_mem_eraseP hx)
      rw [remaining, List.foldl_cons, ← remaining, ih hrest hys,
        countP_eraseP hxs hy (fun _ _ => rfl) hv, List.countP_cons]
      omega

end Counts

section Earliest

def outlasting (xs ys : List Value) : List Value :=
  (xs.zipIdx.filter fun p => ys.countP (·.equal p.1) ≤ (xs.take p.2).countP (·.equal p.1)).map Prod.fst

theorem remaining_cons (x : Value) (xs ys : List Value) : remaining (x :: xs) ys =
    if ys.any (x.equal ·) then remaining xs (ys.eraseP (x.equal ·)) else x :: remaining xs ys := by
  induction ys generalizing xs with
  | nil => rfl
  | cons y ys ih =>
      change remaining ((x :: xs).eraseP (·.equal y)) ys = _
      rw [List.eraseP_cons, List.eraseP_cons, List.any_cons]
      cases x.equal y with
      | true => rfl
      | false => exact ih (xs.eraseP (·.equal y))

theorem any_equal_iff (hx : x.Comparable L) (hys : ∀ y ∈ ys, y.Comparable L) :
    ys.any (x.equal ·) = true ↔ 0 < ys.countP (·.equal x) := by
  rw [List.any_eq_true, List.countP_pos_iff]
  refine exists_congr fun y => and_congr_right fun hy => ?_
  rw [hx.equal_comm (hys y hy)]

/-- The difference from some point on: `pre` has been read, and `rest` is what is left to take away. -/
theorem remaining_suffix {rest : List Value} (hxs : ∀ x ∈ xs, x.Comparable L)
    (hrest : ∀ y ∈ rest, y.Comparable L) (pre : List Value)
    (hcount : ∀ x ∈ xs, rest.countP (·.equal x) = ys.countP (·.equal x) - pre.countP (·.equal x)) :
    remaining xs rest = ((xs.zipIdx pre.length).filter fun p =>
      ys.countP (·.equal p.1) ≤ ((pre ++ xs).take p.2).countP (·.equal p.1)).map Prod.fst := by
  induction xs generalizing pre rest with
  | nil => exact List.sublist_nil.mp (remaining_sublist [] rest)
  | cons x xs ih =>
      obtain ⟨hx, hxs⟩ := List.forall_mem_cons.mp hxs
      obtain ⟨hcountx, hcount⟩ := List.forall_mem_cons.mp hcount
      have hpre : (pre ++ x :: xs).take pre.length = pre := List.take_left
      have hsplit : pre ++ x :: xs = pre ++ [x] ++ xs := by simp
      have hlength : pre.length + 1 = (pre ++ [x]).length := by simp
      rw [remaining_cons, List.zipIdx_cons, List.filter_cons, hpre, hsplit, hlength]
      by_cases hany : rest.any (x.equal ·) = true
      · have hpos := (any_equal_iff hx hrest).mp hany
        rw [if_pos hany, if_neg (by simp; omega)]
        refine ih hxs (fun y hy => hrest y (List.mem_of_mem_eraseP hy)) (pre ++ [x]) fun z hz => ?_
        rw [countP_eraseP hrest hx (fun y hy => hx.equal_comm (hrest y hy)) (hxs z hz).listed,
          hcount z hz, List.countP_append, List.countP_singleton]
        omega
      · have hzero : rest.countP (·.equal x) = 0 := by
          have := mt (any_equal_iff hx hrest).mpr hany
          omega
        rw [if_neg hany, if_pos (by simp; omega), List.map_cons]
        refine congrArg (x :: ·) (ih hxs hrest (pre ++ [x]) fun z hz => ?_)
        rw [List.countP_append, List.countP_singleton]
        have hcountz := hcount z hz
        cases hxz : x.equal z with
        | false => simpa using hcountz
        | true =>
            rw [← countP_equal_congr hrest hx (hxs z hz).listed hxz] at hcountz ⊢
            simp only [if_true]
            omega

theorem remaining_eq_outlasting (hxs : ∀ x ∈ xs, x.Comparable L) (hys : ∀ y ∈ ys, y.Comparable L) :
    remaining xs ys = outlasting xs ys :=
  remaining_suffix hxs hys [] fun _ _ => rfl

theorem outlasting_congr (h : ∀ x ∈ xs, ys.countP (·.equal x) = zs.countP (·.equal x)) :
    outlasting xs ys = outlasting xs zs := by
  refine congrArg (List.map Prod.fst) (List.filter_congr fun p hp => ?_)
  rw [h p.1 (List.fst_mem_of_mem_zipIdx hp)]

end Earliest

section Computes

structure Computes (f : Nat → Option Value) (levels : Nat) (v : Value) : Prop where
  enough {depth : Nat} : levels ≤ depth → f depth = some v
  only {depth : Nat} {w : Value} : f depth = some w → w = v

variable {w : Value}

theorem computes_of_eq {f : Nat → Option Value} (h : ∀ depth, f depth = some v) (levels : Nat) :
    Computes f levels v :=
  ⟨fun _ => h _, fun hw => Option.some.inj (hw.symm.trans (h _))⟩

theorem computes_compared (v w : Value) :
    Computes (fun depth => compared depth .eq v w) v.levels (.boolean (v.equal w)) := by
  constructor
  · intro depth h
    rw [compared, same?_of_le h]
    rfl
  · intro depth u hu
    obtain ⟨b, hb, rfl⟩ := Option.map_eq_some_iff.mp hu
    rw [same?_eq_some hb]

theorem equal_integer (n k : Int) : (integer n).equal (integer k) = decide (n = k) := by
  simp [equal, levels, same?, sameParts, beq_eq_decide]

theorem equal_string (x y : String) : (string x).equal (string y) = decide (x = y) := by
  simp [equal, levels, same?, sameParts, beq_eq_decide]

theorem computes_eq (hv : v.kind ≠ .double) (hw : w.kind ≠ .double) (m : Stamp) :
    Computes (fun depth => binary depth m .eq v w) v.levels (.boolean (v.equal w)) := by
  cases v with
  | double s x => exact absurd rfl hv
  | integer n =>
      cases w with
      | double s x => exact absurd rfl hw
      | integer k =>
          rw [equal_integer]
          exact computes_of_eq (fun _ => rfl) _
      | _ => exact computes_compared _ _
  | string x =>
      cases w with
      | string y =>
          rw [equal_string]
          exact computes_of_eq (fun _ => rfl) _
      | _ => exact computes_compared _ _
  | _ => cases w <;> exact computes_compared _ _

theorem computes_sub (xs ys : List Value) (m s t : Stamp) :
    Computes (fun depth => binary depth m .sub (.array s xs) (.array t ys)) (levelsOf xs)
      (.array m (remaining xs ys)) := by
  constructor
  · intro depth h
    change (difference? depth xs ys).map (Value.array m) = _
    rw [difference?_of_le fun x hx => (levels_le_levelsOf hx).trans h]
    rfl
  · intro depth u hu
    obtain ⟨zs, hzs, rfl⟩ := Option.map_eq_some_iff.mp hu
    rw [difference?_eq_some hzs]

end Computes

/-- The difference of arrays is that of multisets. All values that texts make are in one ledger, and
`equal` is the answer of the operator for equality. Of comparable elements the difference keeps some of the
first array, in their order: each value as many times as it is there more often than in the second array, and
the last ones of those that are equal. The order of the second array does not matter, and what has been added
to an array can be taken away from it again. -/
theorem arrays_subtract_as_multisets :
    (∀ setting texts, ∃ L : Ledger, ∀ v, (Session.start setting).Reaches texts v →
      v.Listed L ∧ (v.DoubleFree → v.Comparable L)) ∧
    (∀ v w : Value, v.kind ≠ .double → w.kind ≠ .double → ∀ m,
      Computes (fun depth => binary depth m .eq v w) v.levels (.boolean (v.equal w))) ∧
    ∀ (L : Ledger) (a b : List Value), (∀ x ∈ a ++ b, x.Comparable L) → ∃ rest,
      (∀ m s t, Computes (fun depth => binary depth m .sub (.array s a) (.array t b)) (levelsOf a)
        (.array m rest)) ∧
      rest.Sublist a ∧
      (∀ v, v.Listed L →
        rest.countP (·.equal v) = a.countP (·.equal v) - b.countP (·.equal v)) ∧
      rest = outlasting a b ∧
      (∀ b', (∀ y ∈ b', y.Comparable L) → (∃ c, b.Perm c ∧ List.Forall₂ Equal c b') → ∀ m s t,
        Computes (fun depth => binary depth m .sub (.array s a) (.array t b')) (levelsOf a)
          (.array m rest)) ∧
      ∃ back,
        (∀ m s t, Computes (fun depth => (binary depth m .add (.array s a) (.array t b)).bind
          (binary depth m .sub · (.array t b))) (levelsOf (a ++ b)) (.array m back)) ∧
        ∀ v, v.Listed L → back.countP (·.equal v) = a.countP (·.equal v) := by
  refine ⟨fun setting texts => ?_, fun v w hv hw m => computes_eq hv hw m, fun L a b h => ?_⟩
  · obtain ⟨L, hL⟩ := Session.reached_listed setting texts
    exact ⟨L, fun v hv => ⟨hL v hv, fun hdouble => ⟨hL v hv, Session.reached_sound hv, hdouble⟩⟩⟩
  · obtain ⟨ha, hb⟩ := List.forall_mem_append.mp h
    refine ⟨remaining a b, computes_sub a b, remaining_sublist a b, fun v hv => ?_, ?_, ?_, ?_⟩
    · exact countP_remaining ha hb hv
    · exact remaining_eq_outlasting ha hb
    · intro b' hb' hsame m s t
      have hrest : remaining a b = remaining a b' := by
        rw [remaining_eq_outlasting ha hb, remaining_eq_outlasting ha hb']
        exact outlasting_congr fun x hx => (countP_reordered hb hb' hsame (ha x hx).listed).symm
      rw [hrest]
      exact computes_sub a b' m s t
    · refine ⟨remaining (a ++ b) b, fun m s t => computes_sub (a ++ b) b m m t, fun v hv => ?_⟩
      rw [countP_remaining h hb hv, List.countP_append, Nat.add_sub_cancel]

theorem arrays_subtract_as_multisets_twice :
    let one (m : Stamp) : Value := .array m [.integer 1]
    let f : Value := .function 4 [] (.mk Pos.start []) 0
    let a := [one 1, .integer 2, one 2, f, .integer 2, one 1]
    let b := [.integer 2, one 3, f, .integer 5, .integer 2]
    let b' := [one 2, f, .integer 2, .integer 2, .integer 5]
    (∀ x ∈ a ++ b, x.Comparable fun m => some (one m)) ∧
      binary 9 7 .sub (.array 5 a) (.array 6 b) = some (.array 7 [one 2, one 1]) ∧
      binary 9 7 .sub (.array 5 a) (.array 6 b') = some (.array 7 [one 2, one 1]) ∧
      [one 2, one 1].countP (·.equal (one 3)) = 3 - 1 := by
  intro one f a b b'
  let L : Ledger := fun m => some (one m)
  have hinteger (n : Int) : (integer n).Comparable L := comparable_of_plain rfl (by simp [kind])
  have hf : f.Comparable L := comparable_of_plain rfl (by decide)
  have hone (m : Stamp) : (one m).Comparable L :=
    comparable_array rfl (List.forall_mem_singleton.mpr (hinteger 1))
  have hall : ∀ x ∈ a ++ b, x.Comparable L := by
    simp [a, b, hinteger, hf, hone]
  have hall' : ∀ x ∈ b', x.Comparable L := by
    simp [b', hinteger, hf, hone]
  have hequal (m k : Stamp) : Equal (one m) (one k) :=
    equal_iff.mpr (.array (.cons (equal_refl (hinteger 1).doubleFree) .nil))
  have hreordered : ∃ c, b.Perm c ∧ List.Forall₂ Equal c b' := by
    refine ⟨[one 3, f, .integer 2, .integer 2, .integer 5], ?_, ?_⟩
    · exact (List.Perm.swap _ _ _).trans (.cons _ ((List.Perm.swap _ _ _).trans
        (.cons _ (.cons _ (.swap _ _ _)))))
    · refine .cons (hequal 3 2) (.cons (equal_refl hf.doubleFree) ?_)
      exact .cons (equal_refl (hinteger 2).doubleFree) (.cons (equal_refl (hinteger 2).doubleFree)
        (.cons (equal_refl (hinteger 5).doubleFree) .nil))
  obtain ⟨-, -, hsubtract⟩ := arrays_subtract_as_multisets
  obtain ⟨rest, hrest, -, hcount, hearliest, hsame, -⟩ := hsubtract L a b hall
  have hleft : rest = [one 2, one 1] := hearliest.trans (by cbv)
  subst hleft
  have hlevels : levelsOf a ≤ 9 := by decide
  refine ⟨hall, (hrest 7 5 6).enough hlevels, (hsame b' hall' hreordered 7 5 6).enough hlevels, ?_⟩
  rw [hcount (one 3) (hone 3).listed]
  cbv

end Marmoset.Value
