import Marmoset.Proofs.Difference

namespace Marmoset.Value

variable {L : Ledger} {a b v w : Value} {R : Value → Value → Prop} {t u : Table Value}

section Gives

def Gives (op : BinaryOp) (v w : Value) (b : Bool) : Prop :=
  ∀ m, Computes (fun depth => binary depth m op v w) v.levels (.boolean b)

def Same (v w : Value) : Prop := Gives .eq v w true

theorem Computes.unique {f : Nat → Option Value} {n : Nat} (hv : Computes f n v) (hw : Computes f n w) :
    v = w :=
  hw.only (hv.enough (Nat.le_refl n))

theorem computes_unequal (v w : Value) :
    Computes (fun depth => compared depth .ne v w) v.levels (.boolean !v.equal w) := by
  constructor
  · intro depth h
    rw [compared, same?_of_le h]
    rfl
  · intro depth u hu
    obtain ⟨b, hb, rfl⟩ := Option.map_eq_some_iff.mp hu
    rw [same?_eq_some hb]

theorem binary_eq_cases (v w : Value) :
    (∃ b, ∀ depth m, binary depth m .eq v w = some (.boolean b) ∧
      binary depth m .ne v w = some (.boolean !b)) ∨
    ∀ depth m, binary depth m .eq v w = compared depth .eq v w ∧
      binary depth m .ne v w = compared depth .ne v w := by
  cases v with
  | integer n =>
      cases w with
      | integer k => exact .inl ⟨decide (n = k), fun _ _ => ⟨rfl, rfl⟩⟩
      | double s y => exact .inl ⟨Number.ofInt n == y, fun _ _ => ⟨rfl, rfl⟩⟩
      | _ => exact .inr fun _ _ => ⟨rfl, rfl⟩
  | double s x =>
      cases w with
      | integer k => exact .inl ⟨x == Number.ofInt k, fun _ _ => ⟨rfl, rfl⟩⟩
      | double t y => exact .inl ⟨x == y, fun _ _ => ⟨rfl, rfl⟩⟩
      | _ => exact .inr fun _ _ => ⟨rfl, rfl⟩
  | string x =>
      cases w with
      | string y => exact .inl ⟨decide (x = y), fun _ _ => ⟨rfl, rfl⟩⟩
      | _ => exact .inr fun _ _ => ⟨rfl, rfl⟩
  | _ => cases w <;> exact .inr fun _ _ => ⟨rfl, rfl⟩

theorem gives_opposite (v w : Value) : ∃ b, Gives .eq v w b ∧ Gives .ne v w !b := by
  rcases binary_eq_cases v w with ⟨b, hb⟩ | h
  · exact ⟨b, fun m => computes_of_eq (fun depth => (hb depth m).1) _,
      fun m => computes_of_eq (fun depth => (hb depth m).2) _⟩
  · refine ⟨v.equal w, fun m => ?_, fun m => ?_⟩
    · rw [funext fun depth => (h depth m).1]
      exact computes_compared v w
    · rw [funext fun depth => (h depth m).2]
      exact computes_unequal v w

theorem same_iff (hv : v.kind ≠ .double) (hw : w.kind ≠ .double) : Same v w ↔ Equal v w := by
  constructor
  · intro h
    exact (Value.boolean.inj ((h 0).unique (computes_eq hv hw 0))).symm
  · intro h m
    have hequal := computes_eq hv hw m
    rwa [show v.equal w = true from h] at hequal

end Gives

section Comparable

theorem Comparable.part (h : v.Comparable L) (hw : w ∈ v.parts) : w.Comparable L :=
  ⟨h.listed.part hw, h.sound.part hw, h.doubleFree.part hw⟩

theorem Comparable.kind_ne (h : v.Comparable L) : v.kind ≠ .double :=
  (every_iff.mp h.doubleFree).1

theorem Comparable.same_iff (hv : v.Comparable L) (hw : w.Comparable L) : Same v w ↔ Equal v w :=
  Value.same_iff hv.kind_ne hw.kind_ne

theorem comparable_hash {s : Stamp} (hs : L s = some (.hash s t)) (ht : Table.Sound t)
    (hparts : ∀ e ∈ t, e.key.Comparable L ∧ e.value.Comparable L) : (hash s t).Comparable L := by
  refine ⟨every_hash.mpr ⟨fun m hm => ?_, fun e he => ⟨(hparts e he).1.listed, (hparts e he).2.listed⟩⟩,
    every_hash.mpr ⟨ht, fun e he => ⟨(hparts e he).1.sound, (hparts e he).2.sound⟩⟩,
    every_hash.mpr ⟨by simp [kind], fun e he => ⟨(hparts e he).1.doubleFree, (hparts e he).2.doubleFree⟩⟩⟩
  cases hm
  exact hs

theorem Comparable.distinct {s : Stamp} (h : (hash s t).Comparable L) : t.Distinct :=
  (every_iff.mp h.sound).1.distinct

theorem forall₂_of_mem {R' : Value → Value → Prop} {xs ys : List Value} (h : List.Forall₂ R xs ys)
    (himp : ∀ x ∈ xs, ∀ y ∈ ys, R x y → R' x y) : List.Forall₂ R' xs ys := by
  induction h with
  | nil => exact .nil
  | cons hxy _ ih =>
      refine .cons (himp _ List.mem_cons_self _ List.mem_cons_self hxy) (ih fun x hx y hy => ?_)
      exact himp x (.tail _ hx) y (.tail _ hy)

theorem Congruent.of_parts {R' : Value → Value → Prop} (h : Congruent R v w)
    (himp : ∀ x ∈ v.parts, ∀ y ∈ w.parts, R x y → R' x y) : Congruent R' v w := by
  cases h with
  | array hxs => exact .array (forall₂_of_mem hxs himp)
  | @hash s s' t u hlen ht =>
      refine .hash hlen fun e he => ?_
      obtain ⟨f, hf, hkey, hvalue⟩ := ht e he
      obtain ⟨hkey', hvalue'⟩ := mem_parts_hash (Table.of_find? hf).1 s'
      exact ⟨f, hf, himp _ (mem_parts_hash he s).1 _ hkey' hkey,
        himp _ (mem_parts_hash he s).2 _ hvalue' hvalue⟩
  | returned hvw => exact .returned (himp _ (List.mem_singleton_self _) _ (List.mem_singleton_self _) hvw)
  | double hxy => exact .double hxy
  | error hfg => exact .error hfg
  | _ => constructor

theorem Comparable.same_iff_congruent (hv : v.Comparable L) (hw : w.Comparable L) :
    Same v w ↔ Congruent Same v w := by
  rw [hv.same_iff hw]
  refine equal_iff.trans ⟨fun h => h.of_parts fun x hx y hy => ?_, fun h => h.of_parts fun x hx y hy => ?_⟩
  · exact ((hv.part hx).same_iff (hw.part hy)).mpr
  · exact ((hv.part hx).same_iff (hw.part hy)).mp

theorem Congruent.kind_eq (h : Congruent R v w) : v.kind = w.kind := by
  cases h <;> rfl

theorem same_equivalence (L : Ledger) :
    Equivalence fun v w : {v : Value // v.Comparable L} => Same v.1 w.1 where
  refl v := (v.2.same_iff v.2).mpr (equal_refl v.2.doubleFree)
  symm {v w} h := (w.2.same_iff v.2).mpr (v.2.symm ((v.2.same_iff w.2).mp h))
  trans {u v w} h h' := by
    rw [u.2.same_iff v.2] at h
    rw [v.2.same_iff w.2] at h'
    exact (u.2.same_iff w.2).mpr (u.2.trans v.2.listed w.2.listed h h')

end Comparable

section Contexts

structure SameEntry (R : Value → Value → Prop) (e f : Entry Value) : Prop where
  id : e.id = f.id
  key : R e.key f.key
  value : R e.value f.value

/-- Two values that have `a` and `b` in the same place, at any depth, with `R` between all else. The order
of entries does not matter. -/
inductive Wraps (R : Value → Value → Prop) (a b : Value) : Value → Value → Prop where
  | hole : Wraps R a b a b
  | array {s s' : Stamp} {v w : Value} {xs ys xs' ys' : List Value} :
      List.Forall₂ R xs xs' → Wraps R a b v w → List.Forall₂ R ys ys' →
      Wraps R a b (.array s (xs ++ v :: ys)) (.array s' (xs' ++ w :: ys'))
  | value {s s' : Stamp} {id : Key} {k k' v w : Value} {t t' u u' : Table Value} :
      t.Perm (⟨id, k, v⟩ :: u) → t'.Perm (⟨id, k', w⟩ :: u') → R k k' → Wraps R a b v w →
      List.Forall₂ (SameEntry R) u u' → Wraps R a b (.hash s t) (.hash s' t')
  | key {s s' : Stamp} {id id' : Key} {v w x x' : Value} {t t' u u' : Table Value} :
      t.Perm (⟨id, v, x⟩ :: u) → t'.Perm (⟨id', w, x'⟩ :: u') → Wraps R a b v w → R x x' →
      List.Forall₂ (SameEntry R) u u' → Wraps R a b (.hash s t) (.hash s' t')

theorem under_of_forall₂ {t' u' : Table Value} (hu : u'.Distinct) (ht : t.Perm t') (hu' : u'.Perm u)
    (h : List.Forall₂ (SameEntry R) t' u) : Under R t u' := by
  intro e he
  have he' := ht.mem_iff.mp he
  clear ht he
  suffices hfound : ∃ f ∈ u, SameEntry R e f by
    obtain ⟨f, hf, hsame⟩ := hfound
    exact ⟨f, hsame.id ▸ hu.find? (hu'.mem_iff.mpr hf), hsame.key, hsame.value⟩
  clear hu hu'
  induction h with
  | nil => cases he'
  | cons hef _ ih =>
      rcases List.mem_cons.mp he' with rfl | he'
      · exact ⟨_, List.mem_cons_self, hef⟩
      · obtain ⟨f, hf, hsame⟩ := ih he'
        exact ⟨f, .tail _ hf, hsame⟩

theorem congruent_hash {s s' : Stamp} {t' u' : Table Value} (hu : u.Distinct) (ht : t.Perm t')
    (hu' : u.Perm u') (h : List.Forall₂ (SameEntry R) t' u') : Congruent R (.hash s t) (.hash s' u) :=
  .hash (ht.length_eq.trans (h.length_eq.trans hu'.length_eq.symm)) (under_of_forall₂ hu ht hu' h)

theorem Congruent.key?_eq {id : Key} (h : Congruent R v w) (hv : v.key? = some id) : w.key? = some id := by
  cases h with
  | boolean | integer | string => exact hv
  | _ => cases hv

theorem Wraps.same (h : Wraps Same a b v w) (hab : Same a b) (hv : v.Comparable L) (hw : w.Comparable L) :
    Same v w := by
  induction h with
  | hole => exact hab
  | @array s s' v w xs ys xs' ys' hxs _ hys ih =>
      have hvw := ih (hv.part (by simp [parts])) (hw.part (by simp [parts]))
      exact (hv.same_iff_congruent hw).mpr (.array (List.rel_append hxs (.cons hvw hys)))
  | @value s s' id k k' v w t t' u u' ht ht' hk _ hu ih =>
      have hmem := mem_parts_hash (ht.mem_iff.mpr List.mem_cons_self) s
      have hmem' := mem_parts_hash (ht'.mem_iff.mpr List.mem_cons_self) s'
      have hvw := ih (hv.part hmem.2) (hw.part hmem'.2)
      exact (hv.same_iff_congruent hw).mpr (congruent_hash hw.distinct ht ht' (.cons ⟨rfl, hk, hvw⟩ hu))
  | @key s s' id id' v w x x' t t' u u' ht ht' _ hx hu ih =>
      have he := ht.mem_iff.mpr List.mem_cons_self
      have he' := ht'.mem_iff.mpr List.mem_cons_self
      have hpart := hv.part (mem_parts_hash he s).1
      have hpart' := hw.part (mem_parts_hash he' s').1
      have hvw := ih hpart hpart'
      -- equal keys are the same number, truth value or text
      have hid : id = id' := by
        have hkey := ((hpart.same_iff_congruent hpart').mp hvw).key?_eq
          ((every_iff.mp hv.sound).1.keyed _ he)
        exact Option.some.inj (hkey.symm.trans ((every_iff.mp hw.sound).1.keyed _ he'))
      exact (hv.same_iff_congruent hw).mpr (congruent_hash hw.distinct ht ht' (.cons ⟨hid, hvw, hx⟩ hu))

theorem same_of_perm {s s' : Stamp} (h : t.Perm u) (ht : (hash s t).Comparable L)
    (hu : (hash s' u).Comparable L) : Same (.hash s t) (.hash s' u) := by
  refine (ht.same_iff_congruent hu).mpr (congruent_hash hu.distinct (.refl t) h.symm ?_)
  refine List.forall₂_same.mpr fun e he => ?_
  have hkey := ht.part (mem_parts_hash he s).1
  have hvalue := ht.part (mem_parts_hash he s).2
  exact ⟨rfl, (same_equivalence L).refl ⟨_, hkey⟩, (same_equivalence L).refl ⟨_, hvalue⟩⟩

end Contexts

theorem remaining_singleton (v w : Value) : remaining [v] [w] = if v.equal w then [] else [v] := by
  change [v].eraseP (·.equal w) = _
  rw [List.eraseP_cons, cond_eq_ite]
  rfl

/-- Equality goes by structure. All values that texts make are in one ledger. On the values of a ledger that
have no doubles in them the operator for equality is an equivalence: it goes by the kinds and the parts of
values, not by the order of entries; what is equal can be put in the place of its equal at any depth; and an
array with one value minus an array with an equal one is the empty array. On all values, equality and
inequality give opposite truth values. -/
theorem equality_is_structural :
    (∀ setting texts, ∃ L : Ledger, ∀ v, (Session.start setting).Reaches texts v →
      v.DoubleFree → v.Comparable L) ∧
    (∀ L : Ledger,
      Equivalence (fun v w : {v : Value // v.Comparable L} => Same v.1 w.1) ∧
      (∀ v w : Value, v.Comparable L → w.Comparable L →
        (Same v w ↔ Congruent Same v w) ∧
        (Same v w → v.kind = w.kind) ∧
        (∀ a b, Wraps Same a b v w → Same a b → Same v w) ∧
        ∃ rest, (rest = [] ↔ Same v w) ∧
          ∀ m s t, Computes (fun depth => binary depth m .sub (.array s [v]) (.array t [w])) v.levels
            (.array m rest)) ∧
      ∀ (s s' : Stamp) (t u : Table Value), (hash s t).Comparable L → (hash s' u).Comparable L →
        t.Perm u → Same (.hash s t) (.hash s' u)) ∧
    ∀ v w : Value, ∃ b, Gives .eq v w b ∧ Gives .ne v w !b := by
  refine ⟨fun setting texts => ?_, fun L => ⟨same_equivalence L, fun v w hv hw => ?_, ?_⟩, gives_opposite⟩
  · obtain ⟨L, hL⟩ := Session.reached_listed setting texts
    exact ⟨L, fun v hv hdouble => ⟨hL v hv, Session.reached_sound hv, hdouble⟩⟩
  · have hiff := hv.same_iff_congruent hw
    refine ⟨hiff, fun h => (hiff.mp h).kind_eq, fun a b h hab => h.same hab hv hw, remaining [v] [w], ?_, ?_⟩
    · rw [remaining_singleton, hv.same_iff hw, Equal]
      simp
    · intro m s t
      have hsub := computes_sub [v] [w] m s t
      rwa [levelsOf, levelsOf, Nat.max_zero] at hsub
  · exact fun s s' t u ht hu h => same_of_perm h ht hu

theorem equality_is_structural_reordered :
    let one : Value := .array 0 [.integer 1]
    let e : Entry Value := ⟨.integer 7, .integer 7, one⟩
    let f : Entry Value := ⟨.boolean true, .boolean true, .builtin .len⟩
    let a : Value := .hash 1 [e, f]
    let b : Value := .hash 2 [f, e]
    let v : Value := .array 3 [.null, a, one]
    let w : Value := .array 4 [.null, b, one]
    v.Comparable (fun m => [one, a, b, v, w][m]?) ∧ w.Comparable (fun m => [one, a, b, v, w][m]?) ∧
      binary 9 7 .eq a b = some (.boolean true) ∧ binary 9 7 .eq v w = some (.boolean true) ∧
      binary 9 7 .sub (.array 5 [v]) (.array 6 [w]) = some (.array 7 []) := by
  intro one e f a b v w
  let L : Ledger := fun m => [one, a, b, v, w][m]?
  have hatom {x : Value} (hx : x.plain = true) (hdouble : x.kind ≠ .double) : x.Comparable L :=
    comparable_of_plain hx hdouble
  have hone : one.Comparable L :=
    comparable_array rfl (List.forall_mem_singleton.mpr (hatom rfl (by decide)))
  have he : e.key.Comparable L ∧ e.value.Comparable L := ⟨hatom rfl (by decide), hone⟩
  have hf : f.key.Comparable L ∧ f.value.Comparable L := ⟨hatom rfl (by decide), hatom rfl (by decide)⟩
  have ha : a.Comparable L :=
    comparable_hash rfl ⟨by decide, by simp [e, f, key?]⟩ (by simp [he, hf])
  have hb : b.Comparable L :=
    comparable_hash rfl ⟨by decide, by simp [e, f, key?]⟩ (by simp [he, hf])
  have hnull : null.Comparable L := hatom rfl (by decide)
  have hv : v.Comparable L := comparable_array rfl (by simp [hnull, ha, hone])
  have hw : w.Comparable L := comparable_array rfl (by simp [hnull, hb, hone])
  obtain ⟨-, hlaws, -⟩ := equality_is_structural
  obtain ⟨hequivalence, hparts, hperm⟩ := hlaws L
  have hab : Same a b := hperm 1 2 _ _ ha hb (.swap _ _ [])
  obtain ⟨-, -, hwraps, rest, hrest, hsub⟩ := hparts v w hv hw
  have hvw : Same v w :=
    hwraps a b (.array (.cons (hequivalence.refl ⟨_, hnull⟩) .nil) .hole
      (.cons (hequivalence.refl ⟨_, hone⟩) .nil)) hab
  cases hrest.mpr hvw
  exact ⟨hv, hw, (hab 7).enough (by decide), (hvw 7).enough (by decide), (hsub 7 5 6).enough (by decide)⟩

end Marmoset.Value
