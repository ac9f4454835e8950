import Mathlib.Data.List.Forall2
import Mathlib.Data.List.Nodup
import Marmoset.Proofs.Value.Table
import Marmoset.Value.Operation

namespace Marmoset

namespace Value

section Levels

mutual

def levels : Value → Nat
  | .array _ vs => levelsOf vs + 1
  | .hash _ t => levelsIn t + 1
  | .returned v => levels v + 1
  | _ => 1

def levelsOf : List Value → Nat
  | [] => 0
  | v :: vs => max (levels v) (levelsOf vs)

def levelsIn : List (Entry Value) → Nat
  | [] => 0
  | ⟨_, k, v⟩ :: t => max (max (levels k) (levels v)) (levelsIn t)

end

theorem levels_le_levelsOf {v : Value} {vs : List Value} (h : v ∈ vs) : v.levels ≤ levelsOf vs := by
  induction vs with
  | nil => cases h
  | cons w vs ih =>
      rw [levelsOf]
      rcases List.mem_cons.mp h with rfl | h
      · exact Nat.le_max_left _ _
      · exact Nat.le_trans (ih h) (Nat.le_max_right _ _)

theorem levels_le_levelsIn {e : Entry Value} {t : Table Value} (h : e ∈ t) :
    e.key.levels ≤ levelsIn t ∧ e.value.levels ≤ levelsIn t := by
  induction t with
  | nil => cases h
  | cons f t ih =>
      rw [levelsIn]
      rcases List.mem_cons.mp h with rfl | h
      · omega
      · have hrest := ih h
        omega

theorem levels_pos (v : Value) : 0 < v.levels := by
  cases v <;> simp [levels]

theorem levels_part {v w : Value} {d : Nat} (h : v.levels ≤ d + 1) (hw : w ∈ v.parts) : w.levels ≤ d := by
  cases v with
  | array s vs =>
      rw [levels] at h
      exact Nat.le_trans (levels_le_levelsOf hw) (Nat.le_of_succ_le_succ h)
  | hash s t =>
      rw [levels] at h
      obtain ⟨e, he, hw⟩ := List.mem_flatMap.mp hw
      obtain ⟨hkey, hvalue⟩ := levels_le_levelsIn he
      rcases List.mem_pair.mp hw with rfl | rfl
      · omega
      · omega
  | returned v =>
      rw [levels] at h
      obtain rfl := List.mem_singleton.mp hw
      omega
  | _ => cases hw

end Levels

section Answers

def Answers (o o' : Option Bool) : Prop := ∀ b, o = some b → o' = some b

def Refines (same same' : Value → Value → Option Bool) : Prop := ∀ v w, Answers (same v w) (same' v w)

variable {same same' : Value → Value → Option Bool}

theorem answers_andThen {o o' : Option Bool} {f g : Unit → Option Bool} (ho : Answers o o')
    (hf : Answers (f ()) (g ())) : Answers (andThen o f) (andThen o' g) := by
  intro b h
  cases o with
  | none => cases h
  | some c =>
      rw [ho c rfl]
      cases c with
      | true => exact hf b h
      | false => exact h

theorem answers_ite {c : Prop} [Decidable c] {o o' p p' : Option Bool} (ho : Answers o o')
    (hp : Answers p p') : Answers (if c then o else p) (if c then o' else p') := by
  split
  · exact ho
  · exact hp

theorem answers_allSame (hs : Refines same same') (xs ys : List Value) :
    Answers (allSame same xs ys) (allSame same' xs ys) := by
  induction xs generalizing ys with
  | nil => cases ys <;> exact fun _ h => h
  | cons x xs ih =>
      cases ys with
      | nil => exact fun _ h => h
      | cons y ys => exact answers_andThen (hs x y) (ih ys)

theorem answers_sameEntries (hs : Refines same same') (u t : Table Value) :
    Answers (sameEntries same u t) (sameEntries same' u t) := by
  induction t with
  | nil => exact fun _ h => h
  | cons e t ih =>
      rw [sameEntries, sameEntries]
      cases u.find? e.id with
      | none => exact fun _ h => h
      | some f => exact answers_andThen (hs _ _) (answers_andThen (hs _ _) ih)

theorem Refines.sameParts (hs : Refines same same') :
    Refines (Value.sameParts same) (Value.sameParts same') := by
  intro v w
  cases v with
  | array s xs =>
      cases w with
      | array t ys => exact answers_ite (fun _ h => h) (answers_ite (answers_allSame hs xs ys) fun _ h => h)
      | _ => exact fun _ h => h
  | hash s t =>
      cases w with
      | hash s' u =>
          exact answers_ite (fun _ h => h) (answers_ite (answers_sameEntries hs u t) fun _ h => h)
      | _ => exact fun _ h => h
  | returned v =>
      cases w with
      | returned w => exact hs v w
      | _ => exact fun _ h => h
  | _ => cases w <;> exact fun _ h => h

theorem same?_succ (d : Nat) : Refines (same? d) (same? (d + 1)) := by
  induction d with
  | zero => exact fun _ _ _ h => by cases h
  | succ d ih => exact ih.sameParts

theorem same?_mono {d d' : Nat} (hd : d ≤ d') : Refines (same? d) (same? d') := by
  induction hd with
  | refl => exact fun _ _ _ h => h
  | @step d' _ ih => exact fun v w b h => same?_succ d' v w b (ih v w b h)

end Answers

section Enough

variable {same : Value → Value → Option Bool}

theorem isSome_andThen {o : Option Bool} {f : Unit → Option Bool} (ho : o.isSome)
    (hf : (f ()).isSome) : (andThen o f).isSome := by
  cases o with
  | none => cases ho
  | some b =>
      cases b with
      | true => exact hf
      | false => rfl

theorem isSome_allSame {xs : List Value} (h : ∀ x ∈ xs, ∀ y, (same x y).isSome) (ys : List Value) :
    (allSame same xs ys).isSome := by
  induction xs generalizing ys with
  | nil => cases ys <;> rfl
  | cons x xs ih =>
      obtain ⟨hx, hxs⟩ := List.forall_mem_cons.mp h
      cases ys with
      | nil => rfl
      | cons y ys => exact isSome_andThen (hx y) (ih hxs ys)

theorem isSome_sameEntries {t : Table Value}
    (h : ∀ e ∈ t, ∀ w, (same e.key w).isSome ∧ (same e.value w).isSome) (u : Table Value) :
    (sameEntries same u t).isSome := by
  induction t with
  | nil => rfl
  | cons e t ih =>
      obtain ⟨he, ht⟩ := List.forall_mem_cons.mp h
      rw [sameEntries]
      cases u.find? e.id with
      | none => rfl
      | some f => exact isSome_andThen (he f.key).1 (isSome_andThen (he f.value).2 (ih ht))

theorem mem_parts_hash {e : Entry Value} {t : Table Value} (h : e ∈ t) (s : Stamp) :
    e.key ∈ (Value.hash s t).parts ∧ e.value ∈ (Value.hash s t).parts :=
  ⟨List.mem_flatMap.mpr ⟨e, h, by simp⟩, List.mem_flatMap.mpr ⟨e, h, by simp⟩⟩

theorem isSome_sameParts {v : Value} (h : ∀ x ∈ v.parts, ∀ y, (same x y).isSome) (w : Value) :
    (sameParts same v w).isSome := by
  cases v with
  | array s xs =>
      cases w with
      | array t ys =>
          simp only [sameParts, sameList]
          split
          · rfl
          · split
            · exact isSome_allSame h ys
            · rfl
      | _ => rfl
  | hash s t =>
      cases w with
      | hash s' u =>
          have hentries (e : Entry Value) (he : e ∈ t) (w : Value) :
              (same e.key w).isSome ∧ (same e.value w).isSome :=
            ⟨h _ (mem_parts_hash he s).1 w, h _ (mem_parts_hash he s).2 w⟩
          simp only [sameParts]
          split
          · rfl
          · split
            · exact isSome_sameEntries hentries u
            · rfl
      | _ => rfl
  | returned v =>
      cases w with
      | returned w => exact h v (List.mem_singleton_self v) w
      | _ => rfl
  | _ => cases w <;> rfl

theorem isSome_same? {d : Nat} {v : Value} (h : v.levels ≤ d) (w : Value) : (same? d v w).isSome := by
  induction d generalizing v w with
  | zero => exact absurd v.levels_pos (Nat.not_lt.mpr h)
  | succ d ih => exact isSome_sameParts (fun x hx => ih (levels_part h hx)) w

end Enough

section Equal

/-- Whether two values are equal, however many levels it takes to see it. -/
def equal (v w : Value) : Bool := same? v.levels v w == some true

variable {v w : Value} {d : Nat}

theorem same?_levels (v w : Value) : same? v.levels v w = some (v.equal w) := by
  obtain ⟨b, hb⟩ := Option.isSome_iff_exists.mp (isSome_same? (Nat.le_refl v.levels) w)
  rw [equal, hb]
  cases b <;> rfl

theorem same?_of_le (h : v.levels ≤ d) (w : Value) : same? d v w = some (v.equal w) :=
  same?_mono h v w _ (same?_levels v w)

theorem same?_eq_some {b : Bool} (h : same? d v w = some b) : v.equal w = b := by
  have hmore := same?_mono (Nat.le_max_left d v.levels) v w b h
  rw [same?_of_le (Nat.le_max_right d v.levels)] at hmore
  exact Option.some.inj hmore

end Equal

section Congruent

def Under (R : Value → Value → Prop) (t u : Table Value) : Prop :=
  ∀ e ∈ t, ∃ f, u.find? e.id = some f ∧ R e.key f.key ∧ R e.value f.value

inductive Congruent (R : Value → Value → Prop) : Value → Value → Prop where
  | null : Congruent R .null .null
  | boolean (b : Bool) : Congruent R (.boolean b) (.boolean b)
  | integer (n : Int) : Congruent R (.integer n) (.integer n)
  | string (s : String) : Congruent R (.string s) (.string s)
  | range (lo hi : Int) : Congruent R (.range lo hi) (.range lo hi)
  | builtin (f : Builtin) : Congruent R (.builtin f) (.builtin f)
  | double {s t : Stamp} {x y : Float} : sameDouble s t x y = true →
      Congruent R (.double s x) (.double t y)
  | function (s : Stamp) {ps ps' : List Ident} {b b' : Block} {i i' : ScopeId} :
      Congruent R (.function s ps b i) (.function s ps' b' i')
  | oneArray (s : Stamp) {xs ys : List Value} : Congruent R (.array s xs) (.array s ys)
  | array {s t : Stamp} {xs ys : List Value} : List.Forall₂ R xs ys →
      Congruent R (.array s xs) (.array t ys)
  | oneHash (s : Stamp) {t u : Table Value} : Congruent R (.hash s t) (.hash s u)
  | hash {s s' : Stamp} {t u : Table Value} : t.length = u.length → Under R t u →
      Congruent R (.hash s t) (.hash s' u)
  | returned {v w : Value} : R v w → Congruent R (.returned v) (.returned w)
  | error {f g : Failure} : f.message = g.message → Congruent R (.error f) (.error g)

def Equal (v w : Value) : Prop := v.equal w = true

variable {same : Value → Value → Option Bool} {v w : Value}

theorem andThen_eq_true {b : Bool} {f : Unit → Option Bool} :
    andThen (some b) f = some true ↔ b = true ∧ f () = some true := by
  cases b <;> simp [andThen]

theorem allSame_iff {xs : List Value} (h : ∀ x ∈ xs, ∀ y, same x y = some (x.equal y))
    (ys : List Value) : allSame same xs ys = some true ↔ List.Forall₂ Equal xs ys := by
  induction xs generalizing ys with
  | nil => cases ys <;> simp [allSame]
  | cons x xs ih =>
      obtain ⟨hx, hxs⟩ := List.forall_mem_cons.mp h
      cases ys with
      | nil => simp [allSame]
      | cons y ys => rw [allSame, hx, andThen_eq_true, ih hxs, List.forall₂_cons, Equal]

theorem sameEntries_iff {t : Table Value} (h : ∀ e ∈ t, ∀ w, same e.key w = some (e.key.equal w) ∧
    same e.value w = some (e.value.equal w)) (u : Table Value) :
    sameEntries same u t = some true ↔ Under Equal t u := by
  induction t with
  | nil => simp [sameEntries, Under]
  | cons e t ih =>
      obtain ⟨he, ht⟩ := List.forall_mem_cons.mp h
      rw [sameEntries, Under, List.forall_mem_cons, ← Under, ← ih ht]
      cases u.find? e.id with
      | none => simp
      | some f =>
          simp only [(he f.key).1, (he f.value).2, andThen_eq_true, and_assoc, Option.some.injEq,
            exists_eq_left', Equal]

theorem sameParts_iff (h : ∀ x ∈ v.parts, ∀ y, same x y = some (x.equal y)) (w : Value) :
    sameParts same v w = some true ↔ Congruent Equal v w := by
  have hentries {s : Stamp} {t : Table Value} (hv : v = .hash s t) (e : Entry Value) (he : e ∈ t)
      (w : Value) : same e.key w = some (e.key.equal w) ∧ same e.value w = some (e.value.equal w) := by
    subst hv
    exact ⟨h _ (mem_parts_hash he s).1 w, h _ (mem_parts_hash he s).2 w⟩
  constructor
  · intro hsame
    unfold sameParts at hsame
    split at hsame
    case h_1 => exact .null
    case h_2 =>
      obtain rfl : _ = _ := by simpa using hsame
      exact .boolean _
    case h_3 =>
      obtain rfl : _ = _ := by simpa using hsame
      exact .integer _
    case h_4 => exact .double (Option.some.inj hsame)
    case h_5 =>
      obtain rfl : _ = _ := by simpa using hsame
      exact .string _
    case h_6 =>
      split at hsame
      · rename_i hst
        subst hst
        exact .oneArray _
      · rw [sameList, ite_eq_iff] at hsame
        rcases hsame with ⟨-, hsame⟩ | ⟨-, hsame⟩
        · exact .array ((allSame_iff h _).mp hsame)
        · cases hsame
    case h_7 =>
      split at hsame
      · rename_i hst
        subst hst
        exact .oneHash _
      · rw [ite_eq_iff] at hsame
        rcases hsame with ⟨hlen, hsame⟩ | ⟨-, hsame⟩
        · exact .hash hlen ((sameEntries_iff (hentries rfl) _).mp hsame)
        · cases hsame
    case h_8 =>
      obtain ⟨rfl, rfl⟩ : _ = _ ∧ _ = _ := by simpa using hsame
      exact .range _ _
    case h_9 =>
      obtain rfl : _ = _ := by simpa using hsame
      exact .function _
    case h_10 =>
      obtain rfl : _ = _ := by simpa using hsame
      exact .builtin _
    case h_11 =>
      rw [h _ (List.mem_singleton_self _)] at hsame
      exact .returned (Option.some.inj hsame)
    case h_12 => exact .error (by simpa using hsame)
    case h_13 => cases hsame
  · intro hcong
    cases hcong with
    | @array s t xs ys hxs =>
        have hall : allSame same xs ys = some true := (allSame_iff h ys).mpr hxs
        simp only [sameParts, sameList, hxs.length_eq, if_true, hall, ite_self]
    | hash hlen ht =>
        simp only [sameParts, hlen, if_true, (sameEntries_iff (hentries rfl) _).mpr ht, ite_self]
    | returned hvw => exact (h _ (List.mem_singleton_self _) _).trans (congrArg some hvw)
    | double hxy => exact congrArg some hxy
    | error hfg => simp [sameParts, hfg]
    | _ => simp [sameParts]

theorem equal_iff : v.equal w = true ↔ Congruent Equal v w := by
  obtain ⟨d, hd⟩ := Nat.exists_eq_succ_of_ne_zero (Nat.ne_of_gt v.levels_pos)
  have hparts (x : Value) (hx : x ∈ v.parts) (y : Value) : same? d x y = some (x.equal y) :=
    same?_of_le (levels_part (Nat.le_of_eq hd) hx) y
  have hequal := same?_levels v w
  rw [hd] at hequal
  rw [← sameParts_iff hparts w, ← Option.some.injEq, ← hequal]
  rfl

end Congruent

end Value

end Marmoset
