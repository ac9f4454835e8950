import Marmoset.Proofs.Tree.Shape
import Marmoset.Value.Builtin
import Marmoset.Value.Operation

/-!
Properties of values that the operations keep. What may be put into an array, a table or a scope has
`K`, and tables have `T`. An operation makes a value with `K`, or an error. Where functions are run too,
their bodies have `Q` at every node.
-/

namespace Marmoset.Value

open Number

structure Stable (T : Table Value → Prop) (K : Value → Prop) : Prop where
  null : K .null
  boolean (b : Bool) : K (.boolean b)
  string (s : String) : K (.string s)
  double (stamp : Stamp) (x : Float) : K (.double stamp x)
  word {n : Int} : InWord n → K (.integer n)
  range {a b : Int} : K (.integer a) → K (.integer b) → K (.range a b)
  array {stamp : Stamp} {vs : List Value} : K (.array stamp vs) ↔ ∀ v ∈ vs, K v
  hash {stamp : Stamp} {t : Table Value} : K (.hash stamp t) ↔ T t
  payload {v : Value} : K (.returned v) → K v
  nil : T []
  insert {t : Table Value} {id : Key} {k v : Value} :
    T t → K k → k.key? = some id → K v → T (t.insert ⟨id, k, v⟩)
  union {t u : Table Value} : T t → T u → T (t.union u)
  minus {t u : Table Value} : T t → T (t.minus u)
  entry {t : Table Value} {e : Entry Value} : T t → e ∈ t → K e.value

structure Lawful (Q : Node → Prop) (T : Table Value → Prop) (K : Value → Prop) : Prop
    extends Stable T K where
  function {stamp : Stamp} {ps : List Ident} {b : Block} {scope : ScopeId} :
    K (.function stamp ps b scope) ↔ Node.Every Q (.block b)

/-- What operations may need to make values with `K'` of values with `K` and tables with `T`. Arrays and
hashes that they make have the given stamp. -/
structure Makes (stamp : Stamp) (T : Table Value → Prop) (K K' : Value → Prop) : Prop where
  null : K' .null
  boolean (b : Bool) : K' (.boolean b)
  string (s : String) : K' (.string s)
  double (m : Stamp) (x : Float) : K' (.double m x)
  word {n : Int} : InWord n → K' (.integer n)
  array {vs : List Value} : (∀ v ∈ vs, K v) → K' (.array stamp vs)
  hash {t : Table Value} : T t → K' (.hash stamp t)
  kept {v : Value} : K v → K' v
  element {m : Stamp} {vs : List Value} : K (.array m vs) → ∀ v ∈ vs, K v
  table {m : Stamp} {t : Table Value} : K (.hash m t) → T t
  union {t u : Table Value} : T t → T u → T (t.union u)
  minus {t u : Table Value} : T t → T (t.minus u)
  entry {t : Table Value} {e : Entry Value} : T t → e ∈ t → K e.value

theorem Stable.makes {T : Table Value → Prop} {K : Value → Prop} (h : Stable T K) (stamp : Stamp) :
    Makes stamp T K K where
  null := h.null
  boolean := h.boolean
  string := h.string
  double := h.double
  word := h.word
  array := h.array.mpr
  hash := h.hash.mpr
  kept hv := hv
  element := h.array.mp
  table := h.hash.mp
  union := h.union
  minus := h.minus
  entry := h.entry

def size? : Value → Option Nat
  | .array _ vs => some vs.length
  | .string s => some s.length
  | _ => none

section Made

variable {K : Value → Prop} {v : Value}

def Made (K : Value → Prop) (v : Value) : Prop := K v ∨ ∃ f, v = .error f

def Passed (K : Value → Prop) (v : Value) : Prop := Made K v ∨ ∃ w, v = .returned w ∧ K w

theorem made_error (f : Failure) : Made K (.error f) := .inr ⟨f, rfl⟩

theorem Passed.returned (h : K v) : Passed K (.returned v) := .inr ⟨v, rfl, h⟩

theorem Passed.kept (h : Passed K v) (hv : v.leaves = false) : K v := by
  rcases h with (h | ⟨f, rfl⟩) | ⟨w, rfl, -⟩
  · exact h
  · cases hv
  · cases hv

theorem Passed.made (h : Passed K v) (hv : v.isError = true) : Made K v := by
  rcases h with h | ⟨w, rfl, -⟩
  · exact h
  · cases hv

end Made

theorem without?_subset {depth : Nat} {x : Value} {ys zs : List Value}
    (h : without? depth x ys = some zs) : zs ⊆ ys := by
  induction ys generalizing zs with
  | nil =>
      simp only [without?, Option.some.injEq] at h
      simp [← h]
  | cons y ys ih =>
      simp only [without?] at h
      split at h
      · cases h
      · obtain rfl := Option.some.inj h
        exact List.subset_cons_self y _
      · obtain ⟨rest, hrest, rfl⟩ := Option.map_eq_some_iff.mp h
        exact List.cons_subset_cons y (ih hrest)

theorem difference?_subset {depth : Nat} {xs ys zs : List Value}
    (h : difference? depth xs ys = some zs) : zs ⊆ xs := by
  induction ys generalizing xs with
  | nil =>
      obtain rfl : xs = zs := Option.some.inj h
      exact List.Subset.refl xs
  | cons y ys ih =>
      obtain ⟨rest, hrest, hzs⟩ := Option.bind_eq_some_iff.mp h
      exact List.Subset.trans (ih hzs) (without?_subset hrest)

theorem elementAt?_mem {xs : List Value} {i : Int} {x : Value} (h : elementAt? xs i = some x) :
    x ∈ xs := by
  simp only [elementAt?, Option.ite_none_right_eq_some] at h
  exact List.mem_of_getElem? h.2

theorem slice?_subset {xs ys : List Value} {lo hi : Int} (h : slice? xs lo hi = some ys) :
    ys ⊆ xs := by
  simp only [slice?, Option.ite_none_right_eq_some, Option.some.injEq] at h
  rw [← h.2]
  exact ((List.take_sublist _ _).trans (List.drop_sublist _ _)).subset

theorem leaves_of_key {k : Value} {id : Key} (h : k.key? = some id) : k.leaves = false := by
  cases k with
  | error f => cases h
  | returned v => cases h
  | _ => rfl

section Operations

variable {stamp : Stamp} {T : Table Value → Prop} {K K' : Value → Prop} {a b v : Value} {op : BinaryOp}
  {depth : Nat}

theorem made_invalid : Made K (Value.invalid a op b) := by
  unfold Value.invalid
  split <;> exact made_error _

section Makes

variable (h : Makes stamp T K K')

include h

theorem Makes.unary {op : UnaryOp} : Made K' (Value.unary stamp op v) := by
  unfold Value.unary
  split
  · exact .inl (h.boolean _)
  · exact .inl (h.word (wrap_inWord _))
  · exact .inl (h.double _ _)
  · exact made_error _

theorem Makes.integers {m n : Int} : Made K' (Value.integers op m n) := by
  unfold Value.integers
  split
  case h_4 | h_5 =>
    split
    · exact .inl (h.word (wrap_inWord _))
    · exact made_error _
  case h_6 =>
    split
    · exact .inl (h.boolean _)
    · exact made_error _
  all_goals exact .inl (h.word (wrap_inWord _))

theorem Makes.doubles {x y : Float} : Made K' (Value.doubles stamp op x y a b) := by
  unfold Value.doubles
  split
  case h_4 =>
    split
    · exact made_error _
    · exact .inl (h.double _ _)
  case h_5 =>
    split
    · exact made_error _
    · split <;> exact .inl (h.double _ _)
  case h_6 =>
    split
    · exact .inl (h.boolean _)
    · exact made_invalid
  all_goals exact .inl (h.double _ _)

theorem Makes.strings {x y : String} : Made K' (Value.strings op x y) := by
  unfold Value.strings
  split
  · exact .inl (h.string _)
  · split
    · exact .inl (h.boolean _)
    · exact made_error _

theorem Makes.repeated {x : String} {n : Int} : Made K' (Value.repeated x n) := by
  unfold Value.repeated
  split
  · exact made_error _
  · split <;> exact .inl (h.string _)

theorem Makes.compared (hv : Value.compared depth op a b = some v) : Made K' v := by
  unfold Value.compared at hv
  split at hv
  · obtain ⟨_, -, rfl⟩ := Option.map_eq_some_iff.mp hv
    exact .inl (h.boolean _)
  · obtain ⟨_, -, rfl⟩ := Option.map_eq_some_iff.mp hv
    exact .inl (h.boolean _)
  · obtain rfl := Option.some.inj hv
    exact made_invalid

theorem Makes.arrays {xs ys : List Value} (hxs : ∀ x ∈ xs, K x) (hys : ∀ y ∈ ys, K y)
    (hv : Value.arrays depth stamp op xs ys a b = some v) : Made K' v := by
  unfold Value.arrays at hv
  split at hv
  · obtain rfl := Option.some.inj hv
    exact .inl (h.array fun x hx => (List.mem_append.mp hx).elim (hxs x) (hys x))
  · obtain ⟨zs, hzs, rfl⟩ := Option.map_eq_some_iff.mp hv
    exact .inl (h.array fun z hz => hxs z (difference?_subset hzs hz))
  · exact h.compared hv

theorem Makes.hashes {t u : Table Value} (ht : T t) (hu : T u)
    (hv : Value.hashes depth stamp op t u a b = some v) : Made K' v := by
  unfold Value.hashes at hv
  split at hv
  · obtain rfl := Option.some.inj hv
    exact .inl (h.hash (h.union ht hu))
  · obtain rfl := Option.some.inj hv
    exact .inl (h.hash (h.minus ht))
  · exact h.compared hv

theorem Makes.binary (ha : Passed K a) (hb : Passed K b)
    (hv : Value.binary depth stamp op a b = some v) : Made K' v := by
  unfold Value.binary at hv
  split at hv
  case h_1 =>
    obtain rfl := Option.some.inj hv
    exact h.integers
  case h_5 =>
    split at hv
    · obtain rfl := Option.some.inj hv
      exact .inl (h.string _)
    · obtain rfl := Option.some.inj hv
      exact h.repeated
    · exact h.compared hv
  case h_6 =>
    obtain rfl := Option.some.inj hv
    exact h.strings
  case h_7 => exact h.arrays (h.element (ha.kept rfl)) (h.element (hb.kept rfl)) hv
  case h_8 => exact h.hashes (h.table (ha.kept rfl)) (h.table (hb.kept rfl)) hv
  case h_9 => exact h.compared hv
  all_goals
    obtain rfl := Option.some.inj hv
    exact h.doubles

theorem Makes.getD {o : Option Value} (ho : ∀ w ∈ o, K' w) : Made K' (o.getD .null) := by
  cases o with
  | none => exact .inl h.null
  | some w => exact .inl (ho w rfl)

theorem Makes.index (ha : Passed K a) : Made K' (Value.index stamp a b) := by
  unfold Value.index
  split
  · exact h.getD fun w hw => h.kept (h.element (ha.kept rfl) w (elementAt?_mem hw))
  · refine h.getD fun w hw => ?_
    obtain ⟨ys, hys, rfl⟩ := Option.map_eq_some_iff.mp hw
    exact h.array fun y hy => h.element (ha.kept rfl) y (slice?_subset hys hy)
  · split
    · exact made_error _
    · refine h.getD fun w hw => ?_
      obtain ⟨e, he, rfl⟩ := Option.map_eq_some_iff.mp hw
      exact h.kept (h.entry (h.table (ha.kept rfl)) (List.mem_of_find?_eq_some he))
  · exact made_error _

theorem Makes.builtin {f : Builtin} {args : List Value} (hargs : ∀ w ∈ args, K w)
    (hlen : f = .len → ∀ v n, args = [v] → v.size? = some n → K' (.integer n)) :
    Made K' (f.value stamp args) := by
  have elements {s : Stamp} {xs : List Value} (hxs : .array s xs ∈ args) : ∀ x ∈ xs, K x :=
    h.element (hargs _ hxs)
  unfold Builtin.value
  split
  case h_1 => exact .inl h.null
  -- the length of a collection is the one number that is not wrapped
  case h_2 | h_3 => exact .inl (hlen rfl _ _ rfl rfl)
  case h_5 => exact h.getD fun w hw => h.kept (elements List.mem_cons_self w (List.mem_of_head? hw))
  case h_7 => exact h.getD fun w hw => h.kept (elements List.mem_cons_self w (List.mem_of_getLast? hw))
  case h_6 | h_8 =>
    refine h.getD fun w hw => ?_
    obtain ⟨c, -, rfl⟩ := Option.map_eq_some_iff.mp hw
    exact h.string _
  case h_9 =>
    exact .inl (h.array fun x hx => elements List.mem_cons_self x (List.mem_cons_of_mem _ hx))
  case h_10 => exact .inl h.null
  case h_11 =>
    refine .inl (h.array fun x hx => ?_)
    rcases List.mem_append.mp hx with hx | hx
    · exact elements List.mem_cons_self x hx
    · obtain rfl := List.mem_singleton.mp hx
      exact hargs _ (by simp)
  all_goals exact made_error _

end Makes

variable (h : Stable T K)

include h

theorem Stable.settle (hv : Passed K v) : Made K v.settle := by
  rcases hv with (hv | ⟨f, rfl⟩) | ⟨w, rfl, hw⟩
  · cases v with
    | returned w => exact .inl (h.payload hv)
    | _ => exact .inl hv
  · exact made_error f
  · exact .inl hw

theorem Stable.unary {op : UnaryOp} : Made K (Value.unary stamp op v) :=
  (h.makes stamp).unary

theorem Stable.binary (ha : Passed K a) (hb : Passed K b)
    (hv : Value.binary depth stamp op a b = some v) : Made K v :=
  (h.makes stamp).binary ha hb hv

theorem Stable.rangeOf (ha : Passed K a) (hb : Passed K b) : Made K (Value.rangeOf a b) := by
  unfold Value.rangeOf
  split
  · exact .inl (h.range (ha.kept rfl) (hb.kept rfl))
  · exact made_invalid

theorem Stable.index (ha : Passed K a) : Made K (Value.index stamp a b) :=
  (h.makes stamp).index ha

theorem Stable.builtin {f : Builtin} {args : List Value} (hargs : ∀ w ∈ args, K w)
    (hlen : f = .len → ∀ v n, args = [v] → v.size? = some n → K (.integer n)) :
    Made K (f.value stamp args) :=
  (h.makes stamp).builtin hargs hlen

end Operations

end Marmoset.Value
