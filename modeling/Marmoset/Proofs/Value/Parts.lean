import Marmoset.Proofs.Value.Lawful

namespace Marmoset

theorem Table.mem_insert {α : Type} {t : Table α} {e x : Entry α} (h : x ∈ t.insert e) :
    x = e ∨ x ∈ t := by
  induction t with
  | nil => exact .inl (List.mem_singleton.mp h)
  | cons y t ih =>
      rw [Table.insert] at h
      split at h
      · exact (List.mem_cons.mp h).imp_right (List.mem_cons_of_mem y)
      · rcases List.mem_cons.mp h with rfl | h
        · exact .inr List.mem_cons_self
        · exact (ih h).imp_right (List.mem_cons_of_mem y)

theorem Table.mem_union {α : Type} {t u : Table α} {x : Entry α} (h : x ∈ t.union u) :
    x ∈ t ∨ x ∈ u := by
  induction u generalizing t with
  | nil => exact .inl h
  | cons e u ih =>
      rcases ih h with h | h
      · rcases Table.mem_insert h with rfl | h
        · exact .inr List.mem_cons_self
        · exact .inl h
      · exact .inr (List.mem_cons_of_mem e h)

namespace Value

def parts : Value → List Value
  | .array _ vs => vs
  | .hash _ t => t.flatMap fun e => [e.key, e.value]
  | .returned v => [v]
  | _ => []

inductive Every (p : Value → Prop) : Value → Prop where
  | mk {v : Value} : p v → (∀ w ∈ v.parts, Every p w) → Every p v

variable {p : Value → Prop}

theorem every_iff {v : Value} : Every p v ↔ p v ∧ ∀ w ∈ v.parts, Every p w :=
  ⟨fun ⟨h, hs⟩ => ⟨h, hs⟩, fun ⟨h, hs⟩ => ⟨h, hs⟩⟩

theorem every_atom {v : Value} (hv : v.parts = []) : Every p v ↔ p v := by
  rw [every_iff, hv]
  simp

theorem every_array {stamp : Stamp} {vs : List Value} :
    Every p (.array stamp vs) ↔ p (.array stamp vs) ∧ ∀ v ∈ vs, Every p v :=
  every_iff

theorem every_hash {stamp : Stamp} {t : Table Value} :
    Every p (.hash stamp t) ↔ p (.hash stamp t) ∧ ∀ e ∈ t, Every p e.key ∧ Every p e.value := by
  rw [every_iff]
  refine and_congr_right fun _ => ⟨fun h e he => ⟨h _ ?_, h _ ?_⟩, fun h w hw => ?_⟩
  · exact List.mem_flatMap.mpr ⟨e, he, by simp⟩
  · exact List.mem_flatMap.mpr ⟨e, he, by simp⟩
  · obtain ⟨e, he, hw⟩ := List.mem_flatMap.mp hw
    simp only [List.mem_cons, List.not_mem_nil, or_false] at hw
    rcases hw with rfl | rfl
    · exact (h e he).1
    · exact (h e he).2

theorem every_returned {v : Value} : Every p (.returned v) ↔ p (.returned v) ∧ Every p v := by
  rw [every_iff]
  simp [parts]

theorem Every.mono {q : Value → Prop} (hpq : ∀ v, p v → q v) {v : Value} (h : Every p v) :
    Every q v := by
  induction h with
  | mk hv _ ih => exact ⟨hpq _ hv, ih⟩

inductive Inside (v : Value) : Value → Prop where
  | self : Inside v v
  | part {u w : Value} : Inside v u → u ∈ w.parts → Inside v w

theorem Every.part {v w : Value} (h : Every p v) (hw : w ∈ v.parts) : Every p w :=
  (every_iff.mp h).2 w hw

theorem Every.every_inside {v w : Value} (h : Every p w) (hv : v.Inside w) : Every p v := by
  induction hv with
  | self => exact h
  | part _ hu ih => exact ih (h.part hu)

theorem Every.of_inside {q : Value → Prop} {v : Value} (h : Every p v)
    (hpq : ∀ w : Value, w.Inside v → p w → q w) : Every q v := by
  induction h with
  | mk hv _ ih =>
      refine ⟨hpq _ .self hv, fun u hu => ih u hu fun w hw => ?_⟩
      exact hpq w (.part hw hu)

/-- What is asked of the values in a value: of the bodies of functions, of numbers and of builtin
functions, and whether there may be returns and errors. -/
structure Demand where
  body : Node → Prop := fun _ => True
  number : Int → Prop := fun _ => True
  builtin : Builtin → Prop := fun _ => True
  returned : Prop := True
  error : Prop := True

def Meets (c : Demand) : Value → Prop
  | .function _ _ b _ => Node.Every c.body (.block b)
  | .integer n => c.number n
  | .range a b => c.number a ∧ c.number b
  | .builtin f => c.builtin f
  | .returned _ => c.returned
  | .error _ => c.error
  | _ => True

def All (c : Demand) : Value → Prop := Every (Meets c)

def EachEntry (K : Value → Prop) (t : Table Value) : Prop := ∀ e ∈ t, K e.key ∧ K e.value

theorem lawful_all {c : Demand} (hnumber : ∀ n, Number.InWord n → c.number n) :
    Lawful c.body (EachEntry (All c)) (All c) where
  null := (every_atom rfl).mpr trivial
  boolean _ := (every_atom rfl).mpr trivial
  string _ := (every_atom rfl).mpr trivial
  double _ _ := (every_atom rfl).mpr trivial
  word hn := (every_atom rfl).mpr (hnumber _ hn)
  range ha hb := (every_atom rfl).mpr ⟨(every_atom rfl).mp ha, (every_atom rfl).mp hb⟩
  array := every_array.trans (and_iff_right trivial)
  hash := every_hash.trans (and_iff_right trivial)
  function := every_atom rfl
  payload hv := (every_returned.mp hv).2
  nil := fun e he => by cases he
  insert ht hk _ hv := fun e he => by
    rcases Table.mem_insert he with rfl | he
    · exact ⟨hk, hv⟩
    · exact ht e he
  union ht hu := fun e he => (Table.mem_union he).elim (ht e) (hu e)
  minus ht := fun e he => ht e (List.mem_filter.mp he).1
  entry ht he := (ht _ he).2

theorem stable_every {U : Table Value → Prop}
    (hplain : ∀ v : Value, v.kind ≠ .hash → v.kind ≠ .function → p v)
    (hhash : ∀ {stamp : Stamp} {t : Table Value}, p (.hash stamp t) ↔ U t) (hnil : U [])
    (hinsert : ∀ {t : Table Value} {id : Key} {k v : Value}, U t → k.key? = some id →
      U (t.insert ⟨id, k, v⟩))
    (hunion : ∀ {t u : Table Value}, U t → U u → U (t.union u))
    (hminus : ∀ {t u : Table Value}, U t → U (t.minus u)) :
    Stable (fun t => U t ∧ EachEntry (Every p) t) (Every p) where
  null := (every_atom rfl).mpr (hplain _ (by simp [kind]) (by simp [kind]))
  boolean _ := (every_atom rfl).mpr (hplain _ (by simp [kind]) (by simp [kind]))
  string _ := (every_atom rfl).mpr (hplain _ (by simp [kind]) (by simp [kind]))
  double _ _ := (every_atom rfl).mpr (hplain _ (by simp [kind]) (by simp [kind]))
  word _ := (every_atom rfl).mpr (hplain _ (by simp [kind]) (by simp [kind]))
  range _ _ := (every_atom rfl).mpr (hplain _ (by simp [kind]) (by simp [kind]))
  array := every_array.trans (and_iff_right (hplain _ (by simp [kind]) (by simp [kind])))
  hash := every_hash.trans (and_congr_left' hhash)
  payload hv := (every_returned.mp hv).2
  nil := ⟨hnil, fun e he => by cases he⟩
  insert ht hk hid hv := by
    refine ⟨hinsert ht.1 hid, fun e he => ?_⟩
    rcases Table.mem_insert he with rfl | he
    · exact ⟨hk, hv⟩
    · exact ht.2 e he
  union ht hu := ⟨hunion ht.1 hu.1, fun e he => (Table.mem_union he).elim (ht.2 e) (hu.2 e)⟩
  minus ht := ⟨hminus ht.1, fun e he => ht.2 e (List.mem_filter.mp he).1⟩
  entry ht he := (ht.2 _ he).2

end Value

end Marmoset
