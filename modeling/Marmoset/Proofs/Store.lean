import Mathlib.Order.Monotone.Basic
import Marmoset.Proofs.Value.Relabel
import Marmoset.Store

namespace Marmoset

section Scope

def Scope.relabel (r : Relabeling) (sc : Scope) : Scope :=
  ⟨sc.bindings.map fun b => (b.1, b.2.relabel r), sc.outer.map r.scope⟩

theorem Scope.put_relabel (r : Relabeling) (bs : List (String × Value)) (name : String) (v : Value) :
    (Scope.put bs name v).map (fun b => (b.1, b.2.relabel r)) =
      Scope.put (bs.map fun b => (b.1, b.2.relabel r)) name (v.relabel r) := by
  induction bs with
  | nil => rfl
  | cons b bs ih =>
      by_cases hb : b.1 = name
      · simp [Scope.put, hb]
      · simp [Scope.put, hb, ih]

theorem Scope.bind_relabel (r : Relabeling) (sc : Scope) (name : String) (v : Value) :
    (sc.bind name v).relabel r = (sc.relabel r).bind name (v.relabel r) := by
  simp only [Scope.relabel, Scope.bind, Scope.put_relabel]

theorem Scope.find?_relabel (r : Relabeling) (sc : Scope) (name : String) :
    (sc.relabel r).find? name = (sc.find? name).map (Value.relabel r) := by
  obtain ⟨bs, outer⟩ := sc
  change (bs.map fun b => (b.1, b.2.relabel r)).lookup name = (bs.lookup name).map (Value.relabel r)
  induction bs with
  | nil => rfl
  | cons b bs ih =>
      rw [List.map_cons, Scope.lookup_cons, Scope.lookup_cons b.1, ih]
      split <;> rfl

end Scope

section Lookup

/-- Each step outwards leads to an older scope, so that more steps than `i` make no difference. -/
theorem Store.findWithin_eq (st : Store) (name : String) {i : ScopeId} {m n : Nat} (hm : i < m)
    (hn : i < n) : st.findWithin name m i = st.findWithin name n i := by
  induction m generalizing n i with
  | zero => cases hm
  | succ m ih =>
      cases n with
      | zero => cases hn
      | succ n =>
          have houter (j : ScopeId) : (if j < i then st.findWithin name m j else none) =
              if j < i then st.findWithin name n j else none := by
            split
            · exact ih (Nat.lt_of_lt_of_le ‹_› (Nat.le_of_lt_succ hm))
                (Nat.lt_of_lt_of_le ‹_› (Nat.le_of_lt_succ hn))
            · rfl
          simp only [Store.findWithin, houter]

theorem Store.find?_eq (st : Store) (i : ScopeId) (name : String) :
    st.find? i name = st.scopes[i]?.bind fun sc => (sc.find? name).or
      (sc.outer.bind fun j => if j < i then st.find? j name else none) := by
  have houter (j : ScopeId) : (if j < i then st.findWithin name i j else none) =
      if j < i then st.find? j name else none := by
    split
    · exact st.findWithin_eq name ‹_› (Nat.lt_succ_self j)
    · rfl
  simp only [Store.find?, Store.findWithin] at houter ⊢
  cases st.scopes[i]? with
  | none => rfl
  | some sc =>
      simp only [houter, Option.bind_some]
      cases sc.find? name <;> rfl

end Lookup

section Like

def Store.Like (r : Relabeling) (st st' : Store) : Prop :=
  ∀ i : ScopeId, st'.scopes[r.scope i]? = st.scopes[i]?.map (Scope.relabel r)

variable {r : Relabeling} {st st' : Store}

theorem Store.Like.find? (h : st.Like r st') (hr : StrictMono r.scope) (i : ScopeId) (name : String) :
    st'.find? (r.scope i) name = (st.find? i name).map (Value.relabel r) := by
  induction i using Nat.strongRecOn with
  | _ i ih =>
      rw [Store.find?_eq, Store.find?_eq, h i]
      cases st.scopes[i]? with
      | none => rfl
      | some sc =>
          simp only [Option.map_some, Option.bind_some, Scope.find?_relabel, Option.map_or]
          congr 1
          obtain ⟨bs, outer⟩ := sc
          cases outer with
          | none => rfl
          | some j =>
              simp only [Scope.relabel, Option.map_some, Option.bind_some, hr.lt_iff_lt]
              split
              · exact ih j ‹_›
              · rfl

theorem Store.Like.bind (h : st.Like r st') (hr : StrictMono r.scope) (i : ScopeId) (name : String)
    (v : Value) : (st.bind i name v).Like r (st'.bind (r.scope i) name (v.relabel r)) := by
  intro j
  simp only [Store.bind, Array.getElem?_modify, hr.injective.eq_iff, h j]
  split
  · cases st.scopes[j]? with
    | none => rfl
    | some sc => exact congrArg some (Scope.bind_relabel r sc name v).symm
  · rfl

theorem Store.Like.push (h : st.Like r st') (hr : StrictMono r.scope)
    (hsize : st'.scopes.size = r.scope st.scopes.size) (outer : Option ScopeId) :
    (st.push outer).2.Like r (st'.push (outer.map r.scope)).2 := by
  intro j
  simp only [Store.push, Array.getElem?_push, hsize, hr.injective.eq_iff, h j]
  split <;> rfl

end Like

end Marmoset
