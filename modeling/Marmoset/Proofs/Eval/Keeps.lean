import Marmoset.Eval
import Marmoset.Proofs.Outcome
import Marmoset.Proofs.Tree.Shape

namespace Marmoset

section Holds

def Store.Holds (K : Value → Prop) (st : Store) : Prop :=
  ∀ sc ∈ st.scopes, ∀ b ∈ sc.bindings, K b.2

variable {K : Value → Prop} {st : Store}

theorem Store.Holds.mono {K' : Value → Prop} (h : st.Holds K) (hK : ∀ v, K v → K' v) :
    st.Holds K' :=
  fun sc hsc b hb => hK _ (h sc hsc b hb)

theorem Scope.put_cases {bs : List (String × Value)} {name : String} {v : Value} {b : String × Value}
    (hb : b ∈ Scope.put bs name v) : b = (name, v) ∨ b ∈ bs := by
  induction bs with
  | nil => exact .inl (List.mem_singleton.mp hb)
  | cons c bs ih =>
      obtain ⟨x, w⟩ := c
      rw [Scope.put] at hb
      split at hb
      · rcases List.mem_cons.mp hb with hb | hb
        · exact .inl hb
        · exact .inr (List.mem_cons_of_mem _ hb)
      · rcases List.mem_cons.mp hb with hb | hb
        · exact .inr (hb ▸ List.mem_cons_self)
        · exact (ih hb).imp_right (List.mem_cons_of_mem _)

theorem Store.Holds.bind {v : Value} (h : st.Holds K) (hv : K v) (i : ScopeId) (name : String) :
    (st.bind i name v).Holds K := by
  intro sc hsc b hb
  obtain ⟨j, hj, rfl⟩ := Array.mem_iff_getElem.mp hsc
  have hj' : j < st.scopes.size := by simpa [Store.bind] using hj
  have hold := h st.scopes[j] (Array.getElem_mem hj')
  simp only [Store.bind, Array.getElem_modify] at hb
  split at hb
  · rcases Scope.put_cases hb with rfl | hb
    · exact hv
    · exact hold b hb
  · exact hold b hb

theorem Store.Holds.push (h : st.Holds K) (outer : Option ScopeId) : (st.push outer).2.Holds K := by
  intro sc hsc b hb
  rcases Array.mem_push.mp hsc with hsc | rfl
  · exact h sc hsc b hb
  · cases hb

theorem Store.Holds.find? {i : ScopeId} {name : String} {v : Value} (h : st.Holds K)
    (hv : st.find? i name = some v) : K v := by
  have within (n : Nat) (j : ScopeId) (hj : st.findWithin name n j = some v) : K v := by
    induction n generalizing j with
    | zero => cases hj
    | succ n ih =>
        simp only [Store.findWithin] at hj
        split at hj
        · cases hj
        · rename_i sc hsc
          split at hj
          · rename_i w hw
            obtain rfl := Option.some.inj hj
            obtain ⟨front, back, hb, -⟩ := List.lookup_eq_some_iff.mp hw
            exact h sc (Array.mem_of_getElem? hsc) (name, w) (hb ▸ by simp)
          · obtain ⟨k, -, hk⟩ := Option.bind_eq_some_iff.mp hj
            rw [Option.ite_none_right_eq_some] at hk
            exact ih k hk.2
  exact within _ _ hv

end Holds

def Halt.Arises (Q : Node → Prop) : Halt → Prop
  | .tooDeep | .endless => True
  | .unknownExpr name =>
      (name = "NoneType" ∧ Q (.expr .missing)) ∨ ∃ pos, Q (.expr (.foreign pos name))
  | .unknownStmt name => ∃ pos, Q (.stmt (.foreign pos name))

namespace Eval

variable {α β : Type} {Q : Node → Prop} {K : Value → Prop} {st : Store} {scope : ScopeId}

/-- A run keeps the invariant of the store and ends with a result in `R`, or with a halt that
programs with `Q` may come to. -/
def Keeps (Q : Node → Prop) (K : Value → Prop) (p : Eval α) (st : Store) (R : α → Prop) : Prop :=
  Ends p st (fun a st' => st'.Holds K ∧ R a) fun why st' => st'.Holds K ∧ why.Arises Q

section Keeps

variable {p : Eval α} {f : α → Eval β} {R : α → Prop} {R' : β → Prop}

theorem Keeps.bind (hp : Keeps Q K p st R)
    (hf : ∀ a st', p st = .ok a st' → st'.Holds K → R a → Keeps Q K (f a) st' R') :
    Keeps Q K (p >>= f) st R' :=
  Ends.bind hp fun a st' ha h => hf a st' ha h.1 h.2

theorem keeps_pure {a : α} (hst : st.Holds K) (ha : R a) : Keeps Q K (pure a) st R :=
  .pure ⟨hst, ha⟩

theorem keeps_throw {why : Halt} (hst : st.Holds K) (hw : why.Arises Q) :
    Keeps Q K (throw why : Eval α) st R :=
  .throw ⟨hst, hw⟩

theorem keeps_modify {g : Store → Store} (hst : (g st).Holds K) :
    Keeps Q K (modify g) st fun _ => True := by
  refine ⟨fun a st' h => ?_, fun e st' h => (by cases h)⟩
  cases h
  exact ⟨hst, trivial⟩

theorem keeps_fresh (hst : st.Holds K) : Keeps Q K fresh st fun _ => True := by
  refine ⟨fun a st' h => ?_, fun e st' h => (by cases h)⟩
  cases h
  exact ⟨hst, trivial⟩

theorem keeps_child (hst : st.Holds K) (outer : ScopeId) :
    Keeps Q K (child outer) st fun _ => True := by
  refine ⟨fun a st' h => ?_, fun e st' h => (by cases h)⟩
  cases h
  exact ⟨hst.push _, trivial⟩

theorem keeps_lookup (hst : st.Holds K) (name : String) :
    Keeps Q K (lookup scope name) st fun o => ∀ v ∈ o, K v := by
  refine ⟨fun a st' h => ?_, fun e st' h => (by cases h)⟩
  cases h
  exact ⟨hst, fun v hv => hst.find? hv⟩

theorem keeps_within {o : Option α} (hst : st.Holds K) (ho : ∀ a ∈ o, R a) :
    Keeps Q K (within o) st R := by
  cases o with
  | none => exact keeps_throw hst trivial
  | some a => exact keeps_pure hst (ho a rfl)

theorem keeps_printAll (hst : st.Holds K) (depth : Nat) (vs : List Value) :
    Keeps Q K (printAll depth vs) st fun _ => True := by
  induction vs generalizing st with
  | nil => exact keeps_pure hst trivial
  | cons v vs ih =>
      refine (keeps_within (R := fun _ => True) hst fun _ _ => trivial).bind fun text st' _ hst _ => ?_
      refine (keeps_modify hst).bind fun _ st' _ hst _ => ?_
      exact ih hst

theorem keeps_assignAll (hst : st.Holds K) (ps : List Ident) {vs : List Value} (hvs : ∀ v ∈ vs, K v) :
    Keeps Q K (assignAll scope ps vs) st fun _ => True := by
  induction ps generalizing st vs with
  | nil => exact keeps_pure hst trivial
  | cons p ps ih =>
      cases vs with
      | nil => exact keeps_pure hst trivial
      | cons v vs =>
          have hbind := hst.bind (hvs v List.mem_cons_self) scope p.name
          refine (keeps_modify hbind).bind fun _ st' _ hst _ => ?_
          exact ih hst fun w hw => hvs w (List.mem_cons_of_mem v hw)

end Keeps

end Eval

end Marmoset
