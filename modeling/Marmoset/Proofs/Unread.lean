import Marmoset.Proofs.Eval.Agree
import Marmoset.Proofs.Store

namespace Marmoset

variable {x : String}

section Except

structure Setting.Except (x : String) (s s' : Setting) : Prop where
  depth : s'.depth = s.depth
  rounds : s'.rounds = s.rounds
  registry {y : String} : y ≠ x → s'.registry.lookup y = s.registry.lookup y

structure Scope.Except (x : String) (sc sc' : Scope) : Prop where
  outer : sc'.outer = sc.outer
  names {y : String} : y ≠ x → sc'.find? y = sc.find? y

structure Store.Except (x : String) (st st' : Store) : Prop where
  size : st'.scopes.size = st.scopes.size
  printed : st'.printed = st.printed
  stamp : st'.stamp = st.stamp
  scopes (i : ScopeId) : Option.Rel (Scope.Except x) st.scopes[i]? st'.scopes[i]?

variable {st st' : Store}

theorem Scope.Except.bind {sc sc' : Scope} (h : sc.Except x sc') (y : String) (v : Value) :
    (sc.bind y v).Except x (sc'.bind y v) where
  outer := h.outer
  names hz := by rw [Scope.find?_bind, Scope.find?_bind, h.names hz]

theorem Store.Except.bind (h : st.Except x st') (i : ScopeId) (y : String) (v : Value) :
    (st.bind i y v).Except x (st'.bind i y v) where
  size := by simpa [Store.bind] using h.size
  printed := h.printed
  stamp := h.stamp
  scopes j := by
    have hscope := h.scopes j
    simp only [Store.bind, Array.getElem?_modify]
    generalize st.scopes[j]? = o at hscope
    generalize st'.scopes[j]? = o' at hscope
    cases hscope with
    | none => split <;> exact .none
    | some hsc =>
        split
        · exact .some (hsc.bind y v)
        · exact .some hsc

theorem Store.Except.push (h : st.Except x st') (outer : Option ScopeId) :
    (st.push outer).2.Except x (st'.push outer).2 where
  size := by simpa [Store.push] using h.size
  printed := h.printed
  stamp := h.stamp
  scopes j := by
    simp only [Store.push, Array.getElem?_push, h.size]
    split
    · exact .some ⟨rfl, fun _ => rfl⟩
    · exact h.scopes j

theorem Store.Except.find? (h : st.Except x st') {y : String} (hy : y ≠ x) (i : ScopeId) :
    st'.find? i y = st.find? i y := by
  induction i using Nat.strongRecOn with
  | _ i ih =>
      have hscope := h.scopes i
      rw [Store.find?_eq, Store.find?_eq]
      generalize st.scopes[i]? = o at hscope
      generalize st'.scopes[i]? = o' at hscope
      cases hscope with
      | none => rfl
      | @some sc sc' hsc =>
          simp only [Option.bind_some, hsc.names hy, hsc.outer]
          congr 1
          cases sc.outer with
          | none => rfl
          | some j =>
              simp only [Option.bind_some]
              split
              · exact ih j ‹_›
              · rfl

theorem Store.except_bind (st : Store) (i : ScopeId) (x : String) (v : Value) :
    st.Except x (st.bind i x v) where
  size := by simp [Store.bind]
  printed := rfl
  stamp := rfl
  scopes j := by
    simp only [Store.bind, Array.getElem?_modify]
    cases st.scopes[j]? with
    | none => split <;> exact .none
    | some sc =>
        split
        · exact .some ⟨rfl, fun hy => by rw [Scope.find?_bind, if_neg hy]⟩
        · exact .some ⟨rfl, fun _ => rfl⟩

end Except

section Sight

def Node.Unread (x : String) : Node → Prop
  | .expr (.ident i) => i.name ≠ x
  | _ => True

/-- The scopes in sight of code in the scope `home` that does not read `x`: those outside of them, and
those of the functions that are in the values of other names. -/
inductive Store.Sees (st : Store) (x : String) (home : ScopeId) : ScopeId → Prop where
  | home : Sees st x home home
  | outer {i j : ScopeId} {sc : Scope} : Sees st x home i → st.scopes[i]? = some sc →
      sc.outer = some j → Sees st x home j
  | function {i j : ScopeId} {sc : Scope} {y : String} {v : Value} {stamp : Stamp} {ps : List Ident}
      {b : Block} : Sees st x home i → st.scopes[i]? = some sc → y ≠ x → sc.find? y = some v →
      (Value.function stamp ps b j).Inside v → Sees st x home j

def Store.Unread (st : Store) (x : String) (home : ScopeId) : Prop :=
  ∀ {i sc y v}, st.Sees x home i → st.scopes[i]? = some sc → y ≠ x → sc.find? y = some v →
    v.All { body := Node.Unread x }

def Value.Skips (x : String) (A : ScopeId → Prop) : Value → Prop
  | .function _ _ b i => Node.Every (Node.Unread x) (.block b) ∧ A i
  | _ => True

def Value.Blind (x : String) (A : ScopeId → Prop) : Value → Prop := Value.Every (Value.Skips x A)

/-- The scopes in `A` are closed under what can be seen from them, and all new ones are in `A`. -/
structure Store.InSight (x : String) (A : ScopeId → Prop) (st : Store) : Prop where
  new {i : ScopeId} : st.scopes.size ≤ i → A i
  outer {i j : ScopeId} {sc : Scope} : A i → st.scopes[i]? = some sc → sc.outer = some j → A j
  values {i : ScopeId} {sc : Scope} {y : String} {v : Value} : A i → st.scopes[i]? = some sc → y ≠ x →
    sc.find? y = some v → v.Blind x A

variable {st : Store} {A : ScopeId → Prop}

theorem Value.skips_of_kind {v : Value} (h : v.kind ≠ .function) : v.Skips x A := by
  cases v with
  | function stamp ps b i => exact absurd rfl h
  | _ => trivial

theorem Value.stable_blind :
    Value.Stable (fun t => True ∧ Value.EachEntry (Value.Blind x A) t) (Value.Blind x A) :=
  Value.stable_every (fun _ _ hv => Value.skips_of_kind hv) Iff.rfl trivial (fun _ _ => trivial)
    (fun _ _ => trivial) fun _ => trivial

theorem Store.InSight.bind (h : st.InSight x A) {v : Value} (hv : v.Blind x A) (i : ScopeId)
    (y : String) : (st.bind i y v).InSight x A where
  new hi := h.new (by simpa [Store.bind] using hi)
  outer hi hsc ho := by
    simp only [Store.bind, Array.getElem?_modify] at hsc
    split at hsc
    · obtain ⟨sc, hold, rfl⟩ := Option.map_eq_some_iff.mp hsc
      exact h.outer hi hold ho
    · exact h.outer hi hsc ho
  values hi hsc hz hw := by
    simp only [Store.bind, Array.getElem?_modify] at hsc
    split at hsc
    · obtain ⟨sc, hold, rfl⟩ := Option.map_eq_some_iff.mp hsc
      rw [Scope.find?_bind] at hw
      split at hw
      · cases hw
        exact hv
      · exact h.values hi hold hz hw
    · exact h.values hi hsc hz hw

theorem Store.InSight.child (h : st.InSight x A) {i : ScopeId} (hi : A i) :
    (st.child i).2.InSight x A where
  new hj := h.new (Nat.le_of_succ_le (by simpa [Store.child, Store.push] using hj))
  outer hj hsc ho := by
    simp only [Store.child, Store.push, Array.getElem?_push] at hsc
    split at hsc
    · cases hsc
      cases ho
      exact hi
    · exact h.outer hj hsc ho
  values hj hsc hy hv := by
    simp only [Store.child, Store.push, Array.getElem?_push] at hsc
    split at hsc
    · cases hsc
      cases hv
    · exact h.values hj hsc hy hv

theorem Store.InSight.find? (h : st.InSight x A) {i : ScopeId} (hi : A i) {y : String} (hy : y ≠ x)
    {v : Value} (hv : st.find? i y = some v) : v.Blind x A := by
  induction i using Nat.strongRecOn with
  | _ i ih =>
      rw [Store.find?_eq] at hv
      obtain ⟨sc, hsc, hv⟩ := Option.bind_eq_some_iff.mp hv
      rcases Option.or_eq_some_iff.mp hv with hv | ⟨-, hv⟩
      · exact h.values hi hsc hy hv
      · obtain ⟨j, hj, hv⟩ := Option.bind_eq_some_iff.mp hv
        split at hv
        · exact ih j ‹_› (h.outer hi hsc hj) hv
        · cases hv

theorem Store.Unread.inSight {home : ScopeId} (h : st.Unread x home) :
    st.InSight x fun i => st.Sees x home i ∨ st.scopes.size ≤ i := by
  have seen {i : ScopeId} {sc : Scope} (hi : st.Sees x home i ∨ st.scopes.size ≤ i)
      (hsc : st.scopes[i]? = some sc) : st.Sees x home i := by
    refine hi.resolve_right fun hsize => ?_
    rw [Array.getElem?_eq_none hsize] at hsc
    cases hsc
  refine ⟨.inr, fun hi hsc ho => .inl (.outer (seen hi hsc) hsc ho), fun hi hsc hy hv => ?_⟩
  have hi := seen hi hsc
  refine (h hi hsc hy hv).of_inside fun w hw hbody => ?_
  cases w with
  | function stamp ps b j => exact ⟨hbody, .inl (.function hi hsc hy hv hw)⟩
  | _ => trivial

end Sight

namespace Eval

variable {s s' : Setting} {A : ScopeId → Prop}

theorem agreement_except (hs : s.Except x s') :
    Agreement s s' (Node.Unread x) A (fun t => True ∧ Value.EachEntry (Value.Blind x A) t)
      (Value.Blind x A) fun st st' => st.Except x st' ∧ st.InSight x A where
  toStable := Value.stable_blind
  error _ := (Value.every_atom rfl).mpr trivial
  returned hv := Value.every_returned.mpr ⟨trivial, hv⟩
  integer _ := (Value.every_atom rfl).mpr trivial
  builtin _ := (Value.every_atom rfl).mpr trivial
  function := Value.every_atom rfl
  rounds := hs.rounds
  registry hi := hs.registry hi
  fresh := by
    refine agrees_modifyGet fun _ _ ⟨h, hsight⟩ => ⟨h.stamp.symm, trivial, ?_, ?_⟩
    · exact ⟨h.size, h.printed, congrArg (· + 1) h.stamp, h.scopes⟩
    · exact ⟨hsight.new, hsight.outer, hsight.values⟩
  print text := by
    refine agrees_modifyGet fun _ _ ⟨h, hsight⟩ => ⟨rfl, trivial, ?_, ?_⟩
    · exact ⟨h.size, congrArg (· ++ text) h.printed, h.stamp, h.scopes⟩
    · exact ⟨hsight.new, hsight.outer, hsight.values⟩
  assign name hv := agrees_modifyGet fun _ _ ⟨h, hsight⟩ =>
    ⟨rfl, trivial, h.bind _ name _, hsight.bind hv _ name⟩
  child hi := agrees_modifyGet fun _ _ ⟨h, hsight⟩ =>
    ⟨h.size.symm, hsight.new (Nat.le_refl _), h.push _, hsight.child hi⟩
  lookup hscope hi := agrees_get fun _ _ ⟨h, hsight⟩ =>
    ⟨(h.find? hi _).symm, fun _ hv => hsight.find? hscope hi hv⟩

/-- What a name that no code in sight reads is bound to, in any scopes, makes no difference, nor does a
builtin function with this name: a program and a single node of one end with the same value or halt,
have printed the same, and leave the same value for every other name in every scope. -/
theorem unread_name_is_irrelevant {home : ScopeId} {st : Store} (s : Setting) (h : st.Unread x home) :
    (∀ i v, st.Except x (st.bind i x v)) ∧
    (∀ registry : Registry, (∀ y, y ≠ x → registry.lookup y = s.registry.lookup y) →
      s.Except x { s with registry }) ∧
    ∀ s' st', s.Except x s' → st.Except x st' →
      (∀ n, Node.Every (Node.Unread x) n →
        SameEnd (Store.Except x) (fun _ => True) (node s home n st) (node s' home n st')) ∧
      ∀ p : Program, p.Every (Node.Unread x) →
        SameEnd (Store.Except x) (fun _ => True) (program s home p st) (program s' home p st') := by
  refine ⟨fun i v => st.except_bind i x v, fun registry hr => ⟨rfl, rfl, hr _⟩, fun s' st' hs hst => ?_⟩
  have hS := agreement_except (A := fun i => st.Sees x home i ∨ st.scopes.size ≤ i) hs
  constructor
  · intro n hn
    have hend := agrees_node hS hs.depth (.inl .home) hn st st' ⟨hst, h.inSight⟩
    exact hend.mono (fun _ _ h => h.1) fun _ _ => trivial
  · intro p hp
    have hend := agrees_program hS hs.depth (.inl .home) hp st st' ⟨hst, h.inSight⟩
    exact hend.mono (fun _ _ h => h.1) fun _ _ => trivial

theorem unread_name_is_irrelevant_captured :
    let pos : Pos := ⟨1, 1⟩
    let read (name : String) : Expr := .ident ⟨pos, name⟩
    let body : Block := .mk pos [.expr pos (.binary pos .add (read "n") (.int pos 1))]
    let reader : Value := .function 2 [] (.mk pos [.expr pos (read "x")]) 0
    let near : Scope := ⟨[("f", .function 1 [] body 1)], none⟩
    let far : Scope := ⟨[("x", reader), ("n", .integer 1)], none⟩
    let st : Store := ⟨#[near, far], "", 3⟩
    let n : Node := .expr (.call pos (read "f") [])
    st.Unread "x" 0 ∧ Node.Every (Node.Unread "x") n ∧ ∃ st₁ st₂,
      node ⟨[], 9, 9⟩ 0 n st = .ok (.integer 2) st₁ ∧
      node ⟨[("x", .len)], 9, 9⟩ 0 n (st.bind 1 "x" (.string "s")) = .ok (.integer 2) st₂ ∧
      st₁.Except "x" st₂ := by
  intro pos read body reader near far st n
  have hread {name : String} (h : name ≠ "x") : Node.Every (Node.Unread "x") (.expr (read name)) :=
    ⟨h, List.forall_mem_nil _⟩
  have hsum : Node.Every (Node.Unread "x") (.expr (.binary pos .add (read "n") (.int pos 1))) :=
    ⟨trivial, List.forall_mem_cons.mpr ⟨hread (by decide),
      List.forall_mem_singleton.mpr ⟨trivial, List.forall_mem_nil _⟩⟩⟩
  have hbody : Node.Every (Node.Unread "x") (.block body) :=
    ⟨trivial, List.forall_mem_singleton.mpr ⟨trivial, List.forall_mem_singleton.mpr hsum⟩⟩
  have hn : Node.Every (Node.Unread "x") n :=
    ⟨trivial, List.forall_mem_singleton.mpr (hread (by decide))⟩
  have hunread : st.Unread "x" 0 := by
    intro i sc y v _ hsc hy hv
    have hmem : sc ∈ #[near, far] := Array.mem_of_getElem? hsc
    rcases show sc = near ∨ sc = far by simpa using hmem with rfl | rfl
    · rw [Scope.find?, Scope.lookup_cons] at hv
      split at hv
      · cases hv
        exact (Value.every_atom rfl).mpr hbody
      · cases hv
    · rw [Scope.find?, Scope.lookup_cons, if_neg hy, Scope.lookup_cons] at hv
      split at hv
      · cases hv
        exact (Value.every_atom rfl).mpr trivial
      · cases hv
  obtain ⟨hbind, hregistry, hsame⟩ := unread_name_is_irrelevant ⟨[], 9, 9⟩ hunread
  have hlen : Setting.Except "x" ⟨[], 9, 9⟩ ⟨[("x", .len)], 9, 9⟩ :=
    hregistry [("x", .len)] fun y hy => by simp [List.lookup_cons, beq_false_of_ne hy]
  have hend := (hsame _ _ hlen (hbind 1 (.string "s"))).1 n hn
  refine ⟨hunread, hn, _, _, rfl, rfl, ?_⟩
  cases hend with
  | ok _ h => exact h

end Eval

end Marmoset
