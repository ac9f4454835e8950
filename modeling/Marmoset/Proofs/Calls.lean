import Marmoset.Proofs.Eval.Labels
import Marmoset.Proofs.Session

namespace Marmoset

namespace Store

variable {st : Store}

section Closed

theorem Closed.push (h : st.Closed) {outer : Option ScopeId}
    (houter : ∀ i, outer = some i → i < st.scopes.size) : (st.push outer).2.Closed := by
  have hahead : st.Ahead (st.push outer).2 := ⟨by simp [Store.push], Nat.le_refl _⟩
  refine ⟨h.shared, (h.values.push outer).mono fun v hv => hv.mono hahead, fun {sc i} hsc hi => ?_⟩
  refine Nat.lt_of_lt_of_le ?_ hahead.size
  rcases Array.mem_push.mp hsc with hsc | rfl
  · exact h.outer hsc hi
  · exact houter i hi

theorem Closed.bind (h : st.Closed) {v : Value} (hv : v.Of st) (i : ScopeId) (name : String) :
    (st.bind i name v).Closed := by
  have hsize : (st.bind i name v).scopes.size = st.scopes.size := by simp [Store.bind]
  have hahead : st.Ahead (st.bind i name v) := ⟨Nat.le_of_eq hsize.symm, Nat.le_refl _⟩
  refine ⟨h.shared, (h.values.bind hv i name).mono fun w hw => hw.mono hahead, fun {sc j} hsc hj => ?_⟩
  obtain ⟨k, hk, rfl⟩ := Array.mem_iff_getElem.mp hsc
  have hk' : k < st.scopes.size := hsize ▸ hk
  refine hsize.symm ▸ h.outer (Array.getElem_mem hk') ?_
  simp only [Store.bind, Array.getElem_modify] at hj
  split at hj <;> exact hj

theorem Closed.ahead {st' : Store} (h : st.Closed) (hscopes : st'.scopes = st.scopes)
    (hstamp : st.stamp ≤ st'.stamp) : st'.Closed := by
  have hahead : st.Ahead st' := ⟨hscopes ▸ Nat.le_refl _, hstamp⟩
  refine ⟨Nat.lt_of_lt_of_le h.shared hstamp, fun sc hsc b hb => ?_, fun {sc i} hsc hi => ?_⟩
  · exact (h.values sc (hscopes ▸ hsc) b hb).mono hahead
  · exact hscopes ▸ h.outer (hscopes ▸ hsc) hi

end Closed

/-- Stores that come about when scopes are made, values stamped and bound, programs run and functions
called, in any order and with any setting, and what is printed is taken away. A run that halts leaves
what it has done. -/
inductive Reachable : Store → Prop where
  | empty : Reachable .empty
  | scope {st : Store} {outer : Option ScopeId} :
      Reachable st → (∀ i, outer = some i → i < st.scopes.size) → Reachable (st.push outer).2
  | stamp {st : Store} : Reachable st → Reachable { st with stamp := st.stamp + 1 }
  | bind {st : Store} {v : Value} (i : ScopeId) (name : String) :
      Reachable st → v.Of st → Reachable (st.bind i name v)
  | heard {st : Store} : Reachable st → Reachable { st with printed := "" }
  | program {st : Store} {i : ScopeId} {prog : Program} (s : Setting) :
      Reachable st → i < st.scopes.size → prog.Every (Node.Stamped st.stamp) →
      Reachable (finalState (Eval.program s i prog) st)
  | call {st : Store} {f : Value} {args : List Value} (s : Setting) :
      Reachable st → f.Of st → (∀ a ∈ args, a.Of st) → Reachable (finalState (Eval.apply s f args) st)

theorem Reachable.closed (h : Reachable st) : st.Closed := by
  induction h with
  | empty =>
      have hnone (sc : Scope) : sc ∉ Store.empty.scopes := Array.not_mem_empty sc
      exact ⟨Nat.one_pos, fun sc hsc => absurd hsc (hnone sc), fun {sc i} hsc => absurd hsc (hnone sc)⟩
  | scope _ houter ih => exact ih.push houter
  | stamp _ ih => exact ih.ahead rfl (Nat.le_succ _)
  | bind i name _ hv ih => exact ih.bind hv i name
  | heard _ ih => exact ih.ahead rfl (Nat.le_refl _)
  | program s _ hi hprog ih => exact ((Eval.generic_program hi hprog).closed ih).1
  | call s _ hf hargs ih => exact ((Eval.generic_apply hf hargs).closed ih).1

end Store

namespace Session

theorem run_reachable {s : Session} (h : s.store.Reachable) (hscope : s.scope < s.store.scopes.size)
    (text : String) : (s.run text).2.store.Reachable ∧
      (s.run text).2.scope < (s.run text).2.store.scopes.size := by
  rcases s.run_cases text with ⟨-, hrun⟩ | ⟨d, hd, ⟨-, hrun⟩ | ⟨hm, hrun⟩⟩
  · rw [hrun]
    exact ⟨h, hscope⟩
  · rw [hrun]
    exact ⟨h, hscope⟩
  · have hprog : d.program.Every (Node.Stamped s.store.stamp) := fun x hx =>
      (Program.written_of_text hd hm x hx).mono fun y hy => hy.stamped h.closed.shared
    have hsame : (s.run text).2.scope = s.scope := by
      rcases hrun with ⟨v, store, -, hrun⟩ | ⟨why, store, -, hrun⟩ <;> rw [hrun]
    rw [hsame, run_store hd hm]
    exact ⟨.program s.setting h hscope hprog,
      Nat.lt_of_lt_of_le hscope (Eval.generic_program hscope hprog).ahead.size⟩

theorem runAll_reachable {s : Session} (h : s.store.Reachable)
    (hscope : s.scope < s.store.scopes.size) (texts : List String) :
    (s.runAll texts).2.store.Reachable := by
  induction texts generalizing s with
  | nil => exact h
  | cons text texts ih =>
      obtain ⟨hrun, hscope'⟩ := s.run_reachable h hscope text
      exact ih hrun hscope'

end Session

namespace Eval

/-- In any store that comes about, the values that are bound are values of the store. A call of one of
them with such arguments, if it ends with a value, ends so again from the store that it has left: with
the same value, but for the labels of what the call has made, with the same text, and having printed
the same. -/
theorem calls_repeat (s : Setting) {st : Store} (hst : st.Reachable) :
    (∀ i name v, st.find? i name = some v → v.Of st) ∧
    ∀ f args v st₁, f.Of st → (∀ a ∈ args, a.Of st) → apply s f args st = .ok v st₁ →
      st₁.Reachable ∧ v.Of st₁ ∧ f.Of st₁ ∧ (∀ a ∈ args, a.Of st₁) ∧
      ∃ (r : Relabeling) (st₂ : Store) (text : String), r.Keeps st ∧
        apply s f args st₁ = .ok (v.relabel r) st₂ ∧
        (∀ depth, (v.relabel r).text? depth = v.text? depth) ∧
        st₁.printed = st.printed ++ text ∧ st₂.printed = st₁.printed ++ text := by
  refine ⟨fun i name v hv => hst.closed.values.find? hv, fun f args v st₁ hf hargs hrun => ?_⟩
  have hgeneric : Generic st (apply s f args) := generic_apply hf hargs
  obtain rfl := finalState_ok hrun
  have hext : st.Extends none (finalState (apply s f args) st) :=
    (extending_call (extending_run s s.depth) s.depth f args st).finalState
  refine ⟨.call s hst hf hargs, (hgeneric.closed hst.closed).2 v _ hrun, hf.mono hgeneric.ahead,
    fun a ha => (hargs a ha).mono hgeneric.ahead, ?_⟩
  obtain ⟨r, hr, text, htext, ⟨w, st₁, st₂, hfirst, hsecond, htext'⟩ | ⟨why, st₁, st₂, hfirst, -⟩⟩ :=
    hgeneric.repeats hst.closed hext
  · injection hrun.symm.trans hfirst with hvw hst₁
    subst hvw
    rw [← hst₁] at hsecond htext'
    exact ⟨r, st₂, text, hr, hsecond, v.text?_relabel r, htext, htext'⟩
  · cases hrun.symm.trans hfirst

theorem calls_repeat_closure :
    let setting : Setting := ⟨[("puts", .puts)], 20, 20⟩
    let text := "let f = fn(g) \x7b puts(g == f); [fn() \x7b g \x7d, f] \x7d"
    let inner : Block := .mk ⟨1, 37⟩ [.expr ⟨1, 39⟩ (.ident ⟨⟨1, 39⟩, "g"⟩)]
    let f : Value := .function 1 [⟨⟨1, 12⟩, "g"⟩] (.mk ⟨1, 15⟩
      [.expr ⟨1, 17⟩ (.call ⟨1, 17⟩ (.ident ⟨⟨1, 17⟩, "puts"⟩) [.binary ⟨1, 22⟩ .eq
        (.ident ⟨⟨1, 22⟩, "g"⟩) (.ident ⟨⟨1, 27⟩, "f"⟩)]),
      .expr ⟨1, 31⟩ (.array ⟨1, 31⟩ [.fn ⟨1, 32⟩ [] inner, .ident ⟨⟨1, 44⟩, "f"⟩])]) 0
    let st : Store := ⟨#[⟨[("f", f)], none⟩], "", 2⟩
    let v : Value := .array 5 [.function 4 [] inner 1, f]
    let st₁ : Store := ⟨#[⟨[("f", f)], none⟩, ⟨[("g", f)], some 0⟩], "true\n", 6⟩
    ((Session.start setting).runAll [text]).2.store = st ∧ apply setting f [f] st = .ok v st₁ ∧
      ∃ (r : Relabeling) (st₂ : Store), r.Keeps st ∧ apply setting f [f] st₁ = .ok (v.relabel r) st₂ ∧
        st₂.printed = "true\ntrue\n" := by
  intro setting text inner f st v st₁
  have hstore : ((Session.start setting).runAll [text]).2.store = st := by cbv
  have hcall : apply setting f [f] st = .ok v st₁ := by cbv
  have hst : st.Reachable := by
    rw [← hstore]
    exact Session.runAll_reachable (.scope .empty fun i hi => by cases hi) Nat.one_pos [text]
  obtain ⟨hbound, hrepeat⟩ := calls_repeat setting hst
  have hf : f.Of st := hbound 0 "f" f (by cbv)
  obtain ⟨-, -, -, -, r, st₂, printed, hr, hcall', -, hprinted, hprinted'⟩ :=
    hrepeat f [f] v st₁ hf (List.forall_mem_singleton.mpr hf) hcall
  refine ⟨hstore, hcall, r, st₂, hr, hcall', ?_⟩
  obtain rfl : printed = "true\n" := by simpa [st, st₁] using hprinted.symm
  exact hprinted'

end Eval

end Marmoset
