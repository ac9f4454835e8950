import Marmoset.Proofs.Eval.Context
import Marmoset.Proofs.Eval.Invariant
import Marmoset.Proofs.Eval.Stopping

namespace Marmoset

section Contexts

/-- If the run of a context comes to its hole and what stands there ends with an error, then the whole
context ends with this error, and leaves the store as the error left it. -/
theorem Context.error_ends_run {s : Setting} {scope : ScopeId} {k : Form} (C : Context k) (e : Expr)
    {d n : Nat} {st mid st' : Store} {f : Failure} (hreach : C.Reaches s scope e d st n mid)
    (he : Eval.run s n (.expr e) scope mid = .ok (.error f) st') :
    k.run s d scope (C.fill e) st = .ok (.error f) st' := by
  induction hreach with
  | hole => exact he
  | array hbefore _ ih => exact (Eval.Enters.array (hbefore.along _ _)).fails (ih he)
  | key hbefore _ ih => exact (Eval.Enters.key (hbefore.along _ _)).fails (ih he)
  | value hbefore hk hid _ ih => exact (Eval.Enters.value (hbefore.along _ _) hk hid).fails (ih he)
  | low _ ih => exact Eval.Enters.low.fails (ih he)
  | high hlo _ ih => exact (Eval.Enters.high hlo).fails (ih he)
  | operand _ ih => exact Eval.Enters.operand.fails (ih he)
  | left _ ih => exact Eval.Enters.left.fails (ih he)
  | right hl hok hand hor _ ih => exact (Eval.Enters.right hl hok hand hor).fails (ih he)
  | test _ ih => exact Eval.Enters.test.fails (ih he)
  | yes hc hok htruthy _ ih => exact (Eval.Enters.yes hc hok htruthy).fails (ih he)
  | no hc hok htruthy _ ih => exact (Eval.Enters.no hc hok htruthy).fails (ih he)
  | again hm hlt _ ih => exact (Eval.Enters.again hm hlt).fails (ih he)
  | round hm hlt hc hok htruthy _ ih => exact (Eval.Enters.round hm hlt hc hok htruthy).fails (ih he)
  | callee _ ih => exact Eval.Enters.callee.fails (ih he)
  | argument hf hbefore _ ih => exact (Eval.Enters.argument hf (hbefore.along _ _)).fails (ih he)
  | collection _ ih => exact Eval.Enters.collection.fails (ih he)
  | index hc _ ih => exact (Eval.Enters.index hc).fails (ih he)
  | expr _ ih => exact ih he
  | bind _ ih => exact bind_ok (ih he)
  | ret _ ih => exact bind_ok (ih he)
  | nested _ ih => exact ih he
  | block hbefore _ ih => exact (hbefore.along _ _).stmts_eq (ih he) rfl _
  | program hbefore _ ih => exact bind_ok ((hbefore.along _ _).stmts_eq (ih he) rfl _)

theorem Context.error_ends_run_second_round :
    let p := Pos.start
    let i : Ident := ⟨p, "i"⟩
    let say (x : Expr) : Stmt := .expr p (.call p (.ident ⟨p, "puts"⟩) [x])
    let body : Context .block := .block p
      [say (.ident i), .bind p i (.binary p .add (.ident i) (.int p 1))]
      (.expr p (.value p [] (.int p 1) .hole [])) [say (.int p 9)]
    let C : Context .program := .program [.bind p i (.int p 0)]
      (.expr p (.round p (.bool p true) body)) [say (.int p 8)]
    let e : Expr := .binary p .div (.int p 6) (.binary p .sub (.int p 2) (.ident i))
    let s : Setting := ⟨Registry.standard, 9, 9⟩
    let store (i : Int) (printed : String) (stamp : Stamp) : Store :=
      ⟨#[⟨[("i", .integer i)], none⟩], printed, stamp⟩
    C.Reaches s 0 e 9 ⟨#[⟨[], none⟩], "", 1⟩ 6 (store 2 "0\n9\n1\n" 9) ∧
      Eval.run s 6 (.expr e) 0 (store 2 "0\n9\n1\n" 9) =
        .ok (.error .divisionByZero) (store 2 "0\n9\n1\n" 11) ∧
      Eval.program s 0 (C.fill e) ⟨#[⟨[], none⟩], "", 1⟩ =
        .ok (.error .divisionByZero) (store 2 "0\n9\n1\n" 11) := by
  intro p i say body C e s store
  have he : Eval.run s 6 (.expr e) 0 (store 2 "0\n9\n1\n" 9) =
      .ok (.error .divisionByZero) (store 2 "0\n9\n1\n" 11) := by rfl
  have hround : Eval.run s 8 (.block (body.fill e)) 0 (store 0 "" 1) = .ok .null (store 1 "0\n9\n" 7) := by
    rfl
  have hsay : Eval.stmt (Eval.run s 7) 0 (say (.ident i)) (store 1 "0\n9\n" 7) =
      .ok .null (store 1 "0\n9\n1\n" 8) := by rfl
  have hcount : Eval.stmt (Eval.run s 7) 0 (.bind p i (.binary p .add (.ident i) (.int p 1)))
      (store 1 "0\n9\n1\n" 8) = .ok (.integer 2) (store 2 "0\n9\n1\n" 9) := by rfl
  have hreach : C.Reaches s 0 e 9 ⟨#[⟨[], none⟩], "", 1⟩ 6 (store 2 "0\n9\n1\n" 9) := by
    refine .program (.cons ⟨.integer 0, rfl, rfl⟩ .nil) (.expr ?_)
    refine .round (.more rfl rfl rfl hround rfl .none) (by decide) rfl rfl rfl ?_
    refine .block (.cons ⟨.null, hsay, rfl⟩ (.cons ⟨.integer 2, hcount, rfl⟩ .nil)) (.expr ?_)
    exact .value .nil rfl rfl .hole
  exact ⟨hreach, he, C.error_ends_run e hreach he⟩

end Contexts

section Errorless

def Value.Errorless : Value → Prop := Value.Every fun v => ∀ f, v ≠ .error f

theorem Value.errorless_eq : Value.Errorless = Value.All { error := False } := by
  have hmeets (v : Value) : (∀ f, v ≠ .error f) ↔ Value.Meets { error := False } v := by
    cases v with
    | error f => simp [Value.Meets]
    | function stamp ps b scope => simp [Value.Meets, Node.every_of_forall]
    | _ => simp [Value.Meets]
  funext v
  exact propext ⟨.mono fun u => (hmeets u).mp, .mono fun u => (hmeets u).mpr⟩

theorem Value.errorless_returned {v : Value} (h : v.Errorless) : (Value.returned v).Errorless :=
  Value.every_returned.mpr ⟨fun f hf => (by cases hf), h⟩

theorem Value.errorless_of_passed {v : Value} (h : v.Passed Value.Errorless) :
    v.Made Value.Errorless := by
  rcases h with h | ⟨w, rfl, hw⟩
  · exact h
  · exact .inl (Value.errorless_returned hw)

namespace Eval

variable {s : Setting} {st : Store}

theorem lawful_errorless (s : Setting) :
    Lawful s (fun _ => True) (Value.EachEntry Value.Errorless) Value.Errorless := by
  rw [Value.errorless_eq]
  exact lawful_all (c := { error := False }) (fun _ _ => trivial) (fun _ _ _ => trivial)
    (fun _ _ _ => trivial) fun _ _ => trivial

theorem good_errorless {p : Point} (hst : p.store.Holds Value.Errorless) :
    p.Good (fun _ => True) Value.Errorless :=
  ⟨hst, Node.every_of_forall (fun _ => trivial) _⟩

theorem tight_errorless (p : Point) : Tight s Value.Errorless p :=
  tight_of_returned (fun _ hv => Value.errorless_returned hv) p

def Unspoilt (p : Eval Value) (st : Store) : Prop :=
  Ends p st (fun v st' => st'.Holds Value.Errorless ∧ v.Made Value.Errorless)
    fun _ st' => st'.Holds Value.Errorless

theorem Keeps.unspoilt {Q : Node → Prop} {p : Eval Value}
    (h : Keeps Q Value.Errorless p st (Value.Passed Value.Errorless)) : Unspoilt p st := by
  constructor
  · intro v st' hv
    obtain ⟨hst', hpassed⟩ := h.1 v st' hv
    exact ⟨hst', Value.errorless_of_passed hpassed⟩
  · intro why st' hwhy
    exact (h.2 why st' hwhy).1

theorem keeps_run_errorless (hst : st.Holds Value.Errorless) (c : Code) (scope : ScopeId) :
    Keeps (fun _ => True) Value.Errorless (run s s.depth c scope) st (Value.Passed Value.Errorless) :=
  (tight_errorless ⟨s.depth, c, scope, st⟩).steady (lawful_errorless s) (good_errorless hst)

theorem keeps_stmt_errorless (hst : st.Holds Value.Errorless) (x : Stmt) (scope : ScopeId) :
    Keeps (fun _ => True) Value.Errorless (stmt (run s s.depth) scope x) st
      (Value.Passed Value.Errorless) := by
  -- a statement alone is the first one of a block
  let top := Point.top s scope ⟨[x]⟩ st
  have hgood : top.Good (fun _ => True) Value.Errorless := good_errorless hst
  have hsure := (tight_errorless top).sure (lawful_errorless s)
  exact keeps_stmt (lawful_errorless s).toRegular hgood hsure .here hst

/-- Where no error is in any value that is bound, none is there after a run, however it ends, and an
error is the whole value of a run or no part of it. A call of a function without errors in it, with
arguments of which this holds too, does the same, also if the function is a builtin one. -/
theorem errors_are_never_kept (hst : st.Holds Value.Errorless) :
    (∀ scope prog, Unspoilt (program s scope prog) st) ∧
    (∀ scope x, Unspoilt (node s scope x) st) ∧
    ∀ f args, f.Errorless → (∀ v ∈ args, v.Errorless) → Unspoilt (apply s f args) st := by
  refine ⟨fun scope prog => ?_, fun scope x => ?_, fun f args hf hargs => ?_⟩
  · have hprogram := keeps_program (lawful_errorless s) (good_errorless hst)
      (tight_errorless (.top s scope prog st))
    exact Keeps.unspoilt (hprogram.mono fun v st' hv => ⟨hv.1, .inl hv.2⟩)
  · cases x with
    | expr e => exact (keeps_run_errorless hst (.expr e) scope).unspoilt
    | stmt x => exact (keeps_stmt_errorless hst x scope).unspoilt
    | block b => exact (keeps_run_errorless hst (.block b) scope).unspoilt
  · have hcall : Keeps (fun _ => True) Value.Errorless (apply s f args) st
        (Value.Made Value.Errorless) :=
      keeps_call (lawful_errorless s) hst (.inl (.inl hf)) hargs
        fun _ _ b _ inner _ _ _ _ _ hst' _ => keeps_run_errorless hst' (.block b) inner
    exact Keeps.unspoilt (hcall.mono fun v st' hv => ⟨hv.1, .inl hv.2⟩)

theorem errors_are_never_kept_element :
    let p := Pos.start
    let xs : Value := .array 1 [.integer 1]
    let st : Store := ⟨#[⟨[("xs", xs)], none⟩], "", 2⟩
    let st' : Store := ⟨#[⟨[("xs", xs)], none⟩], "", 3⟩
    let x : Stmt := .bind p ⟨p, "ys"⟩
      (.array p [.ident ⟨p, "xs"⟩, .binary p .div (.int p 1) (.int p 0)])
    st.Holds Value.Errorless ∧ node ⟨[], 9, 9⟩ 0 (.stmt x) st = .ok (.error .divisionByZero) st' ∧
      st'.Holds Value.Errorless := by
  intro p xs st st' x
  have hone : (Value.integer 1).Errorless := (Value.every_atom rfl).mpr (by simp)
  have hxs : xs.Errorless := Value.every_array.mpr ⟨by simp, List.forall_mem_singleton.mpr hone⟩
  have hst : st.Holds Value.Errorless := by
    intro sc hsc b hb
    obtain rfl : sc = ⟨[("xs", xs)], none⟩ := by simpa [st] using hsc
    obtain rfl := List.mem_singleton.mp hb
    exact hxs
  have hrun : node ⟨[], 9, 9⟩ 0 (.stmt x) st = .ok (.error .divisionByZero) st' := by rfl
  obtain ⟨-, hnode, -⟩ := errors_are_never_kept (s := ⟨[], 9, 9⟩) hst
  exact ⟨hst, hrun, ((hnode 0 (.stmt x)).1 _ _ hrun).1⟩

end Eval

end Errorless

end Marmoset
