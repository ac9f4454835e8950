import Marmoset.Eval
import Marmoset.Proofs.Outcome

namespace Marmoset

section Extends

structure Scope.Grows (old new : Scope) : Prop where
  outer : new.outer = old.outer
  bound (name : String) : (old.find? name).isSome → (new.find? name).isSome

theorem Scope.Grows.refl (sc : Scope) : sc.Grows sc :=
  ⟨rfl, fun _ h => h⟩

theorem Scope.Grows.trans {a b c : Scope} (h : a.Grows b) (h' : b.Grows c) : a.Grows c :=
  ⟨h'.outer.trans h.outer, fun name hname => h'.bound name (h.bound name hname)⟩

theorem Scope.grows_bind (sc : Scope) (name : String) (v : Value) : sc.Grows (sc.bind name v) := by
  refine ⟨rfl, fun x hx => ?_⟩
  rw [Scope.find?_bind]
  split
  · rfl
  · exact hx

/-- The new store has all scopes of the old one, and each of them is unchanged, except that `own` may
have grown; what was printed is still there, with more after it. -/
structure Store.Extends (own : Option ScopeId) (old new : Store) : Prop where
  scope {i : ScopeId} {sc : Scope} : old.scopes[i]? = some sc →
    ∃ sc', new.scopes[i]? = some sc' ∧ sc.Grows sc' ∧ (own ≠ some i → sc' = sc)
  printed : ∃ text, new.printed = old.printed ++ text

namespace Store.Extends

variable {own own' : Option ScopeId} {old mid new : Store}

theorem of_scopes (hscopes : new.scopes = old.scopes) (h : ∃ text, new.printed = old.printed ++ text) :
    Extends own old new := by
  refine ⟨fun {i sc} hsc => ⟨sc, ?_, .refl sc, fun _ => rfl⟩, h⟩
  rw [hscopes]
  exact hsc

theorem refl (own : Option ScopeId) (st : Store) : Extends own st st :=
  of_scopes rfl ⟨"", by simp⟩

theorem trans_of (h : Extends own old mid) (h' : Extends own' mid new)
    (hown : ∀ i < old.scopes.size, own' = some i → own = some i) : Extends own old new := by
  constructor
  · intro i sc hsc
    obtain ⟨sc₁, hsc₁, hgrows, hkept⟩ := h.scope hsc
    obtain ⟨sc₂, hsc₂, hgrows', hkept'⟩ := h'.scope hsc₁
    refine ⟨sc₂, hsc₂, hgrows.trans hgrows', fun hne => ?_⟩
    obtain ⟨hi, -⟩ := Array.getElem?_eq_some_iff.mp hsc
    rw [hkept' fun he => hne (hown i hi he), hkept hne]
  · obtain ⟨text, htext⟩ := h.printed
    obtain ⟨text', htext'⟩ := h'.printed
    exact ⟨text ++ text', by rw [htext', htext, String.append_assoc]⟩

theorem trans (h : Extends own old mid) (h' : Extends own mid new) : Extends own old new :=
  h.trans_of h' fun _ _ h => h

theorem any (h : Extends none old new) : Extends own old new := by
  refine ⟨fun hsc => ?_, h.printed⟩
  obtain ⟨sc', hsc', hgrows, hkept⟩ := h.scope hsc
  exact ⟨sc', hsc', hgrows, fun _ => hkept (by simp)⟩

theorem bind (st : Store) (i : ScopeId) (name : String) (v : Value) :
    Extends (some i) st (st.bind i name v) := by
  refine ⟨fun {j sc} hsc => ?_, ⟨"", by simp [Store.bind]⟩⟩
  by_cases hij : i = j
  · subst hij
    refine ⟨sc.bind name v, ?_, sc.grows_bind name v, fun hne => absurd rfl hne⟩
    simp [Store.bind, Array.getElem?_modify, hsc]
  · refine ⟨sc, ?_, .refl sc, fun _ => rfl⟩
    simp [Store.bind, Array.getElem?_modify, hij, hsc]

theorem push (st : Store) (outer : Option ScopeId) : Extends none st (st.push outer).2 := by
  refine ⟨fun {i sc} hsc => ⟨sc, ?_, .refl sc, fun _ => rfl⟩, ⟨"", by simp [Store.push]⟩⟩
  obtain ⟨hi, -⟩ := Array.getElem?_eq_some_iff.mp hsc
  simp [Store.push, Array.getElem?_push, Nat.ne_of_lt hi, hsc]

theorem find? (h : Extends none old new) {i : ScopeId} {name : String} {v : Value}
    (hv : old.find? i name = some v) : new.find? i name = some v := by
  have within (n : Nat) (j : ScopeId) (hj : old.findWithin name n j = some v) :
      new.findWithin name n j = some v := by
    induction n generalizing j with
    | zero => cases hj
    | succ n ih =>
        simp only [Store.findWithin] at hj ⊢
        cases hsc : old.scopes[j]? with
        | none => simp [hsc] at hj
        | some sc =>
            obtain ⟨sc', hsc', -, hkept⟩ := h.scope hsc
            obtain rfl := hkept (by simp)
            rw [hsc']
            simp only [hsc] at hj
            cases hfound : sc'.find? name with
            | some w => simpa [hfound] using hj
            | none =>
                simp only [hfound] at hj ⊢
                obtain ⟨k, hk, hkv⟩ := Option.bind_eq_some_iff.mp hj
                rw [Option.ite_none_right_eq_some] at hkv
                rw [hk, Option.bind_some, if_pos hkv.1]
                exact ih k hkv.2
  exact within _ _ hv

end Store.Extends

end Extends

namespace Eval

def Extending {α : Type} (own : Option ScopeId) (p : Eval α) : Prop :=
  ∀ st, Ends p st (fun _ st' => st.Extends own st') fun _ st' => st.Extends own st'

variable {α β : Type} {own : Option ScopeId} {p : Eval α} {f : α → Eval β} {run : Runner}
  {scope : ScopeId}

section Steps

theorem extending_pure (a : α) : Extending own (pure a : Eval α) :=
  fun st => .pure (.refl own st)

theorem extending_throw (why : Halt) : Extending own (throw why : Eval α) :=
  fun st => .throw (.refl own st)

theorem Extending.bind (hp : Extending own p) (hf : ∀ a, Extending own (f a)) :
    Extending own (p >>= f) := by
  intro st
  constructor
  · intro b st' h
    obtain ⟨a, mid, ha, hb⟩ := bind_eq_ok h
    exact ((hp st).1 a mid ha).trans ((hf a mid).1 b st' hb)
  · intro e st' h
    cases ha : p st with
    | ok a mid =>
        rw [bind_ok ha] at h
        exact ((hp st).1 a mid ha).trans ((hf a mid).2 e st' h)
    | error e' mid =>
        rw [bind_error ha] at h
        cases h
        exact (hp st).2 e st' ha

theorem Extending.any (hp : Extending none p) : Extending own p :=
  fun st => ⟨fun a st' h => ((hp st).1 a st' h).any, fun e st' h => ((hp st).2 e st' h).any⟩

theorem Extending.ite {c : Prop} [Decidable c] {p q : Eval α} (hp : Extending own p)
    (hq : Extending own q) : Extending own (if c then p else q) := by
  split
  · exact hp
  · exact hq

theorem extending_modifyGet {g : Store → α × Store} (hg : ∀ st : Store, st.Extends own (g st).2) :
    Extending own (modifyGet g : Eval α) := by
  intro st
  refine ⟨fun a st' h => ?_, fun e st' h => (by cases h)⟩
  cases h
  exact hg st

theorem extending_fresh : Extending own fresh :=
  extending_modifyGet fun _ => .of_scopes rfl ⟨"", by simp⟩

theorem extending_print (text : String) : Extending own (print text) :=
  extending_modifyGet fun _ => .of_scopes rfl ⟨text, rfl⟩

theorem extending_assign (name : String) (v : Value) : Extending (some scope) (assign scope name v) :=
  extending_modifyGet fun st => .bind st scope name v

theorem extending_within (o : Option α) : Extending own (within o) := by
  cases o with
  | none => exact extending_throw _
  | some a => exact extending_pure a

theorem extending_lookup (name : String) : Extending own (lookup scope name) := by
  intro st
  refine ⟨fun a st' h => ?_, fun e st' h => (by cases h)⟩
  cases h
  exact .refl own st

theorem extending_printAll (depth : Nat) (vs : List Value) : Extending own (printAll depth vs) := by
  induction vs with
  | nil => exact extending_pure ()
  | cons v vs ih => exact (extending_within _).bind fun text => (extending_print _).bind fun _ => ih

theorem extending_assignAll (ps : List Ident) (vs : List Value) :
    Extending (some scope) (assignAll scope ps vs) := by
  induction ps generalizing vs with
  | nil => exact extending_pure ()
  | cons p ps ih =>
      cases vs with
      | nil => exact extending_pure ()
      | cons v vs => exact (extending_assign p.name v).bind fun _ => ih vs

theorem extending_child (outer : ScopeId) {f : ScopeId → Eval α}
    (hf : ∀ inner, Extending (some inner) (f inner)) : Extending own (child outer >>= f) := by
  refine Extending.any fun st => ?_
  have hnew (i : ScopeId) (hi : i < st.scopes.size) (h : some st.scopes.size = some i) :
      none = some i :=
    absurd (Option.some.inj h) (Nat.ne_of_gt hi)
  have hpush := Store.Extends.push st (some outer)
  obtain ⟨hok, herror⟩ := hf st.scopes.size (st.child outer).2
  exact ⟨fun a st' h => hpush.trans_of (hok a st' h) hnew,
    fun e st' h => hpush.trans_of (herror e st' h) hnew⟩

end Steps

section Parts

variable (h : ∀ c scope, Extending (some scope) (run c scope))

include h

theorem extending_call (depth : Nat) (g : Value) (args : List Value) :
    Extending own (call depth run g args) := by
  cases g with
  | function stamp ps b outer =>
      refine extending_child outer fun inner => ?_
      refine (extending_assignAll ps args).bind fun _ => ?_
      exact (h _ inner).bind fun v => extending_pure _
  | builtin g =>
      have hvalue : Extending own (do let stamp ← fresh; return g.value stamp args) :=
        extending_fresh.bind fun stamp => extending_pure _
      exact .ite ((extending_printAll depth args).bind fun _ => hvalue) hvalue
  | _ => exact extending_pure _

theorem extending_values (es : List Expr) : Extending (some scope) (values run scope es) := by
  induction es with
  | nil => exact extending_pure _
  | cons e es ih =>
      refine (h _ scope).bind fun v => ?_
      split
      · exact extending_pure _
      · refine ih.bind fun r => ?_
        cases r <;> exact extending_pure _

theorem extending_entries (ps : List (Expr × Expr)) (t : Table Value) :
    Extending (some scope) (entries run scope t ps) := by
  induction ps generalizing t with
  | nil => exact extending_pure _
  | cons p ps ih =>
      refine (h _ scope).bind fun k => ?_
      split
      · exact extending_pure _
      · split
        · exact extending_pure _
        · refine (h _ scope).bind fun v => ?_
          split
          · exact extending_pure _
          · exact ih _

theorem extending_loop (test : Expr) (body : Block) (rounds : Nat) :
    Extending (some scope) (loop run scope test body rounds) := by
  induction rounds with
  | zero => exact extending_throw _
  | succ n ih =>
      refine (h _ scope).bind fun c => .ite (extending_pure _) (.ite (extending_pure _) ?_)
      exact (h _ scope).bind fun v => .ite (extending_pure _) ih

omit h in
theorem extending_ident (s : Setting) (name : String) : Extending own (ident s scope name) := by
  refine (extending_lookup name).bind fun o => ?_
  cases o with
  | some v => exact extending_pure v
  | none =>
      dsimp only
      split <;> exact extending_pure _

theorem extending_seen {c : Code} {g : Value → Eval Value}
    (hg : ∀ v, Extending (some scope) (g v)) :
    Extending (some scope) (do
      let v ← run c scope
      if v.isError then return v
      g v) :=
  (h c scope).bind fun v => .ite (extending_pure v) (hg v)

theorem extending_binary (depth : Nat) (op : BinaryOp) (l r : Expr) :
    Extending (some scope) (binary depth run scope op l r) := by
  refine extending_seen h fun a => .ite (extending_pure _) (.ite (extending_pure _) ?_)
  refine extending_seen h fun b => .ite (extending_pure _) ?_
  exact extending_fresh.bind fun stamp => extending_within _

theorem extending_expr (s : Setting) (depth : Nat) (e : Expr) :
    Extending (some scope) (expr s depth run scope e) := by
  cases e with
  | missing => exact extending_throw _
  | foreign pos name => exact extending_throw _
  | ident i => exact extending_ident s i.name
  | int pos n => exact extending_pure _
  | double pos stamp x => exact extending_pure _
  | string pos t => exact extending_pure _
  | bool pos b => exact extending_pure _
  | array pos es =>
      refine (extending_values h es).bind fun r => ?_
      cases r with
      | error f => exact extending_pure _
      | ok vs => exact extending_fresh.bind fun stamp => extending_pure _
  | hash pos ps =>
      refine (extending_entries h ps []).bind fun r => ?_
      cases r with
      | error f => exact extending_pure _
      | ok t => exact extending_fresh.bind fun stamp => extending_pure _
  | range pos lo hi => exact extending_seen h fun a => extending_seen h fun b => extending_pure _
  | unary pos op e =>
      exact extending_seen h fun v => extending_fresh.bind fun stamp => extending_pure _
  | binary pos op l r => exact extending_binary h depth op l r
  | cond pos t yes no =>
      refine extending_seen h fun c => .ite (h _ scope) ?_
      cases no with
      | none => exact extending_pure _
      | some b => exact h _ scope
  | loop pos t b => exact extending_loop h t b s.rounds
  | fn pos ps b => exact extending_fresh.bind fun stamp => extending_pure _
  | call pos f args =>
      refine extending_seen h fun callee => (extending_values h args).bind fun r => ?_
      cases r with
      | error f => exact extending_pure _
      | ok vs => exact extending_call h depth callee vs
  | index pos c i =>
      refine extending_seen h fun a => extending_seen h fun b => ?_
      exact extending_fresh.bind fun stamp => extending_pure _

theorem extending_stmt (x : Stmt) : Extending (some scope) (stmt run scope x) := by
  cases x with
  | expr pos e => exact h _ scope
  | bind pos name e =>
      refine extending_seen h fun v => ?_
      exact (extending_assign name.name v).bind fun _ => extending_pure v
  | ret pos e =>
      cases e with
      | none => exact extending_pure _
      | some e => exact extending_seen h fun v => extending_pure _
  | block b => exact h _ scope
  | foreign pos name => exact extending_throw _

theorem extending_stmts (xs : List Stmt) (last : Value) :
    Extending (some scope) (stmts run scope last xs) := by
  induction xs generalizing last with
  | nil => exact extending_pure last
  | cons x xs ih =>
      exact (extending_stmt h x).bind fun v => .ite (extending_pure v) (ih v)

end Parts

theorem extending_run (s : Setting) (depth : Nat) (c : Code) (scope : ScopeId) :
    Extending (some scope) (Eval.run s depth c scope) := by
  induction depth generalizing c scope with
  | zero => exact extending_throw _
  | succ depth ih =>
      cases c with
      | expr e => exact extending_expr ih s depth e
      | block b => exact extending_stmts ih b.stmts .null

/-- A program, a statement, an expression or a block may change the scope it is run in, where it
unbinds no name, and no other scope that was there before. A call changes none of them, the one that
the function was made in included, so that all names found there still stand for the same values. -/
theorem run_changes_own_scope_only (s : Setting) :
    (∀ scope prog, Extending (some scope) (program s scope prog)) ∧
    (∀ scope x, Extending (some scope) (node s scope x)) ∧
    (∀ f args, Extending none (apply s f args)) ∧
    ∀ f args st v st', apply s f args st = .ok v st' →
      ∀ i name w, st.find? i name = some w → st'.find? i name = some w := by
  have hcall (f : Value) (args : List Value) : Extending none (apply s f args) :=
    extending_call (extending_run s s.depth) s.depth f args
  refine ⟨fun scope prog => ?_, fun scope x => ?_, hcall, fun f args st v st' hv i name w hw => ?_⟩
  · have hstmts : Extending (some scope) (stmts (Eval.run s s.depth) scope .null prog.stmts) :=
      extending_stmts (extending_run s s.depth) prog.stmts .null
    exact hstmts.bind fun v => extending_pure v.settle
  · cases x with
    | expr e => exact extending_run s s.depth (.expr e) scope
    | stmt x => exact extending_stmt (extending_run s s.depth) x
    | block b => exact extending_run s s.depth (.block b) scope
  · exact ((hcall f args st).1 v st' hv).find? hw

theorem run_changes_own_scope_only_shadow :
    let st : Store := ⟨#[⟨[("x", .integer 1)], none⟩], "", 2⟩
    let body : Block := .mk Pos.start [.bind Pos.start ⟨Pos.start, "x"⟩ (.int Pos.start 2)]
    let st' : Store := ⟨#[⟨[("x", .integer 1)], none⟩, ⟨[("x", .integer 2)], some 0⟩], "", 2⟩
    apply ⟨[], 9, 9⟩ (.function 1 [] body 0) [] st = .ok (.integer 2) st' ∧
      st.Extends none st' ∧ st'.find? 0 "x" = some (.integer 1) := by
  intro st body st'
  obtain ⟨-, -, hcall, hfind⟩ := run_changes_own_scope_only ⟨[], 9, 9⟩
  have hrun : apply ⟨[], 9, 9⟩ (.function 1 [] body 0) [] st = .ok (.integer 2) st' := rfl
  exact ⟨hrun, (hcall _ _ st).1 _ st' hrun, hfind _ _ st _ st' hrun 0 "x" _ rfl⟩

end Eval

end Marmoset
