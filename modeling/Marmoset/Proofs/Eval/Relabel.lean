import Marmoset.Eval
import Marmoset.Proofs.Outcome
import Marmoset.Proofs.Store

namespace Marmoset

structure Relabeling.Respects (r : Relabeling) (S : Pairing Store Store) : Prop where
  fresh : Mirrors S r.stamp Eval.fresh Eval.fresh
  print (text : String) : Mirrors S id (Eval.print text) (Eval.print text)
  assign (i : ScopeId) (name : String) (v : Value) :
    Mirrors S id (Eval.assign i name v) (Eval.assign (r.scope i) name (v.relabel r))
  child (i : ScopeId) : Mirrors S r.scope (Eval.child i) (Eval.child (r.scope i))
  lookup (i : ScopeId) (name : String) :
    Mirrors S (Option.map (Value.relabel r)) (Eval.lookup i name) (Eval.lookup (r.scope i) name)

def Code.relabel (r : Relabeling) : Code → Code
  | .expr e => .expr (e.relabel r)
  | .block b => .block (b.relabel r)

section Pairing

/-- Stores with other labels, where the second one is `n` scopes and `m` stamps ahead. Both have
printed the same after `p` and `p'`. The first one is within the bounds `W` on scopes and stamps, and
gets lost where it comes to the bounds `L`. -/
def Relabeling.stores (r : Relabeling) (n m : Nat) (p p' : String) (W L : Nat → Nat → Prop) :
    Pairing Store Store where
  Rel st st' := st.Like r st' ∧ W st.scopes.size st.stamp ∧ st'.scopes.size = st.scopes.size + n ∧
    st'.stamp = st.stamp + m ∧ ∃ text, st.printed = p ++ text ∧ st'.printed = p' ++ text
  Lost st := L st.scopes.size st.stamp

structure Relabeling.InLine (r : Relabeling) (n m : Nat) (W L : Nat → Nat → Prop) : Prop where
  mono : StrictMono r.scope
  scope {i j : Nat} : W i j → L (i + 1) j ∨ r.scope i = i + n ∧ W (i + 1) j
  stamp {i j : Nat} : W i j → L i (j + 1) ∨ r.stamp j = j + m ∧ W i (j + 1)
  lost {i j : Nat} : L i j → L (i + 1) j ∧ L i (j + 1)

theorem Relabeling.InLine.respects {r : Relabeling} {n m : Nat} {W L : Nat → Nat → Prop}
    (h : r.InLine n m W L) (p p' : String) : r.Respects (r.stores n m p p' W L) where
  fresh := by
    refine mirrors_modifyGet (fun st hst => (h.lost hst).2) ?_
    rintro st st' ⟨hlike, hw, hsize, hstamp, htext⟩
    rcases h.stamp hw with hlost | ⟨hr, hw'⟩
    · exact .inl hlost
    · refine .inr ⟨hstamp.trans hr.symm, hlike, hw', hsize, ?_, htext⟩
      change st'.stamp + 1 = st.stamp + 1 + m
      rw [hstamp]
      exact Nat.add_right_comm _ _ _
  print text := by
    refine mirrors_modifyGet (fun st hst => hst) ?_
    rintro st st' ⟨hlike, hw, hsize, hstamp, old, hp, hp'⟩
    refine .inr ⟨rfl, hlike, hw, hsize, hstamp, old ++ text, ?_, ?_⟩
    · change st.printed ++ text = _
      rw [hp, String.append_assoc]
    · change st'.printed ++ text = _
      rw [hp', String.append_assoc]
  assign i name v := by
    have hbound (st : Store) (i : ScopeId) (v : Value) :
        (st.bind i name v).scopes.size = st.scopes.size := by simp [Store.bind]
    refine mirrors_modifyGet (fun st hst => ?_) ?_
    · change L (st.bind i name v).scopes.size st.stamp
      rwa [hbound]
    · rintro st st' ⟨hlike, hw, hsize, hstamp, htext⟩
      refine .inr ⟨rfl, hlike.bind h.mono i name v, ?_, ?_, hstamp, htext⟩
      · change W (st.bind i name v).scopes.size st.stamp
        rwa [hbound]
      · change (st'.bind (r.scope i) name (v.relabel r)).scopes.size = (st.bind i name v).scopes.size + n
        rwa [hbound, hbound]
  child i := by
    have hpush (st : Store) (i : ScopeId) : (st.child i).2.scopes.size = st.scopes.size + 1 := by
      simp [Store.child, Store.push]
    refine mirrors_modifyGet (fun st hst => ?_) ?_
    · change L (st.child i).2.scopes.size st.stamp
      rw [hpush]
      exact (h.lost hst).1
    · rintro st st' ⟨hlike, hw, hsize, hstamp, htext⟩
      change L (st.child i).2.scopes.size st.stamp ∨ _
      rw [hpush]
      rcases h.scope hw with hlost | ⟨hr, hw'⟩
      · exact .inl hlost
      · have hline : st'.scopes.size = r.scope st.scopes.size := hsize.trans hr.symm
        refine .inr ⟨hline, hlike.push h.mono hline (some i), ?_, ?_, hstamp, htext⟩
        · change W (st.child i).2.scopes.size st.stamp
          rwa [hpush]
        · rw [hpush, hpush]
          omega
  lookup i name := mirrors_get fun st st' hst => hst.1.find? h.mono i name

def Relabeling.inPlace (r : Relabeling) (p p' : String) : Pairing Store Store :=
  r.stores 0 0 p p' (fun _ _ => True) fun _ _ => False

theorem Relabeling.respects_inPlace {r : Relabeling} (hscope : r.scope = id) (hstamp : r.stamp = id)
    (p p' : String) : r.Respects (r.inPlace p p') := by
  refine InLine.respects ⟨?_, fun _ => .inr ⟨?_, trivial⟩, fun _ => .inr ⟨?_, trivial⟩, False.elim⟩ p p'
  · rw [hscope]
    exact strictMono_id
  · rw [hscope]
    rfl
  · rw [hstamp]
    rfl

theorem Relabeling.inPlace_iff {r : Relabeling} (hscope : r.scope = id) {p p' : String}
    {st st' : Store} : (r.inPlace p p').Rel st st' ↔
      st'.scopes = st.scopes.map (Scope.relabel r) ∧ st'.stamp = st.stamp ∧
        ∃ text, st.printed = p ++ text ∧ st'.printed = p' ++ text := by
  constructor
  · rintro ⟨hlike, -, -, hstamp, htext⟩
    refine ⟨Array.ext_getElem? fun i => ?_, hstamp, htext⟩
    rw [Array.getElem?_map, ← hlike i, hscope]
    rfl
  · rintro ⟨hscopes, hstamp, htext⟩
    refine ⟨fun i => ?_, trivial, ?_, hstamp, htext⟩
    · rw [hscopes, hscope, Array.getElem?_map]
      rfl
    · rw [hscopes, Array.size_map]
      rfl

def Store.unplaced (st : Store) : Store :=
  { st with scopes := st.scopes.map (Scope.relabel .unplaced) }

theorem Store.unplaced_iff {st st' : Store} :
    (Relabeling.unplaced.inPlace "" "").Rel st st' ↔ st' = st.unplaced := by
  rw [Relabeling.inPlace_iff rfl]
  constructor
  · rintro ⟨hscopes, hstamp, text, hp, hp'⟩
    obtain ⟨scopes, printed, stamp⟩ := st'
    obtain rfl : scopes = _ := hscopes
    obtain rfl : stamp = _ := hstamp
    obtain rfl : printed = _ := hp'.trans hp.symm
    rfl
  · rintro rfl
    exact ⟨rfl, rfl, st.printed, by simp, by simp [unplaced]⟩

end Pairing

namespace Eval

variable {r : Relabeling} {S : Pairing Store Store}

theorem mirrors_within {α β : Type} (f : α → β) (o : Option α) :
    Mirrors S f (within o) (within (o.map f)) := by
  cases o with
  | none => exact mirrors_throw _
  | some a => exact mirrors_pure rfl

section Store

variable (hS : r.Respects S)

include hS

theorem mirrors_printAll (depth : Nat) (vs : List Value) :
    Mirrors S id (printAll depth vs) (printAll depth (vs.map (Value.relabel r))) := by
  induction vs with
  | nil => exact mirrors_pure rfl
  | cons v vs ih =>
      have htext : Mirrors S id (within (v.text? depth)) (within ((v.relabel r).text? depth)) := by
        rw [Value.text?_relabel]
        simpa using mirrors_within id (v.text? depth)
      exact htext.bind fun t => (hS.print (t ++ "\n")).bind fun _ => ih

theorem mirrors_assignAll (i : ScopeId) (ps : List Ident) (vs : List Value) :
    Mirrors S id (assignAll i ps vs)
      (assignAll (r.scope i) (ps.map (Ident.relabel r)) (vs.map (Value.relabel r))) := by
  induction ps generalizing vs with
  | nil => exact mirrors_pure rfl
  | cons p ps ih =>
      cases vs with
      | nil => exact mirrors_pure rfl
      | cons v vs => exact (hS.assign i p.name v).bind fun _ => ih vs

theorem mirrors_ident (s : Setting) (scope : ScopeId) (name : String) :
    Mirrors S (Value.relabel r) (ident s scope name) (ident s (r.scope scope) name) := by
  refine (hS.lookup scope name).bind fun o => ?_
  cases o with
  | some v => exact mirrors_pure rfl
  | none =>
      dsimp only [Option.map_none]
      cases s.registry.lookup name <;> exact mirrors_pure rfl

end Store

section Parts

variable {run run' : Runner} {scope : ScopeId} (hS : r.Respects S)
  (h : ∀ c scope, Mirrors S (Value.relabel r) (run c scope) (run' (c.relabel r) (r.scope scope)))

include h

theorem mirrors_seen {c : Code} {g g' : Value → Eval Value}
    (hg : ∀ v, Mirrors S (Value.relabel r) (g v) (g' (v.relabel r))) :
    Mirrors S (Value.relabel r)
      (do
        let v ← run c scope
        if v.isError then return v
        g v)
      (do
        let v ← run' (c.relabel r) (r.scope scope)
        if v.isError then return v
        g' v) :=
  (h c scope).bind fun v => .ite (by rw [Value.isError_relabel]) (mirrors_pure rfl) (hg v)

theorem mirrors_values (scope : ScopeId) (es : List Expr) :
    Mirrors S (Except.map (List.map (Value.relabel r))) (values run scope es)
      (values run' (r.scope scope) (es.map (Expr.relabel r))) := by
  induction es with
  | nil => exact mirrors_pure rfl
  | cons e es ih =>
      refine (h (.expr e) scope).bind fun v => ?_
      cases v with
      | error f => exact mirrors_pure rfl
      | _ =>
          refine ih.bind fun x => ?_
          cases x <;> exact mirrors_pure rfl

theorem mirrors_entries (scope : ScopeId) (ps : List (Expr × Expr)) (t : Table Value) :
    Mirrors S (Except.map (List.map (Entry.map (Value.relabel r)))) (entries run scope t ps)
      (entries run' (r.scope scope) (t.map (Entry.map (Value.relabel r)))
        (ps.map fun p => (p.1.relabel r, p.2.relabel r))) := by
  induction ps generalizing t with
  | nil => exact mirrors_pure rfl
  | cons p ps ih =>
      refine (h (.expr p.1) scope).bind fun k => ?_
      cases k with
      | integer _ | boolean _ | string _ =>
          refine (h (.expr p.2) scope).bind fun v => ?_
          have hrest (id : Key) (k : Value) := ih (t.insert ⟨id, k, v⟩)
          simp only [← Table.insert_map] at hrest
          cases v with
          | error f => exact mirrors_pure rfl
          | _ => exact hrest _ _
      | _ => exact mirrors_pure rfl

theorem mirrors_loop (test : Expr) (body : Block) (rounds : Nat) :
    Mirrors S (Value.relabel r) (loop run scope test body rounds)
      (loop run' (r.scope scope) (test.relabel r) (body.relabel r) rounds) := by
  induction rounds with
  | zero => exact mirrors_throw _
  | succ n ih =>
      refine mirrors_seen h fun c => .ite (by rw [Value.truthy_relabel]) (mirrors_pure rfl) ?_
      exact (h (.block body) scope).bind fun v =>
        .ite (by rw [Value.leaves_relabel]) (mirrors_pure rfl) ih

include hS

theorem mirrors_call (depth : Nat) (f : Value) (args : List Value) :
    Mirrors S (Value.relabel r) (call depth run f args)
      (call depth run' (f.relabel r) (args.map (Value.relabel r))) := by
  cases f with
  | function stamp ps b outer =>
      refine (hS.child outer).bind fun i => ?_
      refine (mirrors_assignAll hS i ps args).bind fun _ => ?_
      exact (h (.block b) i).bind fun v => mirrors_pure (Value.settle_relabel r v)
  | builtin f =>
      have hvalue : Mirrors S (Value.relabel r) (do let stamp ← fresh; return f.value stamp args)
          (do let stamp ← fresh; return f.value stamp (args.map (Value.relabel r))) :=
        hS.fresh.bind fun m => mirrors_pure (Builtin.value_relabel r f m args)
      exact .ite Iff.rfl ((mirrors_printAll hS depth args).bind fun _ => hvalue) hvalue
  | _ => exact mirrors_pure rfl

theorem mirrors_binary (depth : Nat) (op : BinaryOp) (a b : Expr) :
    Mirrors S (Value.relabel r) (binary depth run scope op a b)
      (binary depth run' (r.scope scope) op (a.relabel r) (b.relabel r)) := by
  refine mirrors_seen h fun v => ?_
  refine .ite (by rw [Value.truthy_relabel]) (mirrors_pure rfl) ?_
  refine .ite (by rw [Value.truthy_relabel]) (mirrors_pure rfl) ?_
  refine mirrors_seen h fun w => .ite Iff.rfl (mirrors_pure ?_) ?_
  · rw [Value.truthy_relabel]
    rfl
  · refine hS.fresh.bind fun m => ?_
    rw [Value.binary_relabel]
    exact mirrors_within _ _

theorem mirrors_expr (s : Setting) (depth : Nat) (e : Expr) :
    Mirrors S (Value.relabel r) (expr s depth run scope e)
      (expr s depth run' (r.scope scope) (e.relabel r)) := by
  cases e with
  | missing => exact mirrors_throw _
  | foreign pos name => exact mirrors_throw _
  | ident i => exact mirrors_ident hS s scope i.name
  | int pos n => exact mirrors_pure rfl
  | double pos stamp x => exact mirrors_pure rfl
  | string pos t => exact mirrors_pure rfl
  | bool pos b => exact mirrors_pure rfl
  | array pos es =>
      have hvalues := mirrors_values h scope es
      rw [← Expr.relabelAll_eq_map] at hvalues
      refine hvalues.bind fun x => ?_
      cases x with
      | error f => exact mirrors_pure rfl
      | ok vs => exact hS.fresh.bind fun m => mirrors_pure (Value.relabel_array r m vs).symm
  | hash pos ps =>
      have hentries := mirrors_entries h scope ps []
      rw [← Expr.relabelPairs_eq_map] at hentries
      refine hentries.bind fun x => ?_
      cases x with
      | error f => exact mirrors_pure rfl
      | ok t => exact hS.fresh.bind fun m => mirrors_pure (Value.relabel_hash r m t).symm
  | range pos lo hi =>
      exact mirrors_seen h fun v => mirrors_seen h fun w => mirrors_pure (Value.rangeOf_relabel r v w)
  | unary pos op e =>
      refine mirrors_seen h fun v => ?_
      exact hS.fresh.bind fun m => mirrors_pure (Value.unary_relabel r m v op)
  | binary pos op a b => exact mirrors_binary hS h depth op a b
  | cond pos t yes no =>
      refine mirrors_seen h fun c => .ite (by rw [Value.truthy_relabel]) (h (.block yes) scope) ?_
      cases no with
      | none => exact mirrors_pure rfl
      | some b => exact h (.block b) scope
  | loop pos t b => exact mirrors_loop h t b s.rounds
  | fn pos ps b => exact hS.fresh.bind fun m => mirrors_pure rfl
  | call pos f args =>
      refine mirrors_seen h fun callee => ?_
      have hvalues := mirrors_values h scope args
      rw [← Expr.relabelAll_eq_map] at hvalues
      refine hvalues.bind fun x => ?_
      cases x with
      | error f => exact mirrors_pure rfl
      | ok vs => exact mirrors_call hS h depth callee vs
  | index pos c i =>
      refine mirrors_seen h fun v => mirrors_seen h fun w => ?_
      exact hS.fresh.bind fun m => mirrors_pure (Value.index_relabel r m v w)

theorem mirrors_stmt (x : Stmt) :
    Mirrors S (Value.relabel r) (stmt run scope x) (stmt run' (r.scope scope) (x.relabel r)) := by
  cases x with
  | expr pos e => exact h (.expr e) scope
  | bind pos name e =>
      refine mirrors_seen h fun v => ?_
      exact (hS.assign scope name.name v).bind fun _ => mirrors_pure rfl
  | ret pos e =>
      cases e with
      | none => exact mirrors_pure rfl
      | some e => exact mirrors_seen h fun v => mirrors_pure rfl
  | block b => exact h (.block b) scope
  | foreign pos name => exact mirrors_throw _

theorem mirrors_stmts (scope : ScopeId) (xs : List Stmt) (last : Value) :
    Mirrors S (Value.relabel r) (stmts run scope last xs)
      (stmts run' (r.scope scope) (last.relabel r) (xs.map (Stmt.relabel r))) := by
  induction xs generalizing last with
  | nil => exact mirrors_pure rfl
  | cons x xs ih =>
      exact (mirrors_stmt hS h x).bind fun v =>
        .ite (by rw [Value.leaves_relabel]) (mirrors_pure rfl) (ih v)

end Parts

variable (hS : r.Respects S)

include hS

theorem mirrors_run (s : Setting) (depth : Nat) (c : Code) (scope : ScopeId) :
    Mirrors S (Value.relabel r) (run s depth c scope) (run s depth (c.relabel r) (r.scope scope)) := by
  induction depth generalizing c scope with
  | zero => exact mirrors_throw _
  | succ depth ih =>
      cases c with
      | expr e => exact mirrors_expr hS ih s depth e
      | block b =>
          have hstmts := mirrors_stmts hS ih scope b.stmts .null
          rw [← Block.stmts_relabel] at hstmts
          exact hstmts

theorem mirrors_program (s : Setting) (scope : ScopeId) (p : Program) :
    Mirrors S (Value.relabel r) (program s scope p) (program s (r.scope scope) (p.relabel r)) := by
  refine (mirrors_stmts hS (mirrors_run hS s s.depth) scope p.stmts .null).bind fun v => ?_
  exact mirrors_pure (Value.settle_relabel r v)

end Eval

end Marmoset
