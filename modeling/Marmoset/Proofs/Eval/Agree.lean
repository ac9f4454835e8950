import Marmoset.Proofs.Eval.Invariant
import Marmoset.Proofs.Value.Parts

/-!
Two runs of a program that differ only in what the program never looks at. Both come to the same end,
and the values that come up in them have functions in known scopes only.
-/

namespace Marmoset.Eval

/-- What a run asks for in order to agree with another one, in stores in `S`. The program has `Q` at
every node. It is in scopes in `A`, and comes upon values with `K`, whose functions have `Q` and `A`. -/
structure Agreement (s s' : Setting) (Q : Node → Prop) (A : ScopeId → Prop) (T : Table Value → Prop)
    (K : Value → Prop) (S : Store → Store → Prop) : Prop extends Value.Stable T K where
  error (f : Failure) : K (.error f)
  returned {v : Value} : K v → K (.returned v)
  integer (n : Int) : K (.integer n)
  builtin (f : Builtin) : K (.builtin f)
  function {stamp : Stamp} {ps : List Ident} {b : Block} {i : ScopeId} :
    K (.function stamp ps b i) ↔ Node.Every Q (.block b) ∧ A i
  rounds : s'.rounds = s.rounds
  registry {i : Ident} : Q (.expr (.ident i)) → s'.registry.lookup i.name = s.registry.lookup i.name
  fresh : Agrees S (fun _ => True) fresh fresh
  print (text : String) : Agrees S (fun _ => True) (print text) (print text)
  assign {i : ScopeId} {v : Value} (name : String) : K v →
    Agrees S (fun _ => True) (assign i name v) (assign i name v)
  child {i : ScopeId} : A i → Agrees S A (child i) (child i)
  lookup {scope : ScopeId} {i : Ident} : A scope → Q (.expr (.ident i)) →
    Agrees S (fun o => ∀ v ∈ o, K v) (lookup scope i.name) (lookup scope i.name)

variable {s s' : Setting} {Q : Node → Prop} {A : ScopeId → Prop} {T : Table Value → Prop}
  {K : Value → Prop} {S : Store → Store → Prop}

theorem agrees_within {α : Type} {P : α → Prop} {o : Option α} (h : ∀ a ∈ o, P a) :
    Agrees S P (within o) (within o) := by
  cases o with
  | none => exact agrees_throw _
  | some a => exact agrees_pure (h a rfl)

section Store

variable (hS : Agreement s s' Q A T K S)

include hS

theorem Agreement.made {v : Value} (h : v.Made K) : K v := by
  rcases h with h | ⟨f, rfl⟩
  · exact h
  · exact hS.error f

theorem agrees_printAll (depth : Nat) (vs : List Value) :
    Agrees S (fun _ => True) (printAll depth vs) (printAll depth vs) := by
  induction vs with
  | nil => exact agrees_pure trivial
  | cons v vs ih =>
      have htext : Agrees S (fun _ => True) (within (v.text? depth)) (within (v.text? depth)) :=
        agrees_within fun _ _ => trivial
      exact htext.bind fun text _ => (hS.print (text ++ "\n")).bind fun _ _ => ih

theorem agrees_assignAll (i : ScopeId) (ps : List Ident) {vs : List Value} (hvs : ∀ v ∈ vs, K v) :
    Agrees S (fun _ => True) (assignAll i ps vs) (assignAll i ps vs) := by
  induction ps generalizing vs with
  | nil => exact agrees_pure trivial
  | cons p ps ih =>
      cases vs with
      | nil => exact agrees_pure trivial
      | cons v vs =>
          obtain ⟨hv, hvs⟩ := List.forall_mem_cons.mp hvs
          exact (hS.assign p.name hv).bind fun _ _ => ih hvs

theorem agrees_ident {scope : ScopeId} (hscope : A scope) {i : Ident} (hi : Q (.expr (.ident i))) :
    Agrees S K (ident s scope i.name) (ident s' scope i.name) := by
  refine (hS.lookup hscope hi).bind fun o ho => ?_
  cases o with
  | some v => exact agrees_pure (ho v rfl)
  | none =>
      dsimp only
      rw [hS.registry hi]
      cases s.registry.lookup i.name with
      | some f => exact agrees_pure (hS.builtin f)
      | none => exact agrees_pure (hS.error _)

end Store

section Parts

variable {run run' : Runner} {scope : ScopeId} (hS : Agreement s s' Q A T K S)
  (h : ∀ c i, A i → Node.Every Q c.node → Agrees S K (run c i) (run' c i)) (hscope : A scope)

include h hscope

theorem agrees_seen {e : Expr} (he : Node.Every Q (.expr e)) {g g' : Value → Eval Value}
    (hg : ∀ v, K v → Agrees S K (g v) (g' v)) :
    Agrees S K
      (do
        let v ← run (.expr e) scope
        if v.isError then return v
        g v)
      (do
        let v ← run' (.expr e) scope
        if v.isError then return v
        g' v) :=
  (h (.expr e) scope hscope he).bind fun v hv => .ite (agrees_pure hv) (hg v hv)

theorem agrees_values {es : List Expr} (hes : ∀ e ∈ es, Node.Every Q (.expr e)) :
    Agrees S (fun r => ∀ vs, r = .ok vs → ∀ v ∈ vs, K v) (values run scope es)
      (values run' scope es) := by
  induction es with
  | nil =>
      refine agrees_pure fun vs hvs => ?_
      cases hvs
      exact List.forall_mem_nil _
  | cons e es ih =>
      obtain ⟨he, hes⟩ := List.forall_mem_cons.mp hes
      refine (h (.expr e) scope hscope he).bind fun v hv => ?_
      cases v with
      | error f => exact agrees_pure fun _ hr => by cases hr
      | _ =>
          refine (ih hes).bind fun r hr => ?_
          cases r with
          | error f => exact agrees_pure fun _ hr => by cases hr
          | ok vs =>
              refine agrees_pure fun ws hws => ?_
              cases hws
              exact List.forall_mem_cons.mpr ⟨hv, hr vs rfl⟩

theorem agrees_loop {test : Expr} {body : Block} (hnull : K .null) (htest : Node.Every Q (.expr test))
    (hbody : Node.Every Q (.block body)) (rounds : Nat) :
    Agrees S K (loop run scope test body rounds) (loop run' scope test body rounds) := by
  induction rounds with
  | zero => exact agrees_throw _
  | succ n ih =>
      refine agrees_seen h hscope htest fun c _ => .ite (agrees_pure hnull) ?_
      exact (h (.block body) scope hscope hbody).bind fun v hv => .ite (agrees_pure hv) ih

include hS

theorem agrees_entries {ps : List (Expr × Expr)} (hps : ∀ p ∈ ps, Node.Every Q (.expr p.1) ∧
    Node.Every Q (.expr p.2)) {t : Table Value} (ht : T t) :
    Agrees S (fun r => ∀ t, r = .ok t → T t) (entries run scope t ps) (entries run' scope t ps) := by
  induction ps generalizing t with
  | nil =>
      refine agrees_pure fun u hu => ?_
      cases hu
      exact ht
  | cons p ps ih =>
      obtain ⟨⟨hkey, hvalue⟩, hps⟩ := List.forall_mem_cons.mp hps
      refine (h (.expr p.1) scope hscope hkey).bind fun k hk => ?_
      cases k with
      | integer _ | boolean _ | string _ =>
          refine (h (.expr p.2) scope hscope hvalue).bind fun v hv => ?_
          have hrest := ih hps (hS.insert ht hk rfl hv)
          cases v with
          | error f => exact agrees_pure fun _ hr => by cases hr
          | _ => exact hrest
      | _ => exact agrees_pure fun _ hr => by cases hr

omit hscope

theorem agrees_call (depth : Nat) {f : Value} {args : List Value} (hf : K f) (hargs : ∀ v ∈ args, K v) :
    Agrees S K (call depth run f args) (call depth run' f args) := by
  cases f with
  | function stamp ps b outer =>
      obtain ⟨hbody, houter⟩ := hS.function.mp hf
      refine (hS.child houter).bind fun inner hinner => ?_
      refine (agrees_assignAll hS inner ps hargs).bind fun _ _ => ?_
      refine (h (.block b) inner hinner hbody).bind fun v hv => ?_
      exact agrees_pure (hS.made (hS.settle (.inl (.inl hv))))
  | builtin f =>
      have hvalue : Agrees S K (do let stamp ← fresh; return f.value stamp args)
          (do let stamp ← fresh; return f.value stamp args) :=
        hS.fresh.bind fun m _ =>
          agrees_pure (hS.made (hS.toStable.builtin hargs fun _ _ _ _ _ => hS.integer _))
      exact .ite ((agrees_printAll hS depth args).bind fun _ _ => hvalue) hvalue
  | _ => exact agrees_pure (hS.error _)

include hscope

theorem agrees_binary (depth : Nat) (op : BinaryOp) {a b : Expr} (ha : Node.Every Q (.expr a))
    (hb : Node.Every Q (.expr b)) :
    Agrees S K (binary depth run scope op a b) (binary depth run' scope op a b) := by
  refine agrees_seen h hscope ha fun v hv => ?_
  refine .ite (agrees_pure (hS.boolean _)) (.ite (agrees_pure (hS.boolean _)) ?_)
  refine agrees_seen h hscope hb fun w hw => .ite (agrees_pure (hS.boolean _)) ?_
  refine hS.fresh.bind fun m _ => agrees_within fun u hu => ?_
  exact hS.made (hS.binary (.inl (.inl hv)) (.inl (.inl hw)) hu)

theorem agrees_expr (depth : Nat) {e : Expr} (he : Node.Every Q (.expr e)) :
    Agrees S K (expr s depth run scope e) (expr s' depth run' scope e) := by
  have child {x : Node} (hx : x ∈ (Node.expr e).children) : Node.Every Q x := he.child hx
  cases e with
  | missing => exact agrees_throw _
  | foreign pos name => exact agrees_throw _
  | ident i => exact agrees_ident hS hscope he.self
  | int pos n => exact agrees_pure (hS.integer n)
  | double pos stamp x => exact agrees_pure (hS.double _ _)
  | string pos t => exact agrees_pure (hS.string _)
  | bool pos b => exact agrees_pure (hS.boolean _)
  | array pos es =>
      refine (agrees_values h hscope fun e he => child (List.mem_map_of_mem he)).bind fun r hr => ?_
      cases r with
      | error f => exact agrees_pure (hS.error f)
      | ok vs => exact hS.fresh.bind fun m _ => agrees_pure (hS.array.mpr (hr vs rfl))
  | hash pos ps =>
      refine (agrees_entries hS h hscope (fun p hp => ?_) hS.nil).bind fun r hr => ?_
      · exact ⟨child (Node.mem_children_key hp), child (Node.mem_children_value hp)⟩
      · cases r with
        | error f => exact agrees_pure (hS.error f)
        | ok t => exact hS.fresh.bind fun m _ => agrees_pure (hS.hash.mpr (hr t rfl))
  | range pos lo hi =>
      refine agrees_seen h hscope (child (by simp [Node.children])) fun v hv => ?_
      refine agrees_seen h hscope (child (by simp [Node.children])) fun w hw => ?_
      exact agrees_pure (hS.made (hS.rangeOf (.inl (.inl hv)) (.inl (.inl hw))))
  | unary pos op e =>
      refine agrees_seen h hscope (child (by simp [Node.children])) fun v hv => ?_
      exact hS.fresh.bind fun m _ => agrees_pure (hS.made hS.unary)
  | binary pos op a b =>
      exact agrees_binary hS h hscope depth op (child (by simp [Node.children]))
        (child (by simp [Node.children]))
  | cond pos t yes no =>
      refine agrees_seen h hscope (child (by simp [Node.children])) fun c _ => .ite ?_ ?_
      · exact h (.block yes) scope hscope (child (by simp [Node.children, Code.node]))
      · cases no with
        | none => exact agrees_pure hS.null
        | some b => exact h (.block b) scope hscope (child (by simp [Node.children, Code.node]))
  | loop pos t b =>
      rw [expr, expr, hS.rounds]
      exact agrees_loop h hscope hS.null (child (by simp [Node.children]))
        (child (by simp [Node.children])) s.rounds
  | fn pos ps b =>
      refine hS.fresh.bind fun m _ => agrees_pure (hS.function.mpr ⟨?_, hscope⟩)
      exact child (by simp [Node.children])
  | call pos f args =>
      refine agrees_seen h hscope (child (by simp [Node.children])) fun callee hf => ?_
      refine (agrees_values h hscope fun e he => child ?_).bind fun r hr => ?_
      · simp [Node.children, he]
      · cases r with
        | error f => exact agrees_pure (hS.error f)
        | ok vs => exact agrees_call hS h depth hf (hr vs rfl)
  | index pos c i =>
      refine agrees_seen h hscope (child (by simp [Node.children])) fun v hv => ?_
      refine agrees_seen h hscope (child (by simp [Node.children])) fun w _ => ?_
      exact hS.fresh.bind fun m _ => agrees_pure (hS.made (hS.index (.inl (.inl hv))))

theorem agrees_stmt {x : Stmt} (hx : Node.Every Q (.stmt x)) :
    Agrees S K (stmt run scope x) (stmt run' scope x) := by
  have child {y : Node} (hy : y ∈ (Node.stmt x).children) : Node.Every Q y := hx.child hy
  cases x with
  | expr pos e => exact h (.expr e) scope hscope (child (by simp [Node.children, Code.node]))
  | bind pos name e =>
      refine agrees_seen h hscope (child (by simp [Node.children])) fun v hv => ?_
      exact (hS.assign name.name hv).bind fun _ _ => agrees_pure hv
  | ret pos e =>
      cases e with
      | none => exact agrees_pure (hS.returned hS.null)
      | some e =>
          refine agrees_seen h hscope (child (by simp [Node.children])) fun v hv => ?_
          exact agrees_pure (hS.returned hv)
  | block b => exact h (.block b) scope hscope (child (by simp [Node.children, Code.node]))
  | foreign pos name => exact agrees_throw _

theorem agrees_stmts {xs : List Stmt} (hxs : ∀ x ∈ xs, Node.Every Q (.stmt x)) {last : Value}
    (hlast : K last) : Agrees S K (stmts run scope last xs) (stmts run' scope last xs) := by
  induction xs generalizing last with
  | nil => exact agrees_pure hlast
  | cons x xs ih =>
      obtain ⟨hx, hxs⟩ := List.forall_mem_cons.mp hxs
      exact (agrees_stmt hS h hscope hx).bind fun v hv => .ite (agrees_pure hv) (ih hxs hv)

end Parts

section Run

variable {scope : ScopeId} (hS : Agreement s s' Q A T K S)

include hS

theorem agrees_run (depth : Nat) {c : Code} (hscope : A scope) (hc : Node.Every Q c.node) :
    Agrees S K (run s depth c scope) (run s' depth c scope) := by
  induction depth generalizing c scope with
  | zero => exact agrees_throw _
  | succ depth ih =>
      have hinside (c : Code) (i : ScopeId) (hi : A i) (hc : Node.Every Q c.node) := ih hi hc
      cases c with
      | expr e => exact agrees_expr hS hinside hscope depth hc
      | block b =>
          refine agrees_stmts hS hinside hscope (fun x hx => ?_) hS.null
          exact hc.child (List.mem_map_of_mem hx)

variable (hdepth : s'.depth = s.depth) (hscope : A scope)

include hdepth hscope

theorem agrees_node {x : Node} (hx : Node.Every Q x) :
    Agrees S K (node s scope x) (node s' scope x) := by
  cases x with
  | expr e =>
      rw [node, node, hdepth]
      exact agrees_run hS s.depth hscope hx
  | stmt x =>
      rw [node, node, hdepth]
      exact agrees_stmt hS (fun _ _ => agrees_run hS s.depth) hscope hx
  | block b =>
      rw [node, node, hdepth]
      exact agrees_run hS s.depth hscope hx

theorem agrees_program {p : Program} (hp : p.Every Q) :
    Agrees S K (program s scope p) (program s' scope p) := by
  rw [program, program, hdepth]
  refine (agrees_stmts hS (fun _ _ => agrees_run hS s.depth) hscope hp hS.null).bind fun v hv => ?_
  exact agrees_pure (hS.made (hS.settle (.inl (.inl hv))))

end Run

end Marmoset.Eval
