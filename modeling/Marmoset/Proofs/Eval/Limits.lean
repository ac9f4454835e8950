import Marmoset.Proofs.Session
import Marmoset.Proofs.Value.Equal

/-!
Runs with other limits. A run that was not stopped by a limit comes to the same end with more levels and
more rounds, so that it makes sense to say what a part of a program comes to when nothing limits it.
-/

namespace Marmoset

section Levels

variable {d d' : Nat} (hd : d ≤ d')

include hd

theorem Node.fits_mono {x : Node} (h : x.fits d = true) : x.fits d' = true := by
  induction d generalizing d' x with
  | zero => cases h
  | succ d ih =>
      obtain ⟨d', rfl⟩ := Nat.exists_eq_add_of_le' hd
      rw [Node.fits, List.all_eq_true] at h
      rw [Nat.add_succ, Node.fits, List.all_eq_true]
      exact fun y hy => ih (Nat.le_add_left d d') (h y hy)

namespace Value

theorem fits_mono {v : Value} (h : v.fits d = true) : v.fits d' = true := by
  induction d generalizing d' v with
  | zero => cases h
  | succ d ih =>
      obtain ⟨d', rfl⟩ := Nat.exists_eq_add_of_le' hd
      have hle : d ≤ d' + d := Nat.le_add_left d d'
      cases v with
      | array s vs =>
          simp only [fits, List.all_eq_true] at h ⊢
          exact fun w hw => ih hle (h w hw)
      | hash s t =>
          simp only [fits, List.all_eq_true, Bool.and_eq_true] at h ⊢
          exact fun e he => ⟨ih hle (h e he).1, ih hle (h e he).2⟩
      | function s ps body i => exact Node.fits_mono hle h
      | returned w => exact ih (v := w) hle h
      | _ => rfl

theorem text?_mono {v : Value} {text : String} (h : v.text? d = some text) : v.text? d' = some text := by
  unfold text? at h ⊢
  split at h
  · rwa [if_pos (fits_mono hd ‹_›)]
  · cases h

theorem without?_mono {x : Value} {ys zs : List Value} (h : without? d x ys = some zs) :
    without? d' x ys = some zs := by
  induction ys generalizing zs with
  | nil => exact h
  | cons y ys ih =>
      rw [without?] at h ⊢
      cases hsame : same? d y x with
      | none => simp [hsame] at h
      | some b =>
          rw [same?_mono hd y x b hsame]
          rw [hsame] at h
          cases b with
          | true => exact h
          | false =>
              obtain ⟨rest, hrest, rfl⟩ := Option.map_eq_some_iff.mp h
              exact Option.map_eq_some_iff.mpr ⟨rest, ih hrest, rfl⟩

theorem difference?_mono {xs ys zs : List Value} (h : difference? d xs ys = some zs) :
    difference? d' xs ys = some zs := by
  induction ys generalizing xs with
  | nil => exact h
  | cons y ys ih =>
      obtain ⟨rest, hrest, hzs⟩ := Option.bind_eq_some_iff.mp h
      exact Option.bind_eq_some_iff.mpr ⟨rest, without?_mono hd hrest, ih hzs⟩

theorem compared_mono {op : BinaryOp} {v w u : Value} (h : compared d op v w = some u) :
    compared d' op v w = some u := by
  cases op with
  | eq | ne =>
      obtain ⟨b, hb, rfl⟩ := Option.map_eq_some_iff.mp h
      exact Option.map_eq_some_iff.mpr ⟨b, same?_mono hd v w b hb, rfl⟩
  | _ => exact h

theorem binary_mono {m : Stamp} {op : BinaryOp} {v w u : Value} (h : binary d m op v w = some u) :
    binary d' m op v w = some u := by
  have hcompared := @compared_mono d d' hd op v w u
  cases v with
  | integer a =>
      cases w with
      | integer | double => exact h
      | _ => exact hcompared h
  | double s x =>
      cases w with
      | integer | double => exact h
      | _ => exact hcompared h
  | string x =>
      cases w with
      | string => exact h
      | integer n =>
          cases op with
          | add | mul => exact h
          | _ => exact hcompared h
      | _ => exact hcompared h
  | array s xs =>
      cases w with
      | array s' ys =>
          cases op with
          | add => exact h
          | sub =>
              obtain ⟨zs, hzs, rfl⟩ := Option.map_eq_some_iff.mp h
              exact Option.map_eq_some_iff.mpr ⟨zs, difference?_mono hd hzs, rfl⟩
          | _ => exact hcompared h
      | _ => exact hcompared h
  | hash s t =>
      cases w with
      | hash s' t' =>
          cases op with
          | add | sub => exact h
          | _ => exact hcompared h
      | _ => exact hcompared h
  | _ => exact hcompared h

end Value

end Levels

namespace Eval

abbrev Lasts {α : Type} (p q : Eval α) : Prop := Outlasts Halt.IsLimit p q

section Steps

variable {d d' : Nat} {run run' : Runner} {scope : ScopeId} (hd : d ≤ d')
  (h : ∀ c i, Lasts (run c i) (run' c i))

theorem lasts_within {α : Type} {o o' : Option α} (h : ∀ a, o = some a → o' = some a) :
    Lasts (within o) (within o') := by
  cases o with
  | none => exact outlasts_throw trivial
  | some a =>
      rw [h a rfl]
      exact .refl _

include hd in
theorem lasts_printAll (vs : List Value) : Lasts (printAll d vs) (printAll d' vs) := by
  induction vs with
  | nil => exact .refl _
  | cons v vs ih =>
      have htext : Lasts (within (v.text? d)) (within (v.text? d')) :=
        lasts_within fun _ => Value.text?_mono hd
      unfold printAll
      infer_instance

include h

theorem lasts_values (es : List Expr) : Lasts (values run scope es) (values run' scope es) := by
  induction es with
  | nil => exact .refl _
  | cons e es ih =>
      have he := h (.expr e) scope
      refine Outlasts.bind (k := fun v => ?_)
      cases v with
      | error f => exact .refl _
      | _ =>
          refine Outlasts.bind (k := fun r => ?_)
          cases r <;> exact .refl _

theorem lasts_entries (t : Table Value) (ps : List (Expr × Expr)) :
    Lasts (entries run scope t ps) (entries run' scope t ps) := by
  induction ps generalizing t with
  | nil => exact .refl _
  | cons p ps ih =>
      have hkey := h (.expr p.1) scope
      have hvalue := h (.expr p.2) scope
      refine Outlasts.bind (k := fun key => ?_)
      cases key with
      | integer _ | boolean _ | string _ =>
          refine Outlasts.bind (k := fun v => ?_)
          cases v with
          | error f => exact .refl _
          | _ => exact ih _
      | _ => exact .refl _

theorem lasts_loop {test : Expr} {body : Block} {n n' : Nat} (hn : n ≤ n') :
    Lasts (loop run scope test body n) (loop run' scope test body n') := by
  induction n generalizing n' with
  | zero => exact outlasts_throw trivial
  | succ n ih =>
      obtain ⟨n', rfl⟩ := Nat.exists_eq_add_of_le' hn
      have hrest := ih (Nat.le_add_left n n')
      have htest := h (.expr test) scope
      have hbody := h (.block body) scope
      rw [Nat.add_succ]
      unfold loop
      infer_instance

include hd

theorem lasts_call (f : Value) (args : List Value) : Lasts (call d run f args) (call d' run' f args) := by
  cases f with
  | function m ps b outer =>
      have hbody (i : ScopeId) := h (.block b) i
      unfold call
      infer_instance
  | builtin f =>
      have hprint := lasts_printAll hd args
      unfold call
      infer_instance
  | _ => exact .refl _

theorem lasts_binary (op : BinaryOp) (l r : Expr) :
    Lasts (binary d run scope op l r) (binary d' run' scope op l r) := by
  have hl := h (.expr l) scope
  have hr := h (.expr r) scope
  have hvalue (m : Stamp) (a b : Value) : Lasts (within (Value.binary d m op a b))
      (within (Value.binary d' m op a b)) := lasts_within fun _ => Value.binary_mono hd
  unfold binary
  infer_instance

theorem lasts_expr {s s' : Setting} (hregistry : s.registry = s'.registry) (hrounds : s.rounds ≤ s'.rounds)
    (e : Expr) : Lasts (expr s d run scope e) (expr s' d' run' scope e) := by
  have hrun (e : Expr) := h (.expr e) scope
  cases e with
  | ident i =>
      rw [expr, expr, ident, ident, hregistry]
      exact .refl _
  | array pos es =>
      have hes : Lasts (values run scope es) (values run' scope es) := lasts_values h es
      refine Outlasts.bind (k := fun r => ?_)
      cases r <;> exact .refl _
  | hash pos ps =>
      have hps : Lasts (entries run scope [] ps) (entries run' scope [] ps) := lasts_entries h [] ps
      refine Outlasts.bind (k := fun r => ?_)
      cases r <;> exact .refl _
  | range pos lo hi =>
      unfold expr
      infer_instance
  | unary pos op e =>
      unfold expr
      infer_instance
  | binary pos op l r => exact lasts_binary hd h op l r
  | cond pos t yes no =>
      have hyes := h (.block yes) scope
      cases no with
      | none =>
          unfold expr
          infer_instance
      | some b =>
          have hno := h (.block b) scope
          unfold expr
          infer_instance
  | loop pos t b => exact lasts_loop h hrounds
  | call pos f args =>
      have hargs : Lasts (values run scope args) (values run' scope args) := lasts_values h args
      refine Outlasts.bind (k := fun callee => Outlasts.ite (k := Outlasts.bind (k := fun r => ?_)))
      cases r with
      | error f => exact .refl _
      | ok vs => exact lasts_call hd h callee vs
  | index pos c i =>
      unfold expr
      infer_instance
  | _ => exact .refl _

omit hd

theorem lasts_stmt (x : Stmt) : Lasts (stmt run scope x) (stmt run' scope x) := by
  have hrun (e : Expr) := h (.expr e) scope
  cases x with
  | ret pos e =>
      cases e with
      | none => exact .refl _
      | some e =>
          unfold stmt
          infer_instance
  | expr pos e => exact hrun e
  | bind pos name e =>
      unfold stmt
      infer_instance
  | block b => exact h (.block b) scope
  | foreign pos name => exact .refl _

theorem lasts_stmts (last : Value) (xs : List Stmt) :
    Lasts (stmts run scope last xs) (stmts run' scope last xs) := by
  induction xs generalizing last with
  | nil => exact .refl _
  | cons x xs ih =>
      have hx : Lasts (stmt run scope x) (stmt run' scope x) := lasts_stmt h x
      unfold stmts
      infer_instance

end Steps

theorem lasts_run (s s' : Setting) (hregistry : s.registry = s'.registry) (hrounds : s.rounds ≤ s'.rounds)
    {d d' : Nat} (hd : d ≤ d') (c : Code) (scope : ScopeId) : Lasts (run s d c scope) (run s' d' c scope) := by
  induction d generalizing d' c scope with
  | zero => exact outlasts_throw trivial
  | succ d ih =>
      obtain ⟨d', rfl⟩ := Nat.exists_eq_add_of_le' hd
      have hle : d ≤ d' + d := Nat.le_add_left d d'
      cases c with
      | expr e => exact lasts_expr hle (fun c i => ih hle c i) hregistry hrounds e
      | block b => exact lasts_stmts (fun c i => ih hle c i) .null b.stmts

end Eval

end Marmoset
