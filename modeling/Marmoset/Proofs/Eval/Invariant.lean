import Marmoset.Proofs.Eval.Keeps
import Marmoset.Proofs.Eval.Visits
import Marmoset.Proofs.Value.Parts

namespace Marmoset

theorem Value.isError_eq_false {v : Value} (h : ∀ f, v ≠ .error f) : v.isError = false := by
  cases v with
  | error f => exact absurd rfl (h f)
  | _ => rfl

def Code.node : Code → Node
  | .expr e => .expr e
  | .block b => .block b

namespace Eval

/-- What a run asks of values, lengths apart, where each node of the program has `Q`. -/
structure Regular (s : Setting) (Q : Node → Prop) (T : Table Value → Prop) (K : Value → Prop) :
    Prop extends Value.Lawful Q T K where
  literal {pos : Pos} {n : Int} : Q (.expr (.int pos n)) → K (.integer n)
  builtin {name : String} {f : Builtin} : s.registry.lookup name = some f → K (.builtin f)

structure Lawful (s : Setting) (Q : Node → Prop) (T : Table Value → Prop) (K : Value → Prop) :
    Prop extends Regular s Q T K where
  length : K (.builtin .len) → ∀ n : Nat, K (.integer n)

variable {s : Setting} {Q : Node → Prop} {T : Table Value → Prop} {K : Value → Prop} {st : Store}
  {scope : ScopeId} {p q : Point} {r : Role}

theorem regular_all {c : Value.Demand} (hnumber : ∀ n, Number.InWord n → c.number n)
    (hliteral : ∀ pos n, c.body (.expr (.int pos n)) → c.number n)
    (hbuiltin : ∀ name f, s.registry.lookup name = some f → c.builtin f) :
    Regular s c.body (Value.EachEntry (Value.All c)) (Value.All c) where
  toLawful := Value.lawful_all hnumber
  literal hn := (Value.every_atom rfl).mpr (hliteral _ _ hn)
  builtin hf := (Value.every_atom rfl).mpr (hbuiltin _ _ hf)

theorem lawful_all {c : Value.Demand} (hnumber : ∀ n, Number.InWord n → c.number n)
    (hliteral : ∀ pos n, c.body (.expr (.int pos n)) → c.number n)
    (hbuiltin : ∀ name f, s.registry.lookup name = some f → c.builtin f)
    (hlength : c.builtin .len → ∀ n : Nat, c.number n) :
    Lawful s c.body (Value.EachEntry (Value.All c)) (Value.All c) where
  toRegular := regular_all hnumber hliteral hbuiltin
  length hlen n := (Value.every_atom rfl).mpr (hlength ((Value.every_atom rfl).mp hlen) n)

section Points

def Point.Good (Q : Node → Prop) (K : Value → Prop) (p : Point) : Prop :=
  p.store.Holds K ∧ Node.Every Q p.code.node

def Steady (s : Setting) (Q : Node → Prop) (K : Value → Prop) (p : Point) : Prop :=
  Keeps Q K (run s p.depth p.code p.scope) p.store (Value.Passed K)

def Keepable (s : Setting) (K : Value → Prop) (p : Point) : Prop :=
  ∀ v st', p.result s = .ok (.returned v) st' → K v → K (.returned v)

theorem Keepable.kept {v : Value} {st' : Store} (h : Keepable s K p)
    (hv : p.result s = .ok v st') (hp : v.Passed K) (hok : v.isError = false) : K v := by
  cases v with
  | returned w =>
      rcases hp with (hw | ⟨f, hf⟩) | ⟨x, hx, hw⟩
      · exact hw
      · cases hf
      · cases hx
        exact h _ _ hv hw
  | error f => cases hok
  | _ => exact hp.kept rfl

/-- The point is a call that asks for the length of a collection of `n` elements. -/
inductive Measures (s : Setting) : Point → Nat → Prop where
  | call {d pos f args v n scope st st₁ st₂} :
      run s d (.expr f) scope st = .ok (.builtin .len) st₁ →
      values (run s d) scope args st₁ = .ok (.ok [v]) st₂ → v.size? = some n →
      Measures s ⟨d + 1, .expr (.call pos f args), scope, st⟩ n

structure Sure (s : Setting) (Q : Node → Prop) (K : Value → Prop) (p : Point) : Prop where
  steady {r : Role} {q : Point} : Enters s p r q → q.Good Q K → Steady s Q K q
  keepable {q : Point} : Enters s p .kept q → q.Good Q K → Keepable s K q
  length {n : Nat} : K (.builtin .len) → Measures s p n → K (.integer n)

theorem Sure.kept (h : Sure s Q K p) (hq : Enters s p .kept q) (hgood : q.Good Q K) :
    Steady s Q K q ∧ Keepable s K q :=
  ⟨h.steady hq hgood, h.keepable hq hgood⟩

end Points

section Steps

variable {d : Nat}

theorem keeps_values {es : List Expr} (hst : st.Holds K)
    (hs : ∀ e st', Along (ExprDone (run s d) scope) es st e st' → st'.Holds K →
      Steady s Q K ⟨d, .expr e, scope, st'⟩ ∧ Keepable s K ⟨d, .expr e, scope, st'⟩) :
    Keeps Q K (values (run s d) scope es) st fun r => ∀ vs, r = .ok vs → ∀ v ∈ vs, K v := by
  induction es generalizing st with
  | nil =>
      refine keeps_pure hst fun vs hvs v hv => ?_
      cases hvs
      cases hv
  | cons e es ih =>
      obtain ⟨hsteady, hkeep⟩ := hs e st .here hst
      refine hsteady.bind fun v st' hv hst' hP => ?_
      split
      · exact keeps_pure hst' fun vs hvs => by cases hvs
      · rename_i hne
        have hok := Value.isError_eq_false hne
        have hrest := ih hst' fun x st'' hx => hs x st'' (.later ⟨v, hv, hok⟩ hx)
        refine hrest.bind fun r st'' hrun hst'' hr => ?_
        cases r with
        | error f => exact keeps_pure hst'' fun vs hvs => by cases hvs
        | ok vs =>
          refine keeps_pure hst'' fun ws hws w hw => ?_
          cases hws
          rcases List.mem_cons.mp hw with rfl | hw
          · exact hkeep.kept hv hP hok
          · exact hr vs rfl w hw

theorem keeps_seen {e : Expr} {f : Value → Eval Value} {R : Value → Prop}
    (hs : Steady s Q K ⟨d, .expr e, scope, st⟩) (herror : ∀ v, v.Made K → R v)
    (hf : ∀ v st', run s d (.expr e) scope st = .ok v st' → v.isError = false → st'.Holds K →
      v.Passed K → Keeps Q K (f v) st' R) :
    Keeps Q K (do
      let v ← run s d (.expr e) scope
      if v.isError then return v
      f v) st R := by
  refine hs.bind fun v st' hv hst' hP => ?_
  split
  · exact keeps_pure hst' (herror v (hP.made ‹_›))
  · exact hf v st' hv (by simpa using ‹¬v.isError = true›) hst' hP

theorem keeps_stmts {xs : List Stmt} {last : Value} (hst : st.Holds K) (hlast : last.Passed K)
    (hs : ∀ x st', Along (StmtDone (run s d) scope) xs st x st' → st'.Holds K →
      Keeps Q K (stmt (run s d) scope x) st' (Value.Passed K)) :
    Keeps Q K (stmts (run s d) scope last xs) st (Value.Passed K) := by
  induction xs generalizing st last with
  | nil => exact keeps_pure hst hlast
  | cons x xs ih =>
      refine (hs x st .here hst).bind fun v st' hv hst' hP => ?_
      split
      · exact keeps_pure hst' hP
      · rename_i hleaves
        exact ih hst' hP fun y st'' hy => hs y st'' (.later ⟨v, hv, by simpa using hleaves⟩ hy)

section Regular

variable (h : Regular s Q T K)

include h

theorem keeps_entries {ps : List (Expr × Expr)} {t : Table Value} (hst : st.Holds K) (htable : T t)
    (hkey : ∀ p st', Along (PairDone (run s d) scope) ps st p st' → st'.Holds K →
      Steady s Q K ⟨d, .expr p.1, scope, st'⟩)
    (hvalue : ∀ p st' k id st'', Along (PairDone (run s d) scope) ps st p st' →
      run s d (.expr p.1) scope st' = .ok k st'' → k.key? = some id → st''.Holds K →
      Steady s Q K ⟨d, .expr p.2, scope, st''⟩ ∧ Keepable s K ⟨d, .expr p.2, scope, st''⟩) :
    Keeps Q K (entries (run s d) scope t ps) st fun r => ∀ u, r = .ok u → T u := by
  induction ps generalizing st t with
  | nil =>
      refine keeps_pure hst fun u hu => ?_
      cases hu
      exact htable
  | cons p ps ih =>
      refine (hkey p st .here hst).bind fun k st₁ hk hst₁ hPk => ?_
      split
      · exact keeps_pure hst₁ fun u hu => by cases hu
      · split
        · exact keeps_pure hst₁ fun u hu => by cases hu
        · rename_i id hid
          obtain ⟨hsteady, hkeep⟩ := hvalue p st k id st₁ .here hk hid hst₁
          refine hsteady.bind fun v st₂ hv hst₂ hPv => ?_
          split
          · exact keeps_pure hst₂ fun u hu => by cases hu
          · rename_i hne
            have hok := Value.isError_eq_false hne
            have hdone : PairDone (run s d) scope p st st₂ := ⟨k, id, st₁, hk, hid, v, hv, hok⟩
            have hkept : K k := hPk.kept (Value.leaves_of_key hid)
            exact ih hst₂ (h.insert htable hkept hid (hkeep.kept hv hPv hok))
              (fun q st' hq => hkey q st' (.later hdone hq))
              fun q st' k' id' st'' hq => hvalue q st' k' id' st'' (.later hdone hq)

theorem keeps_loop {test : Expr} {body : Block} {rounds : Nat} (hst : st.Holds K)
    (hs : ∀ n st', Rounds (run s d) scope test body n st st' → n < rounds → st'.Holds K →
      Steady s Q K ⟨d, .expr test, scope, st'⟩ ∧
        ∀ c st'', run s d (.expr test) scope st' = .ok c st'' → c.isError = false → c.truthy = true →
          st''.Holds K → Steady s Q K ⟨d, .block body, scope, st''⟩) :
    Keeps Q K (loop (run s d) scope test body rounds) st (Value.Passed K) := by
  induction rounds generalizing st with
  | zero => exact keeps_throw hst trivial
  | succ n ih =>
      obtain ⟨htest, hbody⟩ := hs 0 st .none (Nat.succ_pos n) hst
      refine htest.bind fun c st₁ hc hst₁ hPc => ?_
      split
      · exact keeps_pure hst₁ hPc
      · rename_i hok
        split
        · exact keeps_pure hst₁ (.inl (.inl h.null))
        · rename_i htruthy
          have hok' : c.isError = false := by simpa using hok
          have htruthy' : c.truthy = true := by simpa using htruthy
          refine (hbody c st₁ hc hok' htruthy' hst₁).bind fun v st₂ hv hst₂ hPv => ?_
          split
          · exact keeps_pure hst₂ hPv
          · rename_i hleaves
            refine ih hst₂ fun m st' hm hlt => hs (m + 1) st' ?_ (Nat.succ_lt_succ hlt)
            exact .more hc hok' htruthy' hv (by simpa using hleaves) hm

theorem keeps_call_of {depth : Nat} {f : Value} {args : List Value} (hst : st.Holds K)
    (hf : f.Passed K) (hargs : ∀ v ∈ args, K v)
    (hs : ∀ stamp ps b outer inner st₁ st₂, f = .function stamp ps b outer →
      child outer st = .ok inner st₁ → assignAll inner ps args st₁ = .ok () st₂ → st₂.Holds K →
      Node.Every Q (.block b) → Steady s Q K ⟨d, .block b, inner, st₂⟩)
    (hlen : f = .builtin .len → K f → ∀ v n, args = [v] → v.size? = some n → K (.integer n)) :
    Keeps Q K (call depth (run s d) f args) st (Value.Made K) := by
  unfold call
  split
  · rename_i stamp ps b outer
    refine (keeps_child hst outer).bind fun inner st₁ hchild hst₁ _ => ?_
    refine (keeps_assignAll hst₁ ps hargs).bind fun _ st₂ hassign hst₂ _ => ?_
    have hb : Node.Every Q (.block b) := h.function.mp (hf.kept rfl)
    have hbody := hs stamp ps b outer inner st₁ st₂ rfl hchild hassign hst₂ hb
    refine hbody.bind fun v st₃ _ hst₃ hPv => ?_
    exact keeps_pure hst₃ (h.settle hPv)
  · rename_i f
    have hvalue (st' : Store) (hst' : st'.Holds K) :
        Keeps Q K (do let stamp ← fresh; return f.value stamp args) st' (Value.Made K) := by
      refine (keeps_fresh hst').bind fun stamp st'' _ hst'' _ => keeps_pure hst'' ?_
      exact h.toLawful.builtin hargs fun hf' => hlen (hf' ▸ rfl) (hf.kept rfl)
    split
    · exact (keeps_printAll hst depth args).bind fun _ st' _ hst' _ => hvalue st' hst'
    · exact hvalue st hst
  · exact keeps_pure hst (Value.made_error _)

theorem keeps_ident (hst : st.Holds K) (name : String) :
    Keeps Q K (ident s scope name) st (Value.Made K) := by
  refine (keeps_lookup hst name).bind fun o st' _ hst' ho => ?_
  cases o with
  | some v => exact keeps_pure hst' (.inl (ho v rfl))
  | none =>
      dsimp only
      split
      · exact keeps_pure hst' (.inl (h.builtin ‹_›))
      · exact keeps_pure hst' (Value.made_error _)

theorem keeps_binary {depth : Nat} {op : BinaryOp} {l r : Expr}
    (hl : Steady s Q K ⟨d, .expr l, scope, st⟩)
    (hr : ∀ a st', run s d (.expr l) scope st = .ok a st' → a.isError = false →
      ¬(op = .and ∧ a.truthy = false) → ¬(op = .or ∧ a.truthy = true) → st'.Holds K →
      Steady s Q K ⟨d, .expr r, scope, st'⟩) :
    Keeps Q K (binary depth (run s d) scope op l r) st (Value.Made K) := by
  refine keeps_seen hl (fun _ hv => hv) fun a st₁ ha hok hst₁ hPa => ?_
  split
  · exact keeps_pure hst₁ (.inl (h.boolean _))
  · split
    · exact keeps_pure hst₁ (.inl (h.boolean _))
    · rename_i hand hor
      have hright := hr a st₁ ha hok (by simpa using hand) (by simpa using hor) hst₁
      refine keeps_seen hright (fun _ hv => hv) fun b st₂ hb _ hst₂ hPb => ?_
      split
      · exact keeps_pure hst₂ (.inl (h.boolean _))
      · refine (keeps_fresh hst₂).bind fun stamp st₃ _ hst₃ _ => ?_
        exact keeps_within hst₃ fun v hv => h.toLawful.binary hPa hPb hv

end Regular

theorem keeps_call (h : Lawful s Q T K) {depth : Nat} {f : Value} {args : List Value}
    (hst : st.Holds K) (hf : f.Passed K) (hargs : ∀ v ∈ args, K v)
    (hs : ∀ stamp ps b outer inner st₁ st₂, f = .function stamp ps b outer →
      child outer st = .ok inner st₁ → assignAll inner ps args st₁ = .ok () st₂ → st₂.Holds K →
      Node.Every Q (.block b) → Steady s Q K ⟨d, .block b, inner, st₂⟩) :
    Keeps Q K (call depth (run s d) f args) st (Value.Made K) :=
  keeps_call_of h.toRegular hst hf hargs hs fun hf hK _ n _ _ => h.length (hf ▸ hK) n

end Steps

section Whole

variable (h : Regular s Q T K) {d : Nat}

include h

theorem keeps_made {e : Expr} (hown : e.passes = false)
    (hp : Point.Good Q K ⟨d + 1, .expr e, scope, st⟩) (hs : Sure s Q K ⟨d + 1, .expr e, scope, st⟩) :
    Keeps Q K (expr s d (run s d) scope e) st (Value.Made K) := by
  obtain ⟨hst, he⟩ := hp
  have child {x : Node} (hx : x ∈ (Node.expr e).children) : Node.Every Q x := he.child hx
  cases e with
  | cond pos t yes no => cases hown
  | loop pos t b => cases hown
  | missing => exact keeps_throw hst (.inl ⟨rfl, he.self⟩)
  | foreign pos name => exact keeps_throw hst (.inr ⟨pos, he.self⟩)
  | ident i => exact keeps_ident h hst i.name
  | int pos n => exact keeps_pure hst (.inl (h.literal he.self))
  | double pos stamp x => exact keeps_pure hst (.inl (h.double _ _))
  | string pos v => exact keeps_pure hst (.inl (h.string _))
  | bool pos b => exact keeps_pure hst (.inl (h.boolean _))
  | array pos es =>
      have hvalues := keeps_values hst fun e st' he hst' =>
        hs.kept (.array he) ⟨hst', child (List.mem_map_of_mem he.mem)⟩
      refine hvalues.bind fun r st' _ hst' hr => ?_
      cases r with
      | error f => exact keeps_pure hst' (Value.made_error f)
      | ok vs =>
          refine (keeps_fresh hst').bind fun stamp st'' _ hst'' _ => ?_
          exact keeps_pure hst'' (.inl (h.array.mpr (hr vs rfl)))
  | hash pos ps =>
      have hentries := keeps_entries h hst h.nil
        (fun p st' hp hst' => hs.steady (.key hp) ⟨hst', child (Node.mem_children_key hp.mem)⟩)
        fun p st' k id st'' hp hk hid hst'' =>
          hs.kept (.value hp hk hid) ⟨hst'', child (Node.mem_children_value hp.mem)⟩
      refine hentries.bind fun r st' _ hst' hr => ?_
      cases r with
      | error f => exact keeps_pure hst' (Value.made_error f)
      | ok t =>
          refine (keeps_fresh hst').bind fun stamp st'' _ hst'' _ => ?_
          exact keeps_pure hst'' (.inl (h.hash.mpr (hr t rfl)))
  | range pos lo hi =>
      have hlow := hs.steady .low ⟨hst, child (by simp [Node.children, Code.node])⟩
      refine keeps_seen hlow (fun _ hv => hv) fun a st₁ ha hok hst₁ hPa => ?_
      have hhigh := hs.steady (.high ⟨a, ha, hok⟩) ⟨hst₁, child (by simp [Node.children, Code.node])⟩
      refine keeps_seen hhigh (fun _ hv => hv) fun b st₂ _ _ hst₂ hPb => ?_
      exact keeps_pure hst₂ (h.rangeOf hPa hPb)
  | unary pos op e =>
      have hoperand := hs.steady .operand ⟨hst, child (by simp [Node.children, Code.node])⟩
      refine keeps_seen hoperand (fun _ hv => hv) fun v st₁ _ _ hst₁ hP => ?_
      refine (keeps_fresh hst₁).bind fun stamp st₂ _ hst₂ _ => ?_
      exact keeps_pure hst₂ h.unary
  | binary pos op l r =>
      have hleft := hs.steady .left ⟨hst, child (by simp [Node.children, Code.node])⟩
      exact keeps_binary h hleft fun a st' ha hok hand hor hst' =>
        hs.steady (.right ha hok hand hor) ⟨hst', child (by simp [Node.children, Code.node])⟩
  | fn pos ps b =>
      refine (keeps_fresh hst).bind fun stamp st' _ hst' _ => ?_
      exact keeps_pure hst' (.inl (h.function.mpr (child (by simp [Node.children]))))
  | call pos f args =>
      have hcallee := hs.steady .callee ⟨hst, child (by simp [Node.children, Code.node])⟩
      refine keeps_seen hcallee (fun _ hv => hv) fun callee st₁ hf hok hst₁ hPf => ?_
      have hvalues := keeps_values hst₁ fun e st' he hst' =>
        hs.kept (.argument ⟨callee, hf, hok⟩ he)
          ⟨hst', child (by simp [Node.children, Code.node, he.mem])⟩
      refine hvalues.bind fun r st₂ hr hst₂ hvs => ?_
      cases r with
      | error f => exact keeps_pure hst₂ (Value.made_error f)
      | ok vs =>
          refine keeps_call_of h hst₂ hPf (hvs vs rfl) ?_ ?_
          · rintro stamp ps b outer inner st₃ st₄ rfl hchild hassign hst₄ hb
            exact hs.steady (.body hf hr hchild hassign) ⟨hst₄, hb⟩
          · rintro rfl hK v n rfl hn
            exact hs.length hK (.call hf hr hn)
  | index pos c i =>
      have hcollection := hs.steady .collection ⟨hst, child (by simp [Node.children, Code.node])⟩
      refine keeps_seen hcollection (fun _ hv => hv) fun a st₁ ha hok hst₁ hPa => ?_
      have hindex := hs.steady (.index ⟨a, ha, hok⟩) ⟨hst₁, child (by simp [Node.children, Code.node])⟩
      refine keeps_seen hindex (fun _ hv => hv) fun b st₂ _ _ hst₂ _ => ?_
      refine (keeps_fresh hst₂).bind fun stamp st₃ _ hst₃ _ => ?_
      exact keeps_pure hst₃ (h.index hPa)

theorem keeps_expr {e : Expr} (hp : Point.Good Q K ⟨d + 1, .expr e, scope, st⟩)
    (hs : Sure s Q K ⟨d + 1, .expr e, scope, st⟩) :
    Keeps Q K (expr s d (run s d) scope e) st (Value.Passed K) := by
  obtain ⟨hst, he⟩ := hp
  have child {x : Node} (hx : x ∈ (Node.expr e).children) : Node.Every Q x := he.child hx
  by_cases hown : e.passes = false
  · exact (keeps_made h hown ⟨hst, he⟩ hs).mono fun v st' hv => ⟨hv.1, .inl hv.2⟩
  · cases e with
    | cond pos t yes no =>
        have htest := hs.steady .test ⟨hst, child (by simp [Node.children, Code.node])⟩
        refine keeps_seen htest (fun _ hv => .inl hv) fun c st₁ hc hok hst₁ _ => ?_
        split
        · exact hs.steady (.yes hc hok ‹_›) ⟨hst₁, child (by simp [Node.children, Code.node])⟩
        · rename_i htruthy
          cases no with
          | none => exact keeps_pure hst₁ (.inl (.inl h.null))
          | some b =>
              have htruthy' : c.truthy = false := by simpa using htruthy
              exact hs.steady (.no hc hok htruthy') ⟨hst₁, child (by simp [Node.children, Code.node])⟩
    | loop pos t b =>
        refine keeps_loop h hst fun n st' hn hlt hst' => ⟨?_, fun c st'' hc hok htruthy hst'' => ?_⟩
        · exact hs.steady (.again hn hlt) ⟨hst', child (by simp [Node.children, Code.node])⟩
        · exact hs.steady (.round hn hlt hc hok htruthy)
            ⟨hst'', child (by simp [Node.children, Code.node])⟩
    | _ => exact absurd rfl hown

theorem keeps_stmt {b : Block} {x : Stmt} {st' : Store}
    (hp : Point.Good Q K ⟨d + 1, .block b, scope, st⟩) (hs : Sure s Q K ⟨d + 1, .block b, scope, st⟩)
    (hx : Along (StmtDone (run s d) scope) b.stmts st x st') (hst : st'.Holds K) :
    Keeps Q K (stmt (run s d) scope x) st' (Value.Passed K) := by
  have hnode : Node.Every Q (.stmt x) := hp.2.child (List.mem_map_of_mem hx.mem)
  cases x with
  | expr pos e => exact hs.steady (.expr hx) ⟨hst, hnode.child (by simp [Node.children, Code.node])⟩
  | bind pos name e =>
      have hgood : Point.Good Q K ⟨d, .expr e, scope, st'⟩ :=
        ⟨hst, hnode.child (by simp [Node.children, Code.node])⟩
      obtain ⟨hsteady, hkeep⟩ := hs.kept (.bind hx) hgood
      refine keeps_seen hsteady (fun _ hv => .inl hv) fun v st₁ hv hok hst₁ hP => ?_
      have hbound := hst₁.bind (hkeep.kept hv hP hok) scope name.name
      exact (keeps_modify hbound).bind fun _ st₂ _ hst₂ _ => keeps_pure hst₂ hP
  | ret pos e =>
      cases e with
      | none => exact keeps_pure hst (.returned h.null)
      | some e =>
          have hgood : Point.Good Q K ⟨d, .expr e, scope, st'⟩ :=
            ⟨hst, hnode.child (by simp [Node.children, Code.node])⟩
          obtain ⟨hsteady, hkeep⟩ := hs.kept (.ret hx) hgood
          refine keeps_seen hsteady (fun _ hv => .inl hv) fun v st₁ hv hok hst₁ hP => ?_
          exact keeps_pure hst₁ (.returned (hkeep.kept hv hP hok))
  | block inner =>
      exact hs.steady (.block hx) ⟨hst, hnode.child (by simp [Node.children, Code.node])⟩
  | foreign pos name => exact keeps_throw hst ⟨pos, hnode.self⟩

theorem Sure.self (hs : Sure s Q K p) (hp : p.Good Q K) : Steady s Q K p := by
  obtain ⟨depth, code, scope, st⟩ := p
  cases depth with
  | zero => exact keeps_throw hp.1 trivial
  | succ d =>
      cases code with
      | expr e => exact keeps_expr h hp hs
      | block b => exact keeps_stmts hp.1 (.inl (.inl h.null)) fun x st' hx => keeps_stmt h hp hs hx

end Whole

section Entered

theorem Along.holds {α : Type} {done : α → Store → Store → Prop} {xs : List α} {x : α} {mid : Store}
    (h : Along done xs st x mid) (hst : st.Holds K)
    (step : ∀ y a b, Along done xs st y a → a.Holds K → done y a b → b.Holds K) : mid.Holds K := by
  induction h with
  | here => exact hst
  | later hdone _ ih =>
      exact ih (step _ _ _ .here hst hdone) fun y a b hy => step y a b (.later hdone hy)

theorem Rounds.holds {runner : Runner} {t : Expr} {b : Block} {n : Nat} {mid : Store}
    (h : Rounds runner scope t b n st mid) (hst : st.Holds K)
    (step : ∀ m a c a' v a'', Rounds runner scope t b m st a → m < n → a.Holds K →
      runner (.expr t) scope a = .ok c a' → c.isError = false → c.truthy = true →
      runner (.block b) scope a' = .ok v a'' → a''.Holds K) : mid.Holds K := by
  induction h with
  | none => exact hst
  | more hc hok htruthy hv hleaves _ ih =>
      refine ih (step 0 _ _ _ _ _ .none (Nat.succ_pos _) hst hc hok htruthy hv) ?_
      intro m a c a' v a'' hm hlt
      exact step (m + 1) a c a' v a'' (.more hc hok htruthy hv hleaves hm) (Nat.succ_lt_succ hlt)

theorem Sure.ran {v : Value} {st' : Store} (hs : Sure s Q K p) (hq : Enters s p r q)
    (hgood : q.Good Q K) (hv : q.result s = .ok v st') : st'.Holds K ∧ v.Passed K :=
  (hs.steady hq hgood).1 v st' hv

variable {d : Nat} {pos : Pos} {st' : Store}

theorem Sure.pair {ps : List (Expr × Expr)} {x : Expr × Expr}
    (hs : Sure s Q K ⟨d + 1, .expr (.hash pos ps), scope, st⟩)
    (hp : Point.Good Q K ⟨d + 1, .expr (.hash pos ps), scope, st⟩)
    (hx : Along (PairDone (run s d) scope) ps st x st') :
    Point.Good Q K ⟨d, .expr x.1, scope, st'⟩ := by
  refine ⟨hx.holds hp.1 ?_, hp.2.child (Node.mem_children_key hx.mem)⟩
  rintro y a b hy ha ⟨k, id, mid, hk, hid, v, hv, -⟩
  have hkey := hs.ran (.key hy) ⟨ha, hp.2.child (Node.mem_children_key hy.mem)⟩ hk
  exact (hs.ran (.value hy hk hid) ⟨hkey.1, hp.2.child (Node.mem_children_value hy.mem)⟩ hv).1

theorem Sure.round {t : Expr} {b : Block} {n : Nat}
    (hs : Sure s Q K ⟨d + 1, .expr (.loop pos t b), scope, st⟩)
    (hp : Point.Good Q K ⟨d + 1, .expr (.loop pos t b), scope, st⟩)
    (hn : Rounds (run s d) scope t b n st st') (hlt : n < s.rounds) :
    Point.Good Q K ⟨d, .expr t, scope, st'⟩ := by
  have htest : Node.Every Q (.expr t) := hp.2.child (by simp [Node.children, Code.node])
  have hbody : Node.Every Q (.block b) := hp.2.child (by simp [Node.children, Code.node])
  refine ⟨hn.holds hp.1 ?_, htest⟩
  intro m a c a' v a'' hm hmn ha hc hok htruthy hv
  have hrun := hs.ran (.again hm (Nat.lt_trans hmn hlt)) ⟨ha, htest⟩ hc
  exact (hs.ran (.round hm (Nat.lt_trans hmn hlt) hc hok htruthy) ⟨hrun.1, hbody⟩ hv).1

theorem Sure.argument {f e : Expr} {args : List Expr} {mid : Store}
    (hs : Sure s Q K ⟨d + 1, .expr (.call pos f args), scope, st⟩)
    (hp : Point.Good Q K ⟨d + 1, .expr (.call pos f args), scope, st⟩)
    (hf : ExprDone (run s d) scope f st mid) (hmid : mid.Holds K)
    (he : Along (ExprDone (run s d) scope) args mid e st') :
    Point.Good Q K ⟨d, .expr e, scope, st'⟩ := by
  have arg {x : Expr} (hx : x ∈ args) : Node.Every Q (.expr x) :=
    hp.2.child (by simp [Node.children, Code.node, hx])
  refine ⟨he.holds hmid ?_, arg he.mem⟩
  rintro y a b hy ha ⟨v, hv, -⟩
  exact (hs.ran (.argument hf hy) ⟨ha, arg hy.mem⟩ hv).1

end Entered

section Tight

def Tight (s : Setting) (K : Value → Prop) (p : Point) : Prop :=
  ∀ q, Visits s p .kept q → Keepable s K q

theorem tight_of_returned (hK : ∀ v, K v → K (.returned v)) (p : Point) : Tight s K p :=
  fun _ _ v _ _ hv => hK v hv

theorem Tight.enters (ht : Tight s K p) (hq : Enters s p r q) : Tight s K q :=
  fun q' hq' => ht q' (.inside hq hq')

theorem Enters.depth (hq : Enters s p r q) : p.depth = q.depth + 1 := by
  cases hq <;> rfl

def Modest (s : Setting) (K : Value → Prop) (p : Point) : Prop :=
  K (.builtin .len) → ∀ n, (Measures s p n ∨ ∃ r q, Visits s p r q ∧ Measures s q n) → K (.integer n)

theorem Modest.enters (hm : Modest s K p) (hq : Enters s p r q) : Modest s K q := by
  rintro hK n (hn | ⟨r', q', hq', hn⟩)
  · exact hm hK n (.inr ⟨r, q, .here hq, hn⟩)
  · exact hm hK n (.inr ⟨r', q', .inside hq hq', hn⟩)

theorem Lawful.modest (h : Lawful s Q T K) (p : Point) : Modest s K p :=
  fun hK n _ => h.length hK n

section Regular

variable (h : Regular s Q T K)

include h

theorem Modest.steady (hm : Modest s K p) (ht : Tight s K p) (hp : p.Good Q K) : Steady s Q K p := by
  generalize hd : p.depth = d
  induction d generalizing p with
  | zero =>
      refine Sure.self h ⟨fun hq => ?_, fun hq => ?_, fun hK hn => hm hK _ (.inl hn)⟩ hp
      · exact absurd (hq.depth.symm.trans hd) (Nat.succ_ne_zero _)
      · exact absurd (hq.depth.symm.trans hd) (Nat.succ_ne_zero _)
  | succ d ih =>
      refine Sure.self h ⟨fun hq hgood => ?_, fun hq _ => ht _ (.here hq),
        fun hK hn => hm hK _ (.inl hn)⟩ hp
      exact ih (hm.enters hq) (ht.enters hq) hgood (Nat.succ.inj (hq.depth.symm.trans hd))

theorem Modest.keeps_program {prog : Program} (hm : Modest s K (.top s scope prog st))
    (hp : (Point.top s scope prog st).Good Q K) (ht : Tight s K (.top s scope prog st)) :
    Keeps Q K (program s scope prog) st (Value.Made K) :=
  (hm.steady h ht hp).bind fun _ _ _ hst' hP => keeps_pure hst' (h.settle hP)

end Regular

variable (h : Lawful s Q T K)

include h

theorem Tight.steady (ht : Tight s K p) (hp : p.Good Q K) : Steady s Q K p :=
  (h.modest p).steady h.toRegular ht hp

theorem Tight.sure (ht : Tight s K p) : Sure s Q K p where
  steady hq hgood := (ht.enters hq).steady h hgood
  keepable hq _ := ht _ (.here hq)
  length hK _ := h.length hK _

omit h in
theorem top_good {prog : Program} (hst : st.Holds K) (hQ : Q (.block (.mk Pos.start prog.stmts)))
    (hp : prog.Every Q) : (Point.top s scope prog st).Good Q K := by
  refine ⟨hst, hQ, fun x hx => ?_⟩
  obtain ⟨y, hy, rfl⟩ := List.mem_map.mp hx
  exact hp y hy

theorem keeps_program {prog : Program} (hp : (Point.top s scope prog st).Good Q K)
    (ht : Tight s K (.top s scope prog st)) :
    Keeps Q K (program s scope prog) st (Value.Made K) :=
  (h.modest _).keeps_program h.toRegular hp ht

end Tight

end Eval

end Marmoset
