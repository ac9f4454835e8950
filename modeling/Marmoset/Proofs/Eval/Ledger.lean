import Mathlib.Logic.Function.Basic
import Marmoset.Proofs.Eval.Keeps
import Marmoset.Proofs.Value.Equivalence

/-!
Each array and each hash that a program makes gets a stamp that no other one has. So there is a ledger
of all that texts have made, which later texts only add to.
-/

namespace Marmoset

section Ledger

def Ledger.Extends (old new : Ledger) : Prop := ∀ m v, old m = some v → new m = some v

theorem Ledger.Extends.refl (L : Ledger) : L.Extends L := fun _ _ h => h

theorem Ledger.Extends.trans {L L' L'' : Ledger} (h : L.Extends L') (h' : L'.Extends L'') :
    L.Extends L'' :=
  fun m v hv => h' m v (h m v hv)

theorem Ledger.extends_update {L : Ledger} {m : Stamp} (h : L m = none) (v : Value) :
    L.Extends (Function.update L m (some v)) := by
  intro k w hw
  have hkm : k ≠ m := fun hkm => by simp [hkm, h] at hw
  rw [Function.update_of_ne hkm, hw]

structure Ledger.Covers (L : Ledger) (st : Store) : Prop where
  bound : st.Holds (Value.Listed L)
  unused {m : Stamp} : st.stamp ≤ m → L m = none

theorem Value.Listed.mono {L L' : Ledger} {v : Value} (h : v.Listed L) (hL : L.Extends L') :
    v.Listed L' :=
  Every.mono (fun w hw m hm => hL m w (hw m hm)) h

end Ledger

namespace Value

variable {L : Ledger} {m : Stamp} {a b v : Value}

def plain : Value → Bool
  | .array _ _ | .hash _ _ | .returned _ => false
  | _ => true

theorem parts_of_plain (h : v.plain = true) : v.parts = [] := by
  cases v with
  | array s xs => cases h
  | hash s t => cases h
  | returned w => cases h
  | _ => rfl

theorem listed_of_plain (h : v.plain = true) : v.Listed L := by
  refine (every_atom (parts_of_plain h)).mpr fun k hk => ?_
  cases v with
  | array s xs => cases h
  | hash s t => cases h
  | _ => cases hk

theorem listed_returned (h : v.Listed L) : (returned v).Listed L :=
  every_returned.mpr ⟨fun k hk => (by cases hk), h⟩

theorem Listed.settle (h : v.Listed L) : v.settle.Listed L := by
  cases v with
  | returned w => exact (every_returned.mp h).2
  | _ => exact h

inductive New (L : Ledger) (m : Stamp) : Value → Prop where
  | listed {v : Value} : v.Listed L → New L m v
  | array {xs : List Value} : (∀ x ∈ xs, x.Listed L) → New L m (.array m xs)
  | hash {t : Table Value} : EachEntry (Listed L) t → New L m (.hash m t)

theorem New.mono {L' : Ledger} (h : New L m v) (hL : L.Extends L') : New L' m v := by
  cases h with
  | listed hv => exact .listed (hv.mono hL)
  | array hxs => exact .array fun x hx => (hxs x hx).mono hL
  | hash ht => exact .hash fun e he => ⟨(ht e he).1.mono hL, (ht e he).2.mono hL⟩

theorem new_of_plain (h : v.plain = true) : New L m v := .listed (listed_of_plain h)

theorem makes_new : Makes m (EachEntry (Listed L)) (Listed L) (New L m) where
  null := new_of_plain rfl
  boolean _ := new_of_plain rfl
  string _ := new_of_plain rfl
  double _ _ := new_of_plain rfl
  word _ := new_of_plain rfl
  array := .array
  hash := .hash
  kept := .listed
  element h := (every_array.mp h).2
  table h := (every_hash.mp h).2
  union ht hu e he := (Table.mem_union he).elim (ht e) (hu e)
  minus ht e he := ht e (List.mem_filter.mp he).1
  entry ht he := (ht _ he).2

theorem new_of_made (h : Made (New L m) v) : New L m v := by
  rcases h with h | ⟨f, rfl⟩
  · exact h
  · exact new_of_plain rfl

theorem plain_rangeOf : (rangeOf a b).plain = true := by
  unfold rangeOf
  split
  · rfl
  · unfold invalid
    split <;> rfl

end Value

namespace Eval

/-- From any store that a later ledger covers, the run comes to one that a still later one covers; if
there is an answer, it is in `R` for that one. -/
def Lists {α : Type} (L : Ledger) (p : Eval α) (R : Ledger → α → Prop) : Prop :=
  ∀ L', L.Extends L' → ∀ st, L'.Covers st →
    Ends p st (fun a st' => ∃ L'', L'.Extends L'' ∧ L''.Covers st' ∧ R L'' a)
      fun _ st' => ∃ L'', L'.Extends L'' ∧ L''.Covers st'

variable {α β : Type} {L : Ledger} {p : Eval α} {f : α → Eval β} {R : Ledger → α → Prop}
  {R' : Ledger → β → Prop} {run : Runner} {scope : ScopeId} {v : Value}

section Steps

theorem lists_pure {a : α} (h : ∀ L', L.Extends L' → R L' a) : Lists L (pure a) R :=
  fun L' hL _ hst => .pure ⟨L', .refl L', hst, h L' hL⟩

theorem lists_throw (why : Halt) : Lists L (throw why : Eval α) R :=
  fun L' _ _ hst => .throw ⟨L', .refl L', hst⟩

theorem lists_value (hv : v.Listed L) : Lists L (pure v) Value.Listed :=
  lists_pure fun _ hL => hv.mono hL

theorem lists_plain (hv : v.plain = true) : Lists L (pure v) Value.Listed :=
  lists_value (Value.listed_of_plain hv)

theorem Lists.bind (hp : Lists L p R)
    (hf : ∀ L' a, L.Extends L' → R L' a → Lists L' (f a) R') : Lists L (p >>= f) R' := by
  intro L₁ hL₁ st hst
  obtain ⟨hok, herror⟩ := hp L₁ hL₁ st hst
  constructor
  · intro b st'' h
    obtain ⟨a, st', ha, hb⟩ := bind_eq_ok h
    obtain ⟨L₂, hL₂, hst', hR⟩ := hok a st' ha
    obtain ⟨L₃, hL₃, hend⟩ := (hf L₂ a (hL₁.trans hL₂) hR L₂ (.refl L₂) st' hst').1 b st'' hb
    exact ⟨L₃, hL₂.trans hL₃, hend⟩
  · intro e st'' h
    cases ha : p st with
    | ok a st' =>
        rw [bind_ok ha] at h
        obtain ⟨L₂, hL₂, hst', hR⟩ := hok a st' ha
        obtain ⟨L₃, hL₃, hend⟩ := (hf L₂ a (hL₁.trans hL₂) hR L₂ (.refl L₂) st' hst').2 e st'' h
        exact ⟨L₃, hL₂.trans hL₃, hend⟩
    | error e' st' =>
        rw [bind_error ha] at h
        cases h
        exact herror e st'' ha

theorem Lists.ite {c : Prop} [Decidable c] {q : Eval α} (hp : Lists L p R) (hq : Lists L q R) :
    Lists L (if c then p else q) R := by
  split
  · exact hp
  · exact hq

theorem lists_modifyGet {g : Store → α × Store}
    (hg : ∀ L' st, L.Extends L' → L'.Covers st → L'.Covers (g st).2) :
    Lists L (modifyGet g) fun _ _ => True := by
  intro L' hL st hst
  refine ⟨fun a st' h => ?_, fun e st' h => (by cases h)⟩
  cases h
  exact ⟨L', .refl L', hg L' st hL hst, trivial⟩

theorem lists_within (o : Option α) : Lists L (within o) fun _ _ => True := by
  cases o with
  | none => exact lists_throw _
  | some a => exact lists_pure fun _ _ => trivial

theorem lists_new {o : Stamp → Option Value} (ho : ∀ m v, o m = some v → Value.New L m v) :
    Lists L (fresh >>= fun m => within (o m)) Value.Listed := by
  intro L' hL st hst
  have hst' : L'.Covers { st with stamp := st.stamp + 1 } :=
    ⟨hst.bound, fun hm => hst.unused (Nat.le_of_succ_le hm)⟩
  have hfresh : fresh st = .ok st.stamp { st with stamp := st.stamp + 1 } := rfl
  rw [Ends, bind_ok hfresh]
  cases hv : o st.stamp with
  | none => exact Ends.throw ⟨L', .refl L', hst'⟩
  | some v =>
      have hupdate := Ledger.extends_update (hst.unused (Nat.le_refl _)) v
      have hcovers : Ledger.Covers (Function.update L' st.stamp (some v))
          { st with stamp := st.stamp + 1 } := by
        refine ⟨hst.bound.mono fun w hw => hw.mono hupdate, fun {m} hm => ?_⟩
        rw [Function.update_of_ne (Nat.ne_of_gt hm)]
        exact hst'.unused hm
      refine Ends.pure ?_
      cases (ho st.stamp v hv).mono hL with
      | listed hv => exact ⟨L', .refl L', hst', hv⟩
      | array hxs =>
          refine ⟨_, hupdate, hcovers, Value.every_array.mpr ⟨fun m hm => ?_, fun x hx => ?_⟩⟩
          · cases hm
            exact Function.update_self _ _ L'
          · exact (hxs x hx).mono hupdate
      | hash ht =>
          refine ⟨_, hupdate, hcovers, Value.every_hash.mpr ⟨fun m hm => ?_, fun e he => ?_⟩⟩
          · cases hm
            exact Function.update_self _ _ L'
          · exact ⟨(ht e he).1.mono hupdate, (ht e he).2.mono hupdate⟩

theorem lists_made {g : Stamp → Value} (hg : ∀ m, Value.New L m (g m)) :
    Lists L (fresh >>= fun m => pure (g m)) Value.Listed := by
  refine lists_new (o := fun m => some (g m)) fun m v hv => ?_
  obtain rfl := Option.some.inj hv
  exact hg m

theorem lists_assign (hv : v.Listed L) (name : String) :
    Lists L (assign scope name v) fun _ _ => True :=
  lists_modifyGet fun _ _ hL hst => ⟨hst.bound.bind (hv.mono hL) scope name, hst.unused⟩

theorem lists_child (outer : ScopeId) : Lists L (child outer) fun _ _ => True :=
  lists_modifyGet fun _ _ _ hst => ⟨hst.bound.push _, hst.unused⟩

theorem lists_lookup (name : String) :
    Lists L (lookup scope name) fun L' o => ∀ v ∈ o, v.Listed L' := by
  intro L' _ st hst
  refine ⟨fun o st' h => ?_, fun e st' h => (by cases h)⟩
  cases h
  exact ⟨L', .refl L', hst, fun v hv => hst.bound.find? hv⟩

theorem lists_print (text : String) : Lists L (print text) fun _ _ => True :=
  lists_modifyGet fun _ _ _ hst => ⟨hst.bound, hst.unused⟩

theorem lists_printAll (depth : Nat) (vs : List Value) :
    Lists L (printAll depth vs) fun _ _ => True := by
  induction vs generalizing L with
  | nil => exact lists_pure fun _ _ => trivial
  | cons v vs ih =>
      refine (lists_within _).bind fun L' text _ _ => ?_
      exact (lists_print _).bind fun L'' _ _ _ => ih

theorem lists_assignAll (ps : List Ident) {vs : List Value} (hvs : ∀ v ∈ vs, v.Listed L) :
    Lists L (assignAll scope ps vs) fun _ _ => True := by
  induction ps generalizing L vs with
  | nil => exact lists_pure fun _ _ => trivial
  | cons p ps ih =>
      cases vs with
      | nil => exact lists_pure fun _ _ => trivial
      | cons v vs =>
          obtain ⟨hv, hvs⟩ := List.forall_mem_cons.mp hvs
          exact (lists_assign hv p.name).bind fun L' _ hL _ => ih fun w hw => (hvs w hw).mono hL

end Steps

section Parts

variable (h : ∀ L c scope, Lists L (run c scope) Value.Listed)

include h

theorem lists_seen {c : Code} {g : Value → Eval Value}
    (hg : ∀ L' v, L.Extends L' → v.Listed L' → Lists L' (g v) Value.Listed) :
    Lists L (do
      let v ← run c scope
      if v.isError then return v
      g v) Value.Listed :=
  (h L c scope).bind fun L' v hL hv => .ite (lists_value hv) (hg L' v hL hv)

theorem lists_values (es : List Expr) :
    Lists L (values run scope es) fun L' r => ∀ vs, r = .ok vs → ∀ v ∈ vs, v.Listed L' := by
  induction es generalizing L with
  | nil =>
      refine lists_pure fun _ _ vs hvs => ?_
      cases hvs
      exact List.forall_mem_nil _
  | cons e es ih =>
      refine (h L _ scope).bind fun L' v _ hv => ?_
      split
      · exact lists_pure fun _ _ vs hvs => by cases hvs
      · refine ih.bind fun L'' r hL hr => ?_
        cases r with
        | error f => exact lists_pure fun _ _ vs hvs => by cases hvs
        | ok vs =>
            refine lists_pure fun L₃ hL₃ ws hws => ?_
            cases hws
            refine List.forall_mem_cons.mpr ⟨hv.mono (hL.trans hL₃), fun w hw => ?_⟩
            exact (hr vs rfl w hw).mono hL₃

theorem lists_entries (ps : List (Expr × Expr)) {t : Table Value}
    (ht : Value.EachEntry (Value.Listed L) t) : Lists L (entries run scope t ps)
      fun L' r => ∀ t, r = .ok t → Value.EachEntry (Value.Listed L') t := by
  induction ps generalizing L t with
  | nil =>
      refine lists_pure fun L' hL u hu e he => ?_
      cases hu
      exact ⟨(ht e he).1.mono hL, (ht e he).2.mono hL⟩
  | cons p ps ih =>
      refine (h L _ scope).bind fun L₁ k hL₁ hk => ?_
      split
      · exact lists_pure fun _ _ u hu => by cases hu
      · split
        · exact lists_pure fun _ _ u hu => by cases hu
        · refine (h L₁ _ scope).bind fun L₂ v hL₂ hv => ?_
          split
          · exact lists_pure fun _ _ u hu => by cases hu
          · refine ih fun e he => ?_
            rcases Table.mem_insert he with rfl | he
            · exact ⟨hk.mono hL₂, hv⟩
            · exact ⟨(ht e he).1.mono (hL₁.trans hL₂), (ht e he).2.mono (hL₁.trans hL₂)⟩

theorem lists_loop (test : Expr) (body : Block) (rounds : Nat) :
    Lists L (loop run scope test body rounds) Value.Listed := by
  induction rounds generalizing L with
  | zero => exact lists_throw _
  | succ n ih =>
      refine lists_seen h fun L' c _ _ => .ite (lists_plain rfl) ?_
      exact (h L' _ scope).bind fun L'' v _ hv => .ite (lists_value hv) ih

omit h in
theorem lists_ident (s : Setting) (name : String) : Lists L (ident s scope name) Value.Listed := by
  refine (lists_lookup name).bind fun L' o _ ho => ?_
  cases o with
  | some v => exact lists_value (ho v rfl)
  | none =>
      dsimp only
      split <;> exact lists_plain rfl

theorem lists_call (depth : Nat) {f : Value} {args : List Value} (hargs : ∀ v ∈ args, v.Listed L) :
    Lists L (call depth run f args) Value.Listed := by
  cases f with
  | function stamp ps b outer =>
      refine (lists_child outer).bind fun L₁ inner hL₁ _ => ?_
      refine (lists_assignAll ps fun v hv => (hargs v hv).mono hL₁).bind fun L₂ _ _ _ => ?_
      exact (h L₂ _ inner).bind fun L₃ v _ hv => lists_value hv.settle
  | builtin f =>
      have hvalue {L' : Ledger} (hL : L.Extends L') :
          Lists L' (do let stamp ← fresh; return f.value stamp args) Value.Listed :=
        lists_made fun m => Value.new_of_made (Value.makes_new.builtin
          (fun v hv => (hargs v hv).mono hL) fun _ _ _ _ _ => Value.new_of_plain rfl)
      exact .ite ((lists_printAll depth args).bind fun _ _ hL _ => hvalue hL) (hvalue (.refl L))
  | _ => exact lists_plain rfl

theorem lists_binary (depth : Nat) (op : BinaryOp) (l r : Expr) :
    Lists L (binary depth run scope op l r) Value.Listed := by
  refine lists_seen h fun L₁ a _ ha => .ite (lists_plain rfl) (.ite (lists_plain rfl) ?_)
  refine lists_seen h fun L₂ b hL₂ hb => .ite (lists_plain rfl) ?_
  refine lists_new fun m v hv => Value.new_of_made (Value.makes_new.binary ?_ (.inl (.inl hb)) hv)
  exact .inl (.inl (ha.mono hL₂))

theorem lists_expr (s : Setting) (depth : Nat) (e : Expr) :
    Lists L (expr s depth run scope e) Value.Listed := by
  cases e with
  | missing => exact lists_throw _
  | foreign pos name => exact lists_throw _
  | ident i => exact lists_ident s i.name
  | int pos n => exact lists_plain rfl
  | double pos stamp x => exact lists_plain rfl
  | string pos t => exact lists_plain rfl
  | bool pos b => exact lists_plain rfl
  | array pos es =>
      refine (lists_values h es).bind fun L' r _ hr => ?_
      cases r with
      | error f => exact lists_plain rfl
      | ok vs => exact lists_made fun m => .array (hr vs rfl)
  | hash pos ps =>
      refine (lists_entries h ps fun e he => (by cases he)).bind fun L' r _ hr => ?_
      cases r with
      | error f => exact lists_plain rfl
      | ok t => exact lists_made fun m => .hash (hr t rfl)
  | range pos lo hi =>
      exact lists_seen h fun _ a _ _ => lists_seen h fun _ b _ _ => lists_plain Value.plain_rangeOf
  | unary pos op e =>
      exact lists_seen h fun _ v _ _ => lists_made fun m => Value.new_of_made Value.makes_new.unary
  | binary pos op l r => exact lists_binary h depth op l r
  | cond pos t yes no =>
      refine lists_seen h fun L' c _ _ => .ite (h L' _ scope) ?_
      cases no with
      | none => exact lists_plain rfl
      | some b => exact h L' _ scope
  | loop pos t b => exact lists_loop h t b s.rounds
  | fn pos ps b => exact lists_made fun m => Value.new_of_plain rfl
  | call pos f args =>
      refine lists_seen h fun L₁ callee _ _ => (lists_values h args).bind fun L₂ r _ hr => ?_
      cases r with
      | error f => exact lists_plain rfl
      | ok vs => exact lists_call h depth (hr vs rfl)
  | index pos c i =>
      refine lists_seen h fun L₁ a _ ha => lists_seen h fun L₂ b hL₂ _ => ?_
      exact lists_made fun m => Value.new_of_made (Value.makes_new.index (.inl (.inl (ha.mono hL₂))))

theorem lists_stmt (x : Stmt) : Lists L (stmt run scope x) Value.Listed := by
  cases x with
  | expr pos e => exact h L _ scope
  | bind pos name e =>
      refine lists_seen h fun L' v _ hv => ?_
      exact (lists_assign hv name.name).bind fun L'' _ hL _ => lists_value (hv.mono hL)
  | ret pos e =>
      cases e with
      | none => exact lists_value (Value.listed_returned (Value.listed_of_plain rfl))
      | some e => exact lists_seen h fun L' v _ hv => lists_value (Value.listed_returned hv)
  | block b => exact h L _ scope
  | foreign pos name => exact lists_throw _

theorem lists_stmts (xs : List Stmt) {last : Value} (hlast : last.Listed L) :
    Lists L (stmts run scope last xs) Value.Listed := by
  induction xs generalizing L last with
  | nil => exact lists_value hlast
  | cons x xs ih => exact (lists_stmt h x).bind fun L' v _ hv => .ite (lists_value hv) (ih hv)

end Parts

theorem lists_run (s : Setting) (depth : Nat) (L : Ledger) (c : Code) (scope : ScopeId) :
    Lists L (Eval.run s depth c scope) Value.Listed := by
  induction depth generalizing L c scope with
  | zero => exact lists_throw _
  | succ depth ih =>
      cases c with
      | expr e => exact lists_expr ih s depth e
      | block b => exact lists_stmts ih b.stmts (Value.listed_of_plain rfl)

theorem lists_program (s : Setting) (scope : ScopeId) (prog : Program) :
    Lists L (program s scope prog) Value.Listed :=
  (lists_stmts (lists_run s s.depth) prog.stmts (Value.listed_of_plain rfl)).bind
    fun _ _ _ hv => lists_value hv.settle

end Eval

namespace Session

theorem run_lists {s : Session} {L : Ledger} (hst : L.Covers s.store) (text : String) :
    ∃ L', L.Extends L' ∧ L'.Covers (s.run text).2.store ∧
      ∀ v, (s.run text).1 = .value v → v.Listed L' := by
  rcases run_cases s text with ⟨-, hrun⟩ | ⟨d, -, ⟨-, hrun⟩ | ⟨-, hprogram⟩⟩
  · rw [hrun]
    exact ⟨L, .refl L, hst, fun v hv => by cases hv⟩
  · rw [hrun]
    exact ⟨L, .refl L, hst, fun v hv => by cases hv⟩
  · obtain ⟨hok, herror⟩ :=
      Eval.lists_program s.setting s.scope d.program L (.refl L) s.store hst
    rcases hprogram with ⟨v, store, heval, hrun⟩ | ⟨why, store, heval, hrun⟩
    · obtain ⟨L', hL, hst', hv⟩ := hok v store heval
      rw [hrun]
      refine ⟨L', hL, hst', fun w hw => ?_⟩
      cases hw
      exact hv
    · obtain ⟨L', hL, hst'⟩ := herror why store heval
      rw [hrun]
      exact ⟨L', hL, hst', fun w hw => by cases hw⟩

theorem runAll_lists {s : Session} {L : Ledger} (hst : L.Covers s.store) (texts : List String) :
    ∃ L', L.Extends L' ∧ L'.Covers (s.runAll texts).2.store ∧
      ∀ v, .value v ∈ (s.runAll texts).1 → v.Listed L' := by
  induction texts generalizing s L with
  | nil => exact ⟨L, .refl L, hst, fun v hv => by cases hv⟩
  | cons text texts ih =>
      obtain ⟨L₁, hL₁, hst₁, hv₁⟩ := run_lists hst text
      obtain ⟨L₂, hL₂, hst₂, hv₂⟩ := ih hst₁
      refine ⟨L₂, hL₁.trans hL₂, hst₂, fun v hv => ?_⟩
      rcases List.mem_cons.mp hv with hv | hv
      · exact (hv₁ v hv.symm).mono hL₂
      · exact hv₂ v hv

theorem reached_listed (setting : Setting) (texts : List String) :
    ∃ L : Ledger, ∀ v, (start setting).Reaches texts v → v.Listed L := by
  have hstart : Ledger.Covers (fun _ => none) (start setting).store :=
    ⟨start_holds setting, fun _ => rfl⟩
  obtain ⟨L, -, hst, hvalues⟩ := runAll_lists hstart texts
  exact ⟨L, fun v hv => hv.every hvalues hst.bound⟩

end Session

end Marmoset
