import Marmoset.Proofs.Eval.Frame
import Marmoset.Proofs.Eval.Keeps
import Marmoset.Proofs.Eval.Relabel
import Marmoset.Proofs.Tree.Whole
import Marmoset.Proofs.Value.Parts

/-!
The labels that are in use in a store. Runs give out new ones in order and never come upon one that
has not been given out, so that a run in a store that is further on goes as it did before, with other
new labels.
-/

namespace Marmoset

section Use

def Node.Stamped (m : Stamp) : Node → Prop
  | .expr (.double _ s _) => s < m
  | _ => True

def Value.Labelled (st : Store) : Value → Prop
  | .double s _ | .array s _ | .hash s _ => s < st.stamp
  | .function s _ b i =>
      s < st.stamp ∧ i < st.scopes.size ∧ Node.Every (Node.Stamped st.stamp) (.block b)
  | _ => True

def Value.Of (st : Store) : Value → Prop := Value.Every (Value.Labelled st)

structure Store.Closed (st : Store) : Prop where
  shared : Stamp.shared < st.stamp
  values : st.Holds (Value.Of st)
  outer {sc : Scope} {i : ScopeId} : sc ∈ st.scopes → sc.outer = some i → i < st.scopes.size

structure Store.Ahead (st st' : Store) : Prop where
  size : st.scopes.size ≤ st'.scopes.size
  stamp : st.stamp ≤ st'.stamp

variable {st st' : Store}

theorem Node.Stamped.mono {m n : Stamp} (h : m ≤ n) {x : Node} (hx : x.Stamped m) : x.Stamped n := by
  unfold Node.Stamped at hx ⊢
  split at hx
  · exact Nat.lt_of_lt_of_le hx h
  · trivial

theorem Node.Written.stamped {m : Stamp} (h : Stamp.shared < m) {x : Node} (hx : x.Written) :
    x.Stamped m := by
  unfold Node.Stamped
  split
  · obtain rfl := hx
    exact h
  · trivial

theorem Value.Of.mono (h : st.Ahead st') {v : Value} (hv : v.Of st) : v.Of st' := by
  refine Value.Every.mono (fun w hw => ?_) hv
  cases w with
  | double s x => exact Nat.lt_of_lt_of_le hw h.stamp
  | array s vs => exact Nat.lt_of_lt_of_le hw h.stamp
  | hash s t => exact Nat.lt_of_lt_of_le hw h.stamp
  | function s ps b i =>
      obtain ⟨hs, hi, hb⟩ := hw
      refine ⟨Nat.lt_of_lt_of_le hs h.stamp, Nat.lt_of_lt_of_le hi h.size, hb.mono fun x hx => ?_⟩
      exact hx.mono h.stamp
  | _ => trivial

end Use

section Keeps

structure Relabeling.Keeps (r : Relabeling) (st : Store) : Prop where
  pos : r.pos = id
  stamp {m : Stamp} : m < st.stamp → r.stamp m = m
  scope {i : ScopeId} : i < st.scopes.size → r.scope i = i

variable {r : Relabeling} {st st' : Store} (hr : r.Keeps st)

include hr

theorem Relabeling.Keeps.mono {old : Store} (h : old.Ahead st) : r.Keeps old where
  pos := hr.pos
  stamp hm := hr.stamp (Nat.lt_of_lt_of_le hm h.stamp)
  scope hi := hr.scope (Nat.lt_of_lt_of_le hi h.size)

theorem Relabeling.Keeps.ident (i : Ident) : i.relabel r = i := by
  simp [Ident.relabel, hr.pos]

theorem Relabeling.Keeps.node {x : Node} (hx : Node.Every (Node.Stamped st.stamp) x) :
    x.relabel r = x := by
  have hmovable : Node.Every (Node.Movable r) x := hx.mono fun y hy => by
    unfold Node.Movable
    split
    · exact hr.stamp hy
    · rw [hr.pos]
      rfl
    · rw [hr.pos]
      rfl
    · trivial
  rw [Node.relabel_eq_move hmovable, hr.pos]
  exact x.move_id

theorem Relabeling.Keeps.value {v : Value} (hv : v.Of st) : v.relabel r = v := by
  induction hv with
  | @mk v hv _ ih =>
      cases v with
      | double s x => exact congrArg (Value.double · x) (hr.stamp hv)
      | array s vs =>
          have hvs : vs.map (Value.relabel r) = vs := (List.map_congr_left ih).trans (List.map_id vs)
          rw [Value.relabel_array, hr.stamp hv, hvs]
      | hash s t =>
          have hentry (e : Entry Value) (he : e ∈ t) : e.map (Value.relabel r) = e := by
            have hkey := ih e.key (List.mem_flatMap.mpr ⟨e, he, by simp⟩)
            have hvalue := ih e.value (List.mem_flatMap.mpr ⟨e, he, by simp⟩)
            rw [Entry.map, hkey, hvalue]
          have ht : t.map (Entry.map (Value.relabel r)) = t :=
            (List.map_congr_left hentry).trans (List.map_id t)
          rw [Value.relabel_hash, hr.stamp hv, ht]
      | function s ps b i =>
          obtain ⟨hs, hi, hb⟩ := hv
          have hps : ps.map (Ident.relabel r) = ps :=
            (List.map_congr_left fun p _ => hr.ident p).trans (List.map_id ps)
          have hbody := Node.block.inj (hr.node hb)
          rw [Value.relabel, hr.stamp hs, hr.scope hi, hps, hbody]
      | returned v => exact congrArg Value.returned (ih v (by simp [Value.parts]))
      | _ => rfl

theorem Relabeling.Keeps.values {vs : List Value} (hvs : ∀ v ∈ vs, v.Of st) :
    vs.map (Value.relabel r) = vs :=
  (List.map_congr_left fun v hv => hr.value (hvs v hv)).trans (List.map_id vs)

theorem Relabeling.Keeps.bindings (hst : st.Closed) {sc : Scope} (hsc : sc ∈ st.scopes) :
    sc.relabel r = sc := by
  have hvalues := hst.values sc hsc
  have hi {i : ScopeId} := hst.outer (i := i) hsc
  obtain ⟨bs, outer⟩ := sc
  have hbs : bs.map (fun b => (b.1, b.2.relabel r)) = bs := by
    refine (List.map_congr_left fun b hb => ?_).trans (List.map_id bs)
    rw [hr.value (hvalues b hb)]
    rfl
  have houter : outer.map r.scope = outer := by
    cases outer with
    | none => rfl
    | some i => exact congrArg some (hr.scope (hi rfl))
  rw [Scope.relabel, hbs, houter]

theorem Store.Closed.like (hst : st.Closed) (hext : st.Extends none st')
    (hnew : ∀ i, st.scopes.size ≤ i → st'.scopes.size ≤ r.scope i) : st.Like r st' := by
  intro i
  cases hsc : st.scopes[i]? with
  | none =>
      have hi := Array.getElem?_eq_none_iff.mp hsc
      exact Array.getElem?_eq_none (hnew i hi)
  | some sc =>
      obtain ⟨sc', hsc', -, hsame⟩ := hext.scope hsc
      obtain rfl := hsame (by simp)
      obtain ⟨hi, -⟩ := Array.getElem?_eq_some_iff.mp hsc
      rw [hr.scope hi, hsc', Option.map_some, hr.bindings hst (Array.mem_of_getElem? hsc)]

end Keeps

section Marks

structure Relabeling.Marks (r : Relabeling) (st : Store) : Prop extends r.Keeps st where
  given {m : Stamp} : r.stamp m = m → m < st.stamp
  made {i : ScopeId} : r.scope i = i → i < st.scopes.size

variable {r : Relabeling} {st : Store}

theorem Relabeling.Marks.node (hr : r.Marks st) {x : Node} (h : x.relabel r = x) :
    Node.Every (Node.Stamped st.stamp) x := by
  refine ⟨?_, fun y hy => Relabeling.Marks.node hr ?_⟩
  · unfold Node.Stamped
    split
    · injection h with h
      injection h with _ hs _
      exact hr.given hs
    · trivial
  · have hchildren := Node.children_relabel r x
    rw [h] at hchildren
    exact List.map_inj_left.mp (hchildren.symm.trans (List.map_id _).symm) y hy
termination_by sizeOf x
decreasing_by exact Node.sizeOf_child ‹_›

namespace Value

mutual

theorem of_relabel (hr : r.Marks st) : (v : Value) → v.relabel r = v → v.Of st
  | .null, _ | .boolean _, _ | .integer _, _ | .string _, _ | .range _ _, _ | .builtin _, _
  | .error _, _ => (every_atom rfl).mpr trivial
  | .double s x, h => by
      injection h with hs
      exact (every_atom rfl).mpr (hr.given hs)
  | .array s vs, h => by
      injection h with hs hvs
      exact every_array.mpr ⟨hr.given hs, of_relabelAll hr vs hvs⟩
  | .hash s t, h => by
      injection h with hs ht
      exact every_hash.mpr ⟨hr.given hs, of_relabelTable hr t ht⟩
  | .function s ps b i, h => by
      injection h with hs _ hb hi
      have hbody := hr.node (x := .block b) (congrArg Node.block hb)
      exact (every_atom rfl).mpr ⟨hr.given hs, hr.made hi, hbody⟩
  | .returned v, h => by
      injection h with hv
      exact every_returned.mpr ⟨trivial, of_relabel hr v hv⟩

theorem of_relabelAll (hr : r.Marks st) :
    (vs : List Value) → relabelAll r vs = vs → ∀ v ∈ vs, v.Of st
  | [], _ => List.forall_mem_nil _
  | v :: vs, h => by
      injection h with hv hvs
      exact List.forall_mem_cons.mpr ⟨of_relabel hr v hv, of_relabelAll hr vs hvs⟩

theorem of_relabelTable (hr : r.Marks st) :
    (t : List (Entry Value)) → relabelTable r t = t → ∀ e ∈ t, e.key.Of st ∧ e.value.Of st
  | [], _ => List.forall_mem_nil _
  | ⟨_, k, v⟩ :: t, h => by
      injection h with he ht
      injection he with _ hk hv
      have hentry := And.intro (of_relabel hr k hk) (of_relabel hr v hv)
      exact List.forall_mem_cons.mpr ⟨hentry, of_relabelTable hr t ht⟩

end

end Value

theorem Store.closed_of_like (hr : r.Marks st) (hshared : Stamp.shared < st.stamp)
    (h : st.Like r st) : st.Closed := by
  have hfixed {sc : Scope} (hsc : sc ∈ st.scopes) : sc.relabel r = sc := by
    obtain ⟨i, hi, rfl⟩ := Array.mem_iff_getElem.mp hsc
    have hlike := h i
    rw [hr.scope hi, Array.getElem?_eq_getElem hi] at hlike
    exact (Option.some.inj hlike).symm
  refine ⟨hshared, fun sc hsc b hb => ?_, fun {sc i} hsc houter => ?_⟩
  · have hbindings := congrArg Scope.bindings (hfixed hsc)
    have hpair := List.map_inj_left.mp (hbindings.trans (List.map_id _).symm) b hb
    exact Value.of_relabel hr b.2 (congrArg Prod.snd hpair)
  · have hscope : sc.outer.map r.scope = sc.outer := congrArg Scope.outer (hfixed hsc)
    rw [houter] at hscope
    exact hr.made (Option.some.inj hscope)

theorem Relabeling.Marks.inLine (hr : r.Marks st) (hmono : StrictMono r.scope) :
    r.InLine 0 0 (fun i j => i ≤ st.scopes.size ∧ j ≤ st.stamp)
      fun i j => st.scopes.size < i ∨ st.stamp < j where
  mono := hmono
  scope {i j} := by
    rintro ⟨-, hj⟩
    rcases Nat.lt_or_ge i st.scopes.size with hlt | hge
    · exact .inr ⟨hr.scope hlt, hlt, hj⟩
    · exact .inl (.inl (Nat.lt_succ_of_le hge))
  stamp {i j} := by
    rintro ⟨hi, -⟩
    rcases Nat.lt_or_ge j st.stamp with hlt | hge
    · exact .inr ⟨hr.stamp hlt, hi, hlt⟩
    · exact .inl (.inr (Nat.lt_succ_of_le hge))
  lost {i j} := by
    rintro (hi | hj)
    · exact ⟨.inl (Nat.lt_succ_of_lt hi), .inl hi⟩
    · exact ⟨.inr hj, .inr (Nat.lt_succ_of_lt hj)⟩

end Marks

section Shift

def skip (n k i : Nat) : Nat := if i < n then i else i + k

variable {n k i : Nat}

theorem skip_old (h : i < n) : skip n k i = i := if_pos h

theorem skip_new (h : n ≤ i) : skip n k i = i + k := if_neg (Nat.not_lt.mpr h)

theorem le_skip (n k i : Nat) : i ≤ skip n k i := by
  unfold skip
  split <;> omega

theorem skip_strictMono (n k : Nat) : StrictMono (skip n k) := by
  intro i j hij
  unfold skip
  split <;> split <;> omega

theorem skip_one_eq_iff : skip n 1 i = i ↔ i < n := by
  unfold skip
  split <;> omega

def Relabeling.shift {m : Stamp} (hm : Stamp.shared < m) (n l k : Nat) : Relabeling where
  pos := id
  stamp := skip m l
  scope := skip n k
  stamp_inj h := (skip_strictMono m l).injective h
  stamp_shared := skip_old hm

end Shift

namespace Eval

/-- The run depends on labels that the store has given out, and on no other ones. -/
def Generic (st : Store) (p : Eval Value) : Prop :=
  ∀ (r : Relabeling) (S : Pairing Store Store), r.Keeps st → r.Respects S →
    Mirrors S (Value.relabel r) p p

variable {s : Setting} {st st' : Store} {p : Eval Value}

theorem generic_program {scope : ScopeId} {prog : Program} (hscope : scope < st.scopes.size)
    (hprog : prog.Every (Node.Stamped st.stamp)) : Generic st (program s scope prog) := by
  intro r S hr hS
  have hmirrors := mirrors_program hS s scope prog
  have hstmts : prog.stmts.map (Stmt.relabel r) = prog.stmts :=
    (List.map_congr_left fun x hx => Node.stmt.inj (hr.node (hprog x hx))).trans (List.map_id _)
  rwa [Program.relabel, hstmts, hr.scope hscope] at hmirrors

theorem generic_apply {f : Value} {args : List Value} (hf : f.Of st) (hargs : ∀ a ∈ args, a.Of st) :
    Generic st (apply s f args) := by
  intro r S hr hS
  have hmirrors := mirrors_call hS (mirrors_run hS s s.depth) s.depth f args
  rwa [hr.value hf, hr.values hargs] at hmirrors

theorem Generic.ahead (h : Generic st p) : st.Ahead (finalState p st) := by
  have hline : Relabeling.same.InLine 0 0 (fun _ _ => False)
      fun i j => st.scopes.size ≤ i ∧ st.stamp ≤ j := by
    refine ⟨strictMono_id, False.elim, False.elim, fun ⟨hi, hj⟩ => ⟨⟨?_, hj⟩, ⟨hi, ?_⟩⟩⟩
    · exact Nat.le_succ_of_le hi
    · exact Nat.le_succ_of_le hj
  have hmirrors := h .same _ ⟨rfl, fun _ => rfl, fun _ => rfl⟩ (hline.respects "" "")
  obtain ⟨hsize, hstamp⟩ := hmirrors.lost (s := st) ⟨Nat.le_refl _, Nat.le_refl _⟩
  exact ⟨hsize, hstamp⟩

theorem Generic.closed (h : Generic st p) (hst : st.Closed) :
    (finalState p st).Closed ∧ ∀ v st', p st = .ok v st' → v.Of st' := by
  -- the run never comes upon labels beyond those of its last store: it is the same when they are moved
  generalize hlast : finalState p st = last
  have hahead : st.Ahead last := hlast ▸ h.ahead
  have hshared : Stamp.shared < last.stamp := Nat.lt_of_lt_of_le hst.shared hahead.stamp
  let r := Relabeling.shift hshared last.scopes.size 1 1
  have hmarks : r.Marks last := ⟨⟨rfl, skip_old, skip_old⟩, skip_one_eq_iff.mp, skip_one_eq_iff.mp⟩
  have hkeeps : r.Keeps st := hmarks.toKeeps.mono hahead
  have hline := hmarks.inLine (skip_strictMono _ _)
  have hmirrors := h r _ hkeeps (hline.respects st.printed st.printed)
  have hlike : st.Like r st :=
    hst.like hkeeps (.refl none st) fun i hi => Nat.le_trans hi (le_skip _ _ i)
  have hlost : ¬(last.scopes.size < (finalState p st).scopes.size ∨
      last.stamp < (finalState p st).stamp) := by
    rw [hlast]
    exact not_or.mpr ⟨Nat.lt_irrefl _, Nat.lt_irrefl _⟩
  rcases hmirrors.ends (t := st)
      ⟨hlike, ⟨hahead.size, hahead.stamp⟩, rfl, rfl, "", by simp, by simp⟩ hlost with
    ⟨v, st', st'', hv, hv', hlike', -⟩ | ⟨why, st', st'', hv, hv', hlike', -⟩
  · obtain rfl : st' = last := (finalState_ok hv).symm.trans hlast
    injection hv.symm.trans hv' with hvalue hstore
    subst hstore
    refine ⟨Store.closed_of_like hmarks hshared hlike', fun w last hw => ?_⟩
    injection hv.symm.trans hw with hvw hst'
    subst hvw hst'
    exact Value.of_relabel hmarks v hvalue.symm
  · obtain rfl : st' = last := (finalState_error hv).symm.trans hlast
    injection hv.symm.trans hv' with _ hstore
    subst hstore
    refine ⟨Store.closed_of_like hmarks hshared hlike', fun w last hw => ?_⟩
    cases hv.symm.trans hw

theorem Generic.repeats (h : Generic st p) (hst : st.Closed) (hext : st.Extends none (finalState p st)) :
    ∃ r : Relabeling, r.Keeps st ∧ ∃ text, (finalState p st).printed = st.printed ++ text ∧
      ((∃ v st₁ st₂, p st = .ok v st₁ ∧ p st₁ = .ok (v.relabel r) st₂ ∧
        st₂.printed = st₁.printed ++ text) ∨
      ∃ why st₁ st₂, p st = .error why st₁ ∧ p st₁ = .error why st₂ ∧
        st₂.printed = st₁.printed ++ text) := by
  generalize hlast : finalState p st = last at hext
  have hahead : st.Ahead last := hlast ▸ h.ahead
  obtain ⟨k, hk⟩ := Nat.exists_eq_add_of_le hahead.size
  obtain ⟨l, hl⟩ := Nat.exists_eq_add_of_le hahead.stamp
  let r := Relabeling.shift hst.shared st.scopes.size l k
  have hkeeps : r.Keeps st := ⟨rfl, skip_old, skip_old⟩
  have hline : r.InLine k l (fun i j => st.scopes.size ≤ i ∧ st.stamp ≤ j) fun _ _ => False := by
    refine ⟨skip_strictMono _ _, ?_, ?_, False.elim⟩
    · rintro i j ⟨hi, hj⟩
      exact .inr ⟨skip_new hi, Nat.le_succ_of_le hi, hj⟩
    · rintro i j ⟨hi, hj⟩
      exact .inr ⟨skip_new hj, hi, Nat.le_succ_of_le hj⟩
  have hmirrors := h r _ hkeeps (hline.respects st.printed last.printed)
  have hlike : st.Like r last := hst.like hkeeps hext fun i hi => by
    change last.scopes.size ≤ skip st.scopes.size k i
    rw [skip_new hi, hk]
    exact Nat.add_le_add_right hi k
  refine ⟨r, hkeeps, ?_⟩
  rcases hmirrors.ends (t := last)
      ⟨hlike, ⟨Nat.le_refl _, Nat.le_refl _⟩, hk, hl, "", by simp, by simp⟩ id with
    ⟨v, st₁, st₂, hv, hv', -, -, -, -, text, hp, hp'⟩ | ⟨why, st₁, st₂, hv, hv', -, -, -, -, text, hp, hp'⟩
  · obtain rfl : st₁ = last := (finalState_ok hv).symm.trans hlast
    exact ⟨text, hp, .inl ⟨v, st₁, st₂, hv, hv', hp'⟩⟩
  · obtain rfl : st₁ = last := (finalState_error hv).symm.trans hlast
    exact ⟨text, hp, .inr ⟨why, st₁, st₂, hv, hv', hp'⟩⟩

end Eval

end Marmoset
