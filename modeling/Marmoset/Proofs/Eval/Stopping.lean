import Marmoset.Proofs.Eval.Passing

namespace Marmoset.Eval

/-- What ends all that is around it. An error is a value that each part looks out for; a halt is no value
at all. -/
inductive Stop where
  | error (f : Failure)
  | halt (why : Halt)

/-- A run that is ended so, where an error is kept as `wrap` does it. -/
def Stop.ending {α : Type} (wrap : Failure → α) (st : Store) : Stop → EStateM.Result Halt Store α
  | .error f => .ok (wrap f) st
  | .halt why => .error why st

variable {s : Setting} {run : Runner} {scope : ScopeId} {st mid mid' st' : Store} {stop : Stop}

theorem bind_stop {α β : Type} {p : Eval α} {g : α → Eval β} {wrap : Failure → α} {wrap' : Failure → β}
    (h : p st = stop.ending wrap st') (hg : ∀ f, g (wrap f) st' = .ok (wrap' f) st') :
    (p >>= g) st = stop.ending wrap' st' := by
  cases stop with
  | error f => exact (bind_ok h).trans (hg f)
  | halt why => exact bind_error h

theorem seen_stop {c : Code} {g : Value → Eval Value}
    (h : run c scope st = stop.ending .error st') :
    (do
      let v ← run c scope
      if v.isError then return v
      g v) st = stop.ending .error st' :=
  bind_stop h fun _ => rfl

theorem seen_value {c : Code} {g : Value → Eval Value} {v : Value}
    (h : run c scope st = .ok v mid) (hok : v.isError = false) :
    (do
      let v ← run c scope
      if v.isError then return v
      g v) st = g v mid := by
  rw [bind_ok h]
  simp [hok]

theorem Along.values_stop {es : List Expr} {e : Expr} (h : Along (ExprDone run scope) es st e mid)
    (he : run (.expr e) scope mid = stop.ending .error st') :
    values run scope es st = stop.ending .error st' := by
  induction h with
  | here => exact bind_stop he fun _ => rfl
  | later hdone _ ih =>
      obtain ⟨v, hv, hok⟩ := hdone
      rw [values, bind_ok hv]
      cases v with
      | error g => cases hok
      | _ => exact bind_stop (ih he) fun _ => rfl

theorem entries_pair {x y : Expr} {ps : List (Expr × Expr)} {k v : Value} {id : Key}
    (hk : run (.expr x) scope st = .ok k mid) (hid : k.key? = some id)
    (hv : run (.expr y) scope mid = .ok v mid') (hok : v.isError = false) (t : Table Value) :
    entries run scope t ((x, y) :: ps) st = entries run scope (t.insert ⟨id, k, v⟩) ps mid' := by
  rw [entries, bind_ok hk]
  cases k with
  | error g => cases hid
  | _ =>
      simp only [hid]
      rw [bind_ok hv]
      cases v with
      | error g => cases hok
      | _ => rfl

theorem entries_unusable {x : Expr} {k : Value} (hk : run (.expr x) scope st = .ok k mid)
    (hok : k.isError = false) (hid : k.key? = none) (t : Table Value) (y : Expr)
    (ps : List (Expr × Expr)) :
    entries run scope t ((x, y) :: ps) st = .ok (.error (.unusableKey k.kind)) mid := by
  rw [entries, bind_ok hk]
  cases k with
  | error g => cases hok
  | _ =>
      simp only [hid]
      rfl

theorem PairDone.entries_eq {p : Expr × Expr} {ps : List (Expr × Expr)}
    (h : PairDone run scope p st mid) (t : Table Value) :
    ∃ e, entries run scope t (p :: ps) st = entries run scope (t.insert e) ps mid := by
  obtain ⟨k, id, st₁, hk, hid, v, hv, hok⟩ := h
  exact ⟨⟨id, k, v⟩, entries_pair hk hid hv hok t⟩

theorem Along.entries_stop {ps : List (Expr × Expr)} {p : Expr × Expr}
    (h : Along (PairDone run scope) ps st p mid)
    (hp : ∀ t rest, entries run scope t (p :: rest) mid = stop.ending .error st') (t : Table Value) :
    entries run scope t ps st = stop.ending .error st' := by
  induction h generalizing t with
  | here => exact hp t _
  | later hdone _ ih =>
      obtain ⟨e, he⟩ := hdone.entries_eq t
      rw [he]
      exact ih hp _

theorem key_stop {p : Expr × Expr} (h : run (.expr p.1) scope st = stop.ending .error st')
    (t : Table Value) (rest : List (Expr × Expr)) :
    entries run scope t (p :: rest) st = stop.ending .error st' :=
  bind_stop h fun _ => rfl

theorem value_stop {p : Expr × Expr} {k : Value} {id : Key}
    (hk : run (.expr p.1) scope st = .ok k mid) (hid : k.key? = some id)
    (h : run (.expr p.2) scope mid = stop.ending .error st')
    (t : Table Value) (rest : List (Expr × Expr)) :
    entries run scope t (p :: rest) st = stop.ending .error st' := by
  rw [entries, bind_ok hk]
  cases k with
  | error g => cases hid
  | _ =>
      simp only [hid]
      exact bind_stop h fun _ => rfl

section Rounds

variable {t : Expr} {b : Block} {n rounds : Nat}

theorem Rounds.test_stop (h : Rounds run scope t b n st mid) (hn : n < rounds)
    (ht : run (.expr t) scope mid = stop.ending .error st') :
    loop run scope t b rounds st = stop.ending .error st' := by
  obtain ⟨m, rfl⟩ : ∃ m, rounds = m + 1 + n := ⟨rounds - n - 1, by omega⟩
  rw [h.loop_eq, loop]
  exact seen_stop ht

theorem Rounds.body_stop {c : Value} (h : Rounds run scope t b n st mid) (hn : n < rounds)
    (hc : run (.expr t) scope mid = .ok c mid') (hok : c.isError = false) (htruthy : c.truthy = true)
    (hb : run (.block b) scope mid' = stop.ending .error st') :
    loop run scope t b rounds st = stop.ending .error st' := by
  obtain ⟨m, rfl⟩ : ∃ m, rounds = m + 1 + n := ⟨rounds - n - 1, by omega⟩
  rw [h.loop_eq, loop, bind_ok hc]
  simp only [hok, htruthy, Bool.false_eq_true, Bool.not_true, if_false]
  exact bind_stop hb fun _ => rfl

end Rounds

theorem Along.stmts_stop {xs : List Stmt} {x : Stmt} (h : Along (StmtDone run scope) xs st x mid)
    (hx : stmt run scope x mid = stop.ending .error st') (last : Value) :
    stmts run scope last xs st = stop.ending .error st' := by
  induction h generalizing last with
  | here => exact bind_stop hx fun _ => rfl
  | later hdone _ ih =>
      obtain ⟨u, hu, hstays⟩ := hdone
      rw [stmts, bind_ok hu]
      simp only [hstays, Bool.false_eq_true, if_false]
      exact ih hx u

theorem Enters.stops {p q : Point} {r : Role} (stop : Stop) (h : Enters s p r q)
    (hq : q.result s = stop.ending .error st') : p.result s = stop.ending .error st' := by
  cases h with
  | array hx => exact bind_stop (hx.values_stop hq) fun _ => rfl
  | key hx => exact bind_stop (hx.entries_stop (key_stop hq) []) fun _ => rfl
  | value hx hk hid => exact bind_stop (hx.entries_stop (value_stop hk hid hq) []) fun _ => rfl
  | low | operand | left | test | callee | collection => exact seen_stop hq
  | high hlow =>
      obtain ⟨v, hv, hok⟩ := hlow
      exact (seen_value hv hok).trans (seen_stop hq)
  | right hl hok hand hor =>
      refine (seen_value hl hok).trans ?_
      rw [if_neg (by simpa using hand), if_neg (by simpa using hor)]
      exact seen_stop hq
  | yes hc hok htruthy =>
      refine (seen_value hc hok).trans ?_
      rw [if_pos htruthy]
      exact hq
  | no hc hok htruthy =>
      refine (seen_value hc hok).trans ?_
      rw [if_neg (by simp [htruthy])]
      exact hq
  | again hn hlt => exact hn.test_stop hlt hq
  | round hn hlt hc hok htruthy => exact hn.body_stop hlt hc hok htruthy hq
  | argument hf hx =>
      obtain ⟨v, hv, hok⟩ := hf
      exact (seen_value hv hok).trans (bind_stop (hx.values_stop hq) fun _ => rfl)
  | body hf hvs hchild hassign =>
      refine (seen_value hf rfl).trans ((bind_ok hvs).trans ?_)
      exact (bind_ok hchild).trans ((bind_ok hassign).trans (bind_stop hq fun _ => rfl))
  | index hc =>
      obtain ⟨v, hv, hok⟩ := hc
      exact (seen_value hv hok).trans (seen_stop hq)
  | expr hx => exact hx.stmts_stop hq _
  | block hx => exact hx.stmts_stop hq _
  | bind hx => exact hx.stmts_stop (seen_stop hq) _
  | ret hx => exact hx.stmts_stop (seen_stop hq) _

theorem Enters.fails {p q : Point} {r : Role} {f : Failure} (h : Enters s p r q)
    (hq : q.result s = .ok (.error f) st') : p.result s = .ok (.error f) st' :=
  h.stops (.error f) hq

section Halting

variable {why : Halt}

theorem Visits.halts {p q : Point} {r : Role} (h : Visits s p r q)
    (hq : q.result s = .error why st') : p.result s = .error why st' := by
  induction h with
  | here henters => exact henters.stops (.halt why) hq
  | inside henters _ ih => exact henters.stops (.halt why) (ih hq)

theorem stmts_halt_iff {last : Value} (hlast : last.leaves = false) {xs : List Stmt} :
    stmts run scope last xs st = .error why st' ↔
      ∃ pre x post v mid, xs = pre ++ x :: post ∧ stmts run scope last pre st = .ok v mid ∧
        v.leaves = false ∧ stmt run scope x mid = .error why st' := by
  constructor
  · intro h
    induction xs generalizing st last with
    | nil => cases h
    | cons x xs ih =>
        rcases bind_eq_error h with hx | ⟨u, st₁, hu, hrest⟩
        · exact ⟨[], x, xs, last, st, rfl, rfl, hlast, hx⟩
        · split at hrest
          · cases hrest
          · rename_i hstays
            obtain ⟨pre, y, post, v, mid, rfl, hpre, hv, hy⟩ := ih (Bool.eq_false_iff.mpr hstays) hrest
            refine ⟨x :: pre, y, post, v, mid, rfl, ?_, hv, hy⟩
            rw [stmts, bind_ok hu, if_neg hstays]
            exact hpre
  · rintro ⟨pre, x, post, v, mid, rfl, hpre, hv, hx⟩
    rw [stmts_append hlast, bind_ok hpre, if_neg (Bool.eq_false_iff.mp hv)]
    exact bind_error hx

theorem program_halt_iff {p : Program} :
    program s scope p st = .error why st' ↔ (Point.top s scope p st).result s = .error why st' := by
  constructor
  · intro h
    rcases bind_eq_error h with htop | ⟨v, mid, -, hsettle⟩
    · exact htop
    · cases hsettle
  · exact fun htop => bind_error htop

end Halting

end Marmoset.Eval
