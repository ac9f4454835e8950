import Marmoset.Proofs.Eval.Limits
import Marmoset.Proofs.Eval.Passing

namespace Marmoset

namespace Eval

section Settles

variable {registry : Registry} {c : Code} {scope : ScopeId} {st : Store}
  {o : EStateM.Result Halt Store Value}

def Unlimited (o : EStateM.Result Halt Store Value) : Prop :=
  ∀ why st', o = .error why st' → ¬why.IsLimit

/-- What a part of a program comes to when nothing limits it: from some limits on, the run ends so. -/
def Settles (registry : Registry) (c : Code) (scope : ScopeId) (st : Store)
    (o : EStateM.Result Halt Store Value) : Prop :=
  Unlimited o ∧ ∃ n, ∀ s depth, s.registry = registry → n ≤ s.rounds → n ≤ depth →
    run s depth c scope st = o

theorem unlimited_ok (v : Value) (st : Store) : Unlimited (.ok v st) := by
  intro why st' h
  cases h

theorem Unlimited.lasts {p q : Eval Value} (h : Unlimited o) (hpq : Lasts p q) (hp : p st = o) : q st = o := by
  rcases hpq.ends st with hsame | ⟨why, st', herror, hlimit⟩
  · exact hsame.symm.trans hp
  · exact absurd hlimit (h why st' (hp.symm.trans herror))

theorem Settles.of_run {s : Setting} {depth : Nat} (ho : Unlimited o) (h : run s depth c scope st = o) :
    Settles s.registry c scope st o := by
  refine ⟨ho, max s.rounds depth, fun s' depth' hregistry hrounds hdepth => ?_⟩
  have hrounds : s.rounds ≤ s'.rounds := (Nat.le_max_left _ _).trans hrounds
  have hdepth : depth ≤ depth' := (Nat.le_max_right _ _).trans hdepth
  exact ho.lasts (lasts_run s s' hregistry.symm hrounds hdepth c scope) h

theorem Settles.unique {o' : EStateM.Result Halt Store Value} (h : Settles registry c scope st o)
    (h' : Settles registry c scope st o') : o = o' := by
  obtain ⟨-, n, h⟩ := h
  obtain ⟨-, n', h'⟩ := h'
  have hrun := h ⟨registry, 0, max n n'⟩ (max n n') rfl (Nat.le_max_left n n') (Nat.le_max_left n n')
  have hrun' := h' ⟨registry, 0, max n n'⟩ (max n n') rfl (Nat.le_max_right n n') (Nat.le_max_right n n')
  exact hrun.symm.trans hrun'

end Settles

section Rounds

variable {run run' : Runner} {scope : ScopeId} {test : Expr} {body : Block}

def round (run : Runner) (scope : ScopeId) (test : Expr) (body : Block) (after : Eval Value) :
    Eval Value := do
  let c ← run (.expr test) scope
  if c.isError then return c
  if !c.truthy then return .null
  let v ← run (.block body) scope
  if v.leaves then return v
  after

theorem lasts_round (h : ∀ c i, Lasts (run c i) (run' c i)) {p q : Eval Value} (hpq : Lasts p q) :
    Lasts (round run scope test body p) (round run' scope test body q) := by
  have htest := h (.expr test) scope
  have hbody := h (.block body) scope
  unfold round
  infer_instance

end Rounds

end Eval

def Expr.unrolled (pos place last inner : Pos) (test : Expr) (body : Block) : Expr :=
  .cond pos test (.mk place (body.stmts ++ [.expr last (.loop inner test body)])) none

namespace Eval

variable {registry : Registry} {scope : ScopeId} {st st' : Store} {test : Expr} {body : Block}
  {pos place last inner : Pos}

theorem run_unrolled (s : Setting) (d : Nat) :
    run s (d + 2) (.expr (.unrolled pos place last inner test body)) scope =
      round (run s (d + 1)) scope test body (run s d (.expr (.loop inner test body)) scope) := by
  have hlast (v : Value) : stmts (run s d) scope v [.expr last (.loop inner test body)] =
      run s d (.expr (.loop inner test body)) scope := by
    change (run s d (.expr (.loop inner test body)) scope >>= fun w => if w.leaves then pure w else pure w) = _
    simp
  have hblock : run s (d + 1) (.block (.mk place (body.stmts ++ [.expr last (.loop inner test body)]))) scope =
      (do
        let v ← run s (d + 1) (.block body) scope
        if v.leaves then return v
        run s d (.expr (.loop inner test body)) scope) := by
    change stmts (run s d) scope .null (body.stmts ++ _) = _
    rw [stmts_append rfl]
    simp only [hlast]
    rfl
  change (do
    let c ← run s (d + 1) (.expr test) scope
    if c.isError then return c
    if c.truthy then run s (d + 1) (.block (.mk place _)) scope else return .null) = _
  rw [hblock]
  unfold round
  refine bind_congr fun c => ?_
  cases c.isError <;> cases c.truthy <;> rfl

theorem settles_unrolled {o : EStateM.Result Halt Store Value} :
    Settles registry (.expr (.loop inner test body)) scope st o ↔
      Settles registry (.expr (.unrolled pos place last inner test body)) scope st o := by
  constructor
  · rintro ⟨ho, n, h⟩
    let s : Setting := ⟨registry, 0, n + 1⟩
    have hrun : round (run s n) scope test body (loop (run s n) scope test body n) st = o :=
      h s (n + 1) rfl (Nat.le_succ n) (Nat.le_succ n)
    have hagain : Lasts (loop (run s n) scope test body n)
        (run s (n + 1) (.expr (.loop inner test body)) scope) :=
      lasts_loop (fun _ _ => .refl _) (Nat.le_succ n)
    have hdeeper (c : Code) (i : ScopeId) : Lasts (run s n c i) (run s (n + 2) c i) :=
      lasts_run s s rfl (Nat.le_refl _) (Nat.le_add_right n 2) c i
    have hround := ho.lasts (lasts_round hdeeper hagain) hrun
    rw [← run_unrolled] at hround
    exact .of_run ho hround
  · rintro ⟨ho, n, h⟩
    -- the loop inside has two levels less, so with a round more the loop alone goes at least as far
    let s : Setting := ⟨registry, 0, n⟩
    let s' : Setting := ⟨registry, 0, n + 1⟩
    have hmore (c : Code) (i : ScopeId) {d d' : Nat} (hd : d ≤ d') : Lasts (run s d c i) (run s' d' c i) :=
      lasts_run s s' rfl (Nat.le_succ n) hd c i
    have hrun := h s (n + 2) rfl (Nat.le_refl n) (Nat.le_add_right n 2)
    rw [run_unrolled] at hrun
    have hagain : Lasts (run s n (.expr (.loop inner test body)) scope)
        (loop (run s' (n + 1)) scope test body n) := by
      cases n with
      | zero => exact outlasts_throw trivial
      | succ n => exact lasts_loop (fun c i => hmore c i (by omega)) (Nat.le_refl _)
    have hloop : run s' (n + 2) (.expr (.loop inner test body)) scope st = o :=
      ho.lasts (lasts_round (fun c i => hmore c i (Nat.le_refl _)) hagain) hrun
    exact .of_run ho hloop

inductive Alternates (registry : Registry) (scope : ScopeId) (test : Expr) (body : Block) :
    Store → Store → Prop where
  | done {c : Value} {st st' : Store} :
      Settles registry (.expr test) scope st (.ok c st') → c.isError = false → c.truthy = false →
      Alternates registry scope test body st st'
  | round {c v : Value} {st st₁ st₂ st' : Store} :
      Settles registry (.expr test) scope st (.ok c st₁) → c.isError = false → c.truthy = true →
      Settles registry (.block body) scope st₁ (.ok v st₂) → v.leaves = false →
      Alternates registry scope test body st₂ st' → Alternates registry scope test body st st'

theorem alternates_of_loop {s : Setting} {d n : Nat} {v : Value} (hv : v.leaves = false)
    (h : loop (run s d) scope test body n st = .ok v st') :
    v = .null ∧ Alternates s.registry scope test body st st' := by
  induction n generalizing st with
  | zero => cases h
  | succ n ih =>
      obtain ⟨c, st₁, hc, h⟩ := bind_eq_ok h
      split at h
      · rename_i herror
        cases h
        cases v with
        | error f => cases hv
        | _ => cases herror
      · rename_i hok
        have hok : c.isError = false := by simpa using hok
        have htest := Settles.of_run (unlimited_ok c st₁) hc
        split at h
        · rename_i hfalsy
          cases h
          exact ⟨rfl, .done htest hok (by simpa using hfalsy)⟩
        · rename_i htruthy
          obtain ⟨w, st₂, hw, h⟩ := bind_eq_ok h
          split at h
          · rename_i hleaves
            cases h
            exact absurd hleaves (by simp [hv])
          · rename_i hstays
            obtain ⟨hnull, hrest⟩ := ih h
            exact ⟨hnull, .round htest hok (by simpa using htruthy) (.of_run (unlimited_ok w st₂) hw)
              (by simpa using hstays) hrest⟩

theorem Alternates.settles (h : Alternates registry scope test body st st') :
    Settles registry (.expr (.loop inner test body)) scope st (.ok .null st') := by
  induction h with
  | @done c st st' hc hok hfalsy =>
      obtain ⟨n, hc⟩ := hc.2
      let s : Setting := ⟨registry, 0, n + 1⟩
      have hrun : run s (n + 1) (.expr (.loop inner test body)) scope st = .ok .null st' := by
        refine (bind_ok (hc s n rfl (Nat.le_succ n) (Nat.le_refl n))).trans ?_
        simp only [hok, hfalsy]
        rfl
      exact .of_run (unlimited_ok _ _) hrun
  | @round c v st st₁ st₂ st' hc hok htruthy hv hstays _ ih =>
      obtain ⟨k, hc⟩ := hc.2
      obtain ⟨l, hv⟩ := hv.2
      obtain ⟨m, hrest⟩ := ih.2
      obtain ⟨n, hk, hl, hm⟩ : ∃ n, k ≤ n ∧ l ≤ n ∧ m ≤ n := ⟨k + l + m, by omega, by omega, by omega⟩
      let s : Setting := ⟨registry, 0, n + 1⟩
      have hless : loop (run ⟨registry, 0, n⟩ n) scope test body n st₂ = .ok .null st' :=
        hrest ⟨registry, 0, n⟩ (n + 1) rfl hm (Nat.le_succ_of_le hm)
      have hmore (c : Code) (i : ScopeId) : Lasts (run ⟨registry, 0, n⟩ n c i) (run s n c i) :=
        lasts_run ⟨registry, 0, n⟩ s rfl (Nat.le_succ n) (Nat.le_refl n) c i
      have hagain := (unlimited_ok _ _).lasts (lasts_loop hmore (Nat.le_refl n)) hless
      have hrun : run s (n + 1) (.expr (.loop inner test body)) scope st = .ok .null st' := by
        refine (bind_ok (hc s n rfl (Nat.le_succ_of_le hk) hk)).trans ?_
        simp only [hok, htruthy]
        refine (bind_ok (hv s n rfl (Nat.le_succ_of_le hl) hl)).trans ?_
        simp only [hstays]
        exact hagain
      exact .of_run (unlimited_ok _ _) hrun

/-- A loop comes to the same end as a condition with the same test whose block has the statements of the loop and
then the loop itself: to the same value, which may be an error or a return, or to the same halt, in the same store, or
to no end at all. So two runs of them end alike if no limit stops them, whatever the limits are. A loop that is not
left by an error or a return gives `null`, and runs its test and its body in turn up to the first time that the test
does not hold. -/
theorem loops_unroll (registry : Registry) (scope : ScopeId) (st : Store) (test : Expr) (body : Block)
    (pos place last inner : Pos) :
    let whole : Code := .expr (.loop inner test body)
    let parts : Code := .expr (.unrolled pos place last inner test body)
    (∀ o, Settles registry whole scope st o ↔ Settles registry parts scope st o) ∧
    (∀ (s s' : Setting) (depth depth' : Nat), s.registry = registry → s'.registry = registry →
      Unlimited (run s depth whole scope st) → Unlimited (run s' depth' parts scope st) →
      run s depth whole scope st = run s' depth' parts scope st) ∧
    ∀ v st', v.leaves = false →
      (Settles registry whole scope st (.ok v st') ↔
        v = .null ∧ Alternates registry scope test body st st') := by
  intro whole parts
  refine ⟨fun o => settles_unrolled, fun s s' depth depth' hs hs' hwhole hparts => ?_,
    fun v st' hv => ⟨fun h => ?_, ?_⟩⟩
  · have hends : Settles registry whole scope st (run s depth whole scope st) := hs ▸ .of_run hwhole rfl
    have hends' : Settles registry parts scope st (run s' depth' parts scope st) := hs' ▸ .of_run hparts rfl
    exact (settles_unrolled.mp hends).unique hends'
  · obtain ⟨n, h⟩ := h.2
    exact alternates_of_loop hv (h ⟨registry, 0, n⟩ (n + 1) rfl (Nat.le_refl n) (Nat.le_succ n))
  · rintro ⟨rfl, h⟩
    exact h.settles

theorem loops_unroll_counting :
    let p := Pos.start
    let i : Expr := .ident ⟨p, "i"⟩
    let test : Expr := .binary p .lt i (.int p 2)
    let body : Block := .mk p [.bind p ⟨p, "i"⟩ (.binary p .add i (.int p 1))]
    let st := Store.empty.root.2.bind 0 "i" (.integer 0)
    ∃ st', st'.find? 0 "i" = some (.integer 2) ∧
      Settles [] (.expr (.unrolled p p p p test body)) 0 st (.ok .null st') ∧
      Value.null.leaves = false ∧ Alternates [] 0 test body st st' := by
  intro p i test body st
  let st' : Store := { Store.empty.root.2.bind 0 "i" (.integer 2) with stamp := Stamp.first + 5 }
  have hrun : run ⟨[], 0, 3⟩ 4 (.expr (.loop p test body)) 0 st = .ok .null st' := rfl
  have hloop : Settles [] (.expr (.loop p test body)) 0 st (.ok .null st') := .of_run (unlimited_ok _ _) hrun
  obtain ⟨hunrolls, -, hrounds⟩ := loops_unroll [] 0 st test body p p p p
  exact ⟨st', rfl, (hunrolls _).mp hloop, rfl, ((hrounds .null st' rfl).mp hloop).2⟩

end Eval

end Marmoset
