import Marmoset.Proofs.Tree.Loops
import Marmoset.Proofs.Tree.Places

namespace Marmoset

namespace Grammar

open Read

variable {T ts : List Token} {t : Token} {r o : Reading} {e : Expr}

structure SpansExpr (T i o : List Token) (e : Expr) : Prop where
  there : e ≠ .missing
  spans : Spans T i o [.node (.expr e)]

class Placing (T : List Token) (g : Inside) : Prop extends Steady g where
  reads : ∃ depth, g = ⟨T.length, Expr.read T.length depth⟩
  spans {level : Level} {r : Reading} {e : Expr} {o : Reading} : r.tokens <:+ T → g.expr level r = .ok e o →
    SpansExpr T r.tokens o.tokens e

theorem require_ok {α : Type} {a : Option α} {b : α} (h : require a r = .ok b o) : a = some b ∧ o = r := by
  cases a with
  | none => cases h
  | some a =>
      cases h
      exact ⟨rfl, rfl⟩

theorem eq_of_allOf {α : Type} {as : List (Option α)} {bs : List α} (h : allOf as = some bs) : as = bs.map some := by
  induction as generalizing bs with
  | nil =>
      cases h
      rfl
  | cons a as ih =>
      cases a with
      | none => cases h
      | some a =>
          obtain ⟨cs, hcs, rfl⟩ := Option.map_eq_some_iff.mp h
          exact congrArg (some a :: ·) (ih hcs)

variable (hT : T.Pairwise (·.pos < ·.pos)) {g : Inside} [hg : Placing T g]

theorem spans_value {level : Level} {v : Option Expr} (hr : r.tokens <:+ T)
    (h : attempt (g.expr level) r = .ok v o) : Spans T r.tokens o.tokens [.node (.expr (v.getD .missing))] := by
  cases v with
  | none => exact spans_missing hr (suffix_of_ok h)
  | some e => exact (hg.spans hr (attempt_eq_some.mp h)).spans

theorem Placing.begins {α : Type} {p : Inside → Read α} {a : α} {P : Token → Prop} {m : Array Mistake}
    (hi : t :: ts <:+ T) (h : p g ⟨t :: ts, m⟩ = .ok a o) (ht : P t) : Begins T p a t.pos P := by
  obtain ⟨depth, rfl⟩ := hg.reads
  exact ⟨depth, t, ts, m, o, hi, rfl, ht, h⟩

include hT

theorem spans_ident {name : Ident} (hr : r.tokens <:+ T) (hk : firstKind r.tokens = .ident)
    (h : ident r = .ok name o) : Spans T r.tokens o.tokens [.name name] := by
  obtain ⟨i, m⟩ := r
  obtain ⟨t, ts, rfl, ht⟩ := first_cons hk (by decide)
  cases h
  exact spans_name hT ⟨t, hr.subset List.mem_cons_self, rfl, ht, rfl⟩ rfl hr

theorem spans_collect {α : Type} {goes : List Token → Bool} {step : Read (List α)} {F : List α → List Part}
    (hnil : F [] = []) (happend : ∀ as bs, F (as ++ bs) = F as ++ F bs)
    (hstep : ∀ {r as o}, r.tokens <:+ T → goes r.tokens = true → step r = .ok as o →
      Spans T r.tokens o.tokens (F as))
    {n : Nat} {as : List α} (hr : r.tokens <:+ T) (h : (Loop.collect goes step).run n [] r = .ok as o) :
    Spans T r.tokens o.tokens (F as) := by
  refine Loop.run_keeps (P := fun as q => Spans T r.tokens q.tokens (F as)) ?_ ?_ h
  · intro as bs q q' has hgo hround
    obtain ⟨cs, hcs, rfl⟩ := Loop.collect_round hround
    rw [happend]
    exact has.append hT (hstep has.rest hgo hcs)
  · rw [hnil]
    exact .silent hr (List.suffix_refl _)

section Statements

variable {m : Array Mistake} {s : Stmt}

theorem spans_let (hi : t :: ts <:+ T) (ht : t.kind = .kwLet) (hrun : stmt g ⟨t :: ts, m⟩ = .ok s o)
    (h : letStmt g ⟨t :: ts, m⟩ = .ok s o) : Spans T (t :: ts) o.tokens [.node (.stmt s)] := by
  obtain ⟨_, r, hr, h⟩ := bind_eq_ok h
  cases hr
  obtain ⟨_, q, hq, h⟩ := bind_eq_ok h
  obtain ⟨name, n, hn, h⟩ := bind_eq_ok h
  obtain ⟨_, a, ha, h⟩ := bind_eq_ok h
  obtain ⟨_, b, hb, h⟩ := bind_eq_ok h
  obtain ⟨v, c, hc, h⟩ := bind_eq_ok h
  obtain ⟨_, d, hd, h⟩ := bind_eq_ok h
  cases h
  have hhead := spans_ok hi hq
  have hname := hhead.append hT (spans_ident hT hhead.rest (expect_ok hq).1 hn)
  have hassign := hname.step hT ha
  have hstart := hassign.step hT hb
  have hvalue := hstart.append hT (spans_value hstart.rest hc)
  have hparts := hvalue.step hT hd
  have hplaced := hparts.placed (.name name) List.mem_cons_self
  exact .node hT ⟨hg.begins hi hrun ht, List.forall_mem_singleton.mpr hplaced⟩ rfl hparts

theorem spans_return (hi : t :: ts <:+ T) (ht : t.kind = .kwReturn) (hrun : stmt g ⟨t :: ts, m⟩ = .ok s o)
    (h : returnStmt g ⟨t :: ts, m⟩ = .ok s o) : Spans T (t :: ts) o.tokens [.node (.stmt s)] := by
  obtain ⟨_, r, hr, h⟩ := bind_eq_ok h
  cases hr
  obtain ⟨_, r, hr, h⟩ := bind_eq_ok h
  cases hr
  split at h
  · obtain ⟨_, d, hd, h⟩ := bind_eq_ok h
    cases h
    exact .node hT ⟨hg.begins hi hrun ht, List.forall_mem_nil _⟩ rfl (spans_ok hi hd)
  · obtain ⟨_, a, ha, h⟩ := bind_eq_ok h
    obtain ⟨v, c, hc, h⟩ := bind_eq_ok h
    obtain ⟨_, d, hd, h⟩ := bind_eq_ok h
    cases h
    have hstart := spans_ok hi ha
    have hvalue := hstart.step hT hc
    cases v with
    | none => exact .node hT ⟨hg.begins hi hrun ht, List.forall_mem_nil _⟩ rfl (hvalue.step hT hd)
    | some e =>
        have hvalue := hstart.append hT (spans_value hstart.rest hc)
        have hparts := hvalue.step hT hd
        exact .node hT ⟨hg.begins hi hrun ht, List.forall_mem_nil _⟩ rfl hparts

theorem spans_exprStmt (hi : t :: ts <:+ T) (ht : t.kind ≠ .kwLet ∧ t.kind ≠ .kwReturn)
    (hrun : stmt g ⟨t :: ts, m⟩ = .ok s o) (h : exprStmt g ⟨t :: ts, m⟩ = .ok s o) :
    Spans T (t :: ts) o.tokens [.node (.stmt s)] := by
  obtain ⟨_, r, hr, h⟩ := bind_eq_ok h
  cases hr
  obtain ⟨v, c, hc, h⟩ := bind_eq_ok h
  obtain ⟨_, d, hd, h⟩ := bind_eq_ok h
  cases h
  have hparts := (spans_value hi hc).step hT hd
  exact .node hT ⟨hg.begins hi hrun ht, List.forall_mem_nil _⟩ rfl hparts

theorem spans_stmt (hi : t :: ts <:+ T) (h : stmt g ⟨t :: ts, m⟩ = .ok s o) :
    Spans T (t :: ts) o.tokens [.node (.stmt s)] := by
  have hrun := h
  rw [stmt, bind_ok (yields_currentKind _ _)] at h
  obtain ⟨kind, literal, pos⟩ := t
  cases kind with
  | kwLet => exact spans_let hT hi rfl hrun h
  | kwReturn => exact spans_return hT hi rfl hrun h
  | _ => exact spans_exprStmt hT hi ⟨by simp, by simp⟩ hrun h

theorem spans_statements {ends : Token.Kind → Bool} (heof : ends .eof = true) {n : Nat} {ss : List Stmt}
    (hr : r.tokens <:+ T) (h : statements (stmt g) ends n r = .ok ss o) :
    Spans T r.tokens o.tokens ((ss.map .stmt).map .node) := by
  rw [statements_run] at h
  refine spans_collect (F := fun ss => (ss.map .stmt).map .node) hT rfl (by simp)
    (fun {r as q} hr hgo hstep => ?_) hr h
  obtain ⟨s, a, ha, hstep⟩ := bind_eq_ok hstep
  obtain ⟨_, b, hb, hstep⟩ := bind_eq_ok hstep
  cases hstep
  cases s with
  | none => exact (spans_ok hr ha).step hT hb
  | some s =>
      obtain ⟨i, m⟩ := r
      have hk : firstKind i ≠ .eof := fun hk => by simp [hk, heof] at hgo
      obtain ⟨t, ts, rfl, -⟩ := first_cons rfl hk
      exact (spans_stmt hT hr (attempt_eq_some.mp ha)).step hT hb

theorem spans_block {b : Block} (hr : r.tokens <:+ T) (hk : firstKind r.tokens = .lbrace)
    (h : block g r = .ok b o) : Spans T r.tokens o.tokens [.node (.block b)] := by
  obtain ⟨i, m⟩ := r
  obtain ⟨t, ts, rfl, ht⟩ := first_cons hk (by decide)
  have hrun := h
  obtain ⟨_, r, hr', h⟩ := bind_eq_ok h
  cases hr'
  obtain ⟨_, a, ha, h⟩ := bind_eq_ok h
  obtain ⟨ss, d, hd, h⟩ := bind_eq_ok h
  cases h
  have hstart := spans_ok hr ha
  have hparts := hstart.append hT (spans_statements hT (by decide) hstart.rest hd)
  exact .node hT ⟨hg.begins hr hrun ht, List.forall_mem_nil _⟩ rfl hparts

end Statements

section Lists

theorem spans_moreExprs {n : Nat} {vs : List (Option Expr)} (hr : r.tokens <:+ T)
    (h : moreExprs g n r = .ok vs o) :
    Spans T r.tokens o.tokens ((vs.map fun v => .expr (v.getD .missing)).map .node) := by
  rw [moreExprs_run] at h
  refine spans_collect (F := fun vs => (vs.map fun v => .expr (v.getD .missing)).map .node) hT rfl (by simp)
    (fun {r as q} hr hgo hstep => ?_) hr h
  obtain ⟨_, a, ha, hstep⟩ := bind_eq_ok hstep
  obtain ⟨_, b, hb, hstep⟩ := bind_eq_ok hstep
  obtain ⟨v, c, hc, hstep⟩ := bind_eq_ok hstep
  cases hstep
  have hstart := (spans_ok hr ha).step hT hb
  exact hstart.append hT (spans_value hstart.rest hc)

theorem spans_exprList {close : Token.Kind} {es : List Expr} (hr : r.tokens <:+ T)
    (h : exprList g close r = .ok es o) : Spans T r.tokens o.tokens ((es.map .expr).map .node) := by
  rw [exprList, bind_ok (yields_nextKind _ _)] at h
  split at h
  · obtain ⟨_, a, ha, h⟩ := bind_eq_ok h
    cases h
    exact spans_ok hr ha
  · obtain ⟨_, a, ha, h⟩ := bind_eq_ok h
    obtain ⟨v, b, hb, h⟩ := bind_eq_ok h
    obtain ⟨vs, c, hc, h⟩ := bind_eq_ok h
    obtain ⟨_, d, hd, h⟩ := bind_eq_ok h
    obtain ⟨hall, rfl⟩ := require_ok h
    have hstart := spans_ok hr ha
    have hfirst := hstart.append hT (spans_value hstart.rest hb)
    have hmore := hfirst.append hT (spans_moreExprs hT hfirst.rest hc)
    have hparts : Spans T r.tokens c.tokens (((v :: vs).map fun v => .expr (v.getD .missing)).map .node) := hmore
    have helements : ((es.map some).map fun v => Node.expr (v.getD .missing)) = es.map .expr := List.map_map
    rw [eq_of_allOf hall, helements] at hparts
    exact hparts.step hT hd

theorem spans_moreParams {n : Nat} {ps : List Ident} (hr : r.tokens <:+ T) (h : moreParams n r = .ok ps o) :
    Spans T r.tokens o.tokens (ps.map .name) := by
  rw [moreParams_run] at h
  refine spans_collect (F := fun ps => ps.map .name) hT rfl (by simp)
    (fun {r as q} hr hgo hstep => ?_) hr h
  obtain ⟨_, a, ha, hstep⟩ := bind_eq_ok hstep
  obtain ⟨_, b, hb, hstep⟩ := bind_eq_ok hstep
  obtain ⟨p, c, hc, hstep⟩ := bind_eq_ok hstep
  cases hstep
  have hstart := (spans_ok hr ha).step hT hb
  exact hstart.append hT (spans_ident hT hstart.rest (expect_ok hb).1 hc)

theorem spans_params {n : Nat} {ps : List Ident} (hr : r.tokens <:+ T) (h : params n r = .ok ps o) :
    Spans T r.tokens o.tokens (ps.map .name) := by
  rw [params, bind_ok (yields_nextKind _ _)] at h
  split at h
  · obtain ⟨_, a, ha, h⟩ := bind_eq_ok h
    cases h
    exact spans_ok hr ha
  · obtain ⟨_, b, hb, h⟩ := bind_eq_ok h
    obtain ⟨p, c, hc, h⟩ := bind_eq_ok h
    obtain ⟨rest, d, hd, h⟩ := bind_eq_ok h
    obtain ⟨_, f, hf, h⟩ := bind_eq_ok h
    cases h
    have hstart := spans_ok hr hb
    have hfirst := hstart.append hT (spans_ident hT hstart.rest (expect_ok hb).1 hc)
    have hmore := hfirst.append hT (spans_moreParams hT hfirst.rest hd)
    exact hmore.step hT hf

theorem spans_pairs {n : Nat} {ps : List (Expr × Expr)} (hr : r.tokens <:+ T) (h : pairs g n r = .ok ps o) :
    Spans T r.tokens o.tokens ((ps.flatMap fun p => [.expr p.1, .expr p.2]).map .node) := by
  rw [pairs_run] at h
  refine spans_collect (F := fun ps => (ps.flatMap fun p => [.expr p.1, .expr p.2]).map .node) hT rfl (by simp)
    (fun {r as q} hr hgo hstep => ?_) hr h
  obtain ⟨_, a, ha, hstep⟩ := bind_eq_ok hstep
  obtain ⟨key, b, hb, hstep⟩ := bind_eq_ok hstep
  obtain ⟨_, c, hc, hstep⟩ := bind_eq_ok hstep
  obtain ⟨_, d, hd, hstep⟩ := bind_eq_ok hstep
  obtain ⟨value, u, hu, hstep⟩ := bind_eq_ok hstep
  obtain ⟨_, v, hv, hstep⟩ := bind_eq_ok hstep
  cases hstep
  have hstart := spans_ok hr ha
  have hkey := hstart.append hT (hg.spans hstart.rest hb).spans
  have hmid := (hkey.step hT hc).step hT hd
  have hvalue := hmid.append hT (hg.spans hmid.rest hu).spans
  exact hvalue.step hT hv

end Lists

section Exprs

theorem spans_bracketed (hr : r.tokens <:+ T) (h : bracketed g r = .ok e o) :
    SpansExpr T r.tokens o.tokens e := by
  obtain ⟨_, a, ha, h⟩ := bind_eq_ok h
  obtain ⟨v, b, hb, h⟩ := bind_eq_ok h
  obtain ⟨_, c, hc, h⟩ := bind_eq_ok h
  obtain ⟨rfl, rfl⟩ := require_ok h
  have hstart := spans_ok hr ha
  have hinner := hg.spans hstart.rest (attempt_eq_some.mp hb)
  have hparts := hstart.append hT hinner.spans
  exact ⟨hinner.there, hparts.step hT hc⟩

theorem spans_test (hr : r.tokens <:+ T) (h : test g r = .ok e o) : Spans T r.tokens o.tokens [.node (.expr e)] := by
  obtain ⟨_, a, ha, h⟩ := bind_eq_ok h
  have hstart := spans_ok hr ha
  exact hstart.append hT (spans_bracketed hT hstart.rest h).spans

variable {m : Array Mistake}

theorem spans_cond (hi : t :: ts <:+ T) (ht : t.kind = .kwIf) (hrun : operand g ⟨t :: ts, m⟩ = .ok e o)
    (h : condExpr g t.pos ⟨t :: ts, m⟩ = .ok e o) :
    SpansExpr T (t :: ts) o.tokens e := by
  obtain ⟨c, a, ha, h⟩ := bind_eq_ok h
  obtain ⟨_, b, hb, h⟩ := bind_eq_ok h
  obtain ⟨yes, d, hd, h⟩ := bind_eq_ok h
  have htest := spans_test hT hi ha
  have hbrace := htest.step hT hb
  have hyes := hbrace.append hT (spans_block hT hbrace.rest (expect_ok hb).1 hd)
  rw [bind_ok (yields_nextKind _ _)] at h
  split at h
  · obtain ⟨_, p, hp, h⟩ := bind_eq_ok h
    obtain ⟨_, q, hq, h⟩ := bind_eq_ok h
    obtain ⟨no, u, hu, h⟩ := bind_eq_ok h
    cases h
    have helse := hyes.step hT hp
    have hbrace' := helse.step hT hq
    have hno := hbrace'.append hT (spans_block hT hbrace'.rest (expect_ok hq).1 hu)
    exact ⟨by simp, .node hT ⟨hg.begins hi hrun ht, List.forall_mem_nil _⟩ rfl hno⟩
  · cases h
    exact ⟨by simp, .node hT ⟨hg.begins hi hrun ht, List.forall_mem_nil _⟩ rfl hyes⟩

theorem spans_loop (hi : t :: ts <:+ T) (ht : t.kind = .kwWhile) (hrun : operand g ⟨t :: ts, m⟩ = .ok e o)
    (h : loopExpr g t.pos ⟨t :: ts, m⟩ = .ok e o) :
    SpansExpr T (t :: ts) o.tokens e := by
  obtain ⟨c, a, ha, h⟩ := bind_eq_ok h
  obtain ⟨_, b, hb, h⟩ := bind_eq_ok h
  obtain ⟨body, d, hd, h⟩ := bind_eq_ok h
  cases h
  have htest := spans_test hT hi ha
  have hbrace := htest.step hT hb
  have hbody := hbrace.append hT (spans_block hT hbrace.rest (expect_ok hb).1 hd)
  exact ⟨by simp, .node hT ⟨hg.begins hi hrun ht, List.forall_mem_nil _⟩ rfl hbody⟩

theorem spans_fn (hi : t :: ts <:+ T) (ht : t.kind = .kwFn) (hrun : operand g ⟨t :: ts, m⟩ = .ok e o)
    (h : fnExpr g t.pos ⟨t :: ts, m⟩ = .ok e o) :
    SpansExpr T (t :: ts) o.tokens e := by
  obtain ⟨_, a, ha, h⟩ := bind_eq_ok h
  obtain ⟨ps, b, hb, h⟩ := bind_eq_ok h
  obtain ⟨_, c, hc, h⟩ := bind_eq_ok h
  obtain ⟨body, d, hd, h⟩ := bind_eq_ok h
  cases h
  have hstart := spans_ok hi ha
  have hparams := hstart.append hT (spans_params hT hstart.rest hb)
  have hbrace := spans_ok hparams.rest hc
  have hbody := hbrace.append hT (spans_block hT hbrace.rest (expect_ok hc).1 hd)
  have hparts := hparams.append hT hbody
  have hnames (i : Ident) (hi : i ∈ ps) : i.Placed T := hparams.placed (.name i) (List.mem_map_of_mem hi)
  exact ⟨by simp, .node hT ⟨hg.begins hi hrun ht, hnames⟩ rfl hparts⟩

theorem spans_leaf (hi : t :: ts <:+ T) (he : e ≠ .missing) (hpos : e.pos = t.pos) (hparts : (Node.expr e).parts = [])
    (hplaced : (Node.expr e).Placed T) : SpansExpr T (t :: ts) (t :: ts) e := by
  refine ⟨he, .node hT hplaced ((Expr.pos?_eq he).trans (congrArg some hpos)) ?_⟩
  rw [hparts]
  exact .silent hi (List.suffix_refl _)

theorem spans_unary (hi : t :: ts <:+ T) (ht : t.kind = .bang ∨ t.kind = .minus)
    (hrun : operand g ⟨t :: ts, m⟩ = .ok e o)
    (h : (do
      advance
      let e ← g.expr .unary
      return .unary t.pos (UnaryOp.ofSymbol t.literal) e : Read Expr) ⟨t :: ts, m⟩ = .ok e o) :
    SpansExpr T (t :: ts) o.tokens e := by
  obtain ⟨_, a, ha, h⟩ := bind_eq_ok h
  obtain ⟨v, b, hb, h⟩ := bind_eq_ok h
  cases h
  have hstart := spans_ok hi ha
  have hparts := hstart.append hT (hg.spans hstart.rest hb).spans
  exact ⟨by simp, .node hT ⟨hg.begins hi hrun ⟨ht, rfl⟩, List.forall_mem_nil _⟩ rfl hparts⟩

theorem spans_operand (hr : r.tokens <:+ T) (h : operand g r = .ok e o) : SpansExpr T r.tokens o.tokens e := by
  obtain ⟨i, m⟩ := r
  have hrun := h
  rw [operand, bind_ok (yields_current _ _)] at h
  cases i with
  | nil => cases h
  | cons t ts =>
      obtain ⟨kind, literal, pos⟩ := t
      cases kind with
      | ident =>
          cases h
          exact spans_leaf hT hr (by simp) rfl rfl ⟨hg.begins hr hrun ⟨rfl, rfl⟩, List.forall_mem_nil _⟩
      | int =>
          dsimp only [List.head?_cons, Option.getD_some] at h
          cases hn : Number.integer? literal with
          | none =>
              rw [hn] at h
              cases h
          | some n =>
              rw [hn] at h
              cases h
              exact spans_leaf hT hr (by simp) rfl rfl ⟨hg.begins hr hrun ⟨rfl, hn⟩, List.forall_mem_nil _⟩
      | double =>
          cases h
          exact spans_leaf hT hr (by simp) rfl rfl ⟨hg.begins hr hrun ⟨rfl, rfl⟩, List.forall_mem_nil _⟩
      | string =>
          cases h
          exact spans_leaf hT hr (by simp) rfl rfl ⟨hg.begins hr hrun ⟨rfl, rfl⟩, List.forall_mem_nil _⟩
      | kwTrue =>
          cases h
          exact spans_leaf hT hr (by simp) rfl rfl ⟨hg.begins hr hrun rfl, List.forall_mem_nil _⟩
      | kwFalse =>
          cases h
          exact spans_leaf hT hr (by simp) rfl rfl ⟨hg.begins hr hrun rfl, List.forall_mem_nil _⟩
      | bang => exact spans_unary hT hr (.inl rfl) hrun h
      | minus => exact spans_unary hT hr (.inr rfl) hrun h
      | lparen => exact spans_bracketed hT hr h
      | kwIf => exact spans_cond hT hr rfl hrun h
      | kwWhile => exact spans_loop hT hr rfl hrun h
      | kwFn => exact spans_fn hT hr rfl hrun h
      | lbracket =>
          obtain ⟨es, a, ha, h⟩ := bind_eq_ok h
          cases h
          exact ⟨by simp, .node hT ⟨hg.begins hr hrun rfl, List.forall_mem_nil _⟩ rfl (spans_exprList hT hr ha)⟩
      | lbrace =>
          obtain ⟨ps, a, ha, h⟩ := bind_eq_ok h
          obtain ⟨_, b, hb, h⟩ := bind_eq_ok h
          cases h
          have hparts := (spans_pairs hT hr ha).step hT hb
          exact ⟨by simp, .node hT ⟨hg.begins hr hrun rfl, List.forall_mem_nil _⟩ rfl hparts⟩
      | _ => cases h

theorem spans_operation {i : List Token} {left : Expr} (hleft : SpansExpr T i r.tokens left)
    (h : operation g left r = .ok e o) : SpansExpr T i o.tokens e := by
  obtain ⟨t, q, hq, h⟩ := bind_eq_ok h
  cases hq
  generalize r.tokens.head?.getD endToken = t at h
  obtain ⟨kind, literal, pos⟩ := t
  cases kind with
  | lparen =>
      obtain ⟨args, a, ha, h⟩ := bind_eq_ok h
      cases h
      have hparts := hleft.spans.append hT (spans_exprList hT hleft.spans.rest ha)
      exact ⟨by simp, .joined hleft.there rfl rfl (fun hp => ⟨⟨rfl, hp⟩, List.forall_mem_nil _⟩) hparts⟩
  | lbracket =>
      obtain ⟨_, a, ha, h⟩ := bind_eq_ok h
      obtain ⟨i, b, hb, h⟩ := bind_eq_ok h
      obtain ⟨_, c, hc, h⟩ := bind_eq_ok h
      cases h
      have hstart := hleft.spans.step hT ha
      have hparts := (hstart.append hT (hg.spans hstart.rest hb).spans).step hT hc
      exact ⟨by simp, .joined hleft.there rfl rfl (fun hp => ⟨⟨rfl, hp⟩, List.forall_mem_nil _⟩) hparts⟩
  | _ =>
      obtain ⟨_, a, ha, h⟩ := bind_eq_ok h
      obtain ⟨right, b, hb, h⟩ := bind_eq_ok h
      have hstart := hleft.spans.step hT ha
      have hparts := hstart.append hT (hg.spans hstart.rest hb).spans
      split at h
      · cases h
        exact ⟨by simp, .joined hleft.there rfl rfl (fun hp => ⟨⟨rfl, hp⟩, List.forall_mem_nil _⟩) hparts⟩
      · cases h
        exact ⟨by simp, .joined hleft.there rfl rfl (fun hp => ⟨⟨rfl, hp⟩, List.forall_mem_nil _⟩) hparts⟩

theorem spans_operations {i : List Token} {level : Level} {n : Nat} {left : Expr}
    (hleft : SpansExpr T i r.tokens left) (h : operations g level n left r = .ok e o) :
    SpansExpr T i o.tokens e := by
  rw [operations_run] at h
  refine Loop.run_keeps (P := fun e q => SpansExpr T i q.tokens e) ?_ hleft h
  intro e e' q q' he _ hround
  obtain ⟨_, a, ha, hround⟩ := bind_eq_ok hround
  exact spans_operation hT ⟨he.there, he.spans.step hT ha⟩ hround

theorem spans_expr {level : Level} (hr : r.tokens <:+ T) (h : expr g level r = .ok e o) :
    SpansExpr T r.tokens o.tokens e := by
  obtain ⟨left, q, hq, h⟩ := bind_eq_ok h
  exact spans_operations hT (spans_operand hT hr hq) h

end Exprs

theorem placing_read (depth : Nat) : Placing T ⟨T.length, Expr.read T.length depth⟩ := by
  induction depth with
  | zero =>
      exact {
        grows_expr := (sound_read T.length 0).grows_expr
        reads := ⟨0, rfl⟩
        spans := fun _ h => (by cases h) }
  | succ depth ih =>
      exact {
        grows_expr := (sound_read T.length (depth + 1)).grows_expr
        reads := ⟨depth + 1, rfl⟩
        spans := fun hr h => spans_expr (g := ⟨T.length, Expr.read T.length depth⟩) hT hr h }

end Grammar

/-- Each node of a tree that is read from a text, with or without mistakes, stands at a token of the text: at the one
that it is read from, or where its first part does. No two tokens stand at one place, and on a walk from each node to
its parts the places come in the order of the text. -/
theorem nodes_stand_at_tokens {depth : Nat} {text : String} {d : Program.Draft}
    (h : Program.ofText? depth text = some d) :
    d.program.Every (Node.Placed (Token.ofText text)) ∧ (Token.ofText text).Pairwise (·.pos < ·.pos) ∧
      d.program.places.Pairwise (· ≤ ·) := by
  have hT := Token.ofText_ordered text
  have hg := Grammar.placing_read hT depth
  have hprogram : Program.Draft.of?
      (Grammar.program (Token.ofText text).length depth ⟨Token.ofText text, #[]⟩) = some d := h
  cases hread : Grammar.program (Token.ofText text).length depth ⟨Token.ofText text, #[]⟩ with
  | error e o =>
      rw [hread] at hprogram
      cases hprogram
  | ok ss o =>
      rw [hread] at hprogram
      cases hprogram
      have hspans := Grammar.spans_statements hT rfl (List.suffix_refl _) hread
      refine ⟨fun s hs => ?_, hT, ?_⟩
      · exact hspans.placed _ (List.mem_map_of_mem (List.mem_map_of_mem hs))
      · have hordered := hspans.lies.ordered
        rwa [List.flatMap_map, List.flatMap_map] at hordered

theorem nodes_stand_at_tokens_mistaken :
    let text := "let f = fn(x) \x7b (x) + -a[0] \x7d; f(; ]"
    let tree := Program.mk [
      .bind ⟨1, 1⟩ ⟨⟨1, 5⟩, "f"⟩ (.fn ⟨1, 9⟩ [⟨⟨1, 12⟩, "x"⟩] (.mk ⟨1, 15⟩ [
        .expr ⟨1, 17⟩ (.binary ⟨1, 18⟩ .add (.ident ⟨⟨1, 18⟩, "x"⟩)
          (.unary ⟨1, 23⟩ .neg (.index ⟨1, 24⟩ (.ident ⟨⟨1, 24⟩, "a"⟩) (.int ⟨1, 26⟩ 0))))])),
      .expr ⟨1, 32⟩ .missing, .expr ⟨1, 36⟩ .missing]
    let mistakes : List Mistake := [.noExpression .semicolon, .expected .rparen .rbracket, .noExpression .rbracket]
    Program.ofText? 9 text = some ⟨tree, mistakes⟩ ∧ tree.Every (Node.Placed (Token.ofText text)) ∧
      tree.places.Pairwise (· ≤ ·) := by
  intro text tree mistakes
  have h : Program.ofText? 9 text = some ⟨tree, mistakes⟩ := by cbv
  obtain ⟨hplaced, -, hwalk⟩ := nodes_stand_at_tokens h
  exact ⟨h, hplaced, hwalk⟩

end Marmoset
