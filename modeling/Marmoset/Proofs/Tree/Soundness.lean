import Mathlib
import Marmoset.Proofs.Token.Lexer
import Marmoset.Proofs.Tree.Brackets

/-!
Readings without mistakes follow the grammar: a production that starts at the current token and adds
no mistake ends at the last token of a phrase, and gives the tree of that phrase.
-/

set_option synthInstance.maxSize 1000

namespace Marmoset.Grammar

open Read

def pairEnd : Read Unit := do
  if (← nextKind) ≠ .rbrace then expect .comma

theorem pairs_succ (g : Inside) (n : Nat) : pairs g (n + 1) = (do
    if (← nextKind) = .rbrace then return []
    advance
    let key ← g.expr .lowest
    expect .colon
    advance
    let value ← g.expr .lowest
    pairEnd
    let rest ← pairs g n
    return (key, value) :: rest) := by
  have ends (f : Unit → Read (List (Expr × Expr))) : pairEnd >>= f = (do
      let k ← nextKind
      if k ≠ .rbrace then do
        let r ← expect .comma
        f r
      else f ()) := by
    unfold pairEnd
    simp only [bind_assoc]
    congr 1
    funext k
    split <;> simp
  simp only [ends, pairs]

def letBody (g : Inside) : Read Stmt := do
  let t ← current
  expect .ident
  let name ← ident
  expect .assign
  advance
  let value ← attempt (g.expr .lowest)
  return .bind t.pos name (value.getD .missing)

def returnBody (g : Inside) : Read Stmt := do
  let t ← current
  let next ← nextKind
  if next = .semicolon ∨ next = .rbrace ∨ next = .eof then
    return .ret t.pos none
  advance
  let value ← attempt (g.expr .lowest)
  return .ret t.pos value

def exprBody (g : Inside) : Read Stmt := do
  let t ← current
  let value ← attempt (g.expr .lowest)
  return .expr t.pos (value.getD .missing)

def stmtBody (g : Inside) : Read Stmt := do
  match ← currentKind with
  | .kwLet => letBody g
  | .kwReturn => returnBody g
  | _ => exprBody g

theorem stmt_eq (g : Inside) : stmt g = (do
    let s ← stmtBody g
    skip .semicolon
    return s) := by
  have hlet : letStmt g = letBody g >>= fun s => skip .semicolon >>= fun _ => pure s := by
    simp only [letStmt, letBody, bind_assoc, pure_bind]
  have hreturn : returnStmt g = returnBody g >>= fun s => skip .semicolon >>= fun _ => pure s := by
    simp only [returnStmt, returnBody, bind_assoc]
    refine bind_congr fun t => bind_congr fun k => ?_
    split <;> simp only [pure_bind, bind_assoc]
  have hexpr : exprStmt g = exprBody g >>= fun s => skip .semicolon >>= fun _ => pure s := by
    simp only [exprStmt, exprBody, bind_assoc, pure_bind]
  simp only [stmt, stmtBody, bind_assoc]
  refine bind_congr fun k => ?_
  cases k with
  | kwLet => exact hlet
  | kwReturn => exact hreturn
  | _ => exact hexpr

section Grows

class Steady (g : Inside) : Prop where
  grows_expr (level : Level) : Grows (g.expr level)

variable {g : Inside} [hg : Steady g]

instance {level : Level} : Grows (g.expr level) := hg.grows_expr level

instance : Grows ident := by
  unfold ident
  infer_instance

instance : Grows (stmtBody g) := by
  have choice (k : Token.Kind) : Grows (match k with
      | .kwLet => letBody g
      | .kwReturn => returnBody g
      | _ => exprBody g) := by
    unfold letBody returnBody exprBody
    split <;> infer_instance
  unfold stmtBody
  infer_instance

instance : Grows (stmt g) := by
  rw [stmt_eq]
  infer_instance

instance {s : Read Stmt} [Grows s] {ends : Token.Kind → Bool} {rounds : Nat} :
    Grows (statements s ends rounds) := by
  induction rounds with
  | zero => exact inferInstanceAs (Grows (pure _))
  | succ n ih =>
      unfold statements
      infer_instance

instance : Grows (block g) := by
  unfold block
  infer_instance

instance {rounds : Nat} : Grows (moreExprs g rounds) := by
  induction rounds with
  | zero => exact inferInstanceAs (Grows (pure _))
  | succ n ih =>
      unfold moreExprs
      infer_instance

instance {close : Token.Kind} : Grows (exprList g close) := by
  unfold exprList
  infer_instance

instance {rounds : Nat} : Grows (moreParams rounds) := by
  induction rounds with
  | zero => exact inferInstanceAs (Grows (pure _))
  | succ n ih =>
      unfold moreParams
      infer_instance

instance {size : Nat} : Grows (params size) := by
  unfold params
  infer_instance

instance : Grows pairEnd := by
  unfold pairEnd
  infer_instance

instance {rounds : Nat} : Grows (pairs g rounds) := by
  induction rounds with
  | zero => exact inferInstanceAs (Grows (pure _))
  | succ n ih =>
      rw [pairs_succ]
      infer_instance

instance : Grows (bracketed g) := by
  unfold bracketed
  infer_instance

instance : Grows (test g) := by
  unfold test
  infer_instance

instance {pos : Pos} : Grows (condExpr g pos) := by
  unfold condExpr
  infer_instance

instance {pos : Pos} : Grows (loopExpr g pos) := by
  unfold loopExpr
  infer_instance

instance {pos : Pos} : Grows (fnExpr g pos) := by
  unfold fnExpr
  infer_instance

instance : Grows (operand g) := by
  unfold operand
  refine @Grows.bind _ _ _ _ inferInstance fun t => ?_
  split
  case h_2 => split <;> infer_instance
  all_goals infer_instance

instance {left : Expr} : Grows (operation g left) := by
  unfold operation
  refine @Grows.bind _ _ _ _ inferInstance fun t => ?_
  split <;> infer_instance

instance {level : Level} {rounds : Nat} {left : Expr} :
    Grows (operations g level rounds left) := by
  induction rounds generalizing left with
  | zero => exact inferInstanceAs (Grows (pure _))
  | succ n ih =>
      unfold operations
      infer_instance

instance {level : Level} : Grows (expr g level) := by
  unfold expr
  infer_instance

end Grows

section Tokens

def live (ts : List Token) : List Token := ts.takeWhile fun t => t.kind ≠ .eof

def Ended : List Token → Prop
  | [] => True
  | t :: ts => (t.kind = .eof → ts = []) ∧ Ended ts

structure Within (size : Nat) (i : List Token) : Prop where
  ended : Ended i
  fits : i.length ≤ size

theorem Ended.suffix {i o : List Token} (h : Ended i) (ho : o <:+ i) : Ended o := by
  induction i with
  | nil => rwa [List.suffix_nil.mp ho]
  | cons t ts ih =>
      rcases List.suffix_cons_iff.mp ho with rfl | ho
      · exact h
      · exact ih h.2 ho

theorem Within.suffix {n : Nat} {i o : List Token} (h : Within n i) (ho : o <:+ i) : Within n o :=
  ⟨h.ended.suffix ho, ho.length_le.trans h.fits⟩

theorem live_cons {t : Token} {k : Token.Kind} (ht : t.kind = k) (hk : k ≠ .eof) (ts : List Token) :
    live (t :: ts) = t :: live ts := by
  have hn : t.kind ≠ .eof := ht ▸ hk
  simp [live, hn]

theorem live_eof {i : List Token} (h : firstKind i = .eof) : live i = [] := by
  cases i with
  | nil => rfl
  | cons t ts =>
      have ht : t.kind = .eof := h
      simp [live, ht]

theorem firstKind_live (i : List Token) : firstKind (live i) = firstKind i := by
  by_cases h : firstKind i = .eof
  · rw [live_eof h, h, firstKind_nil]
  · obtain ⟨t, ts, rfl, ht⟩ := first_cons rfl h
    rw [live_cons ht h, firstKind_cons, firstKind_cons]

theorem Ended.live_tail {i : List Token} (he : Ended i) (h : firstKind i = .eof) :
    live i.tail = [] := by
  cases i with
  | nil => rfl
  | cons t ts =>
      rw [he.1 h]
      rfl

end Tokens

section Clean

def ReadsExpr (level : Level) (i o : List Token) (e : Expr) : Prop :=
  Derives careful (.expr (min (level.rank + 1) Level.unary.rank) e) (live i) (live o.tail) ∧
    (firstKind o.tail).level.rank ≤ level.rank

class Sound (g : Inside) : Prop extends Steady g where
  clean_expr (level : Level) {i : List Token} (h : Within g.size i) :
    Clean (g.expr level) i (ReadsExpr level i)

variable {g : Inside} [hg : Sound g] {i : List Token}

theorem clean_lowest (hw : Within g.size i) :
    Clean (g.expr .lowest) i fun o e => Derives careful (.expr Level.lowest.rank e) (live i) (live o.tail) :=
  (hg.clean_expr .lowest hw).mono fun _ _ h => h.1.lower (Nat.zero_le _)

theorem yields_ident (t : Token) (ts : List Token) :
    Yields ident (t :: ts) ⟨t.pos, t.literal⟩ (t :: ts) :=
  fun _ => rfl

theorem clean_value (hw : Within g.size i) :
    Clean (g.expr .lowest) i fun o e =>
      Derives careful (.expr Level.lowest.rank e) (live i) (live o.tail) ∧
        (firstKind o.tail).level.rank = 0 :=
  (hg.clean_expr .lowest hw).mono fun _ _ h => ⟨h.1.lower (Nat.zero_le _), Nat.le_zero.mp h.2⟩

theorem clean_semicolon {α : Type} {f : Unit → Read α} {Q : List Token → α → Prop} (bare : Bool)
    (hp : firstKind i.tail ≠ .semicolon → Parts bare (firstKind i.tail))
    (h : ∀ o, careful bare (live i.tail) (live o.tail) → Clean (f ()) o Q) :
    Clean (skip .semicolon >>= f) i Q := by
  refine .skip (fun hs => h _ (.inr ?_)) fun hs => h _ (.inl ⟨rfl, ?_⟩)
  · obtain ⟨t, u, us, rfl, hu⟩ := tail_cons hs (by decide)
    exact ⟨u, hu, live_cons hu (by decide) us⟩
  · rw [firstKind_live]
    exact hp hs

structure ReadsBody (i o : List Token) (s : Stmt) : Prop where
  shut : Shut (live i) (live o.tail)
  derives : ∃ bare, (firstKind o.tail ≠ .semicolon → Parts bare (firstKind o.tail)) ∧
    ∀ out, careful bare (live o.tail) out → Derives careful (.stmt s) (live i) out

theorem shut_of_expr {n : Nat} {e : Expr} {inp out : List Token}
    (h : Derives careful (.expr n e) inp out) : Shut inp out :=
  (h.mono fun _ _ _ => free_of_careful).brackets

theorem clean_letBody (hw : Within g.size i) (hk : firstKind i = .kwLet) :
    Clean (letBody g) i (ReadsBody i) := by
  obtain ⟨t, i, rfl, ht⟩ := first_cons hk (by decide)
  refine .step (yields_current _) (.expect (by decide) ?_)
  rintro _ x i ⟨⟩ hx
  refine .step (yields_ident x i) (.expect (by decide) ?_)
  rintro _ a i ⟨⟩ ha
  refine .step (yields_advance _) (.bind (clean_value (hw.suffix ⟨[t, x, a], rfl⟩)).attempt ?_)
  rintro _ o - ⟨e, rfl, hd, hn⟩
  apply clean_pure
  have hlive : live (t :: x :: a :: i) = t :: x :: a :: live i := by
    rw [live_cons ht (by decide), live_cons hx (by decide), live_cons ha (by decide)]
  constructor
  · rw [hlive]
    exact (even_let ht hx ha _).shut (shut_of_expr hd)
  · rw [hlive]
    exact ⟨false, fun hs => ⟨hn, hs⟩, fun out ho => .bind ht hx ha hd ho⟩

theorem clean_returnBody (hw : Within g.size i) (hk : firstKind i = .kwReturn) :
    Clean (returnBody g) i (ReadsBody i) := by
  obtain ⟨t, i, rfl, ht⟩ := first_cons hk (by decide)
  have hlive : live (t :: i) = t :: live i := live_cons ht (by decide) i
  have hweight : t.kind.weight = 0 := by
    rw [ht]
    rfl
  refine .step (yields_current _) (.step (yields_nextKind _) ?_)
  split
  · rename_i hn
    apply clean_pure
    constructor
    · rw [hlive]
      exact shut_token hweight (by simp [ht]) _
    · rw [hlive]
      exact ⟨true, hn.resolve_left, fun out ho => .ret ht ho⟩
  · refine .step (yields_advance _) (.bind (clean_value (hw.suffix ⟨[t], rfl⟩)).attempt ?_)
    rintro _ o - ⟨e, rfl, hd, hn⟩
    apply clean_pure
    constructor
    · rw [hlive]
      exact (even_cons hweight _).shut (shut_of_expr hd)
    · rw [hlive]
      exact ⟨false, fun hs => ⟨hn, hs⟩, fun out ho => .retValue ht hd ho⟩

theorem Derives.ne_nil {ends : Ending} {n : Nat} {e : Expr} {inp out : List Token}
    (h : Derives ends (.expr n e) inp out) : inp ≠ [] := by
  generalize hp : Phrase.expr n e = φ at h
  induction h generalizing n e <;> simp_all

theorem clean_exprBody (hw : Within g.size i) : Clean (exprBody g) i (ReadsBody i) := by
  refine .step (yields_current _) (.bind (clean_value hw).attempt ?_)
  rintro _ o - ⟨e, rfl, hd, hn⟩
  refine clean_pure ⟨shut_of_expr hd, false, fun hs => ⟨hn, hs⟩, fun out ho => ?_⟩
  cases i with
  | nil => exact absurd rfl hd.ne_nil
  | cons t i =>
      have ht : t.kind ≠ .eof := fun hk => hd.ne_nil (by simp [live, hk])
      rw [live_cons rfl ht] at hd ⊢
      exact .expr hd ho

theorem clean_stmtBody (hw : Within g.size i) : Clean (stmtBody g) i (ReadsBody i) := by
  refine .step (yields_currentKind i) ?_
  split
  · exact clean_letBody hw ‹_›
  · exact clean_returnBody hw ‹_›
  · exact clean_exprBody hw

theorem clean_stmt (hw : Within g.size i) :
    Clean (stmt g) i fun o s => Derives careful (.stmt s) (live i) (live o.tail) := by
  rw [stmt_eq]
  refine .bind (clean_stmtBody hw) ?_
  rintro s o - ⟨-, bare, hparts, hd⟩
  exact clean_semicolon bare hparts fun o ho => clean_pure (hd _ ho)

theorem clean_statements {ends : Token.Kind → Bool} (hends : ends .eof = true) {rounds : Nat}
    (hw : Within g.size i) (hr : i.length ≤ rounds) :
    Clean (statements (stmt g) ends rounds) i fun o ss =>
      Derives careful (.stmts ss) (live i) (live o) ∧ ends (firstKind o) = true := by
  induction rounds generalizing i with
  | zero =>
      obtain rfl : i = [] := List.eq_nil_of_length_eq_zero (Nat.le_zero.mp hr)
      exact clean_pure ⟨.stmtsNil, hends⟩
  | succ n ih =>
      refine .step (yields_currentKind i) ?_
      split
      · exact clean_pure ⟨.stmtsNil, ‹_›⟩
      · refine .bind (clean_stmt hw).attempt ?_
        rintro _ o ho ⟨s, rfl, hs⟩
        have hn : o.tail.length ≤ n := by
          have := ho.length_le
          rw [List.length_tail]
          omega
        refine .step (yields_advance o) (.bind (ih (hw.suffix ((List.tail_suffix o).trans ho)) hn) ?_)
        rintro ss o' - ⟨hss, hend⟩
        exact clean_pure ⟨.stmtsCons hs hss, hend⟩

theorem clean_block (hw : Within g.size i) (hk : firstKind i = .lbrace) :
    Clean (block g) i fun o b => Derives careful (.block b) (live i) (live o.tail) := by
  obtain ⟨t, i, rfl, ht⟩ := first_cons hk (by decide)
  have hi := hw.suffix ⟨[t], rfl⟩
  refine .step (yields_current _) (.step (yields_advance _) ?_)
  refine .bind (clean_statements (by decide) hi hi.fits) ?_
  rintro ss o ho ⟨hss, hend⟩
  refine clean_pure ?_
  rw [live_cons ht (by decide)]
  rcases of_decide_eq_true hend with hb | hb
  · obtain ⟨u, o, rfl, hu⟩ := first_cons hb (by decide)
    rw [live_cons hu (by decide)] at hss
    exact .block ht hu hss
  · rw [live_eof hb] at hss
    rw [(hi.ended.suffix ho).live_tail hb]
    exact .blockOpen ht hss

def ReadsList (close : Token.Kind) (i o : List Token) (es : List Expr) : Prop :=
  ∃ u, u.kind = close ∧ Derives careful (.exprs es) (live i.tail) (u :: live o.tail)

theorem clean_moreExprs {rounds : Nat} (hw : Within g.size i) :
    Clean (moreExprs g rounds) i fun o es => ∃ xs, es = xs.map some ∧
      ∀ e inp, Derives careful (.expr Level.lowest.rank e) inp (live i.tail) →
        Derives careful (.exprs (e :: xs)) inp (live o.tail) := by
  induction rounds generalizing i with
  | zero => exact clean_pure ⟨[], rfl, fun e inp he => .exprsOne he⟩
  | succ n ih =>
      refine .step (yields_nextKind i) ?_
      split
      · exact clean_pure ⟨[], rfl, fun e inp he => .exprsOne he⟩
      · rename_i hk
        obtain ⟨t, c, i, rfl, hc⟩ := tail_cons (not_not.mp hk) (by decide)
        have hi := hw.suffix ⟨[t, c], rfl⟩
        refine .step (yields_advance _) (.step (yields_advance _) ?_)
        refine .bind (clean_lowest hi).attempt ?_
        rintro _ o ho ⟨e', rfl, he'⟩
        refine .bind (ih (hi.suffix ho)) ?_
        rintro _ o' - ⟨xs, rfl, hxs⟩
        refine clean_pure ⟨e' :: xs, rfl, fun e inp he => ?_⟩
        rw [List.tail_cons, live_cons hc (by decide)] at he
        exact .exprsMore hc he (hxs e' _ he')

theorem allOf_map_some {α : Type} (xs : List α) : allOf (xs.map some) = some xs := by
  induction xs with
  | nil => rfl
  | cons x xs ih => simp [allOf, ih]

theorem clean_exprList {close : Token.Kind} (hc : close ≠ .eof) (hw : Within g.size i) :
    Clean (exprList g close) i (ReadsList close i) := by
  refine .step (yields_nextKind i) ?_
  split
  · rename_i hk
    obtain ⟨t, u, i, rfl, hu⟩ := tail_cons hk hc
    refine .step (yields_advance _) (clean_pure ⟨u, hu, ?_⟩)
    rw [List.tail_cons, live_cons hu hc]
    exact .exprsNil
  · have hi := hw.suffix (List.tail_suffix i)
    refine .step (yields_advance _) (.bind (clean_lowest hi).attempt ?_)
    rintro _ o ho ⟨e, rfl, he⟩
    refine .bind (clean_moreExprs (hi.suffix ho)) ?_
    rintro _ o' - ⟨xs, rfl, hxs⟩
    refine .expect hc ?_
    rintro t u us rfl hu
    rw [← List.map_cons, allOf_map_some]
    refine clean_pure ⟨u, hu, ?_⟩
    have := hxs e _ he
    rwa [List.tail_cons, live_cons hu hc] at this

theorem clean_moreParams {rounds : Nat} :
    Clean (moreParams rounds) i fun o ps => ∀ t : Token, t.kind = .ident →
      Derives careful (.params (⟨t.pos, t.literal⟩ :: ps)) (t :: live i.tail) (live o.tail) := by
  induction rounds generalizing i with
  | zero => exact clean_pure fun t ht => .paramsOne ht
  | succ n ih =>
      refine .step (yields_nextKind i) ?_
      split
      · exact clean_pure fun t ht => .paramsOne ht
      · rename_i hk
        obtain ⟨t, c, i, rfl, hc⟩ := tail_cons (not_not.mp hk) (by decide)
        refine .step (yields_advance _) (.expect (by decide) ?_)
        rintro _ x i ⟨⟩ hx
        refine .step (yields_ident x i) (.bind ih ?_)
        rintro ps o - hps
        refine clean_pure fun t' ht' => ?_
        rw [List.tail_cons, live_cons hc (by decide), live_cons hx (by decide)]
        exact .paramsMore ht' hc (hps x hx)

theorem clean_params {size : Nat} :
    Clean (params size) i fun o ps =>
      ∃ u : Token, u.kind = .rparen ∧ Derives careful (.params ps) (live i.tail) (u :: live o.tail) := by
  refine .step (yields_nextKind i) ?_
  split
  · rename_i hk
    obtain ⟨t, u, i, rfl, hu⟩ := tail_cons hk (by decide)
    refine .step (yields_advance _) (clean_pure ⟨u, hu, ?_⟩)
    rw [List.tail_cons, live_cons hu (by decide)]
    exact .paramsNil
  · refine .expect (by decide) ?_
    rintro t x i rfl hx
    refine .step (yields_ident x i) (.bind clean_moreParams ?_)
    rintro ps o - hps
    refine .expect (by decide) ?_
    rintro z u us rfl hu
    refine clean_pure ⟨u, hu, ?_⟩
    have := hps x hx
    rw [List.tail_cons, live_cons hx (by decide)]
    rwa [List.tail_cons, List.tail_cons, live_cons hu (by decide)] at this

def ReadsPairs (i o : List Token) (ps : List (Expr × Expr)) : Prop :=
  firstKind o.tail = .rbrace ∧ (ps = [] ∧ o = i ∨ ps ≠ [] ∧ firstKind i.tail ≠ .rbrace ∧
    (Derives careful (.pairs ps) (live i.tail) (live o.tail) ∨
      ∃ c, c.kind = .comma ∧ Derives careful (.pairs ps) (live i.tail) (c :: live o.tail)))

theorem clean_pairEnd :
    Clean pairEnd i fun o _ => firstKind i.tail = .rbrace ∧ o = i ∨
      ∃ t c us, i = t :: c :: us ∧ c.kind = .comma ∧ o = c :: us := by
  refine .step (yields_nextKind i) ?_
  split
  · rw [← bind_pure (expect _)]
    refine .expect (by decide) ?_
    rintro t c us rfl hc
    exact clean_pure (.inr ⟨t, c, us, rfl, hc, rfl⟩)
  · exact clean_pure (.inl ⟨not_not.mp ‹_›, rfl⟩)

theorem clean_pairs {rounds : Nat} (hw : Within g.size i) (hr : i.length ≤ rounds) (hi : i ≠ []) :
    Clean (pairs g rounds) i (ReadsPairs i) := by
  induction rounds generalizing i with
  | zero => exact absurd (List.eq_nil_of_length_eq_zero (Nat.le_zero.mp hr)) hi
  | succ n ih =>
      rw [pairs_succ]
      refine .step (yields_nextKind i) ?_
      split
      · exact clean_pure ⟨‹_›, .inl ⟨rfl, rfl⟩⟩
      · rename_i hb
        have ht := hw.suffix (List.tail_suffix i)
        refine .step (yields_advance _) (.bind (clean_lowest ht) ?_)
        rintro k o ho hk
        refine .expect (by decide) ?_
        rintro z c o rfl hc
        have ho' : o <:+ i.tail := .trans ⟨[z, c], rfl⟩ ho
        rw [List.tail_cons, live_cons hc (by decide)] at hk
        refine .step (yields_advance _) (.bind (clean_lowest (ht.suffix ho')) ?_)
        rintro v q hq hv
        have hq' : q <:+ i.tail := hq.trans ho'
        have hn : q.length ≤ n := by
          have := hq'.length_le
          rw [List.length_tail] at this
          omega
        refine .bind clean_pairEnd ?_
        -- either the brace comes next and there are no more pairs, or a comma has been read
        rintro _ q' hq'' (⟨hbrace, rfl⟩ | ⟨t, d, us, rfl, hd, rfl⟩)
        · obtain ⟨t, u, us, rfl, hu⟩ := tail_cons hbrace (by decide)
          refine .bind (ih (ht.suffix hq') hn (by simp)) ?_
          rintro ps r - ⟨hbrace', ⟨rfl, rfl⟩ | ⟨-, hnot, -⟩⟩
          · exact clean_pure ⟨hbrace', .inr ⟨by simp, hb, .inl (.pairsOne hc hk hv)⟩⟩
          · exact absurd hbrace hnot
        · rw [List.tail_cons, List.tail_cons, live_cons hd (by decide)] at hv
          refine .bind (ih (ht.suffix (hq''.trans hq')) (hq''.length_le.trans hn) (by simp)) ?_
          rintro ps r - ⟨hbrace', hps⟩
          refine clean_pure ⟨hbrace', .inr ⟨by simp, hb, ?_⟩⟩
          rcases hps with ⟨rfl, rfl⟩ | ⟨hne, -, hps⟩
          · exact .inr ⟨d, hd, .pairsOne hc hk hv⟩
          · obtain ⟨p, ps, rfl⟩ := List.exists_cons_of_ne_nil hne
            rcases hps with hps | ⟨c', hc', hps⟩
            · exact .inl (.pairsMore hc hd hk hv hps)
            · exact .inr ⟨c', hc', .pairsMore hc hd hk hv hps⟩

theorem clean_bracketed (hw : Within g.size i) :
    Clean (bracketed g) i fun o e => ∃ u, u.kind = .rparen ∧
      Derives careful (.expr Level.lowest.rank e) (live i.tail) (u :: live o.tail) := by
  refine .step (yields_advance i) ?_
  refine .bind (clean_lowest (hw.suffix (List.tail_suffix i))).attempt ?_
  rintro _ o - ⟨e, rfl, he⟩
  refine .expect (by decide) ?_
  rintro t u us rfl hu
  rw [List.tail_cons, live_cons hu (by decide)] at he
  exact clean_pure ⟨u, hu, he⟩

theorem clean_test (hw : Within g.size i) :
    Clean (test g) i fun o e => ∃ l r mid, l.kind = .lparen ∧ r.kind = .rparen ∧
      live i.tail = l :: mid ∧ Derives careful (.expr Level.lowest.rank e) mid (r :: live o.tail) := by
  refine .expect (by decide) ?_
  rintro t l i rfl hl
  refine (clean_bracketed (hw.suffix ⟨[t], rfl⟩)).mono ?_
  rintro o e ⟨r, hr, he⟩
  exact ⟨l, r, live i, hl, hr, live_cons hl (by decide) i, he⟩

theorem clean_condExpr {t : Token} (ht : t.kind = .kwIf) (hw : Within g.size (t :: i)) :
    Clean (condExpr g t.pos) (t :: i) fun o e =>
      Derives careful (.expr Level.call.rank e) (live (t :: i)) (live o.tail) := by
  rw [live_cons ht (by decide)]
  refine .bind (clean_test hw) ?_
  rintro e o ho ⟨l, r, mid, hl, hr, hi, he⟩
  rw [List.tail_cons] at hi
  rw [hi]
  refine .expect (by decide) ?_
  rintro z b o rfl hb
  rw [List.tail_cons] at he
  refine .bind (clean_block (hw.suffix (.trans ⟨[z], rfl⟩ ho)) hb) ?_
  rintro yes q hq hyes
  refine .step (yields_nextKind q) ?_
  split
  · rename_i hk
    obtain ⟨z, f, q, rfl, hf⟩ := tail_cons hk (by decide)
    refine .step (yields_advance _) (.expect (by decide) ?_)
    rintro _ b' q ⟨⟩ hb'
    have hq' := hq.trans (.trans ⟨[_], rfl⟩ ho)
    refine .bind (clean_block (hw.suffix (.trans ⟨[z, f], rfl⟩ hq')) hb') ?_
    rintro no q' - hno
    refine clean_pure (.condElse ht hl hr hf he ?_ hno)
    rwa [List.tail_cons, live_cons hf (by decide)] at hyes
  · exact clean_pure (.cond ht hl hr he hyes)

theorem clean_loopExpr {t : Token} (ht : t.kind = .kwWhile) (hw : Within g.size (t :: i)) :
    Clean (loopExpr g t.pos) (t :: i) fun o e =>
      Derives careful (.expr Level.call.rank e) (live (t :: i)) (live o.tail) := by
  rw [live_cons ht (by decide)]
  refine .bind (clean_test hw) ?_
  rintro e o ho ⟨l, r, mid, hl, hr, hi, he⟩
  rw [List.tail_cons] at hi
  rw [hi]
  refine .expect (by decide) ?_
  rintro z b o rfl hb
  refine .bind (clean_block (hw.suffix (.trans ⟨[z], rfl⟩ ho)) hb) ?_
  rintro body q - hbody
  exact clean_pure (.loop ht hl hr he hbody)

theorem clean_fnExpr {t : Token} (ht : t.kind = .kwFn) (hw : Within g.size (t :: i)) :
    Clean (fnExpr g t.pos) (t :: i) fun o e =>
      Derives careful (.expr Level.call.rank e) (live (t :: i)) (live o.tail) := by
  refine .expect (by decide) ?_
  rintro _ l i ⟨⟩ hl
  rw [live_cons ht (by decide), live_cons hl (by decide)]
  refine .bind clean_params ?_
  rintro ps o ho ⟨r, hr, hps⟩
  refine .expect (by decide) ?_
  rintro z b o rfl hb
  refine .bind (clean_block (hw.suffix (.trans ⟨[z], rfl⟩ (ho.trans ⟨[t], rfl⟩))) hb) ?_
  rintro body q - hbody
  exact clean_pure (.fn ht hl hr hps hbody)

/-- An operand is in a stratum that no operator after it can ask for more than. -/
def ReadsOperand (i o : List Token) (e : Expr) : Prop :=
  ∃ n, Level.unary.rank ≤ n ∧ min (firstKind o.tail).level.rank Level.call.rank ≤ n ∧
    Derives careful (.expr n e) (live i) (live o.tail)

theorem ReadsOperand.of_call {o : List Token} {e : Expr}
    (h : Derives careful (.expr Level.call.rank e) (live i) (live o.tail)) : ReadsOperand i o e :=
  ⟨Level.call.rank, by decide, Nat.min_le_right _ _, h⟩

theorem clean_leaf {t : Token} {k : Token.Kind} {e : Expr} (ht : t.kind = k) (hk : k ≠ .eof)
    (h : Derives careful (.expr Level.call.rank e) (t :: live i) (live i)) :
    Clean (pure e) (t :: i) (ReadsOperand (t :: i)) := by
  refine clean_pure (.of_call ?_)
  rwa [live_cons ht hk]

theorem clean_unary {t : Token} (ht : t.kind = .bang ∨ t.kind = .minus)
    (hw : Within g.size (t :: i)) :
    Clean (do
      advance
      let e ← g.expr .unary
      return .unary t.pos (UnaryOp.ofSymbol t.literal) e) (t :: i) (ReadsOperand (t :: i)) := by
  have hk : t.kind ≠ .eof := by rcases ht with ht | ht <;> rw [ht] <;> decide
  refine .step (yields_advance _) (.bind (hg.clean_expr .unary (hw.suffix ⟨[t], rfl⟩)) ?_)
  rintro e o - ⟨he, hnext⟩
  refine clean_pure ⟨Level.unary.rank, Nat.le_refl _, (Nat.min_le_left _ _).trans hnext, ?_⟩
  rw [live_cons rfl hk]
  exact .unary ht he

theorem clean_array {t : Token} (ht : t.kind = .lbracket) (hw : Within g.size (t :: i)) :
    Clean (do
      let es ← exprList g .rbracket
      return .array t.pos es) (t :: i) (ReadsOperand (t :: i)) := by
  refine .bind (clean_exprList (by decide) hw) ?_
  rintro es o - ⟨u, hu, hes⟩
  refine clean_pure (.of_call ?_)
  rw [live_cons ht (by decide)]
  exact .array ht hu hes

theorem clean_hash {t : Token} (ht : t.kind = .lbrace) (hw : Within g.size (t :: i)) :
    Clean (do
      let ps ← pairs g g.size
      advance
      return .hash t.pos ps) (t :: i) (ReadsOperand (t :: i)) := by
  refine .bind (clean_pairs hw hw.fits (by simp)) ?_
  rintro ps o - ⟨hb, hps⟩
  obtain ⟨z, u, us, rfl, hu⟩ := tail_cons hb (by decide)
  refine .step (yields_advance _) (clean_pure (.of_call ?_))
  rw [live_cons ht (by decide)]
  rw [List.tail_cons, List.tail_cons, live_cons hu (by decide)] at hps
  rcases hps with ⟨rfl, heq⟩ | ⟨hne, -, hps | ⟨c, hc, hps⟩⟩
  · obtain ⟨-, rfl⟩ := List.cons.inj heq
    rw [live_cons hu (by decide)]
    exact .hash ht hu .pairsNil
  · exact .hash ht hu hps
  · obtain ⟨p, ps, rfl⟩ := List.exists_cons_of_ne_nil hne
    exact .hashComma ht hc hu hps

theorem clean_operand (hw : Within g.size i) : Clean (operand g) i (ReadsOperand i) := by
  refine .step (yields_current i) ?_
  cases i with
  | nil => exact clean_mistake _
  | cons t i =>
      simp only [List.head?_cons, Option.getD_some]
      split
      case h_1 ht => exact clean_leaf ht (by decide) (.ident ht)
      case h_2 ht =>
        split
        · exact clean_leaf ht (by decide) (.int ht ‹_›)
        · exact clean_mistake _
      case h_3 ht => exact clean_leaf ht (by decide) (.double ht)
      case h_4 ht => exact clean_leaf ht (by decide) (.string ht)
      case h_5 ht => exact clean_leaf ht (by decide) (.yes ht)
      case h_6 ht => exact clean_leaf ht (by decide) (.no ht)
      case h_7 ht => exact clean_unary (.inl ht) hw
      case h_8 ht => exact clean_unary (.inr ht) hw
      case h_9 ht =>
        refine (clean_bracketed hw).mono fun o e ⟨u, hu, he⟩ => .of_call ?_
        rw [live_cons ht (by decide)]
        exact .group ht hu he
      case h_10 ht => exact (clean_condExpr ht hw).mono fun _ _ => .of_call
      case h_11 ht => exact (clean_loopExpr ht hw).mono fun _ _ => .of_call
      case h_12 ht => exact (clean_fnExpr ht hw).mono fun _ _ => .of_call
      case h_13 ht => exact clean_array ht hw
      case h_14 ht => exact clean_hash ht hw
      case h_15 => exact clean_mistake _

theorem joins_of_level {k : Token.Kind} (h : 0 < k.level.rank) (hcall : k ≠ .lparen)
    (hindex : k ≠ .lbracket) : k.Joins := by
  cases k <;> simp_all [Token.Kind.Joins, Token.Kind.level, Level.rank]

theorem clean_between {t : Token} {left : Expr} {inp : List Token} (ht : t.kind.Joins)
    (hw : Within g.size (t :: i))
    (hleft : Derives careful (.expr t.kind.level.rank left) inp (t :: live i)) :
    Clean (do
      advance
      let right ← g.expr t.kind.level
      if t.kind = .dots then return .range left.pos left right
      return .binary left.pos (BinaryOp.ofSymbol t.literal) left right) (t :: i) fun o e =>
        (firstKind o.tail).level.rank ≤ t.kind.level.rank ∧
          Derives careful (.expr t.kind.level.rank e) inp (live o.tail) := by
  refine .step (yields_advance _) (.bind (hg.clean_expr t.kind.level (hw.suffix ⟨[t], rfl⟩)) ?_)
  rintro right o - ⟨hright, hnext⟩
  rw [Nat.min_eq_left ht.2] at hright
  split
  · rename_i hdots
    rw [hdots] at hleft hright hnext
    refine clean_pure ⟨by rw [hdots]; exact hnext, ?_⟩
    rw [hdots]
    exact .range hdots hleft hright
  · exact clean_pure ⟨hnext, .binary ht ‹_› hleft hright⟩

/-- An operation takes the expression before it as its left operand. What it makes is in the stratum
of its operator, and no operator after it asks for more. -/
theorem clean_operation {left : Expr} {inp : List Token} {q : Nat} (hw : Within g.size i)
    (hq : (firstKind i).level.rank = q) (hpos : 0 < q)
    (hleft : Derives careful (.expr (min q Level.call.rank) left) inp (live i)) :
    Clean (operation g left) i fun o e =>
      min (firstKind o.tail).level.rank Level.call.rank ≤ min q Level.call.rank ∧
        Derives careful (.expr (min q Level.call.rank) e) inp (live o.tail) := by
  subst hq
  obtain ⟨t, i, rfl, ht⟩ : ∃ t ts, i = t :: ts ∧ t.kind ≠ .eof := by
    have hk : firstKind i ≠ .eof := fun hk => by simp [hk, Token.Kind.level, Level.rank] at hpos
    obtain ⟨t, ts, rfl, -⟩ := first_cons rfl hk
    exact ⟨t, ts, rfl, hk⟩
  rw [live_cons rfl ht] at hleft
  refine .step (yields_current _) ?_
  simp only [List.head?_cons, Option.getD_some, firstKind_cons] at hleft hpos ⊢
  split
  case h_1 hk =>
    rw [hk] at hleft ⊢
    refine .bind (clean_exprList (by decide) hw) ?_
    rintro args o - ⟨u, hu, hargs⟩
    exact clean_pure ⟨Nat.min_le_right _ _, .call hk hu hleft hargs⟩
  case h_2 hk =>
    rw [hk] at hleft ⊢
    refine .step (yields_advance _) (.bind (clean_lowest (hw.suffix ⟨[t], rfl⟩)) ?_)
    rintro e o - he
    refine .expect (by decide) ?_
    rintro z u us rfl hu
    simp only [List.tail_cons, live_cons hu (by decide)] at he
    exact clean_pure ⟨Nat.min_le_right _ _, .index hk hu hleft he⟩
  case h_3 hcall hindex =>
    have hj := joins_of_level hpos hcall hindex
    have hmin : min t.kind.level.rank Level.call.rank = t.kind.level.rank :=
      Nat.min_eq_left (Nat.le_succ_of_le (Nat.le_of_lt hj.2))
    rw [hmin] at hleft ⊢
    exact (clean_between hj hw hleft).mono fun o e h => ⟨(Nat.min_le_left _ _).trans h.1, h.2⟩

theorem clean_operations {level : Level} {rounds n : Nat} {left : Expr} {inp : List Token}
    (hw : Within g.size i) (hr : i.length ≤ rounds)
    (hlevel : min (level.rank + 1) Level.unary.rank ≤ n)
    (hnext : min (firstKind i.tail).level.rank Level.call.rank ≤ n)
    (hleft : Derives careful (.expr n left) inp (live i.tail)) :
    Clean (operations g level rounds left) i fun o e =>
      Derives careful (.expr (min (level.rank + 1) Level.unary.rank) e) inp (live o.tail) ∧
        (firstKind o.tail).level.rank ≤ level.rank := by
  induction rounds generalizing i n left with
  | zero =>
      obtain rfl : i = [] := List.eq_nil_of_length_eq_zero (Nat.le_zero.mp hr)
      exact clean_pure ⟨hleft.lower hlevel, Nat.zero_le _⟩
  | succ k ih =>
      refine .step (yields_nextKind i) ?_
      split
      · rename_i hlt
        have hi := hw.suffix (List.tail_suffix i)
        refine .step (yields_advance i) ?_
        refine .bind (clean_operation hi rfl (Nat.zero_lt_of_lt hlt) (hleft.lower hnext)) ?_
        rintro e o ho ⟨hnext', he⟩
        have hk : o.length ≤ k := by
          have := ho.length_le
          rw [List.length_tail] at this
          omega
        refine ih (hi.suffix ho) hk ?_ hnext' he
        have : Level.unary.rank ≤ Level.call.rank := by decide
        omega
      · exact clean_pure ⟨hleft.lower hlevel, Nat.le_of_not_lt ‹_›⟩

theorem clean_expr {level : Level} (hw : Within g.size i) :
    Clean (expr g level) i (ReadsExpr level i) := by
  refine .bind (clean_operand hw) ?_
  rintro left o ho ⟨n, hn, hnext, hleft⟩
  have ho' := hw.suffix ho
  exact clean_operations ho' ho'.fits ((Nat.min_le_right _ _).trans hn) hnext hleft

end Clean

instance sound_read (size depth : Nat) : Sound ⟨size, Expr.read size depth⟩ := by
  induction depth with
  | zero =>
      exact {
        grows_expr := fun _ => inferInstanceAs (Grows (throw _))
        clean_expr := fun _ _ _ m r _ => ⟨fun a h => (by cases h), fun h => (by cases h)⟩ }
  | succ n ih =>
      exact {
        grows_expr := fun level => inferInstanceAs (Grows (expr _ level))
        clean_expr := fun level _ hw => clean_expr (g := ⟨size, Expr.read size n⟩) hw }

theorem live_append {ts : List Token} {e : Token} (hts : ∀ t ∈ ts, t.kind ≠ .eof)
    (he : e.kind = .eof) : Ended (ts ++ [e]) ∧ live (ts ++ [e]) = ts := by
  induction ts with
  | nil => exact ⟨⟨fun _ => rfl, trivial⟩, by simp [live, he]⟩
  | cons t ts ih =>
      obtain ⟨hend, hlive⟩ := ih fun u hu => hts u (List.mem_cons_of_mem t hu)
      have ht := hts t List.mem_cons_self
      exact ⟨⟨fun hk => absurd hk ht, hend⟩, by rw [List.cons_append, live_cons rfl ht, hlive]⟩

theorem derives_of_tokens {depth : Nat} {tokens : List Token} {d : Program.Draft}
    (he : Ended tokens) (h : Program.ofTokens? depth tokens = some d) (hm : d.mistakes = []) :
    Derives careful (.stmts d.program.stmts) (live tokens) [] := by
  have hw : Within tokens.length tokens := ⟨he, Nat.le_refl _⟩
  have hc := @clean_statements ⟨tokens.length, Expr.read tokens.length depth⟩ _ tokens
    (· = .eof) (by decide) tokens.length hw hw.fits
  simp only [Program.ofTokens?] at h
  split at h
  · rename_i ss r hr
    obtain rfl := Option.some.inj h
    obtain ⟨hss, hend⟩ := (hc #[] r (by simpa using hm)).1 ss hr
    rwa [live_eof (of_decide_eq_true hend)] at hss
  · simp at h

theorem derives_of_text {depth : Nat} {text : String} {d : Program.Draft}
    (h : Program.ofText? depth text = some d) (hm : d.mistakes = []) :
    Derives careful (.stmts d.program.stmts) (Token.ofText text).dropLast [] := by
  obtain ⟨ts, e, htext, he, hts⟩ := Token.ofText_ending text
  obtain ⟨hend, hlive⟩ := live_append hts he
  have hread : Program.ofTokens? depth (ts ++ [e]) = some d := htext ▸ h
  have hderives := derives_of_tokens hend hread hm
  rw [htext, List.dropLast_concat]
  rwa [hlive] at hderives

/-- A text that is read without mistakes is a sentence of the grammar, from its first token to its
last one, and the tree that is read is the tree of that sentence. A semicolon is left out only where what
follows cannot be more of the statement, so that each statement goes as far as it can. -/
theorem text_derives {depth : Nat} {text : String} {d : Program.Draft}
    (h : Program.ofText? depth text = some d) (hm : d.mistakes = []) :
    ∃ ts e, Token.ofText text = ts ++ [e] ∧ e.kind = .eof ∧ (∀ t ∈ ts, t.kind ≠ .eof) ∧
      Derives free (.stmts d.program.stmts) ts [] ∧ Derives careful (.stmts d.program.stmts) ts [] := by
  obtain ⟨ts, e, htext, he, hts⟩ := Token.ofText_ending text
  have hderives := derives_of_text h hm
  rw [htext, List.dropLast_concat] at hderives
  exact ⟨ts, e, htext, he, hts, hderives.mono fun _ _ _ => free_of_careful, hderives⟩

theorem text_derives_open :
    let tree := Program.mk [.expr ⟨1, 1⟩ (.fn ⟨1, 1⟩ [⟨⟨1, 4⟩, "x"⟩] (.mk ⟨1, 7⟩
      [.expr ⟨1, 9⟩ (.binary ⟨1, 9⟩ .mul (.unary ⟨1, 9⟩ .neg (.ident ⟨⟨1, 10⟩, "x"⟩))
        (.hash ⟨1, 14⟩ [(.int ⟨1, 15⟩ 1, .ident ⟨⟨1, 18⟩, "x"⟩)]))]))]
    Program.ofText? 9 "fn(x) \x7b -x * \x7b1: x,\x7d" = some ⟨tree, []⟩ ∧
      ∃ ts e, Token.ofText "fn(x) \x7b -x * \x7b1: x,\x7d" = ts ++ [e] ∧ e.kind = .eof ∧
        (∀ t ∈ ts, t.kind ≠ .eof) ∧
        Derives free (.stmts tree.stmts) ts [] ∧ Derives careful (.stmts tree.stmts) ts [] := by
  intro tree
  have h : Program.ofText? 9 "fn(x) \x7b -x * \x7b1: x,\x7d" = some ⟨tree, []⟩ := by cbv
  exact ⟨h, text_derives h rfl⟩

end Marmoset.Grammar
