import Marmoset.Proofs.Tree.Soundness

/-!
The sentences of the careful grammar are read without mistakes, each as its own tree: what follows a
phrase can neither be taken for more of it nor be missed by it.
-/

namespace Marmoset.Grammar

open Read

section Starts

def starters : List Token.Kind :=
  [.ident, .int, .double, .string, .kwTrue, .kwFalse, .bang, .minus, .lparen, .kwIf, .kwWhile, .kwFn,
    .lbracket, .lbrace]

def stmtStarters : List Token.Kind := .kwLet :: .kwReturn :: starters

def Phrase.Starts : Phrase → Token.Kind → Prop
  | .expr _ _, k | .exprs (_ :: _), k | .pairs (_ :: _), k => k ∈ starters
  | .stmt _, k | .stmts (_ :: _), k => k ∈ stmtStarters
  | .block _, k => k = .lbrace
  | _, _ => True

theorem Derives.starts {ends : Ending} {φ : Phrase} {inp out : List Token}
    (h : Derives ends φ inp out) : φ.Starts (firstKind inp) := by
  induction h with
  | unary ht => rcases ht with ht | ht <;> simp [Phrase.Starts, starters, ht]
  | expr _ _ ih => exact List.mem_cons_of_mem _ (List.mem_cons_of_mem _ ih)
  | _ => simp_all [Phrase.Starts, starters, stmtStarters]

def Phrase.least : Phrase → Nat
  | .expr _ _ | .stmt _ | .block _ => 1
  | _ => 0

theorem careful_length {bare : Bool} {inp out : List Token} (h : careful bare inp out) :
    out.length ≤ inp.length := by
  rcases h with ⟨rfl, -⟩ | ⟨t, -, rfl⟩ <;> simp

theorem Derives.length_le {φ : Phrase} {inp out : List Token} (h : Derives careful φ inp out) :
    out.length + φ.least ≤ inp.length := by
  induction h with
  | bind _ _ _ _ ho | ret _ ho | retValue _ _ ho | expr _ ho =>
      have := careful_length ho
      simp only [Phrase.least, List.length_cons] at *
      omega
  | _ =>
      simp only [Phrase.least, List.length_cons] at *
      omega

end Starts

section Runs

variable {α : Type}

theorem live_eq_cons {i ts : List Token} {t : Token} (h : live i = t :: ts) :
    ∃ j, i = t :: j ∧ live j = ts ∧ t.kind ≠ .eof := by
  cases i with
  | nil => cases h
  | cons u j =>
      by_cases hu : u.kind = .eof
      · rw [live_eof (i := u :: j) hu] at h
        cases h
      · rw [live_cons rfl hu] at h
        obtain ⟨rfl, rfl⟩ := List.cons.inj h
        exact ⟨j, rfl, rfl, hu⟩

theorem live_tail_eq_cons {o ts : List Token} {t : Token} (h : live o.tail = t :: ts) :
    ∃ z j, o = z :: t :: j ∧ live j = ts := by
  obtain ⟨j, hj, hlive, -⟩ := live_eq_cons h
  cases o with
  | nil => cases hj
  | cons z o => exact ⟨z, j, congrArg (z :: ·) hj, hlive⟩

def Gives (p : Read α) (i : List Token) (a : α) (out : List Token) : Prop :=
  ∃ o, o <:+ i ∧ Yields p i a o ∧ live o.tail = out

abbrev inside (size depth : Nat) : Inside := ⟨size, Expr.read size depth⟩

def Passes (g : Inside) (level : Level) (i : List Token) (e : Expr) (out : List Token) : Prop :=
  ∃ rounds o, o <:+ i ∧ o.length ≤ rounds ∧ live o.tail = out ∧
    ∀ m, expr g level ⟨i, m⟩ = operations g level rounds e ⟨o, m⟩

/-- All operators of the stratum `n` and above it are taken by a reading at `level`. -/
structure Admits (level : Level) (n : Nat) : Prop where
  le_unary : level.rank ≤ Level.unary.rank
  lt_of_joins {k : Token.Kind} : k.Joins → n ≤ k.level.rank → level.rank < k.level.rank

theorem Admits.above {level : Level} {n : Nat} (h : Admits level n) : Admits level (n + 1) :=
  ⟨h.le_unary, fun hk hn => h.lt_of_joins hk (Nat.le_of_succ_le hn)⟩

/-- What comes after an expression of the stratum `n` is not taken for more of its last operand. -/
structure Follows (n : Nat) (out : List Token) : Prop where
  rank_le : min (firstKind out).level.rank Level.call.rank ≤ n
  ne_else : firstKind out ≠ .kwElse

theorem Follows.le_of_lt {n : Nat} {out : List Token} (h : Follows n out) (hn : n < Level.call.rank) :
    (firstKind out).level.rank ≤ n := by
  have := h.rank_le
  omega

def ExprRuns (n : Nat) (e : Expr) (inp out : List Token) : Prop :=
  ∀ size depth level i, Within size i → live i = inp → inp.length ≤ depth + 1 + out.length →
    Follows n out → Admits level n → Passes (inside size depth) level i e out

theorem yields_operations {g : Inside} {level : Level} {o : List Token}
    (h : (firstKind o.tail).level.rank ≤ level.rank) (rounds : Nat) (e : Expr) :
    Yields (operations g level rounds e) o e o := by
  cases rounds with
  | zero => exact yields_pure e o
  | succ k =>
      apply (yields_nextKind o).bind
      rw [if_neg (Nat.not_lt_of_le h)]
      exact yields_pure e o

theorem Passes.gives {g : Inside} {level : Level} {i out : List Token} {e : Expr}
    (h : Passes g level i e out) (hn : (firstKind out).level.rank ≤ level.rank) :
    Gives (expr g level) i e out := by
  obtain ⟨rounds, o, ho, -, rfl, heq⟩ := h
  rw [firstKind_live] at hn
  refine ⟨o, ho, fun m => ?_, rfl⟩
  rw [heq m]
  exact yields_operations hn rounds e m

theorem ExprRuns.gives {n size : Nat} {e : Expr} {inp out i : List Token} {level : Level}
    (h : ExprRuns n e inp out) (depth : Nat) (he : Derives careful (.expr n e) inp out) (hw : Within size i)
    (hi : live i = inp) (hd : inp.length ≤ depth + out.length)
    (hn : (firstKind out).level.rank ≤ level.rank) (hle : level.rank ≤ n) (ha : Admits level n)
    (helse : firstKind out ≠ .kwElse) : Gives (Expr.read size depth level) i e out := by
  cases depth with
  | zero =>
      have := he.length_le
      simp only [Phrase.least] at this
      omega
  | succ d =>
      have hf : Follows n out := ⟨(Nat.min_le_left _ _).trans (hn.trans hle), helse⟩
      exact (h size d level i hw hi hd hf ha).gives hn

theorem ExprRuns.gives_lowest {size : Nat} {e : Expr} {inp out i : List Token}
    (h : ExprRuns Level.lowest.rank e inp out) (depth : Nat)
    (he : Derives careful (.expr Level.lowest.rank e) inp out) (hw : Within size i)
    (hi : live i = inp) (hd : inp.length ≤ depth + out.length)
    (hn : (firstKind out).level.rank = 0) (helse : firstKind out ≠ .kwElse) :
    Gives (Expr.read size depth .lowest) i e out :=
  h.gives depth he hw hi hd (Nat.le_of_eq hn) (Nat.le_refl _) ⟨Nat.zero_le _, fun hk _ => hk.1⟩ helse

variable {g : Inside} {level : Level} {i out : List Token} {e : Expr}

theorem Passes.operand (hw : Within g.size i) (h : Gives (operand g) i e out) :
    Passes g level i e out := by
  obtain ⟨o, ho, hy, rfl⟩ := h
  refine ⟨g.size, o, ho, ho.length_le.trans hw.fits, rfl, fun m => ?_⟩
  exact bind_ok (hy m)

theorem Passes.operation {l : Expr} {t : Token} {mid : List Token}
    (h : Passes g level i l (t :: mid)) (ht : level.rank < t.kind.level.rank)
    (hop : ∀ j, t :: j <:+ i → live j = mid → Gives (Grammar.operation g l) (t :: j) e out) :
    Passes g level i e out := by
  obtain ⟨rounds, o, ho, hr, hlive, heq⟩ := h
  obtain ⟨z, j, rfl, hj⟩ := live_tail_eq_cons hlive
  have hto : t :: j <:+ i := .trans ⟨[z], rfl⟩ ho
  obtain ⟨o', ho', hy, hout⟩ := hop j hto hj
  have hlen := ho'.length_le
  rw [List.length_cons] at hr
  obtain ⟨k, rfl⟩ : ∃ k, rounds = k + 1 := ⟨rounds - 1, by omega⟩
  refine ⟨k, o', ho'.trans hto, by omega, hout, fun m => ?_⟩
  rw [heq m, operations, bind_ok (yields_nextKind _ m), List.tail_cons, firstKind_cons, if_pos ht,
    bind_ok (yields_advance _ m)]
  exact bind_ok (hy m)

theorem yields_between {t : Token} {j o : List Token} {l r : Expr} (ht : t.kind.Joins)
    (hr : Yields (g.expr t.kind.level) j r o) :
    Yields (Grammar.operation g l) (t :: j) (if t.kind = .dots then .range l.pos l r
      else .binary l.pos (BinaryOp.ofSymbol t.literal) l r) o := by
  apply (yields_current _).bind
  simp only [List.head?_cons, Option.getD_some]
  split
  case h_1 hk => simp [hk, Token.Kind.Joins, Token.Kind.level, Level.rank] at ht
  case h_2 hk => simp [hk, Token.Kind.Joins, Token.Kind.level, Level.rank] at ht
  case h_3 =>
    apply (yields_advance _).bind
    apply hr.bind
    split <;> exact yields_pure _ _

end Runs

section Cases

variable {inp mid out : List Token} {e l r : Expr} {t u : Token}

theorem ExprRuns.above {n : Nat} (h : ExprRuns (n + 1) e inp out) : ExprRuns n e inp out := by
  intro size depth level i hw hi hd hf ha
  exact h size depth level i hw hi hd ⟨Nat.le_succ_of_le hf.rank_le, hf.ne_else⟩ ha.above

theorem ExprRuns.between (ht : t.kind.Joins)
    (hdl : Derives careful (.expr t.kind.level.rank l) inp (t :: mid))
    (hdr : Derives careful (.expr (t.kind.level.rank + 1) r) mid out)
    (hl : ExprRuns t.kind.level.rank l inp (t :: mid))
    (hr : ExprRuns (t.kind.level.rank + 1) r mid out) :
    ExprRuns t.kind.level.rank (if t.kind = .dots then .range l.pos l r
      else .binary l.pos (BinaryOp.ofSymbol t.literal) l r) inp out := by
  intro size depth level i hw hi hd hf ha
  have hlenl := hdl.length_le
  have hlenr := hdr.length_le
  simp only [Phrase.least, List.length_cons] at hlenl hlenr
  have hfl : Follows t.kind.level.rank (t :: mid) :=
    ⟨Nat.min_le_left _ _, fun hk => by simp_all [Token.Kind.Joins, Token.Kind.level, Level.rank]⟩
  have hleft := hl size depth level i hw hi (by simp only [List.length_cons]; omega) hfl ha
  refine hleft.operation (ha.lt_of_joins ht (Nat.le_refl _)) fun j hj hmid => ?_
  have hout := hf.le_of_lt (Nat.lt_trans ht.2 (by decide))
  have hright : Admits t.kind.level (t.kind.level.rank + 1) :=
    ⟨Nat.le_of_lt ht.2, fun _ hn => hn⟩
  obtain ⟨o, ho, hy, ho'⟩ := hr.gives depth hdr (hw.suffix (.trans ⟨[t], rfl⟩ hj)) hmid (by omega)
    hout (Nat.le_succ _) hright hf.ne_else
  exact ⟨o, ho.trans ⟨[t], rfl⟩, yields_between ht hy, ho'⟩

theorem ExprRuns.unary (ht : t.kind = .bang ∨ t.kind = .minus)
    (hde : Derives careful (.expr Level.unary.rank e) mid out)
    (he : ExprRuns Level.unary.rank e mid out) :
    ExprRuns Level.unary.rank (.unary t.pos (UnaryOp.ofSymbol t.literal) e) (t :: mid) out := by
  intro size depth level i hw hi hd hf ha
  obtain ⟨j, rfl, hj, -⟩ := live_eq_cons hi
  have hout := hf.le_of_lt (by decide)
  have hinner : Admits .unary Level.unary.rank :=
    ⟨Nat.le_refl _, fun hk hn => absurd hk.2 (Nat.not_lt_of_le hn)⟩
  rw [List.length_cons] at hd
  obtain ⟨o, ho, hy, ho'⟩ := he.gives depth hde (hw.suffix ⟨[t], rfl⟩) hj (by omega) hout
    (Nat.le_refl _) hinner hf.ne_else
  refine .operand hw ⟨o, ho.trans ⟨[t], rfl⟩, ?_, ho'⟩
  apply (yields_current _).bind
  rcases ht with ht | ht <;>
  · simp only [List.head?_cons, Option.getD_some, ht]
    apply (yields_advance _).bind
    exact hy.bind (yields_pure _ _)

structure Closes (k : Token.Kind) : Prop where
  rank_zero : k.level.rank = 0
  ne_else : k ≠ .kwElse
  ne_comma : k ≠ .comma

def ExprsRuns : List Expr → List Token → List Token → Prop
  | [], inp, out => inp = out
  | e :: es, inp, out => ∀ size depth i, Within size i → live i = inp →
      inp.length ≤ depth + out.length → Closes (firstKind out) →
      ∃ o o', o <:+ i ∧ Yields (Expr.read size depth .lowest) i e o ∧ o' <:+ o ∧ live o'.tail = out ∧
        ∀ rounds, o.length ≤ rounds →
          Yields (moreExprs (inside size depth) rounds) o (es.map some) o'

theorem ExprsRuns.one (hde : Derives careful (.expr Level.lowest.rank e) inp out)
    (he : ExprRuns Level.lowest.rank e inp out) : ExprsRuns [e] inp out := by
  intro size depth i hw hi hd hc
  obtain ⟨o, ho, hy, rfl⟩ := he.gives_lowest depth hde hw hi hd hc.rank_zero hc.ne_else
  refine ⟨o, o, ho, hy, List.suffix_refl o, rfl, fun rounds _ => ?_⟩
  cases rounds with
  | zero => exact yields_pure _ _
  | succ k =>
      apply (yields_nextKind o).bind
      rw [if_pos (firstKind_live o.tail ▸ hc.ne_comma)]
      exact yields_pure _ _

theorem ExprsRuns.more {e' : Expr} {es : List Expr} (ht : t.kind = .comma)
    (hde : Derives careful (.expr Level.lowest.rank e) inp (t :: mid))
    (hds : Derives careful (.exprs (e' :: es)) mid out)
    (he : ExprRuns Level.lowest.rank e inp (t :: mid)) (hs : ExprsRuns (e' :: es) mid out) :
    ExprsRuns (e :: e' :: es) inp out := by
  intro size depth i hw hi hd hc
  have hlene := hde.length_le
  have hlens := hds.length_le
  simp only [Phrase.least, List.length_cons] at hlene hlens
  obtain ⟨o, ho, hy, hlive⟩ := he.gives_lowest depth hde hw hi (by rw [List.length_cons]; omega)
    (by rw [firstKind_cons, ht]; rfl) (by rw [firstKind_cons, ht]; decide)
  obtain ⟨z, j, rfl, hj⟩ := live_tail_eq_cons hlive
  obtain ⟨o₁, o₂, ho₁, hy₁, ho₂, hout, hmore⟩ :=
    hs size depth j (hw.suffix (.trans ⟨[z, t], rfl⟩ ho)) hj (by omega) hc
  refine ⟨z :: t :: j, o₂, ho, hy, ho₂.trans (ho₁.trans ⟨[z, t], rfl⟩), hout, fun rounds hr => ?_⟩
  obtain ⟨k, rfl⟩ : ∃ k, rounds = k + 1 := ⟨rounds - 1, by simp only [List.length_cons] at hr; omega⟩
  apply (yields_nextKind _).bind
  rw [if_neg (by simpa using ht)]
  apply (yields_advance _).bind
  apply (yields_advance _).bind
  apply hy₁.attempt.bind
  have hk : o₁.length ≤ k := by
    have := ho₁.length_le
    simp only [List.length_cons] at hr
    omega
  exact (hmore k hk).bind (yields_pure _ _)

theorem ExprsRuns.gives {es : List Expr} {size depth : Nat} {i : List Token}
    (h : ExprsRuns es mid (u :: out)) (hd : Derives careful (.exprs es) mid (u :: out))
    (hu : Closes u.kind) (hstart : u.kind ∉ starters) (hw : Within size (t :: i)) (hi : live i = mid)
    (hdepth : mid.length ≤ depth + out.length + 1) :
    Gives (exprList (inside size depth) u.kind) (t :: i) es out := by
  cases es with
  | nil =>
      obtain ⟨j, rfl, hj, -⟩ := live_eq_cons (hi.trans h)
      refine ⟨u :: j, ⟨[t], rfl⟩, ?_, hj⟩
      apply (yields_nextKind _).bind
      rw [List.tail_cons, firstKind_cons, if_pos rfl]
      exact (yields_advance _).bind (yields_pure _ _)
  | cons e es =>
      have hi' : Within size i := hw.suffix ⟨[t], rfl⟩
      obtain ⟨o, o', ho, hy, ho', hout, hmore⟩ := h size depth i hi' hi hdepth hu
      obtain ⟨z, j, rfl, hj⟩ := live_tail_eq_cons hout
      have hnext : firstKind i ≠ u.kind := by
        intro hk
        rw [← hk, ← firstKind_live, hi] at hstart
        exact hstart hd.starts
      refine ⟨u :: j, .trans ⟨[z], rfl⟩ (ho'.trans (ho.trans ⟨[t], rfl⟩)), ?_, hj⟩
      apply (yields_nextKind _).bind
      rw [List.tail_cons, if_neg hnext]
      apply (yields_advance _).bind
      apply hy.attempt.bind
      apply (hmore size ((hi'.suffix ho).fits)).bind
      apply (yields_expect rfl).bind
      rw [← List.map_cons, allOf_map_some]
      exact yields_pure _ _

theorem ExprRuns.postfixed {f : Expr} (ht : t.kind = .lparen ∨ t.kind = .lbracket)
    (hdf : Derives careful (.expr Level.call.rank f) inp (t :: mid)) (hlen : out.length < mid.length)
    (hf : ExprRuns Level.call.rank f inp (t :: mid))
    (hop : ∀ size depth j, Within size (t :: j) → live j = mid → mid.length ≤ depth + out.length →
      Gives (operation (inside size depth) f) (t :: j) e out) :
    ExprRuns Level.call.rank e inp out := by
  intro size depth level i hw hi hd _ ha
  have hlenf := hdf.length_le
  simp only [Phrase.least, List.length_cons] at hlenf
  have hkind : Level.unary.rank < t.kind.level.rank ∧ t.kind ≠ .kwElse := by
    rcases ht with ht | ht <;> rw [ht] <;> decide
  have hff : Follows Level.call.rank (t :: mid) := ⟨Nat.min_le_right _ _, hkind.2⟩
  have hcallee := hf size depth level i hw hi (by rw [List.length_cons]; omega) hff ha
  refine hcallee.operation (Nat.lt_of_le_of_lt ha.le_unary hkind.1) fun j hj hmid => ?_
  exact hop size depth j (hw.suffix hj) hmid (by omega)

theorem ExprRuns.call {f : Expr} {args : List Expr} (ht : t.kind = .lparen) (hu : u.kind = .rparen)
    (hdf : Derives careful (.expr Level.call.rank f) inp (t :: mid))
    (hda : Derives careful (.exprs args) mid (u :: out))
    (hf : ExprRuns Level.call.rank f inp (t :: mid)) (ha : ExprsRuns args mid (u :: out)) :
    ExprRuns Level.call.rank (.call f.pos f args) inp out := by
  refine .postfixed (.inl ht) hdf hda.length_le hf fun size depth j hw hj hd => ?_
  obtain ⟨o, ho, hy, hout⟩ := ha.gives hda (hu ▸ ⟨rfl, by decide, by decide⟩) (hu ▸ by decide) hw hj
    (Nat.le_succ_of_le hd)
  refine ⟨o, ho, ?_, hout⟩
  apply (yields_current _).bind
  simp only [List.head?_cons, Option.getD_some, ht]
  rw [hu] at hy
  exact hy.bind (yields_pure _ _)

theorem ExprRuns.gives_closed {size : Nat} {i : List Token} {depth : Nat}
    (h : ExprRuns Level.lowest.rank e mid (u :: out))
    (he : Derives careful (.expr Level.lowest.rank e) mid (u :: out)) (hu : Closes u.kind)
    (hw : Within size i) (hi : live i = mid) (hd : mid.length ≤ depth + out.length + 1) :
    ∃ z j, z :: u :: j <:+ i ∧ live j = out ∧
      Yields (Expr.read size depth .lowest) i e (z :: u :: j) := by
  obtain ⟨o, ho, hy, hlive⟩ := h.gives_lowest depth he hw hi hd hu.rank_zero hu.ne_else
  obtain ⟨z, j, rfl, hj⟩ := live_tail_eq_cons hlive
  exact ⟨z, j, ho, hj, hy⟩

theorem ExprRuns.index {c x : Expr} (ht : t.kind = .lbracket) (hu : u.kind = .rbracket)
    (hdc : Derives careful (.expr Level.call.rank c) inp (t :: mid))
    (hdx : Derives careful (.expr Level.lowest.rank x) mid (u :: out))
    (hc : ExprRuns Level.call.rank c inp (t :: mid))
    (hx : ExprRuns Level.lowest.rank x mid (u :: out)) :
    ExprRuns Level.call.rank (.index c.pos c x) inp out := by
  have hlen := hdx.length_le
  simp only [Phrase.least, List.length_cons] at hlen
  refine .postfixed (.inr ht) hdc (by omega) hc fun size depth j hw hj hd => ?_
  obtain ⟨z, j', ho, hout, hy⟩ := hx.gives_closed hdx (hu ▸ ⟨rfl, by decide, by decide⟩)
    (hw.suffix ⟨[t], rfl⟩) hj (Nat.le_succ_of_le hd)
  refine ⟨u :: j', .trans ⟨[z], rfl⟩ (ho.trans ⟨[t], rfl⟩), ?_, hout⟩
  apply (yields_current _).bind
  simp only [List.head?_cons, Option.getD_some, ht]
  apply (yields_advance _).bind
  apply hy.bind
  exact (yields_expect (i := z :: u :: j') hu).bind (yields_pure _ _)

theorem ExprRuns.of_operand (hop : ∀ size depth j, Within size (t :: j) → live j = mid →
      mid.length ≤ depth + out.length → firstKind out ≠ .kwElse →
      Gives (operand (inside size depth)) (t :: j) e out) :
    ExprRuns Level.call.rank e (t :: mid) out := by
  intro size depth level i hw hi hd hf _
  obtain ⟨j, rfl, hj, -⟩ := live_eq_cons hi
  rw [List.length_cons] at hd
  exact .operand hw (hop size depth j hw hj (by omega) hf.ne_else)

theorem gives_bracketed {size depth : Nat} {i : List Token}
    (h : ExprRuns Level.lowest.rank e mid (u :: out))
    (he : Derives careful (.expr Level.lowest.rank e) mid (u :: out)) (hu : u.kind = .rparen)
    (hw : Within size (t :: i)) (hi : live i = mid) (hd : mid.length ≤ depth + out.length + 1) :
    Gives (bracketed (inside size depth)) (t :: i) e out := by
  obtain ⟨z, j, ho, hout, hy⟩ := h.gives_closed he (hu ▸ ⟨rfl, by decide, by decide⟩)
    (hw.suffix ⟨[t], rfl⟩) hi hd
  refine ⟨u :: j, .trans ⟨[z], rfl⟩ (ho.trans ⟨[t], rfl⟩), ?_, hout⟩
  apply (yields_advance _).bind
  apply hy.attempt.bind
  exact (yields_expect (i := z :: u :: j) hu).bind (yields_pure _ _)

theorem ExprRuns.group (ht : t.kind = .lparen) (hu : u.kind = .rparen)
    (hde : Derives careful (.expr Level.lowest.rank e) mid (u :: out))
    (he : ExprRuns Level.lowest.rank e mid (u :: out)) :
    ExprRuns Level.call.rank e (t :: mid) out := by
  refine .of_operand fun size depth j hw hj hd _ => ?_
  obtain ⟨o, ho, hy, hout⟩ := gives_bracketed he hde hu hw hj (Nat.le_succ_of_le hd)
  refine ⟨o, ho, ?_, hout⟩
  apply (yields_current _).bind
  simpa only [List.head?_cons, Option.getD_some, ht] using hy

theorem ExprRuns.array {es : List Expr} (ht : t.kind = .lbracket) (hu : u.kind = .rbracket)
    (hds : Derives careful (.exprs es) mid (u :: out)) (hs : ExprsRuns es mid (u :: out)) :
    ExprRuns Level.call.rank (.array t.pos es) (t :: mid) out := by
  refine .of_operand fun size depth j hw hj hd _ => ?_
  obtain ⟨o, ho, hy, hout⟩ := hs.gives hds (hu ▸ ⟨rfl, by decide, by decide⟩) (hu ▸ by decide) hw hj
    (Nat.le_succ_of_le hd)
  refine ⟨o, ho, ?_, hout⟩
  apply (yields_current _).bind
  simp only [List.head?_cons, Option.getD_some, ht]
  rw [hu] at hy
  exact hy.bind (yields_pure _ _)

theorem ExprRuns.leaf (h : ∀ g j, Yields (operand g) (t :: j) e (t :: j)) :
    ExprRuns Level.call.rank e (t :: out) out :=
  .of_operand fun _ _ j _ hj _ _ => ⟨t :: j, List.suffix_refl _, h _ j, hj⟩

def ParamsRuns : List Ident → List Token → List Token → Prop
  | [], inp, out => inp = out
  | p :: ps, inp, out => ∀ i, live i = inp → firstKind out ≠ .comma →
      ∃ x j o, i = x :: j ∧ x.kind = .ident ∧ p = ⟨x.pos, x.literal⟩ ∧ o <:+ i ∧ live o.tail = out ∧
        ∀ rounds, i.length ≤ rounds → Yields (moreParams rounds) i ps o

theorem ParamsRuns.one (ht : t.kind = .ident) : ParamsRuns [⟨t.pos, t.literal⟩] (t :: out) out := by
  intro i hi hc
  obtain ⟨j, rfl, rfl, -⟩ := live_eq_cons hi
  refine ⟨t, j, t :: j, rfl, ht, rfl, List.suffix_refl _, rfl, fun rounds hr => ?_⟩
  obtain ⟨k, rfl⟩ : ∃ k, rounds = k + 1 := ⟨rounds - 1, by rw [List.length_cons] at hr; omega⟩
  apply (yields_nextKind _).bind
  rw [List.tail_cons, if_pos (firstKind_live j ▸ hc)]
  exact yields_pure _ _

theorem ParamsRuns.more {p : Ident} {ps : List Ident} (ht : t.kind = .ident) (hu : u.kind = .comma)
    (h : ParamsRuns (p :: ps) mid out) :
    ParamsRuns (⟨t.pos, t.literal⟩ :: p :: ps) (t :: u :: mid) out := by
  intro i hi hc
  obtain ⟨j, rfl, hj, -⟩ := live_eq_cons hi
  obtain ⟨j, rfl, hj, -⟩ := live_eq_cons hj
  obtain ⟨x, j, o, rfl, hx, rfl, ho, hout, hmore⟩ := h j hj hc
  refine ⟨t, _, o, rfl, ht, rfl, ho.trans ⟨[t, u], rfl⟩, hout, fun rounds hr => ?_⟩
  simp only [List.length_cons] at hr
  obtain ⟨k, rfl⟩ : ∃ k, rounds = k + 1 := ⟨rounds - 1, by omega⟩
  apply (yields_nextKind _).bind
  rw [List.tail_cons, firstKind_cons, if_neg (by simpa using hu)]
  apply (yields_advance _).bind
  apply (yields_expect (i := u :: x :: j) hx).bind
  apply (yields_ident x j).bind
  exact (hmore k (by rw [List.length_cons]; omega)).bind (yields_pure _ _)

theorem ParamsRuns.gives {ps : List Ident} {size : Nat} {i : List Token}
    (h : ParamsRuns ps mid (u :: out)) (hu : u.kind = .rparen) (hw : Within size (t :: i))
    (hi : live i = mid) : Gives (params size) (t :: i) ps out := by
  cases ps with
  | nil =>
      obtain ⟨j, rfl, hj, -⟩ := live_eq_cons (hi.trans h)
      refine ⟨u :: j, ⟨[t], rfl⟩, ?_, hj⟩
      apply (yields_nextKind _).bind
      rw [List.tail_cons, firstKind_cons, if_pos hu]
      exact (yields_advance _).bind (yields_pure _ _)
  | cons p ps =>
      obtain ⟨x, j, o, rfl, hx, rfl, ho, hout, hmore⟩ := h i hi (by rw [firstKind_cons, hu]; decide)
      obtain ⟨z, j', rfl, hj'⟩ := live_tail_eq_cons hout
      refine ⟨u :: j', .trans ⟨[z], rfl⟩ (ho.trans ⟨[t], rfl⟩), ?_, hj'⟩
      apply (yields_nextKind _).bind
      rw [List.tail_cons, firstKind_cons, if_neg (by rw [hx]; decide)]
      apply (yields_expect (i := t :: x :: j) hx).bind
      apply (yields_ident x j).bind
      have hfits := (hw.suffix (⟨[t], rfl⟩ : x :: j <:+ t :: x :: j)).fits
      apply (hmore size hfits).bind
      exact (yields_expect (i := z :: u :: j') hu).bind (yields_pure _ _)

def BlockRuns (b : Block) (inp out : List Token) : Prop :=
  ∀ size depth i, Within size i → live i = inp → inp.length ≤ depth + out.length →
    Gives (block (inside size depth)) i b out

def StmtRuns (s : Stmt) (inp out : List Token) : Prop :=
  ∀ size depth i, Within size i → live i = inp → inp.length ≤ depth + out.length →
    firstKind out ≠ .kwElse → Gives (stmt (inside size depth)) i s out

def StmtsRuns (ss : List Stmt) (inp out : List Token) : Prop :=
  ∀ size depth ends rounds i, Within size i → live i = inp → inp.length ≤ depth + out.length →
    i.length ≤ rounds → (∀ k ∈ stmtStarters, ends k = false) → ends (firstKind out) = true →
    firstKind out ≠ .kwElse →
    ∃ o, o <:+ i ∧ Yields (statements (stmt (inside size depth)) ends rounds) i ss o ∧ live o = out

theorem gives_semicolon {bare : Bool} {o : List Token} (h : careful bare (live o.tail) out) :
    Gives (skip .semicolon) o () out := by
  rcases h with ⟨rfl, hp⟩ | ⟨v, hv, hlive⟩
  · refine ⟨o, List.suffix_refl o, yields_skip_other ?_, rfl⟩
    intro hk
    rw [firstKind_live, hk] at hp
    cases bare <;> simp [Parts] at hp
  · obtain ⟨z, j, rfl, hj⟩ := live_tail_eq_cons hlive
    exact ⟨v :: j, ⟨[z], rfl⟩, yields_skip (i := z :: v :: j) hv, hj⟩

theorem closes_of_careful {last : List Token} (h : careful false last out)
    (helse : firstKind out ≠ .kwElse) :
    (firstKind last).level.rank = 0 ∧ firstKind last ≠ .kwElse := by
  rcases h with ⟨rfl, hp⟩ | ⟨v, hv, rfl⟩
  · exact ⟨hp.1, helse⟩
  · rw [firstKind_cons, hv]
    decide

theorem ExprRuns.gives_value {size depth : Nat} {last i : List Token}
    (h : ExprRuns Level.lowest.rank e mid last)
    (he : Derives careful (.expr Level.lowest.rank e) mid last) (hend : careful false last out)
    (hw : Within size i) (hi : live i = mid) (hd : mid.length ≤ depth + out.length)
    (helse : firstKind out ≠ .kwElse) :
    ∃ o o', Yields (Expr.read size depth .lowest) i e o ∧ Yields (skip .semicolon) o () o' ∧
      o' <:+ i ∧ live o'.tail = out := by
  obtain ⟨hrank, hne⟩ := closes_of_careful hend helse
  have hlen := careful_length hend
  obtain ⟨o, ho, hy, rfl⟩ := h.gives_lowest depth he hw hi (by omega) hrank hne
  obtain ⟨o', ho', hs, hout⟩ := gives_semicolon hend
  exact ⟨o, o', hy, hs, ho'.trans ho, hout⟩

theorem StmtRuns.bind {x a : Token} {last : List Token} (ht : t.kind = .kwLet) (hx : x.kind = .ident)
    (ha : a.kind = .assign) (hde : Derives careful (.expr Level.lowest.rank e) mid last)
    (hend : careful false last out) (he : ExprRuns Level.lowest.rank e mid last) :
    StmtRuns (.bind t.pos ⟨x.pos, x.literal⟩ e) (t :: x :: a :: mid) out := by
  intro size depth i hw hi hd helse
  obtain ⟨j, rfl, hj, -⟩ := live_eq_cons hi
  obtain ⟨j, rfl, hj, -⟩ := live_eq_cons hj
  obtain ⟨j, rfl, hj, -⟩ := live_eq_cons hj
  simp only [List.length_cons] at hd
  obtain ⟨o, o', hy, hs, ho, hout⟩ := he.gives_value hde hend (hw.suffix ⟨[t, x, a], rfl⟩) hj
    (by omega : mid.length ≤ depth + out.length) helse
  refine ⟨o', ho.trans ⟨[t, x, a], rfl⟩, ?_, hout⟩
  apply (yields_currentKind _).bind
  simp only [firstKind_cons, ht]
  apply (yields_current _).bind
  apply (yields_expect (i := t :: x :: a :: j) hx).bind
  apply (yields_ident x _).bind
  apply (yields_expect (i := x :: a :: j) ha).bind
  apply (yields_advance _).bind
  apply hy.attempt.bind
  exact hs.bind (yields_pure _ _)

theorem StmtRuns.ret {last : List Token} (ht : t.kind = .kwReturn) (hend : careful true last out) :
    StmtRuns (.ret t.pos none) (t :: last) out := by
  intro size depth i hw hi hd helse
  obtain ⟨j, rfl, rfl, -⟩ := live_eq_cons hi
  have hnext : firstKind j = .semicolon ∨ firstKind j = .rbrace ∨ firstKind j = .eof := by
    rw [← firstKind_live]
    rcases hend with ⟨rfl, hp⟩ | ⟨v, hv, hlive⟩
    · exact .inr hp
    · exact .inl (hlive ▸ hv)
  obtain ⟨o, ho, hs, hout⟩ := gives_semicolon (o := t :: j) hend
  refine ⟨o, ho, ?_, hout⟩
  apply (yields_currentKind _).bind
  simp only [firstKind_cons, ht]
  apply (yields_current _).bind
  apply (yields_nextKind _).bind
  rw [List.tail_cons, if_pos hnext]
  exact hs.bind (yields_pure _ _)

theorem StmtRuns.retValue {last : List Token} (ht : t.kind = .kwReturn)
    (hde : Derives careful (.expr Level.lowest.rank e) mid last) (hend : careful false last out)
    (he : ExprRuns Level.lowest.rank e mid last) :
    StmtRuns (.ret t.pos (some e)) (t :: mid) out := by
  intro size depth i hw hi hd helse
  obtain ⟨j, rfl, rfl, -⟩ := live_eq_cons hi
  rw [List.length_cons] at hd
  obtain ⟨o, o', hy, hs, ho, hout⟩ := he.gives_value hde hend (hw.suffix ⟨[t], rfl⟩) rfl
    (by omega : (live j).length ≤ depth + out.length) helse
  have hnext : ¬ (firstKind j = .semicolon ∨ firstKind j = .rbrace ∨ firstKind j = .eof) := by
    have hstart : firstKind (live j) ∈ starters := hde.starts
    rw [firstKind_live] at hstart
    rintro (hk | hk | hk) <;> simp [hk, starters] at hstart
  refine ⟨o', ho.trans ⟨[t], rfl⟩, ?_, hout⟩
  apply (yields_currentKind _).bind
  simp only [firstKind_cons, ht]
  apply (yields_current _).bind
  apply (yields_nextKind _).bind
  rw [List.tail_cons, if_neg hnext]
  apply (yields_advance _).bind
  apply hy.attempt.bind
  exact hs.bind (yields_pure _ _)

theorem StmtRuns.expr {last : List Token}
    (hde : Derives careful (.expr Level.lowest.rank e) (t :: mid) last)
    (hend : careful false last out) (he : ExprRuns Level.lowest.rank e (t :: mid) last) :
    StmtRuns (.expr t.pos e) (t :: mid) out := by
  intro size depth i hw hi hd helse
  obtain ⟨o, o', hy, hs, ho, hout⟩ := he.gives_value hde hend hw hi hd helse
  obtain ⟨j, rfl, rfl, -⟩ := live_eq_cons hi
  have hstart : t.kind ∈ starters := hde.starts
  refine ⟨o', ho, ?_, hout⟩
  apply (yields_currentKind _).bind
  rw [firstKind_cons]
  split
  case h_1 hk => simp [hk, starters] at hstart
  case h_2 hk => simp [hk, starters] at hstart
  case h_3 =>
    apply (yields_current _).bind
    apply hy.attempt.bind
    exact hs.bind (yields_pure _ _)

theorem StmtsRuns.nil : StmtsRuns [] out out := by
  intro size depth ends rounds i hw hi _ _ _ hend _
  refine ⟨i, List.suffix_refl i, ?_, hi⟩
  cases rounds with
  | zero => exact yields_pure _ _
  | succ k =>
      apply (yields_currentKind i).bind
      rw [if_pos (by rwa [← firstKind_live, hi])]
      exact yields_pure _ _

theorem Derives.ne_else {ss : List Stmt} (h : Derives careful (.stmts ss) mid out)
    (helse : firstKind out ≠ .kwElse) : firstKind mid ≠ .kwElse := by
  have hstart := h.starts
  cases h with
  | stmtsNil => exact helse
  | stmtsCons =>
      intro hk
      simp [Phrase.Starts, stmtStarters, starters, hk] at hstart

theorem StmtsRuns.cons {s : Stmt} {ss : List Stmt} (hds : Derives careful (.stmt s) inp mid)
    (hdss : Derives careful (.stmts ss) mid out) (hs : StmtRuns s inp mid)
    (hss : StmtsRuns ss mid out) : StmtsRuns (s :: ss) inp out := by
  intro size depth ends rounds i hw hi hd hr hstarters hend helse
  have hlens := hds.length_le
  have hlenss := hdss.length_le
  simp only [Phrase.least] at hlens hlenss
  obtain ⟨o, ho, hy, hmid⟩ := hs size depth i hw hi (by omega) (hdss.ne_else helse)
  have hstart : firstKind i ∈ stmtStarters := by
    rw [← firstKind_live, hi]
    exact hds.starts
  have hi' : 0 < i.length := by
    have hle : (live i).length ≤ i.length := (List.takeWhile_sublist _).length_le
    rw [hi] at hle
    omega
  obtain ⟨k, rfl⟩ : ∃ k, rounds = k + 1 := ⟨rounds - 1, by omega⟩
  have hk : o.tail.length ≤ k := by
    have := ho.length_le
    rw [List.length_tail]
    omega
  have htail : o.tail <:+ i := (List.tail_suffix o).trans ho
  obtain ⟨o', ho', hy', hout⟩ := hss size depth ends k o.tail (hw.suffix htail) hmid (by omega) hk
    hstarters hend helse
  refine ⟨o', ho'.trans htail, ?_, hout⟩
  apply (yields_currentKind i).bind
  rw [if_neg (by simp [hstarters _ hstart])]
  apply hy.attempt.bind
  apply (yields_advance o).bind
  exact hy'.bind (yields_pure _ _)

theorem StmtsRuns.gives_block {ss : List Stmt} {size depth : Nat} {j last : List Token}
    (h : StmtsRuns ss mid last) (hlast : firstKind last = .rbrace ∨ firstKind last = .eof)
    (hw : Within size (t :: j)) (hj : live j = mid) (hd : mid.length ≤ depth + last.length) :
    ∃ o, o <:+ t :: j ∧ live o = last ∧
      Yields (Grammar.block (inside size depth)) (t :: j) (.mk t.pos ss) o := by
  have hj' : Within size j := hw.suffix ⟨[t], rfl⟩
  have helse : firstKind last ≠ .kwElse := by rcases hlast with hk | hk <;> rw [hk] <;> decide
  obtain ⟨o, ho, hy, hout⟩ := h size depth (fun k => k = .rbrace ∨ k = .eof) size j hj' hj hd
    hj'.fits (by decide) (decide_eq_true hlast) helse
  refine ⟨o, ho.trans ⟨[t], rfl⟩, hout, ?_⟩
  apply (yields_current _).bind
  apply (yields_advance _).bind
  exact hy.bind (yields_pure _ _)

theorem BlockRuns.closed {ss : List Stmt} (hu : u.kind = .rbrace) (h : StmtsRuns ss mid (u :: out)) :
    BlockRuns (.mk t.pos ss) (t :: mid) out := by
  intro size depth i hw hi hd
  obtain ⟨j, rfl, hj, -⟩ := live_eq_cons hi
  simp only [List.length_cons] at hd
  obtain ⟨o, ho, hlive, hy⟩ := h.gives_block (.inl hu) hw hj
    (by rw [List.length_cons]; omega : mid.length ≤ depth + (u :: out).length)
  obtain ⟨j', rfl, hout, -⟩ := live_eq_cons hlive
  exact ⟨u :: j', ho, hy, hout⟩

theorem BlockRuns.unclosed {ss : List Stmt} (h : StmtsRuns ss mid []) :
    BlockRuns (.mk t.pos ss) (t :: mid) [] := by
  intro size depth i hw hi hd
  obtain ⟨j, rfl, hj, -⟩ := live_eq_cons hi
  simp only [List.length_cons] at hd
  obtain ⟨o, ho, hlive, hy⟩ := h.gives_block (.inr rfl) hw hj
    (by omega : mid.length ≤ depth + List.length [])
  have hend : firstKind o = .eof := by rw [← firstKind_live, hlive, firstKind_nil]
  exact ⟨o, ho, hy, (hw.suffix ho).ended.live_tail hend⟩

theorem BlockRuns.gives {b : Block} {size depth : Nat} {o : List Token} (h : BlockRuns b inp out)
    (hdb : Derives careful (.block b) inp out) (hw : Within size o) (hi : live o.tail = inp)
    (hd : inp.length ≤ depth + out.length) :
    firstKind o.tail = .lbrace ∧ ∃ o', o' <:+ o ∧ live o'.tail = out ∧
      Yields (Grammar.block (inside size depth)) o.tail b o' := by
  obtain ⟨o', ho', hy, hout⟩ := h size depth o.tail (hw.suffix (List.tail_suffix o)) hi hd
  refine ⟨?_, o', ho'.trans (List.tail_suffix o), hout, hy⟩
  rw [← firstKind_live, hi]
  exact hdb.starts

theorem ExprRuns.fn {l r : Token} {ps : List Ident} {b : Block} {body : List Token}
    (ht : t.kind = .kwFn) (hl : l.kind = .lparen) (hr : r.kind = .rparen)
    (hdp : Derives careful (.params ps) mid (r :: body)) (hdb : Derives careful (.block b) body out)
    (hp : ParamsRuns ps mid (r :: body)) (hb : BlockRuns b body out) :
    ExprRuns Level.call.rank (.fn t.pos ps b) (t :: l :: mid) out := by
  refine .of_operand fun size depth j hw hj hd _ => ?_
  obtain ⟨j, rfl, hj, -⟩ := live_eq_cons hj
  have hlen := hdp.length_le
  simp only [Phrase.least, List.length_cons] at hd hlen
  have hw' : Within size (l :: j) := hw.suffix ⟨[t], rfl⟩
  obtain ⟨o, ho, hy, hbody⟩ := hp.gives hr hw' hj
  obtain ⟨hbrace, o', ho', hout, hy'⟩ := hb.gives hdb (hw'.suffix ho) hbody
    (by omega : body.length ≤ depth + out.length)
  refine ⟨o', (ho'.trans ho).trans ⟨[t], rfl⟩, ?_, hout⟩
  apply (yields_current _).bind
  simp only [List.head?_cons, Option.getD_some, ht]
  apply (yields_expect (i := t :: l :: j) hl).bind
  apply hy.bind
  apply (yields_expect hbrace).bind
  exact hy'.bind (yields_pure _ _)

theorem gives_test {l r : Token} {b : Block} {body after j : List Token} {size depth : Nat}
    (hl : l.kind = .lparen) (hr : r.kind = .rparen)
    (hde : Derives careful (.expr Level.lowest.rank e) mid (r :: body))
    (hdb : Derives careful (.block b) body after)
    (he : ExprRuns Level.lowest.rank e mid (r :: body)) (hb : BlockRuns b body after)
    (hw : Within size (t :: l :: j)) (hj : live j = mid) (hd : mid.length ≤ depth + after.length) :
    ∃ o o', Yields (test (inside size depth)) (t :: l :: j) e o ∧ firstKind o.tail = .lbrace ∧
      Yields (Grammar.block (inside size depth)) o.tail b o' ∧ o' <:+ t :: l :: j ∧
      live o'.tail = after := by
  have hlene := hde.length_le
  have hlenb := hdb.length_le
  simp only [Phrase.least, List.length_cons] at hlene hlenb
  have hw' : Within size (l :: j) := hw.suffix ⟨[t], rfl⟩
  obtain ⟨o, ho, hy, hbody⟩ := gives_bracketed he hde hr hw' hj
    (by omega : mid.length ≤ depth + body.length + 1)
  obtain ⟨hbrace, o', ho', hout, hy'⟩ := hb.gives hdb (hw'.suffix ho) hbody
    (by omega : body.length ≤ depth + after.length)
  refine ⟨o, o', ?_, hbrace, hy', (ho'.trans ho).trans ⟨[t], rfl⟩, hout⟩
  exact (yields_expect (i := t :: l :: j) hl).bind hy

theorem ExprRuns.loop {l r : Token} {b : Block} {body : List Token}
    (ht : t.kind = .kwWhile) (hl : l.kind = .lparen) (hr : r.kind = .rparen)
    (hde : Derives careful (.expr Level.lowest.rank e) mid (r :: body))
    (hdb : Derives careful (.block b) body out)
    (he : ExprRuns Level.lowest.rank e mid (r :: body)) (hb : BlockRuns b body out) :
    ExprRuns Level.call.rank (.loop t.pos e b) (t :: l :: mid) out := by
  refine .of_operand fun size depth j hw hj hd _ => ?_
  obtain ⟨j, rfl, hj, -⟩ := live_eq_cons hj
  rw [List.length_cons] at hd
  obtain ⟨o, o', hy, hbrace, hy', ho', hout⟩ := gives_test hl hr hde hdb he hb hw hj
    (by omega : mid.length ≤ depth + out.length)
  refine ⟨o', ho', ?_, hout⟩
  apply (yields_current _).bind
  simp only [List.head?_cons, Option.getD_some, ht]
  apply hy.bind
  apply (yields_expect hbrace).bind
  exact hy'.bind (yields_pure _ _)

theorem ExprRuns.cond {l r : Token} {b : Block} {body : List Token}
    (ht : t.kind = .kwIf) (hl : l.kind = .lparen) (hr : r.kind = .rparen)
    (hde : Derives careful (.expr Level.lowest.rank e) mid (r :: body))
    (hdb : Derives careful (.block b) body out)
    (he : ExprRuns Level.lowest.rank e mid (r :: body)) (hb : BlockRuns b body out) :
    ExprRuns Level.call.rank (.cond t.pos e b none) (t :: l :: mid) out := by
  refine .of_operand fun size depth j hw hj hd helse => ?_
  obtain ⟨j, rfl, hj, -⟩ := live_eq_cons hj
  rw [List.length_cons] at hd
  obtain ⟨o, o', hy, hbrace, hy', ho', hout⟩ := gives_test hl hr hde hdb he hb hw hj
    (by omega : mid.length ≤ depth + out.length)
  refine ⟨o', ho', ?_, hout⟩
  apply (yields_current _).bind
  simp only [List.head?_cons, Option.getD_some, ht]
  apply hy.bind
  apply (yields_expect hbrace).bind
  apply hy'.bind
  apply (yields_nextKind o').bind
  rw [if_neg (by rwa [← firstKind_live, hout])]
  exact yields_pure _ _

theorem ExprRuns.condElse {l r f : Token} {b b' : Block} {body other : List Token}
    (ht : t.kind = .kwIf) (hl : l.kind = .lparen) (hr : r.kind = .rparen) (hf : f.kind = .kwElse)
    (hde : Derives careful (.expr Level.lowest.rank e) mid (r :: body))
    (hdb : Derives careful (.block b) body (f :: other))
    (hdb' : Derives careful (.block b') other out)
    (he : ExprRuns Level.lowest.rank e mid (r :: body)) (hb : BlockRuns b body (f :: other))
    (hb' : BlockRuns b' other out) :
    ExprRuns Level.call.rank (.cond t.pos e b (some b')) (t :: l :: mid) out := by
  refine .of_operand fun size depth j hw hj hd _ => ?_
  obtain ⟨j, rfl, hj, -⟩ := live_eq_cons hj
  have hlene := hde.length_le
  have hlenb := hdb.length_le
  have hlenb' := hdb'.length_le
  simp only [Phrase.least, List.length_cons] at hd hlene hlenb hlenb'
  obtain ⟨o, o', hy, hbrace, hy', ho', hlive⟩ := gives_test hl hr hde hdb he hb hw hj
    (by rw [List.length_cons]; omega : mid.length ≤ depth + (f :: other).length)
  obtain ⟨z, j', rfl, hj'⟩ := live_tail_eq_cons hlive
  have ho'' : f :: j' <:+ t :: l :: j := .trans ⟨[z], rfl⟩ ho'
  obtain ⟨hbrace', o₂, ho₂, hout, hy₂⟩ := hb'.gives hdb' (hw.suffix ho'') hj'
    (by omega : other.length ≤ depth + out.length)
  refine ⟨o₂, ho₂.trans ho'', ?_, hout⟩
  apply (yields_current _).bind
  simp only [List.head?_cons, Option.getD_some, ht]
  apply hy.bind
  apply (yields_expect hbrace).bind
  apply hy'.bind
  apply (yields_nextKind _).bind
  rw [List.tail_cons, firstKind_cons, if_pos hf]
  apply (yields_advance _).bind
  apply (yields_expect hbrace').bind
  exact hy₂.bind (yields_pure _ _)

def PairsRuns (ps : List (Expr × Expr)) (inp out : List Token) : Prop :=
  ∀ size depth z i rounds after, Within size (z :: i) → live i = inp →
    inp.length ≤ depth + out.length → i.length < rounds →
    (out = after ∨ ps ≠ [] ∧ ∃ c, c.kind = .comma ∧ out = c :: after) →
    firstKind after = .rbrace → Gives (pairs (inside size depth) rounds) (z :: i) ps after

theorem yields_pairs_nil {g : Inside} {o : List Token} (h : firstKind o.tail = .rbrace)
    (rounds : Nat) : Yields (pairs g rounds) o [] o := by
  cases rounds with
  | zero => exact yields_pure _ _
  | succ k =>
      apply (yields_nextKind o).bind
      rw [if_pos h]
      exact yields_pure _ _

theorem PairsRuns.nil : PairsRuns [] out out := by
  intro size depth z i rounds after _ hi _ _ hafter hbrace
  obtain rfl : out = after := by simpa using hafter
  refine ⟨z :: i, List.suffix_refl _, yields_pairs_nil ?_ rounds, hi⟩
  rwa [List.tail_cons, ← firstKind_live, hi]

theorem yields_pairEnd {o : List Token} (h : firstKind o.tail = .rbrace) : Yields pairEnd o () o := by
  apply (yields_nextKind o).bind
  rw [if_neg (not_not.mpr h)]
  exact yields_pure _ _

theorem yields_pairEnd_comma {o : List Token} (h : firstKind o.tail = .comma) :
    Yields pairEnd o () o.tail := by
  apply (yields_nextKind o).bind
  rw [if_pos (by rw [h]; decide)]
  exact yields_expect h

theorem gives_pair {c : Token} {k v : Expr} {size depth : Nat} {z : Token} {i next : List Token}
    (hc : c.kind = .colon) (hdk : Derives careful (.expr Level.lowest.rank k) inp (c :: mid))
    (hdv : Derives careful (.expr Level.lowest.rank v) mid next)
    (hk : ExprRuns Level.lowest.rank k inp (c :: mid)) (hv : ExprRuns Level.lowest.rank v mid next)
    (hnext : firstKind next = .rbrace ∨ firstKind next = .comma) (hw : Within size (z :: i))
    (hi : live i = inp) (hd : inp.length ≤ depth + next.length) :
    ∃ o, o <:+ i ∧ live o.tail = next ∧ ∀ {rounds ps o₁ o₂}, Yields pairEnd o () o₁ →
      Yields (pairs (inside size depth) rounds) o₁ ps o₂ →
        Yields (pairs (inside size depth) (rounds + 1)) (z :: i) ((k, v) :: ps) o₂ := by
  have hlenk := hdk.length_le
  have hlenv := hdv.length_le
  simp only [Phrase.least, List.length_cons] at hlenk hlenv
  have hi' : Within size i := hw.suffix ⟨[z], rfl⟩
  obtain ⟨o, ho, hy, hlive⟩ := hk.gives_lowest depth hdk hi' hi (by rw [List.length_cons]; omega)
    (by rw [firstKind_cons, hc]; rfl) (by rw [firstKind_cons, hc]; decide)
  obtain ⟨w, j, rfl, hj⟩ := live_tail_eq_cons hlive
  have hj' : j <:+ i := .trans ⟨[w, c], rfl⟩ ho
  have hstop : (firstKind next).level.rank = 0 ∧ firstKind next ≠ .kwElse := by
    rcases hnext with hn | hn <;> rw [hn] <;> decide
  obtain ⟨o', ho', hy', hout⟩ := hv.gives_lowest depth hdv (hi'.suffix hj') hj (by omega) hstop.1
    hstop.2
  refine ⟨o', ho'.trans hj', hout, fun hend hrest => ?_⟩
  have hstart : firstKind i ∈ starters := by
    rw [← firstKind_live, hi]
    exact hdk.starts
  rw [pairs_succ]
  apply (yields_nextKind _).bind
  rw [List.tail_cons, if_neg (fun hb => by simp [hb, starters] at hstart)]
  apply (yields_advance _).bind
  apply hy.bind
  apply (yields_expect (i := w :: c :: j) hc).bind
  apply (yields_advance _).bind
  apply hy'.bind
  apply hend.bind
  exact hrest.bind (yields_pure _ _)

theorem PairsRuns.one {c : Token} {k v : Expr} (hc : c.kind = .colon)
    (hdk : Derives careful (.expr Level.lowest.rank k) inp (c :: mid))
    (hdv : Derives careful (.expr Level.lowest.rank v) mid out)
    (hk : ExprRuns Level.lowest.rank k inp (c :: mid)) (hv : ExprRuns Level.lowest.rank v mid out) :
    PairsRuns [(k, v)] inp out := by
  intro size depth z i rounds after hw hi hd hr hafter hbrace
  obtain ⟨n, rfl⟩ : ∃ n, rounds = n + 1 := ⟨rounds - 1, by omega⟩
  rcases hafter with rfl | ⟨-, d, hcomma, rfl⟩
  · obtain ⟨o, ho, hlive, hpairs⟩ := gives_pair hc hdk hdv hk hv (.inl hbrace) hw hi hd
    have hb : firstKind o.tail = .rbrace := by rw [← firstKind_live, hlive, hbrace]
    exact ⟨o, ho.trans ⟨[z], rfl⟩, hpairs (yields_pairEnd hb) (yields_pairs_nil hb n), hlive⟩
  · obtain ⟨o, ho, hlive, hpairs⟩ := gives_pair hc hdk hdv hk hv (.inr hcomma) hw hi hd
    obtain ⟨w, j, rfl, hj⟩ := live_tail_eq_cons hlive
    have hb : firstKind j = .rbrace := by rw [← firstKind_live, hj, hbrace]
    refine ⟨d :: j, .trans ⟨[w], rfl⟩ (ho.trans ⟨[z], rfl⟩), ?_, hj⟩
    exact hpairs (yields_pairEnd_comma hcomma) (yields_pairs_nil (o := d :: j) hb n)

theorem PairsRuns.more {c d : Token} {k v : Expr} {p : Expr × Expr} {ps : List (Expr × Expr)}
    {next : List Token} (hc : c.kind = .colon) (hcomma : d.kind = .comma)
    (hdk : Derives careful (.expr Level.lowest.rank k) inp (c :: mid))
    (hdv : Derives careful (.expr Level.lowest.rank v) mid (d :: next))
    (hds : Derives careful (.pairs (p :: ps)) next out)
    (hk : ExprRuns Level.lowest.rank k inp (c :: mid))
    (hv : ExprRuns Level.lowest.rank v mid (d :: next)) (hs : PairsRuns (p :: ps) next out) :
    PairsRuns ((k, v) :: p :: ps) inp out := by
  intro size depth z i rounds after hw hi hd hr hafter hbrace
  have hlenk := hdk.length_le
  have hlenv := hdv.length_le
  have hlens := hds.length_le
  simp only [Phrase.least, List.length_cons] at hlenk hlenv hlens
  obtain ⟨n, rfl⟩ : ∃ n, rounds = n + 1 := ⟨rounds - 1, by omega⟩
  obtain ⟨o, ho, hlive, hpairs⟩ := gives_pair hc hdk hdv hk hv (.inr hcomma) hw hi
    (by rw [List.length_cons]; omega : inp.length ≤ depth + (d :: next).length)
  obtain ⟨w, j, rfl, hj⟩ := live_tail_eq_cons hlive
  have ho' : d :: j <:+ z :: i := .trans ⟨[w], rfl⟩ (ho.trans ⟨[z], rfl⟩)
  have hn : j.length < n := by
    have := ho.length_le
    simp only [List.length_cons] at this
    omega
  obtain ⟨o₂, ho₂, hy, hout⟩ := hs size depth d j n after (hw.suffix ho') hj (by omega) hn
    (by simpa using hafter) hbrace
  exact ⟨o₂, ho₂.trans ho', hpairs (yields_pairEnd_comma hcomma) hy, hout⟩

theorem ExprRuns.hash {ps : List (Expr × Expr)} {last : List Token} (ht : t.kind = .lbrace)
    (hu : u.kind = .rbrace)
    (hlast : last = u :: out ∨ ps ≠ [] ∧ ∃ c, c.kind = .comma ∧ last = c :: u :: out)
    (hs : PairsRuns ps mid last) : ExprRuns Level.call.rank (.hash t.pos ps) (t :: mid) out := by
  refine .of_operand fun size depth j hw hj hd _ => ?_
  have hlen : out.length ≤ last.length := by
    rcases hlast with rfl | ⟨-, c, -, rfl⟩ <;> simp only [List.length_cons] <;> omega
  obtain ⟨o, ho, hy, hlive⟩ := hs size depth t j size (u :: out) hw hj (by omega)
    (Nat.lt_of_lt_of_le (Nat.lt_succ_self _) hw.fits) hlast hu
  obtain ⟨z, j', rfl, hout⟩ := live_tail_eq_cons hlive
  refine ⟨u :: j', .trans ⟨[z], rfl⟩ ho, ?_, hout⟩
  apply (yields_current _).bind
  simp only [List.head?_cons, Option.getD_some, ht]
  apply hy.bind
  exact (yields_advance _).bind (yields_pure _ _)

end Cases

def Runs : Phrase → List Token → List Token → Prop
  | .expr n e => ExprRuns n e
  | .exprs es => ExprsRuns es
  | .params ps => ParamsRuns ps
  | .pairs ps => PairsRuns ps
  | .block b => BlockRuns b
  | .stmt s => StmtRuns s
  | .stmts ss => StmtsRuns ss

theorem Derives.runs {φ : Phrase} {inp out : List Token} (h : Derives careful φ inp out) :
    Runs φ inp out := by
  induction h with
  | above _ ih => exact ExprRuns.above ih
  | binary ht hn hl hr ihl ihr => simpa only [Runs, if_neg hn] using ExprRuns.between ht hl hr ihl ihr
  | @range t lo hi inp mid out ht hl hr ihl ihr =>
      have hj : t.kind.Joins := by
        rw [ht]
        exact ⟨by decide, by decide⟩
      have hrank : t.kind.level.rank = Level.range.rank := by rw [ht]; rfl
      rw [← hrank] at hl hr
      simp only [Runs, ← hrank] at ihl ihr ⊢
      simpa only [if_pos ht] using ExprRuns.between hj hl hr ihl ihr
  | unary ht he ih => exact ExprRuns.unary ht he ih
  | call ht hu hf ha ihf iha => exact ExprRuns.call ht hu hf ha ihf iha
  | index ht hu hc hx ihc ihx => exact ExprRuns.index ht hu hc hx ihc ihx
  | ident ht | double ht | string ht | yes ht | no ht =>
      refine ExprRuns.leaf fun g j => (yields_current _).bind ?_
      simp only [List.head?_cons, Option.getD_some, ht]
      exact yields_pure _ _
  | int ht hn =>
      refine ExprRuns.leaf fun g j => (yields_current _).bind ?_
      simp only [List.head?_cons, Option.getD_some, ht, hn]
      exact yields_pure _ _
  | group ht hu he ih => exact ExprRuns.group ht hu he ih
  | cond ht hl hr he hb ihe ihb => exact ExprRuns.cond ht hl hr he hb ihe ihb
  | condElse ht hl hr hf he hb hb' ihe ihb ihb' =>
      exact ExprRuns.condElse ht hl hr hf he hb hb' ihe ihb ihb'
  | loop ht hl hr he hb ihe ihb => exact ExprRuns.loop ht hl hr he hb ihe ihb
  | fn ht hl hr hp hb ihp ihb => exact ExprRuns.fn ht hl hr hp hb ihp ihb
  | array ht hu hs ih => exact ExprRuns.array ht hu hs ih
  | hash ht hu _ ih => exact ExprRuns.hash ht hu (.inl rfl) ih
  | hashComma ht hc hu _ ih =>
      exact ExprRuns.hash ht hu (.inr ⟨List.cons_ne_nil _ _, _, hc, rfl⟩) ih
  | exprsNil | paramsNil => rfl
  | exprsOne he ih => exact ExprsRuns.one he ih
  | exprsMore hc he hs ihe ihs => exact ExprsRuns.more hc he hs ihe ihs
  | paramsOne ht => exact ParamsRuns.one ht
  | paramsMore ht hc _ ih => exact ParamsRuns.more ht hc ih
  | pairsNil => exact PairsRuns.nil
  | pairsOne hc hk hv ihk ihv => exact PairsRuns.one hc hk hv ihk ihv
  | pairsMore hc hd hk hv hs ihk ihv ihs => exact PairsRuns.more hc hd hk hv hs ihk ihv ihs
  | block _ hu _ ih => exact BlockRuns.closed hu ih
  | blockOpen _ _ ih => exact BlockRuns.unclosed ih
  | bind ht hx ha he hend ih => exact StmtRuns.bind ht hx ha he hend ih
  | ret ht hend => exact StmtRuns.ret ht hend
  | retValue ht he hend ih => exact StmtRuns.retValue ht he hend ih
  | expr he hend ih => exact StmtRuns.expr he hend ih
  | stmtsNil => exact StmtsRuns.nil
  | stmtsCons hs hss ihs ihss => exact StmtsRuns.cons hs hss ihs ihss

theorem ofTokens_of_derives {depth : Nat} {tokens : List Token} {ss : List Stmt} (hend : Ended tokens)
    (h : Derives careful (.stmts ss) (live tokens) []) (hd : tokens.length ≤ depth) :
    Program.ofTokens? depth tokens = some ⟨⟨ss⟩, []⟩ := by
  have hlen : (live tokens).length ≤ depth := (List.takeWhile_sublist _).length_le.trans hd
  obtain ⟨o, -, hy, -⟩ := h.runs tokens.length depth (fun k => k = .eof) tokens.length tokens
    ⟨hend, Nat.le_refl _⟩ rfl hlen (Nat.le_refl _) (by decide) rfl (by decide)
  simp only [Program.ofTokens?, hy #[]]

end Marmoset.Grammar
