import Marmoset.Proofs.Tree.Shape
import Marmoset.Proofs.Tree.Soundness

/-!
Readings that go in step. A reading looks at its current token and at the kind of the next one, so two
readings that see the same there make the same tree, at other places, with the same mistakes. It does
not matter how many rounds their loops may take, as long as there is one for each token.
-/

set_option synthInstance.maxSize 1000

namespace Marmoset

theorem Expr.pos_move {f : Pos → Pos} (hf : f Pos.absent = Pos.absent) (e : Expr) :
    (e.move f).pos = f e.pos := by
  cases e with
  | missing => exact hf.symm
  | _ => rfl

namespace Read

variable {α β : Type} {f : Pos → Pos} {size : Nat} {S : Pairing Reading Reading} {r r' : Reading}

/-- Readings in `S` have at most `size` tokens left and see the same tokens, at other places, until
the first one gets lost. -/
structure Tracks (f : Pos → Pos) (size : Nat) (S : Pairing Reading Reading) : Prop where
  absent : f Pos.absent = Pos.absent
  current {r r' : Reading} : S.Rel r r' →
    r'.tokens.head?.getD endToken = (r.tokens.head?.getD endToken).move f
  next {r r' : Reading} : S.Rel r r' → firstKind r'.tokens.tail = firstKind r.tokens.tail
  advance {r r' : Reading} : S.Rel r r' → S.Lost { r with tokens := r.tokens.tail } ∨
    S.Rel { r with tokens := r.tokens.tail } { r' with tokens := r'.tokens.tail }
  note {r r' : Reading} (m : Mistake) : S.Rel r r' →
    S.Rel { r with mistakes := r.mistakes.push m } { r' with mistakes := r'.mistakes.push m }
  fits {r r' : Reading} : S.Rel r r' → r.tokens.length ≤ size
  lost {r o : Reading} : o.tokens <:+ r.tokens → r.mistakes.size ≤ o.mistakes.size → S.Lost r → S.Lost o

section Steps

variable (hS : Tracks f size S)

include hS

theorem Tracks.keepsLost {p : Read α} [hp : Grows p] (hr : S.Lost r) : S.Lost (finalState p r) :=
  hS.lost (hp.stop_le r).1 (hp.stop_le r).2 hr

theorem Tracks.firstKind (hr : S.Rel r r') : firstKind r'.tokens = firstKind r.tokens :=
  (congrArg Token.kind (hS.current hr)).trans rfl

theorem tracks_current : Mirrors S (Token.move f) current current :=
  mirrors_get fun _ _ hr => hS.current hr

theorem tracks_currentKind : Mirrors S id currentKind currentKind :=
  (tracks_current hS).bind fun _ => mirrors_pure rfl

theorem tracks_nextKind : Mirrors S id nextKind nextKind :=
  mirrors_get fun _ _ hr => hS.next hr

theorem tracks_advance : Mirrors S id advance advance :=
  mirrors_modifyGet (fun _ hr => hS.lost (List.tail_suffix _) (Nat.le_refl _) hr)
    fun _ _ hr => (hS.advance hr).imp_right fun hr' => ⟨rfl, hr'⟩

theorem tracks_mistake {g : α → β} (m : Mistake) : Mirrors S g (mistake m) (mistake m) := by
  have hpush : Mirrors S id
      (modify fun r => { r with mistakes := r.mistakes.push m } : Read Unit)
      (modify fun r => { r with mistakes := r.mistakes.push m } : Read Unit) :=
    mirrors_modifyGet (fun r hr => hS.lost (List.suffix_refl r.tokens) (by simp) hr)
      fun _ _ hr => .inr ⟨rfl, hS.note m hr⟩
  exact hpush.bind fun _ => mirrors_throw _

theorem tracks_expect (kind : Token.Kind) : Mirrors S id (expect kind) (expect kind) :=
  (tracks_nextKind hS).bind fun _ => .ite Iff.rfl (tracks_advance hS) (tracks_mistake hS _)

theorem tracks_skip (kind : Token.Kind) : Mirrors S id (skip kind) (skip kind) :=
  (tracks_nextKind hS).bind fun _ => .ite Iff.rfl (tracks_advance hS) (mirrors_pure rfl)

end Steps

theorem finalState_attempt (p : Read α) (r : Reading) : finalState (attempt p) r = finalState p r := by
  unfold finalState attempt
  cases p r with
  | ok a o => rfl
  | error e o => cases e <;> rfl

theorem tracks_attempt {g : α → β} {p : Read α} {q : Read β} (h : Mirrors S g p q) :
    Mirrors S (Option.map g) (attempt p) (attempt q) where
  lost hr := by
    rw [finalState_attempt]
    exact h.lost hr
  step {r r'} hr := by
    rw [Steps, finalState_attempt]
    refine (h.step hr).imp_right fun hmatch => ?_
    unfold attempt
    generalize p r = x at hmatch
    generalize q r' = y at hmatch
    cases hmatch with
    | ok ho => exact .ok ho
    | @error e o o' ho =>
        cases e with
        | mistaken => exact .ok (f := Option.map g) (x := none) ho
        | tooDeep => exact .error ho

theorem tracks_require (g : α → β) (a : Option α) : Mirrors S g (require a) (require (a.map g)) := by
  cases a with
  | none => exact mirrors_throw _
  | some a => exact mirrors_pure rfl

end Read

namespace Grammar

open Read

variable {f : Pos → Pos} {size : Nat} {S : Pairing Reading Reading} {r r' : Reading}

theorem allOf_map {α β : Type} (g : α → β) (as : List (Option α)) :
    allOf (as.map (Option.map g)) = (allOf as).map (List.map g) := by
  induction as with
  | nil => rfl
  | cons a as ih =>
      cases a with
      | none => rfl
      | some a =>
          simp only [List.map_cons, Option.map_some, allOf, ih, Option.map_map]
          rfl

section Stops

theorem statements_stop {stmt : Read Stmt} {ends : Token.Kind → Bool}
    (h : ends (firstKind r.tokens) = true) (n : Nat) : statements stmt ends n r = .ok [] r := by
  cases n with
  | zero => rfl
  | succ n =>
      rw [statements, bind_ok (yields_currentKind r.tokens r.mistakes), if_pos h]
      rfl

theorem statements_go {stmt : Read Stmt} {ends : Token.Kind → Bool}
    (h : ¬ends (firstKind r.tokens) = true) (n : Nat) : statements stmt ends (n + 1) r = (do
      let s ← attempt stmt
      advance
      let rest ← statements stmt ends n
      return s.toList ++ rest) r := by
  rw [statements, bind_ok (yields_currentKind r.tokens r.mistakes), if_neg h]

theorem moreExprs_stop {g : Inside} (h : firstKind r.tokens.tail ≠ .comma) (n : Nat) :
    moreExprs g n r = .ok [] r := by
  cases n with
  | zero => rfl
  | succ n =>
      rw [moreExprs, bind_ok (yields_nextKind r.tokens r.mistakes), if_pos h]
      rfl

theorem moreParams_stop (h : firstKind r.tokens.tail ≠ .comma) (n : Nat) :
    moreParams n r = .ok [] r := by
  cases n with
  | zero => rfl
  | succ n =>
      rw [moreParams, bind_ok (yields_nextKind r.tokens r.mistakes), if_pos h]
      rfl

theorem pairs_stop {g : Inside} (h : firstKind r.tokens.tail = .rbrace) (n : Nat) :
    pairs g n r = .ok [] r := by
  cases n with
  | zero => rfl
  | succ n =>
      rw [pairs, bind_ok (yields_nextKind r.tokens r.mistakes), if_pos h]
      rfl

theorem operations_stop {g : Inside} {level : Level}
    (h : ¬level.rank < (firstKind r.tokens.tail).level.rank) (n : Nat) (left : Expr) :
    operations g level n left r = .ok left r := by
  cases n with
  | zero => rfl
  | succ n =>
      rw [operations, bind_ok (yields_nextKind r.tokens r.mistakes), if_neg h]
      rfl

end Stops

section Loops

theorem steps_at {α β : Type} {g : α → β} {p : Read α} {q : Read β} {a : α} (hr : S.Rel r r')
    (hp : p r = .ok a r) (hq : q r' = .ok (g a) r') : Steps S g p q r r' := by
  rw [Steps, hp, hq]
  exact .inr (.ok hr)

theorem steps_of_eq {α β : Type} {g : α → β} {p p₁ : Read α} {q q₁ : Read β} (hp : p r = p₁ r)
    (hq : q r' = q₁ r') (h : Steps S g p₁ q₁ r r') : Steps S g p q r r' := by
  rwa [Steps, finalState, hp, hq]

theorem suffix_of_ok {α : Type} {p : Read α} [hp : Grows p] {a : α} {o : Reading}
    (h : p r = .ok a o) : o.tokens <:+ r.tokens := by
  have hle := (hp.stop_le r).1
  rwa [finalState_ok h] at hle

theorem mistakes_of_ok {α : Type} {p : Read α} [hp : Grows p] {a : α} {o : Reading}
    (h : p r = .ok a o) : r.mistakes.size ≤ o.mistakes.size := by
  have hle := (hp.stop_le r).2
  rwa [finalState_ok h] at hle

theorem tail_of_advance {u : Unit} {o : Reading} (h : advance r = .ok u o) :
    o.tokens = r.tokens.tail := by
  cases h
  rfl

theorem length_lt_of_tail {i o : List Token} (hi : i ≠ []) (ho : o <:+ i.tail) : o.length < i.length := by
  have hle := ho.length_le
  have hpos := List.length_pos_iff.mpr hi
  rw [List.length_tail] at hle
  omega

/-- Loops take at least one token each time around, so that those with a round for each token go on
until they stop by themselves. -/
theorem rounds_induction {P : Nat → Nat → Reading → Reading → Prop} (stops : List Token → Prop)
    (hnil : stops [])
    (hstop : ∀ {n n' r r'}, S.Rel r r' → stops r.tokens → P n n' r r')
    (hgo : ∀ {n n' r r'}, S.Rel r r' → r.tokens ≠ [] → ¬stops r.tokens →
      (∀ q q', S.Rel q q' → q.tokens <:+ r.tokens.tail → P n n' q q') → P (n + 1) (n' + 1) r r')
    {n n' : Nat} (hr : S.Rel r r') (hn : r.tokens.length ≤ n) (hn' : r.tokens.length ≤ n') :
    P n n' r r' := by
  induction n generalizing n' r r' with
  | zero => exact hstop hr (List.eq_nil_of_length_eq_zero (Nat.le_zero.mp hn) ▸ hnil)
  | succ n ih =>
      by_cases hend : stops r.tokens
      · exact hstop hr hend
      · have hne : r.tokens ≠ [] := fun he => hend (he ▸ hnil)
        cases n' with
        | zero => exact absurd (List.eq_nil_of_length_eq_zero (Nat.le_zero.mp hn')) hne
        | succ n' =>
            refine hgo hr hne hend fun q q' hq hle => ih hq ?_ ?_
            · exact Nat.le_of_lt_succ (Nat.lt_of_lt_of_le (length_lt_of_tail hne hle) hn)
            · exact Nat.le_of_lt_succ (Nat.lt_of_lt_of_le (length_lt_of_tail hne hle) hn')

theorem tail_suffix_tail {i o : List Token} (h : o <:+ i) : o.tail <:+ i.tail := by
  obtain ⟨pre, rfl⟩ := h
  cases pre with
  | nil => exact List.suffix_refl _
  | cons t pre => exact (List.tail_suffix o).trans (List.suffix_append pre o)

theorem expect_ok {kind : Token.Kind} {u : Unit} {o : Reading} (h : expect kind r = .ok u o) :
    firstKind o.tokens = kind ∧ o.tokens = r.tokens.tail := by
  unfold expect at h
  rw [bind_ok (yields_nextKind r.tokens r.mistakes)] at h
  split at h
  · have ho := tail_of_advance h
    exact ⟨ho ▸ ‹_›, ho⟩
  · cases h

theorem pairEnd_ok {u : Unit} {o : Reading} (h : pairEnd r = .ok u o) : o.tokens ≠ [] := by
  unfold pairEnd at h
  rw [bind_ok (yields_nextKind r.tokens r.mistakes)] at h
  split at h
  · have ho := (expect_ok h).1
    intro he
    rw [he] at ho
    cases ho
  · rename_i hnext
    cases h
    intro he
    change r.tokens = [] at he
    rw [he] at hnext
    exact hnext (by decide)

variable (hS : Tracks f size S)

include hS

theorem tracks_statements {stmt stmt' : Read Stmt} [Grows stmt]
    (h : Mirrors S (Stmt.move f) stmt stmt') {ends : Token.Kind → Bool} (hends : ends .eof = true)
    {n n' : Nat} (hn : size ≤ n) (hn' : size ≤ n') :
    Mirrors S (List.map (Stmt.move f)) (statements stmt ends n) (statements stmt' ends n') where
  lost := hS.keepsLost
  step hr := by
    refine rounds_induction (P := fun n n' => Steps S _ (statements stmt ends n) (statements stmt' ends n'))
      (fun ts => ends (firstKind ts) = true) hends ?_ ?_ hr
      ((hS.fits hr).trans hn) ((hS.fits hr).trans hn')
    · intro n n' r r' hr hend
      exact steps_at hr (statements_stop hend n) (statements_stop (hS.firstKind hr ▸ hend) n')
    · intro n n' r r' hr hne hend ih
      have hend' : ¬ends (firstKind r'.tokens) = true := hS.firstKind hr ▸ hend
      refine steps_of_eq (statements_go hend n) (statements_go hend' n') ?_
      refine ((tracks_attempt h).step hr).bind (fun _ _ => hS.keepsLost) ?_
      intro s o o' hs ho
      refine ((tracks_advance hS).step ho).bind (fun _ _ => hS.keepsLost) ?_
      intro _ q q' hq hqq
      have hle : q.tokens <:+ r.tokens.tail := tail_of_advance hq ▸ tail_suffix_tail (suffix_of_ok hs)
      refine (ih q q' hqq hle).bind (fun _ _ => hS.keepsLost) ?_
      intro rest _ _ _ hlast
      refine (mirrors_pure ?_).step hlast
      cases s <;> simp

theorem tracks_ident : Mirrors S (Ident.move f) ident ident :=
  (tracks_current hS).bind fun _ => mirrors_pure rfl

theorem tracks_moreParams {n n' : Nat} (hn : size ≤ n) (hn' : size ≤ n') :
    Mirrors S (List.map (Ident.move f)) (moreParams n) (moreParams n') where
  lost := hS.keepsLost
  step hr := by
    refine rounds_induction (P := fun n n' => Steps S _ (moreParams n) (moreParams n'))
      (fun ts => firstKind ts.tail ≠ .comma) (by decide) ?_ ?_ hr
      ((hS.fits hr).trans hn) ((hS.fits hr).trans hn')
    · intro n n' r r' hr hnext
      exact steps_at hr (moreParams_stop hnext n) (moreParams_stop (hS.next hr ▸ hnext) n')
    · intro n n' r r' hr hne hnext ih
      have hnext' : ¬firstKind r'.tokens.tail ≠ .comma := hS.next hr ▸ hnext
      refine steps_of_eq
        ((bind_ok (yields_nextKind r.tokens r.mistakes)).trans (by rw [if_neg hnext]))
        ((bind_ok (yields_nextKind r'.tokens r'.mistakes)).trans (by rw [if_neg hnext'])) ?_
      refine ((tracks_advance hS).step hr).bind (fun _ _ => hS.keepsLost) ?_
      intro _ q q' hq hqq
      refine ((tracks_expect hS .ident).step hqq).bind (fun _ _ => hS.keepsLost) ?_
      intro _ o o' ho hoo
      refine ((tracks_ident hS).step hoo).bind (fun _ _ => hS.keepsLost) ?_
      intro p m m' hm hmm
      have hle : m.tokens <:+ r.tokens.tail :=
        tail_of_advance hq ▸ (suffix_of_ok hm).trans (suffix_of_ok ho)
      refine (ih m m' hmm hle).bind (fun _ _ => hS.keepsLost) ?_
      intro rest _ _ _ hlast
      exact (mirrors_pure rfl).step hlast

theorem tracks_params {n n' : Nat} (hn : size ≤ n) (hn' : size ≤ n') :
    Mirrors S (List.map (Ident.move f)) (params n) (params n') := by
  refine (tracks_nextKind hS).bind fun k => .ite Iff.rfl ?_ ?_
  · exact (tracks_advance hS).bind fun _ => mirrors_pure rfl
  · refine (tracks_expect hS .ident).bind fun _ => (tracks_ident hS).bind fun p => ?_
    refine (tracks_moreParams hS hn hn').bind fun rest => ?_
    exact (tracks_expect hS .rparen).bind fun _ => mirrors_pure rfl

theorem tracks_pairEnd : Mirrors S id pairEnd pairEnd :=
  (tracks_nextKind hS).bind fun _ => .ite Iff.rfl (tracks_expect hS _) (mirrors_pure rfl)

end Loops

section Inside

variable (hS : Tracks f size S) {g G : Inside}
  (hg : ∀ level, Mirrors S (Expr.move f) (g.expr level) (G.expr level))

include hS hg

theorem tracks_letBody : Mirrors S (Stmt.move f) (letBody g) (letBody G) := by
  refine (tracks_current hS).bind fun t => (tracks_expect hS .ident).bind fun _ => ?_
  refine (tracks_ident hS).bind fun name => (tracks_expect hS .assign).bind fun _ => ?_
  refine (tracks_advance hS).bind fun _ => (tracks_attempt (hg .lowest)).bind fun value => ?_
  apply mirrors_pure
  cases value <;> rfl

theorem tracks_returnBody : Mirrors S (Stmt.move f) (returnBody g) (returnBody G) := by
  refine (tracks_current hS).bind fun t => (tracks_nextKind hS).bind fun k => ?_
  refine .ite Iff.rfl (mirrors_pure rfl) ?_
  refine (tracks_advance hS).bind fun _ => (tracks_attempt (hg .lowest)).bind fun value => ?_
  apply mirrors_pure
  cases value <;> rfl

theorem tracks_exprBody : Mirrors S (Stmt.move f) (exprBody g) (exprBody G) := by
  refine (tracks_current hS).bind fun t => (tracks_attempt (hg .lowest)).bind fun value => ?_
  apply mirrors_pure
  cases value <;> rfl

theorem tracks_stmtBody : Mirrors S (Stmt.move f) (stmtBody g) (stmtBody G) := by
  refine (tracks_currentKind hS).bind fun k => ?_
  cases k with
  | kwLet => exact tracks_letBody hS hg
  | kwReturn => exact tracks_returnBody hS hg
  | _ => exact tracks_exprBody hS hg

theorem tracks_stmt : Mirrors S (Stmt.move f) (stmt g) (stmt G) := by
  rw [stmt_eq, stmt_eq]
  refine (tracks_stmtBody hS hg).bind fun s => (tracks_skip hS .semicolon).bind fun _ => ?_
  exact mirrors_pure rfl

theorem tracks_bracketed : Mirrors S (Expr.move f) (bracketed g) (bracketed G) := by
  refine (tracks_advance hS).bind fun _ => (tracks_attempt (hg .lowest)).bind fun e => ?_
  exact (tracks_expect hS .rparen).bind fun _ => tracks_require _ e

theorem tracks_test : Mirrors S (Expr.move f) (test g) (test G) :=
  (tracks_expect hS .lparen).bind fun _ => tracks_bracketed hS hg

variable [Steady g] (hn : size ≤ g.size) (hn' : size ≤ G.size)

include hn hn'

theorem tracks_block : Mirrors S (Block.move f) (block g) (block G) := by
  refine (tracks_current hS).bind fun t => (tracks_advance hS).bind fun _ => ?_
  refine (tracks_statements hS (tracks_stmt hS hg) (by decide) hn hn').bind fun ss => mirrors_pure ?_
  rw [Block.move, Stmt.moveAll_eq_map]
  rfl

theorem tracks_moreExprs :
    Mirrors S (List.map (Option.map (Expr.move f))) (moreExprs g g.size) (moreExprs G G.size) where
  lost := hS.keepsLost
  step hr := by
    refine rounds_induction (P := fun n n' => Steps S _ (moreExprs g n) (moreExprs G n'))
      (fun ts => firstKind ts.tail ≠ .comma) (by decide) ?_ ?_ hr
      ((hS.fits hr).trans hn) ((hS.fits hr).trans hn')
    · intro n n' r r' hr hnext
      exact steps_at hr (moreExprs_stop hnext n) (moreExprs_stop (hS.next hr ▸ hnext) n')
    · intro n n' r r' hr hne hnext ih
      have hnext' : ¬firstKind r'.tokens.tail ≠ .comma := hS.next hr ▸ hnext
      refine steps_of_eq
        ((bind_ok (yields_nextKind r.tokens r.mistakes)).trans (by rw [if_neg hnext]))
        ((bind_ok (yields_nextKind r'.tokens r'.mistakes)).trans (by rw [if_neg hnext'])) ?_
      refine ((tracks_advance hS).step hr).bind (fun _ _ => hS.keepsLost) ?_
      intro _ q q' hq hqq
      refine ((tracks_advance hS).step hqq).bind (fun _ _ => hS.keepsLost) ?_
      intro _ o o' ho hoo
      refine ((tracks_attempt (hg .lowest)).step hoo).bind (fun _ _ => hS.keepsLost) ?_
      intro e m m' hm hmm
      have hle : m.tokens <:+ r.tokens.tail :=
        tail_of_advance hq ▸ (suffix_of_ok hm).trans (suffix_of_ok ho)
      refine (ih m m' hmm hle).bind (fun _ _ => hS.keepsLost) ?_
      intro rest _ _ _ hlast
      exact (mirrors_pure rfl).step hlast

theorem tracks_exprList (close : Token.Kind) :
    Mirrors S (List.map (Expr.move f)) (exprList g close) (exprList G close) := by
  refine (tracks_nextKind hS).bind fun k => .ite Iff.rfl ?_ ?_
  · exact (tracks_advance hS).bind fun _ => mirrors_pure rfl
  · refine (tracks_advance hS).bind fun _ => (tracks_attempt (hg .lowest)).bind fun first => ?_
    refine (tracks_moreExprs hS hg hn hn').bind fun rest => (tracks_expect hS close).bind fun _ => ?_
    rw [← List.map_cons, allOf_map]
    exact tracks_require _ _

omit hn hn' in
theorem steps_pairs_succ {n n' : Nat} (hr : S.Rel r r') (hnext : firstKind r.tokens.tail ≠ .rbrace)
    (ih : ∀ q q', S.Rel q q' → q.tokens <:+ r.tokens.tail → q.tokens ≠ [] →
      Steps S (List.map fun p => (p.1.move f, p.2.move f)) (pairs g n) (pairs G n') q q') :
    Steps S (List.map fun p => (p.1.move f, p.2.move f)) (pairs g (n + 1)) (pairs G (n' + 1)) r r' := by
  have hnext' : firstKind r'.tokens.tail ≠ .rbrace := hS.next hr ▸ hnext
  rw [pairs_succ, pairs_succ]
  refine steps_of_eq
    ((bind_ok (yields_nextKind r.tokens r.mistakes)).trans (by rw [if_neg hnext]))
    ((bind_ok (yields_nextKind r'.tokens r'.mistakes)).trans (by rw [if_neg hnext'])) ?_
  refine ((tracks_advance hS).step hr).bind (fun _ _ => hS.keepsLost) ?_
  intro _ q q' hq hqq
  refine ((hg .lowest).step hqq).bind (fun _ _ => hS.keepsLost) ?_
  intro key o o' ho hoo
  refine ((tracks_expect hS .colon).step hoo).bind (fun _ _ => hS.keepsLost) ?_
  intro _ c c' hc hcc
  refine ((tracks_advance hS).step hcc).bind (fun _ _ => hS.keepsLost) ?_
  intro _ d d' hd hdd
  refine ((hg .lowest).step hdd).bind (fun _ _ => hS.keepsLost) ?_
  intro value u u' hu huu
  refine ((tracks_pairEnd hS).step huu).bind (fun _ _ => hS.keepsLost) ?_
  intro _ m m' hm hmm
  have hle : m.tokens <:+ q.tokens := (suffix_of_ok hm).trans <| (suffix_of_ok hu).trans <|
    (suffix_of_ok hd).trans <| (suffix_of_ok hc).trans (suffix_of_ok ho)
  refine (ih m m' hmm (tail_of_advance hq ▸ hle) (pairEnd_ok hm)).bind (fun _ _ => hS.keepsLost) ?_
  intro rest _ _ _ hlast
  exact (mirrors_pure rfl).step hlast

theorem tracks_pairs (hsize : 0 < size) :
    Mirrors S (List.map fun p => (p.1.move f, p.2.move f)) (pairs g g.size) (pairs G G.size) where
  lost := hS.keepsLost
  step {r r'} hr := by
    by_cases hr0 : r.tokens = []
    · -- a pair is looked for in vain, however many rounds are left
      obtain ⟨n, hk⟩ := Nat.exists_eq_succ_of_ne_zero (Nat.ne_of_gt (Nat.lt_of_lt_of_le hsize hn))
      obtain ⟨n', hk'⟩ := Nat.exists_eq_succ_of_ne_zero (Nat.ne_of_gt (Nat.lt_of_lt_of_le hsize hn'))
      rw [hk, hk']
      refine steps_pairs_succ hS hg hr (by rw [hr0]; decide) fun q q' _ hq hne => absurd ?_ hne
      rw [hr0] at hq
      exact List.suffix_nil.mp hq
    · refine rounds_induction
        (P := fun n n' r r' => r.tokens ≠ [] → Steps S _ (pairs g n) (pairs G n') r r')
        (fun ts => ts = [] ∨ firstKind ts.tail = .rbrace) (.inl rfl) ?_ ?_ hr
        ((hS.fits hr).trans hn) ((hS.fits hr).trans hn') hr0
      · intro n n' r r' hr hnext hne
        have hnext := hnext.resolve_left hne
        exact steps_at hr (pairs_stop hnext n) (pairs_stop ((hS.next hr).trans hnext) n')
      · intro n n' r r' hr hne hnext ih _
        exact steps_pairs_succ hS hg hr (fun hb => hnext (.inr hb)) ih

theorem tracks_condExpr (pos : Pos) :
    Mirrors S (Expr.move f) (condExpr g pos) (condExpr G (f pos)) := by
  refine (tracks_test hS hg).bind fun t => (tracks_expect hS .lbrace).bind fun _ => ?_
  refine (tracks_block hS hg hn hn').bind fun yes => (tracks_nextKind hS).bind fun k => ?_
  refine .ite Iff.rfl ?_ (mirrors_pure rfl)
  refine (tracks_advance hS).bind fun _ => (tracks_expect hS .lbrace).bind fun _ => ?_
  exact (tracks_block hS hg hn hn').bind fun no => mirrors_pure rfl

theorem tracks_loopExpr (pos : Pos) :
    Mirrors S (Expr.move f) (loopExpr g pos) (loopExpr G (f pos)) := by
  refine (tracks_test hS hg).bind fun t => (tracks_expect hS .lbrace).bind fun _ => ?_
  exact (tracks_block hS hg hn hn').bind fun body => mirrors_pure rfl

theorem tracks_fnExpr (pos : Pos) : Mirrors S (Expr.move f) (fnExpr g pos) (fnExpr G (f pos)) := by
  refine (tracks_expect hS .lparen).bind fun _ => (tracks_params hS hn hn').bind fun ps => ?_
  refine (tracks_expect hS .lbrace).bind fun _ => (tracks_block hS hg hn hn').bind fun body => ?_
  exact mirrors_pure rfl

theorem tracks_operand (hsize : 0 < size) : Mirrors S (Expr.move f) (operand g) (operand G) := by
  refine (tracks_current hS).bind fun t => ?_
  obtain ⟨kind, literal, pos⟩ := t
  cases kind with
  | ident => exact mirrors_pure rfl
  | int =>
      dsimp only [Token.move]
      cases Number.integer? literal with
      | none => exact tracks_mistake hS _
      | some n => exact mirrors_pure rfl
  | double => exact mirrors_pure rfl
  | string => exact mirrors_pure rfl
  | kwTrue => exact mirrors_pure rfl
  | kwFalse => exact mirrors_pure rfl
  | bang => exact (tracks_advance hS).bind fun _ => (hg .unary).bind fun e => mirrors_pure rfl
  | minus => exact (tracks_advance hS).bind fun _ => (hg .unary).bind fun e => mirrors_pure rfl
  | lparen => exact tracks_bracketed hS hg
  | kwIf => exact tracks_condExpr hS hg hn hn' pos
  | kwWhile => exact tracks_loopExpr hS hg hn hn' pos
  | kwFn => exact tracks_fnExpr hS hg hn hn' pos
  | lbracket =>
      refine (tracks_exprList hS hg hn hn' .rbracket).bind fun es => mirrors_pure ?_
      rw [Expr.move, Expr.moveAll_eq_map]
      rfl
  | lbrace =>
      refine (tracks_pairs hS hg hn hn' hsize).bind fun ps => ?_
      refine (tracks_advance hS).bind fun _ => mirrors_pure ?_
      rw [Expr.move, Expr.movePairs_eq_map]
      rfl
  | _ => exact tracks_mistake hS _

theorem tracks_operation (left : Expr) :
    Mirrors S (Expr.move f) (operation g left) (operation G (left.move f)) := by
  have hleft := Expr.pos_move hS.absent left
  refine (tracks_current hS).bind fun t => ?_
  obtain ⟨kind, literal, pos⟩ := t
  cases kind with
  | lparen =>
      refine (tracks_exprList hS hg hn hn' .rparen).bind fun args => mirrors_pure ?_
      rw [Expr.move, Expr.moveAll_eq_map, hleft]
  | lbracket =>
      refine (tracks_advance hS).bind fun _ => (hg .lowest).bind fun i => ?_
      refine (tracks_expect hS .rbracket).bind fun _ => mirrors_pure ?_
      rw [Expr.move, hleft]
  | _ =>
      refine (tracks_advance hS).bind fun _ => (hg _).bind fun right => ?_
      refine .ite Iff.rfl (mirrors_pure ?_) (mirrors_pure ?_)
      · rw [Expr.move, hleft]
      · rw [Expr.move, hleft]
        rfl

theorem tracks_operations (level : Level) (left : Expr) :
    Mirrors S (Expr.move f) (operations g level g.size left)
      (operations G level G.size (left.move f)) where
  lost := hS.keepsLost
  step hr := by
    refine rounds_induction (P := fun n n' r r' => ∀ left, Steps S (Expr.move f)
      (operations g level n left) (operations G level n' (left.move f)) r r')
      (fun ts => ¬level.rank < (firstKind ts.tail).level.rank) (Nat.not_lt_zero _) ?_ ?_ hr
      ((hS.fits hr).trans hn) ((hS.fits hr).trans hn') left
    · intro n n' r r' hr hnext left
      exact steps_at hr (operations_stop hnext n left)
        (operations_stop (hS.next hr ▸ hnext) n' (left.move f))
    · intro n n' r r' hr hne hnext ih left
      have hnext := not_not.mp hnext
      have hnext' : level.rank < (firstKind r'.tokens.tail).level.rank := hS.next hr ▸ hnext
      refine steps_of_eq
        ((bind_ok (yields_nextKind r.tokens r.mistakes)).trans (by rw [if_pos hnext]))
        ((bind_ok (yields_nextKind r'.tokens r'.mistakes)).trans (by rw [if_pos hnext'])) ?_
      refine ((tracks_advance hS).step hr).bind (fun _ _ => hS.keepsLost) ?_
      intro _ q q' hq hqq
      refine ((tracks_operation hS hg hn hn' left).step hqq).bind (fun _ _ => hS.keepsLost) ?_
      intro e m m' hm hmm
      exact ih m m' hmm (tail_of_advance hq ▸ suffix_of_ok hm) e

theorem tracks_expr (hsize : 0 < size) (level : Level) :
    Mirrors S (Expr.move f) (expr g level) (expr G level) :=
  (tracks_operand hS hg hn hn' hsize).bind fun left => tracks_operations hS hg hn hn' level left

end Inside

theorem tracks_read (hS : Tracks f size S) (hsize : 0 < size) {n n' : Nat} (hn : size ≤ n)
    (hn' : size ≤ n') (depth : Nat) (level : Level) :
    Mirrors S (Expr.move f) (Expr.read n depth level) (Expr.read n' depth level) := by
  induction depth generalizing level with
  | zero => exact mirrors_throw _
  | succ depth ih =>
      exact tracks_expr (g := ⟨n, Expr.read n depth⟩) (G := ⟨n', Expr.read n' depth⟩) hS ih hn hn'
        hsize level

theorem tracks_text (hS : Tracks f size S) (hsize : 0 < size) {n n' k k' : Nat} (hn : size ≤ n)
    (hn' : size ≤ n') (hk : size ≤ k) (hk' : size ≤ k') (depth : Nat) :
    Mirrors S (List.map (Stmt.move f)) (statements (stmt ⟨n, Expr.read n depth⟩) (· = .eof) k)
      (statements (stmt ⟨n', Expr.read n' depth⟩) (· = .eof) k') :=
  tracks_statements hS
    (tracks_stmt (g := ⟨n, Expr.read n depth⟩) (G := ⟨n', Expr.read n' depth⟩) hS
      (tracks_read hS hsize hn hn' depth))
    rfl hk hk'

def program (n depth : Nat) : Read (List Stmt) :=
  statements (stmt ⟨n, Expr.read n depth⟩) (· = .eof) n

theorem tracks_program (hS : Tracks f size S) (hsize : 0 < size) {n n' : Nat} (hn : size ≤ n)
    (hn' : size ≤ n') (depth : Nat) :
    Mirrors S (List.map (Stmt.move f)) (program n depth) (program n' depth) :=
  tracks_text hS hsize hn hn' hn hn' depth

end Grammar

def Program.Draft.of? : EStateM.Result Reading.Stop Reading (List Stmt) → Option Program.Draft
  | .ok ss r => some ⟨⟨ss⟩, r.mistakes.toList⟩
  | .error _ _ => none

theorem Program.ofTokens?_eq (depth : Nat) (tokens : List Token) :
    Program.ofTokens? depth tokens =
      Program.Draft.of? (Grammar.program tokens.length depth ⟨tokens, #[]⟩) :=
  rfl

end Marmoset
