import Marmoset.Proofs.Tree.Completeness
import Marmoset.Proofs.Tree.Forward
import Marmoset.Proofs.Tree.Layout

/-!
Semicolons between statements. Where a semicolon is left out, the token after it cannot be taken for more of what stands
before it: no operator, no comma and no `else`. So a reading that meets no mistake goes the same way without it, however
deep it is inside the statement when it gets there.
-/

set_option synthInstance.maxSize 1000

namespace Marmoset

namespace Grammar

open Read

/-- After a token of the first kind, a semicolon before one of the second kind says nothing. -/
def Loose (before next : Token.Kind) : Prop :=
  next = .rbrace ∨ next = .eof ∨
    before ≠ .kwReturn ∧ next ∈ stmtStarters ∧ next ∉ [Token.Kind.lparen, .lbracket, .minus]

instance (before next : Token.Kind) : Decidable (Loose before next) := inferInstanceAs (Decidable (_ ∨ _))

def followers : List Token.Kind := .rbrace :: .eof :: stmtStarters

inductive Sheds : (before : Token.Kind) → List Token → List Token → Prop where
  | nil {before} : Sheds before [] []
  | keep {before t i j} : Sheds t.kind i j → Sheds before (t :: i) (t :: j)
  | drop {before s i j} :
      s.kind = .semicolon → Loose before (firstKind i) → Sheds .semicolon i j → Sheds before (s :: i) j

section Tokens

variable {n : Nat} {before k : Token.Kind} {i j : List Token}

theorem Loose.mem (h : Loose before k) : k ∈ followers := by
  rcases h with rfl | rfl | ⟨-, hk, -⟩
  · exact List.mem_cons_self
  · exact List.mem_cons_of_mem _ List.mem_cons_self
  · exact List.mem_cons_of_mem _ (List.mem_cons_of_mem _ hk)

theorem Loose.rank (h : Loose before k) : k.level.rank = 0 := by
  rcases h with rfl | rfl | ⟨-, hk, hnot⟩
  · rfl
  · rfl
  · revert k
    decide

theorem Loose.ne_semicolon (h : Loose before k) : k ≠ .semicolon := by
  have hk := h.mem
  rintro rfl
  revert hk
  decide

theorem Sheds.length_le (h : Sheds before i j) : j.length ≤ i.length := by
  induction h with
  | nil => exact Nat.le_refl _
  | keep _ ih => exact Nat.succ_le_succ ih
  | drop _ _ _ ih => exact Nat.le_succ_of_le ih

structure Beside (n : Nat) (i j : List Token) : Prop where
  within : Within n i
  first : i.head? = j.head?
  sheds : Sheds (firstKind i) i.tail j.tail

theorem Sheds.beside (h : Sheds before i j) (hw : Within n i) (hi : firstKind i ≠ .semicolon) : Beside n i j := by
  cases h with
  | nil => exact ⟨hw, rfl, .nil⟩
  | keep h => exact ⟨hw, rfl, h⟩
  | drop hs => exact absurd hs hi

theorem Beside.tail (h : Beside n i j) (hnext : firstKind i.tail ≠ .semicolon) : Beside n i.tail j.tail :=
  h.sheds.beside (h.within.suffix (List.tail_suffix i)) hnext

theorem Beside.firstKind_eq (h : Beside n i j) : firstKind j = firstKind i := by
  rw [firstKind, firstKind, h.first]

def Behind (n : Nat) (i j : List Token) : Prop := Within n i ∧ ∃ before, Sheds before i j

theorem Beside.behind (h : Beside n i j) : Behind n i.tail j.tail :=
  ⟨h.within.suffix (List.tail_suffix i), firstKind i, h.sheds⟩

theorem Sheds.next (h : Sheds before i j) :
    firstKind j = firstKind i ∨ firstKind i = .semicolon ∧ Loose before (firstKind j) := by
  cases h with
  | nil => exact .inl rfl
  | keep => exact .inl rfl
  | drop hs hloose h =>
      cases h with
      | nil => exact .inr ⟨hs, hloose⟩
      | keep => exact .inr ⟨hs, hloose⟩
      | drop hs' => exact absurd hs' hloose.ne_semicolon

theorem Sheds.semicolon (h : Sheds before i j) (hi : firstKind i = .semicolon) :
    (firstKind j = .semicolon ∧ ∃ b, Sheds b i.tail j.tail) ∨
      firstKind j ≠ .semicolon ∧ Sheds .semicolon i.tail j := by
  cases h with
  | nil => cases hi
  | keep h => exact .inl ⟨hi, _, h⟩
  | drop _ hloose hrest =>
      refine .inr ⟨?_, hrest⟩
      have hnext := hloose.ne_semicolon
      rcases hrest.next with heq | ⟨heq, -⟩
      · rwa [heq]
      · exact absurd heq hnext

theorem Beside.next_eq (h : Beside n i j) (hi : firstKind i.tail ≠ .semicolon) :
    firstKind j.tail = firstKind i.tail := by
  rcases h.sheds.next with hnext | ⟨hnext, -⟩
  · exact hnext
  · exact absurd hnext hi

theorem Beside.next_iff (h : Beside n i j) (hk : k ∉ followers) (hs : k ≠ .semicolon) :
    firstKind i.tail = k ↔ firstKind j.tail = k := by
  rcases h.sheds.next with hnext | ⟨hnext, hloose⟩
  · rw [hnext]
  · rw [hnext]
    constructor
    · intro heq
      exact absurd heq.symm hs
    · intro heq
      exact absurd (heq ▸ hloose.mem) hk

theorem Beside.next_rank (h : Beside n i j) : (firstKind j.tail).level.rank = (firstKind i.tail).level.rank := by
  rcases h.sheds.next with hnext | ⟨hnext, hloose⟩
  · rw [hnext]
  · rw [hnext, hloose.rank]
    rfl

end Tokens

section Spares

variable {α β : Type} {i j o : List Token} {n : Nat} {R R' : List Token → List Token → Prop}

def Takes (p : Read α) (i : List Token) (a : α) (o : List Token) : Prop := p ⟨i, #[]⟩ = .ok a ⟨o, #[]⟩

/-- What the first reading takes from `i` without a mistake, the second one takes from `j`, and what is left to them is
related. -/
def Spares (R : List Token → List Token → Prop) (p q : Read α) (i j : List Token) : Prop :=
  ∀ a o, Takes p i a o → ∃ o', Yields q j a o' ∧ R o o'

theorem Takes.bind {p : Read α} {f : α → Read β} [Grows p] [∀ a, Grows (f a)] {b : β}
    (h : Takes (p >>= f) i b o) : ∃ a mid, Takes p i a mid ∧ Takes (f a) mid b o := by
  obtain ⟨a, ⟨mid, m⟩, hp, hf⟩ := bind_eq_ok h
  have hm : m = #[] := Array.eq_empty_of_size_eq_zero (Nat.le_zero.mp (mistakes_of_ok hf))
  subst hm
  exact ⟨a, mid, hp, hf⟩

theorem Takes.attempt {p : Read α} {P : List Token → α → Prop} {a : Option α} (hclean : Clean p i P)
    (h : Takes (attempt p) i a o) : ∃ b, a = some b ∧ Takes p i b o := by
  cases a with
  | some b => exact ⟨b, rfl, attempt_eq_some.mp h⟩
  | none => exact absurd (attempt_eq_none.mp h) (hclean #[] ⟨o, #[]⟩ rfl).2

theorem Spares.bind {p p' : Read α} {f f' : α → Read β} [Grows p] [∀ a, Grows (f a)] (hp : Spares R p p' i j)
    (hf : ∀ a o o', R o o' → Spares R' (f a) (f' a) o o') : Spares R' (p >>= f) (p' >>= f') i j := by
  intro b o h
  obtain ⟨a, mid, ha, hb⟩ := h.bind
  obtain ⟨mid', hmid', hR⟩ := hp a mid ha
  obtain ⟨o', ho', hR'⟩ := hf a mid mid' hR b o hb
  exact ⟨o', hmid'.bind ho', hR'⟩

theorem Spares.suffix {p q : Read α} [Grows p] (h : Spares R p q i j) :
    Spares (fun o o' => o <:+ i ∧ R o o') p q i j := by
  intro a o ha
  obtain ⟨o', ho', hR⟩ := h a o ha
  exact ⟨o', ho', suffix_of_ok ha, hR⟩

theorem Spares.step {p p' : Read α} {f f' : α → Read β} {a a' : α} {mid mid' : List Token} (hp : Yields p i a mid)
    (hp' : Yields p' j a' mid') (hf : Spares R (f a) (f' a') mid mid') : Spares R (p >>= f) (p' >>= f') i j := by
  intro b o h
  obtain ⟨o', ho', hR⟩ := hf b o ((bind_ok (hp #[])).symm.trans h)
  exact ⟨o', hp'.bind ho', hR⟩

theorem Spares.advance {f f' : Unit → Read β} (hf : Spares R (f ()) (f' ()) i.tail j.tail) :
    Spares R (Read.advance >>= f) (Read.advance >>= f') i j :=
  .step (yields_advance i) (yields_advance j) hf

theorem Spares.look {f f' : Token.Kind → Read β} (hf : Spares R (f (firstKind i.tail)) (f' (firstKind j.tail)) i j) :
    Spares R (nextKind >>= f) (nextKind >>= f') i j :=
  .step (yields_nextKind i) (yields_nextKind j) hf

theorem Spares.ite {c c' : Prop} [Decidable c] [Decidable c'] {p p' q q' : Read α} (hc : c ↔ c')
    (hp : c → Spares R p p' i j) (hq : ¬c → Spares R q q' i j) :
    Spares R (if c then p else q) (if c' then p' else q') i j := by
  by_cases h : c
  · rw [if_pos h, if_pos (hc.mp h)]
    exact hp h
  · rw [if_neg h, if_neg fun h' => h (hc.mpr h')]
    exact hq h

theorem Spares.attempt {p : Read α} {P : List Token → α → Prop} (hclean : Clean p i P) (hp : Spares R p p i j) :
    Spares R (attempt p) (attempt p) i j := by
  intro a o h
  obtain ⟨b, rfl, hb⟩ := h.attempt hclean
  obtain ⟨o', ho', hR⟩ := hp b o hb
  exact ⟨o', ho'.attempt, hR⟩

theorem spares_pure {a : α} (h : R i j) : Spares R (pure a) (pure a) i j := by
  intro b o hb
  cases hb
  exact ⟨j, yields_pure _ j, h⟩

theorem spares_mistake (m : Mistake) : Spares R (mistake m : Read α) (mistake m) i j := by
  intro a o h
  cases h

theorem spares_require (a : Option α) (h : R i j) : Spares R (require a) (require a) i j := by
  cases a with
  | none =>
      intro b o hb
      cases hb
  | some a => exact spares_pure h

theorem spares_current (h : Beside n i j) : Spares (Beside n) current current i j := by
  intro a o ha
  cases ha
  refine ⟨j, ?_, h⟩
  rw [h.first]
  exact yields_current j

theorem spares_ident (h : Beside n i j) : Spares (Beside n) ident ident i j :=
  .bind (spares_current h) fun _ _ _ => spares_pure

theorem spares_expect {k : Token.Kind} (h : Beside n i j) (hk : k ≠ .semicolon) :
    Spares (Beside n) (expect k) (expect k) i j := by
  intro _ o ho
  obtain ⟨hfirst, rfl⟩ := expect_ok ho
  have hnext : firstKind i.tail ≠ .semicolon := hfirst ▸ hk
  exact ⟨j.tail, yields_expect ((h.next_eq hnext).trans hfirst), h.tail hnext⟩

end Spares

section Productions

class Sparing (g : Inside) : Prop extends Sound g where
  spares_expr (level : Level) {i j : List Token} (h : Beside g.size i j) :
    Spares (Beside g.size) (g.expr level) (g.expr level) i j

variable {g : Inside} [hg : Sparing g] {i j o : List Token} {n : Nat}

theorem ne_semicolon_of_live (h : firstKind (live i) ∈ stmtStarters) : firstKind i ≠ .semicolon := by
  rw [firstKind_live] at h
  revert h
  generalize firstKind i = k
  revert k
  decide

theorem Takes.expr_starts {level : Level} {e : Expr} (hw : Within g.size i) (h : Takes (g.expr level) i e o) :
    firstKind i ≠ .semicolon := by
  have hread : ReadsExpr level i o e := (hg.clean_expr level hw #[] ⟨o, #[]⟩ rfl).1 e h
  have hstart : firstKind (live i) ∈ starters := hread.1.starts
  exact ne_semicolon_of_live (List.mem_cons_of_mem _ (List.mem_cons_of_mem _ hstart))

theorem Takes.stmt_starts {s : Stmt} (hw : Within g.size i) (h : Takes (stmt g) i s o) :
    firstKind i ≠ .semicolon := by
  have hread : Derives careful (.stmt s) (live i) (live o.tail) := (clean_stmt hw #[] ⟨o, #[]⟩ rfl).1 s h
  exact ne_semicolon_of_live hread.starts

theorem spares_value (level : Level) (h : Behind g.size i j) :
    Spares (Beside g.size) (g.expr level) (g.expr level) i j := by
  obtain ⟨hw, before, h⟩ := h
  intro e o he
  exact hg.spares_expr level (h.beside hw (he.expr_starts hw)) e o he

theorem spares_attempt_value (level : Level) (h : Behind g.size i j) :
    Spares (Beside g.size) (attempt (g.expr level)) (attempt (g.expr level)) i j :=
  .attempt (hg.clean_expr level h.1) (spares_value level h)

theorem spares_letBody (h : Beside g.size i j) : Spares (Beside g.size) (letBody g) (letBody g) i j := by
  apply Spares.bind (spares_current h)
  intro t _ _ h
  apply Spares.bind (spares_expect h (by decide))
  intro _ _ _ h
  apply Spares.bind (spares_ident h)
  intro name _ _ h
  apply Spares.bind (spares_expect h (by decide))
  intro _ _ _ h
  apply Spares.advance
  exact .bind (spares_attempt_value .lowest h.behind) fun _ _ _ => spares_pure

theorem Beside.bare_iff (h : Beside n i j) (hi : firstKind i = .kwReturn) :
    (firstKind i.tail = .semicolon ∨ firstKind i.tail = .rbrace ∨ firstKind i.tail = .eof) ↔
      (firstKind j.tail = .semicolon ∨ firstKind j.tail = .rbrace ∨ firstKind j.tail = .eof) := by
  rcases h.sheds.next with hnext | ⟨hnext, hloose⟩
  · rw [hnext]
  · rcases hloose with hnext' | hnext' | ⟨hnot, -⟩
    · simp [hnext, hnext']
    · simp [hnext, hnext']
    -- before another statement a bare return has kept its semicolon
    · exact absurd hi hnot

theorem spares_returnBody (h : Beside g.size i j) (hi : firstKind i = .kwReturn) :
    Spares (Beside g.size) (returnBody g) (returnBody g) i j := by
  apply Spares.step (yields_current i) (yields_current j)
  rw [h.first]
  apply Spares.look
  refine .ite (h.bare_iff hi) (fun _ => spares_pure h) fun _ => ?_
  apply Spares.advance
  exact .bind (spares_attempt_value .lowest h.behind) fun _ _ _ => spares_pure

theorem spares_exprBody (h : Beside g.size i j) : Spares (Beside g.size) (exprBody g) (exprBody g) i j := by
  apply Spares.bind (spares_current h)
  intro t _ _ h
  have hvalue := Spares.attempt (hg.clean_expr .lowest h.within) (hg.spares_expr .lowest h)
  exact .bind hvalue fun _ _ _ => spares_pure

theorem spares_stmtBody (h : Beside g.size i j) : Spares (Beside g.size) (stmtBody g) (stmtBody g) i j := by
  apply Spares.step (yields_currentKind i) (yields_currentKind j)
  rw [h.firstKind_eq]
  split
  · exact spares_letBody h
  · exact spares_returnBody h ‹_›
  · exact spares_exprBody h

theorem spares_semicolon (h : Beside n i j) :
    Spares (fun o o' => Behind n o.tail o'.tail) (skip .semicolon) (skip .semicolon) i j := by
  intro _ o ho
  by_cases hi : firstKind i.tail = .semicolon
  · cases (yields_skip hi #[]).symm.trans ho
    have hw : Within n i.tail.tail := h.behind.1.suffix (List.tail_suffix _)
    rcases h.sheds.semicolon hi with ⟨hj, hrest⟩ | ⟨hj, hrest⟩
    · exact ⟨j.tail, yields_skip hj, hw, hrest⟩
    -- the second reading stays where it is, since the semicolon is left out
    · exact ⟨j, yields_skip_other hj, hw, .semicolon, hrest⟩
  · cases (yields_skip_other hi #[]).symm.trans ho
    have hj : firstKind j.tail ≠ .semicolon := (h.next_eq hi).symm ▸ hi
    exact ⟨j, yields_skip_other hj, h.behind⟩

theorem spares_stmt (h : Beside g.size i j) :
    Spares (fun o o' => Behind g.size o.tail o'.tail) (stmt g) (stmt g) i j := by
  rw [stmt_eq]
  apply Spares.bind (spares_stmtBody h)
  intro s _ _ h
  exact .bind (spares_semicolon h) fun _ _ _ h => spares_pure h

theorem spares_statements {ends : Token.Kind → Bool} (hends : ends .semicolon = false) {rounds : Nat}
    (h : Behind g.size i j) (hr : i.length ≤ rounds) :
    Spares (Beside g.size) (statements (stmt g) ends rounds) (statements (stmt g) ends rounds) i j := by
  induction rounds generalizing i j with
  | zero =>
      obtain rfl : i = [] := List.eq_nil_of_length_eq_zero (Nat.le_zero.mp hr)
      obtain ⟨hw, _, hsheds⟩ := h
      exact spares_pure (hsheds.beside hw (by decide))
  | succ rounds ih =>
      obtain ⟨hw, before, hsheds⟩ := h
      intro ss o hss
      -- a semicolon ends no statements and starts none, so none is met here
      have hi : firstKind i ≠ .semicolon := by
        intro hi
        have hgo : ¬ends (firstKind i) = true := by simp [hi, hends]
        have hround : Takes _ i ss o := (statements_go hgo rounds).symm.trans hss
        obtain ⟨_, mid, hattempt, -⟩ := hround.bind
        obtain ⟨s, -, hs⟩ := hattempt.attempt (clean_stmt hw)
        exact hs.stmt_starts hw hi
      have h := hsheds.beside hw hi
      refine Spares.step (yields_currentKind i) (yields_currentKind j) ?_ ss o hss
      rw [h.firstKind_eq]
      refine .ite Iff.rfl (fun _ => spares_pure h) fun hgo => ?_
      apply Spares.bind (Spares.attempt (clean_stmt hw) (spares_stmt h)).suffix
      rintro s o o' ⟨ho, h⟩
      have hlen : o.tail.length ≤ rounds := by
        have hle := ho.length_le
        rw [List.length_tail]
        omega
      apply Spares.advance
      exact .bind (ih h hlen) fun _ _ _ => spares_pure

theorem spares_block (h : Beside g.size i j) : Spares (Beside g.size) (block g) (block g) i j := by
  apply Spares.bind (spares_current h)
  intro t i j h
  apply Spares.advance
  exact .bind (spares_statements (by decide) h.behind h.behind.1.fits) fun _ _ _ => spares_pure

theorem spares_moreExprs {rounds : Nat} (h : Beside g.size i j) :
    Spares (Beside g.size) (moreExprs g rounds) (moreExprs g rounds) i j := by
  induction rounds generalizing i j with
  | zero => exact spares_pure h
  | succ rounds ih =>
      have hcomma := h.next_iff (k := .comma) (by decide) (by decide)
      apply Spares.look
      refine .ite (not_congr hcomma) (fun _ => spares_pure h) fun hi => ?_
      have hnext : firstKind i.tail ≠ .semicolon := by simp [not_not.mp hi]
      apply Spares.advance
      apply Spares.advance
      apply Spares.bind (spares_attempt_value .lowest (h.tail hnext).behind)
      intro _ _ _ h
      exact .bind (ih h) fun _ _ _ => spares_pure

theorem spares_exprList {close : Token.Kind} (hclose : close ∉ followers) (hs : close ≠ .semicolon)
    (h : Beside g.size i j) : Spares (Beside g.size) (exprList g close) (exprList g close) i j := by
  apply Spares.look
  refine .ite (h.next_iff hclose hs) (fun hi => ?_) fun _ => ?_
  · refine .advance (spares_pure (h.tail ?_))
    rwa [hi]
  · apply Spares.advance
    apply Spares.bind (spares_attempt_value .lowest h.behind)
    intro e _ _ h
    apply Spares.bind (spares_moreExprs h)
    intro es _ _ h
    exact .bind (spares_expect h hs) fun _ _ _ => spares_require _

theorem spares_moreParams {rounds : Nat} (h : Beside n i j) :
    Spares (Beside n) (moreParams rounds) (moreParams rounds) i j := by
  induction rounds generalizing i j with
  | zero => exact spares_pure h
  | succ rounds ih =>
      have hcomma := h.next_iff (k := .comma) (by decide) (by decide)
      apply Spares.look
      refine .ite (not_congr hcomma) (fun _ => spares_pure h) fun hi => ?_
      have hnext : firstKind i.tail ≠ .semicolon := by simp [not_not.mp hi]
      apply Spares.advance
      apply Spares.bind (spares_expect (h.tail hnext) (by decide))
      intro _ _ _ h
      apply Spares.bind (spares_ident h)
      intro _ _ _ h
      exact .bind (ih h) fun _ _ _ => spares_pure

theorem spares_params {size : Nat} (h : Beside n i j) : Spares (Beside n) (params size) (params size) i j := by
  have hclose := h.next_iff (k := .rparen) (by decide) (by decide)
  apply Spares.look
  refine .ite hclose (fun hi => ?_) fun _ => ?_
  · refine .advance (spares_pure (h.tail ?_))
    simp [hi]
  · apply Spares.bind (spares_expect h (by decide))
    intro _ _ _ h
    apply Spares.bind (spares_ident h)
    intro p _ _ h
    apply Spares.bind (spares_moreParams h)
    intro ps _ _ h
    exact .bind (spares_expect h (by decide)) fun _ _ _ => spares_pure

theorem spares_pairEnd (h : Beside n i j) : Spares (Beside n) pairEnd pairEnd i j := by
  apply Spares.look
  by_cases hi : firstKind i.tail = .semicolon
  · rw [if_pos (by simp [hi])]
    intro _ o ho
    obtain ⟨hfirst, rfl⟩ := expect_ok ho
    cases hi.symm.trans hfirst
  · rw [h.next_eq hi]
    exact .ite Iff.rfl (fun _ => spares_expect h (by decide)) fun _ => spares_pure h

theorem spares_pairs {rounds : Nat} (h : Beside g.size i j) :
    Spares (Beside g.size) (pairs g rounds) (pairs g rounds) i j := by
  induction rounds generalizing i j with
  | zero => exact spares_pure h
  | succ rounds ih =>
      rw [pairs_succ]
      intro ps o hps
      have hi : firstKind i.tail ≠ .semicolon := by
        intro hi
        have hround := (bind_ok (yields_nextKind i #[])).symm.trans hps
        rw [if_neg (by simp [hi])] at hround
        obtain ⟨_, mid, hadvance, hbody⟩ := Takes.bind hround
        cases hadvance
        obtain ⟨key, _, hkey, -⟩ := hbody.bind
        exact hkey.expr_starts h.behind.1 hi
      refine Spares.look ?_ ps o hps
      rw [h.next_eq hi]
      refine .ite Iff.rfl (fun _ => spares_pure h) fun _ => ?_
      apply Spares.advance
      apply Spares.bind (spares_value .lowest h.behind)
      intro key _ _ h
      apply Spares.bind (spares_expect h (by decide))
      intro _ _ _ h
      apply Spares.advance
      apply Spares.bind (spares_value .lowest h.behind)
      intro value _ _ h
      apply Spares.bind (spares_pairEnd h)
      intro _ _ _ h
      exact .bind (ih h) fun _ _ _ => spares_pure

theorem spares_bracketed (h : Beside g.size i j) : Spares (Beside g.size) (bracketed g) (bracketed g) i j := by
  apply Spares.advance
  apply Spares.bind (spares_attempt_value .lowest h.behind)
  intro e _ _ h
  exact .bind (spares_expect h (by decide)) fun _ _ _ => spares_require _

theorem spares_test (h : Beside g.size i j) : Spares (Beside g.size) (test g) (test g) i j :=
  .bind (spares_expect h (by decide)) fun _ _ _ => spares_bracketed

theorem spares_condExpr (pos : Pos) (h : Beside g.size i j) :
    Spares (Beside g.size) (condExpr g pos) (condExpr g pos) i j := by
  apply Spares.bind (spares_test h)
  intro t _ _ h
  apply Spares.bind (spares_expect h (by decide))
  intro _ _ _ h
  apply Spares.bind (spares_block h)
  intro yes i j h
  have helse := h.next_iff (k := .kwElse) (by decide) (by decide)
  apply Spares.look
  refine .ite helse (fun hi => ?_) fun _ => spares_pure h
  have hnext : firstKind i.tail ≠ .semicolon := by simp [hi]
  apply Spares.advance
  apply Spares.bind (spares_expect (h.tail hnext) (by decide))
  intro _ _ _ h
  exact .bind (spares_block h) fun _ _ _ => spares_pure

theorem spares_loopExpr (pos : Pos) (h : Beside g.size i j) :
    Spares (Beside g.size) (loopExpr g pos) (loopExpr g pos) i j := by
  apply Spares.bind (spares_test h)
  intro t _ _ h
  apply Spares.bind (spares_expect h (by decide))
  intro _ _ _ h
  exact .bind (spares_block h) fun _ _ _ => spares_pure

theorem spares_fnExpr (pos : Pos) (h : Beside g.size i j) :
    Spares (Beside g.size) (fnExpr g pos) (fnExpr g pos) i j := by
  apply Spares.bind (spares_expect h (by decide))
  intro _ _ _ h
  apply Spares.bind (spares_params h)
  intro ps _ _ h
  apply Spares.bind (spares_expect h (by decide))
  intro _ _ _ h
  exact .bind (spares_block h) fun _ _ _ => spares_pure

theorem spares_hash (pos : Pos) (h : Beside g.size i j) (hi : i ≠ []) :
    let hash : Read Expr := do
      let ps ← pairs g g.size
      advance
      return .hash pos ps
    Spares (Beside g.size) hash hash i j := by
  intro hash e o ho
  obtain ⟨ps, mid, hps, hend⟩ := Takes.bind ho
  -- the brace after the pairs is there in both
  have hread : ReadsPairs i mid ps := (clean_pairs h.within h.within.fits hi #[] ⟨mid, #[]⟩ rfl).1 ps hps
  have hnext : firstKind mid.tail ≠ .semicolon := by simp [hread.1]
  obtain ⟨mid', hps', hmid⟩ := spares_pairs h ps mid hps
  cases hend
  exact ⟨mid'.tail, hps'.bind ((yields_advance mid').bind (yields_pure _ _)), hmid.tail hnext⟩

theorem spares_operand (h : Beside g.size i j) : Spares (Beside g.size) (operand g) (operand g) i j := by
  apply Spares.step (yields_current i) (yields_current j)
  rw [h.first]
  split
  case h_2 =>
    split
    · exact spares_pure h
    · exact spares_mistake _
  case h_7 | h_8 =>
    apply Spares.advance
    exact .bind (spares_value .unary h.behind) fun _ _ _ => spares_pure
  case h_9 => exact spares_bracketed h
  case h_10 => exact spares_condExpr _ h
  case h_11 => exact spares_loopExpr _ h
  case h_12 => exact spares_fnExpr _ h
  case h_13 => exact .bind (spares_exprList (by decide) (by decide) h) fun _ _ _ => spares_pure
  case h_14 hk =>
    refine spares_hash _ h ?_
    rintro rfl
    rw [← h.first] at hk
    cases hk
  case h_15 => exact spares_mistake _
  all_goals exact spares_pure h

theorem spares_operation (left : Expr) (h : Beside g.size i j) :
    Spares (Beside g.size) (operation g left) (operation g left) i j := by
  apply Spares.step (yields_current i) (yields_current j)
  rw [h.first]
  split
  case h_1 => exact .bind (spares_exprList (by decide) (by decide) h) fun _ _ _ => spares_pure
  case h_2 =>
    apply Spares.advance
    apply Spares.bind (spares_value .lowest h.behind)
    intro _ _ _ h
    exact .bind (spares_expect h (by decide)) fun _ _ _ => spares_pure
  case h_3 =>
    apply Spares.advance
    apply Spares.bind (spares_value _ h.behind)
    intro _ _ _ h
    exact .ite Iff.rfl (fun _ => spares_pure h) fun _ => spares_pure h

theorem spares_operations {level : Level} {rounds : Nat} {left : Expr} (h : Beside g.size i j) :
    Spares (Beside g.size) (operations g level rounds left) (operations g level rounds left) i j := by
  induction rounds generalizing i j left with
  | zero => exact spares_pure h
  | succ rounds ih =>
      apply Spares.look
      rw [h.next_rank]
      refine .ite Iff.rfl (fun hlt => ?_) fun _ => spares_pure h
      have hnext : firstKind i.tail ≠ .semicolon := fun hi => by simp [hi, Token.Kind.level, Level.rank] at hlt
      apply Spares.advance
      exact .bind (spares_operation left (h.tail hnext)) fun _ _ _ => ih

theorem spares_expr {level : Level} (h : Beside g.size i j) :
    Spares (Beside g.size) (expr g level) (expr g level) i j :=
  .bind (spares_operand h) fun _ _ _ => spares_operations

end Productions

instance sparing_read (size depth : Nat) : Sparing ⟨size, Expr.read size depth⟩ := by
  induction depth with
  | zero =>
      exact { sound_read size 0 with
        spares_expr := fun _ _ _ _ e o he => by cases he }
  | succ depth ih =>
      exact { sound_read size (depth + 1) with
        spares_expr := fun level _ _ h => spares_expr (g := ⟨size, Expr.read size depth⟩) h }

end Grammar

open Grammar

theorem Program.ofTokens?_sheds {depth : Nat} {before : Token.Kind} {tokens kept : List Token} {p : Program}
    (hend : Ended tokens) (hsheds : Sheds before tokens kept)
    (hread : Program.ofTokens? depth tokens = some ⟨p, []⟩) : Program.ofTokens? depth kept = some ⟨p, []⟩ := by
  rw [Program.ofTokens?_eq] at hread
  cases hrun : program tokens.length depth ⟨tokens, #[]⟩ with
  | error stop o =>
      rw [hrun] at hread
      cases hread
  | ok ss o =>
      rw [hrun] at hread
      obtain ⟨hprogram, hmistakes⟩ := Program.Draft.mk.inj (Option.some.inj hread)
      have htakes : Takes (program tokens.length depth) tokens ss o.tokens := by
        rw [Takes, hrun, ← Array.toList_eq_nil_iff.mp hmistakes]
      have hbehind : Behind tokens.length tokens kept := ⟨⟨hend, Nat.le_refl _⟩, before, hsheds⟩
      obtain ⟨rest, hyields, -⟩ := spares_statements (g := ⟨tokens.length, Expr.read tokens.length depth⟩)
        (by decide) hbehind (Nat.le_refl _) ss o.tokens htakes
      rw [← Program.Draft.of?_rounds depth hsheds.length_le, ← hprogram]
      exact congrArg Program.Draft.of? (hyields #[])

/-- Semicolons are optional. From a text without mistakes any of them may be left out before a closing brace, at the end of
the text and before a statement, at any depth, unless the next token is one that also goes on with an expression, or the
semicolon stands after a bare return that another statement follows. The same levels are enough, and the tree is the same
but for the places of its tokens. -/
theorem semicolons_are_optional {depth : Nat} {text : String} {d : Program.Draft}
    (hread : Program.ofText? depth text = some d) (hclean : d.mistakes = []) {kept fewer : List Token}
    (hsheds : Sheds .eof (Token.ofText text) kept) (hfewer : Token.sameList kept fewer = true) :
    ∃ e, Program.ofTokens? depth fewer = some e ∧ e.mistakes = [] ∧ e.program.Alike d.program := by
  obtain ⟨p, ms⟩ := d
  obtain rfl : ms = [] := hclean
  have hkept := Program.ofTokens?_sheds (Read.ended_ofText text) hsheds hread
  have hmove : (Program.ofTokens? depth fewer).map (Program.Draft.move nowhere) =
      (Program.ofTokens? depth kept).map (Program.Draft.move nowhere) := by
    rw [← Program.ofTokens?_move rfl, ← Program.ofTokens?_move rfl, Token.sameList_iff.mp hfewer]
  rw [hkept, Option.map_some] at hmove
  obtain ⟨e, he, heq⟩ := Option.map_eq_some_iff.mp hmove
  obtain ⟨hprogram, hmistakes⟩ := Program.Draft.mk.inj heq
  exact ⟨e, he, hmistakes, hprogram⟩

theorem semicolons_are_optional_sign :
    let text := "fn(x) \x7b return; \x7d; x; -1;"
    let short := "fn(x) \x7b return \x7d x; -1"
    let p := Program.mk [.expr ⟨1, 1⟩ (.fn ⟨1, 1⟩ [⟨⟨1, 4⟩, "x"⟩] (.mk ⟨1, 7⟩ [.ret ⟨1, 9⟩ none])),
      .expr ⟨1, 20⟩ (.ident ⟨⟨1, 20⟩, "x"⟩), .expr ⟨1, 23⟩ (.unary ⟨1, 23⟩ .neg (.int ⟨1, 24⟩ 1))]
    Program.ofText? 5 text = some ⟨p, []⟩ ∧
      ∃ e, Program.ofText? 5 short = some e ∧ e.mistakes = [] ∧ e.program.Alike p := by
  intro text short p
  let tok (k : Token.Kind) (literal : String) (column : Nat) : Token := ⟨k, literal, ⟨1, column⟩⟩
  let kept := [tok .kwFn "fn" 1, tok .lparen "(" 3, tok .ident "x" 4, tok .rparen ")" 5, tok .lbrace "\x7b" 7,
    tok .kwReturn "return" 9, tok .rbrace "\x7d" 17, tok .ident "x" 20, tok .semicolon ";" 21, tok .minus "-" 23,
    tok .int "1" 24, tok .eof "" 26]
  have hread : Program.ofText? 5 text = some ⟨p, []⟩ := by cbv
  have htext : Token.ofText text = [tok .kwFn "fn" 1, tok .lparen "(" 3, tok .ident "x" 4, tok .rparen ")" 5,
      tok .lbrace "\x7b" 7, tok .kwReturn "return" 9, tok .semicolon ";" 15, tok .rbrace "\x7d" 17,
      tok .semicolon ";" 18, tok .ident "x" 20, tok .semicolon ";" 21, tok .minus "-" 23, tok .int "1" 24,
      tok .semicolon ";" 25, tok .eof "" 26] := by cbv
  have hsheds : Sheds .eof (Token.ofText text) kept := by
    rw [htext]
    repeat' first | exact .nil | apply Sheds.keep | refine Sheds.drop rfl (by decide) ?_
  have hshort : Token.sameList kept (Token.ofText short) = true := by cbv
  exact ⟨hread, semicolons_are_optional hread rfl hsheds hshort⟩

end Marmoset
