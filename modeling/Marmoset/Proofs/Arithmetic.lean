import Marmoset.Proofs.Eval.Frame
import Marmoset.Proofs.Number.Word

namespace Marmoset

open Number

section Ring

def BinaryOp.exact? : BinaryOp → Option (Int → Int → Int)
  | .add => some (· + ·)
  | .sub => some (· - ·)
  | .mul => some (· * ·)
  | _ => none

/-- A tree of literals and names that stand for words, put together by negation and by operators with
an exact operation, and its value when nothing is wrapped. -/
inductive Expr.Exact (value : String → Option Value) : Expr → Int → Prop where
  | int {pos : Pos} {n : Int} : InWord n → Exact value (.int pos n) n
  | ident {i : Ident} {n : Int} : value i.name = some (.integer n) → InWord n → Exact value (.ident i) n
  | neg {pos : Pos} {e : Expr} {n : Int} : Exact value e n → Exact value (.unary pos .neg e) (-n)
  | binary {pos : Pos} {op : BinaryOp} {f : Int → Int → Int} {l r : Expr} {m n : Int} :
      op.exact? = some f → Exact value l m → Exact value r n → Exact value (.binary pos op l r) (f m n)

theorem Expr.Exact.height {value : String → Option Value} {e : Expr} {n : Int} (h : e.Exact value n) :
    ∃ height, ∀ depth, Node.fits depth (.expr e) = decide (height ≤ depth) := by
  induction h with
  | int _ | ident _ _ =>
      refine ⟨1, fun depth => ?_⟩
      cases depth <;> simp [Node.fits, Node.children]
  | neg _ ih =>
      obtain ⟨k, hk⟩ := ih
      refine ⟨k + 1, fun depth => ?_⟩
      cases depth <;> simp [Node.fits, Node.children, hk]
  | binary _ _ _ ihl ihr =>
      obtain ⟨k, hk⟩ := ihl
      obtain ⟨j, hj⟩ := ihr
      refine ⟨max k j + 1, fun depth => ?_⟩
      cases depth <;> simp [Node.fits, Node.children, hk, hj]

theorem Value.integers_exact {op : BinaryOp} {f : Int → Int → Int} (h : op.exact? = some f) (m n : Int) :
    Value.integers op (wrap m) (wrap n) = .integer (wrap (f m n)) := by
  cases op with
  | add =>
      cases h
      exact congrArg Value.integer (wrap_add m n)
  | sub =>
      cases h
      exact congrArg Value.integer (wrap_sub m n)
  | mul =>
      cases h
      exact congrArg Value.integer (wrap_mul m n)
  | _ => cases h

namespace Eval

variable {s : Setting} {scope : ScopeId} {st : Store}

def exactEnd (depth : Nat) (e : Expr) (n : Int) (st : Store) : EStateM.Result Halt Store Value :=
  if Node.fits depth (.expr e) then .ok (.integer (wrap n)) st else .error .tooDeep st

theorem exactEnd_bind {run : Eval Value} {depth : Nat} {e : Expr} {n : Int} {st' : Store}
    (h : run st = exactEnd depth e n st') (f : Value → Eval Value) :
    (run >>= f) st = if Node.fits depth (.expr e) then f (.integer (wrap n)) st' else .error .tooDeep st' := by
  unfold exactEnd at h
  split at h
  · rw [bind_ok h, if_pos ‹_›]
  · rw [bind_error h, if_neg ‹_›]

theorem ident_bound {name : String} {v : Value} (h : st.find? scope name = some v) :
    ident s scope name st = .ok v st := by
  have hlookup : lookup scope name st = .ok (some v) st := congrArg (EStateM.Result.ok · st) h
  change (lookup scope name >>= _) st = _
  rw [bind_ok hlookup]
  rfl

theorem binary_exact {op : BinaryOp} {f : Int → Int → Int} (hop : op.exact? = some f) (depth : Nat)
    (run : Runner) (l r : Expr) : binary depth run scope op l r = (do
      let a ← run (.expr l) scope
      if a.isError then return a
      let b ← run (.expr r) scope
      if b.isError then return b
      let stamp ← fresh
      within (Value.binary depth stamp op a b)) := by
  cases op with
  | add | sub | mul => simp [binary]
  | _ => cases hop

theorem run_exact {e : Expr} {n : Int} (h : e.Exact (st.find? scope) n) (s : Setting) (depth : Nat)
    (m : Stamp) : ∃ m', run s depth (.expr e) scope { st with stamp := m } =
      exactEnd depth e n { st with stamp := m' } := by
  induction h generalizing depth m with
  | int hn =>
      refine ⟨m, ?_⟩
      cases depth with
      | zero => rfl
      | succ d =>
          rw [exactEnd, wrap_of_inWord hn]
          rfl
  | ident hv hn =>
      refine ⟨m, ?_⟩
      cases depth with
      | zero => rfl
      | succ d =>
          have hsame : st.Extends none { st with stamp := m } := .of_scopes rfl ⟨"", by simp⟩
          rw [exactEnd, wrap_of_inWord hn]
          exact ident_bound (hsame.find? hv)
  | @neg pos e n he ih =>
      cases depth with
      | zero => exact ⟨m, rfl⟩
      | succ d =>
          obtain ⟨m', hrun⟩ := ih d m
          have hfits : Node.fits (d + 1) (.expr (.unary pos .neg e)) = Node.fits d (.expr e) := by
            simp [Node.fits, Node.children]
          unfold exactEnd
          change ∃ _, (run s d (.expr e) scope >>= _) _ = _
          rw [exactEnd_bind hrun, hfits]
          split
          · rw [← wrap_neg]
            exact ⟨m' + 1, rfl⟩
          · exact ⟨m', rfl⟩
  | @binary pos op f l r a b hop hl hr ihl ihr =>
      cases depth with
      | zero => exact ⟨m, rfl⟩
      | succ d =>
          obtain ⟨m', hrunl⟩ := ihl d m
          obtain ⟨m'', hrunr⟩ := ihr d m'
          have hfits : Node.fits (d + 1) (.expr (.binary pos op l r)) =
              (Node.fits d (.expr l) && Node.fits d (.expr r)) := by
            simp [Node.fits, Node.children]
          have hvalue (k : Stamp) : Value.binary d k op (.integer (wrap a)) (.integer (wrap b)) =
              some (.integer (wrap (f a b))) :=
            congrArg some (Value.integers_exact hop a b)
          unfold exactEnd
          change ∃ _, binary d (run s d) scope op l r _ = _
          rw [binary_exact hop, exactEnd_bind hrunl, hfits]
          cases Node.fits d (.expr l) with
          | false => exact ⟨m', rfl⟩
          | true =>
              change ∃ _, (run s d (.expr r) scope >>= _) _ = _
              rw [exactEnd_bind hrunr]
              cases Node.fits d (.expr r) with
              | false => exact ⟨m'', rfl⟩
              | true =>
                  refine ⟨m'' + 1, ?_⟩
                  change within (Value.binary d m'' op (.integer (wrap a)) (.integer (wrap b)))
                    { st with stamp := m'' + 1 } = _
                  rw [hvalue]
                  rfl

/-- A tree of sums, differences, products and negations of words has as its value the one word that
differs from the exact value of the tree by a multiple of the number of words: what wrapping the exact
value once gives. It is evaluated at every depth that is not less than its height, and changes
nothing. -/
theorem arithmetic_wraps_once {scope : ScopeId} {st : Store} {e : Expr} {n : Int}
    (h : e.Exact (st.find? scope) n) :
    ∃ w height, (-2 ^ 63 ≤ w ∧ w ≤ 2 ^ 63 - 1) ∧ w ≡ n [ZMOD 2 ^ 64] ∧
      (∀ w', -2 ^ 63 ≤ w' ∧ w' ≤ 2 ^ 63 - 1 → w' ≡ n [ZMOD 2 ^ 64] → w' = w) ∧ w = wrap n ∧
      ∀ s depth,
        (height ≤ depth → ∃ m, run s depth (.expr e) scope st = .ok (.integer w) { st with stamp := m }) ∧
        (depth < height → ∃ m, run s depth (.expr e) scope st = .error .tooDeep { st with stamp := m }) := by
  obtain ⟨height, hheight⟩ := h.height
  refine ⟨wrap n, height, inWord_iff.mp (wrap_inWord n), wordCount_eq ▸ wrap_modEq n, ?_, rfl, ?_⟩
  · intro w' hw' hmod
    exact (wrap_eq_iff.mpr ⟨inWord_iff.mpr hw', wordCount_eq.symm ▸ hmod⟩).symm
  · intro s depth
    obtain ⟨m, hrun⟩ := run_exact h s depth st.stamp
    rw [exactEnd, hheight] at hrun
    constructor
    · intro hle
      exact ⟨m, hrun.trans (if_pos (decide_eq_true hle))⟩
    · intro hlt
      exact ⟨m, hrun.trans (if_neg (by simpa using hlt))⟩

theorem arithmetic_wraps_once_square :
    let pos : Pos := ⟨1, 1⟩
    let x : Expr := .ident ⟨pos, "x"⟩
    let e : Expr := .unary pos .neg (.binary pos .sub (.binary pos .mul x x)
      (.binary pos .add (.int pos 9223372036854775807) (.int pos 2)))
    let st : Store := ⟨#[⟨[("x", .integer (-2 ^ 63))], none⟩], "", 1⟩
    e.Exact (st.find? 0) (-((-2 ^ 63) * (-2 ^ 63) - (9223372036854775807 + 2))) ∧
      ∃ height, ∀ s depth, height ≤ depth →
        ∃ m, run s depth (.expr e) 0 st = .ok (.integer (-9223372036854775807)) { st with stamp := m } := by
  intro pos x e st
  have hx : x.Exact (st.find? 0) (-2 ^ 63) := .ident rfl (inWord_iff.mpr (by decide))
  have hsum : Expr.Exact (st.find? 0) (.binary pos .add (.int pos 9223372036854775807) (.int pos 2))
      (9223372036854775807 + 2) :=
    .binary rfl (.int (inWord_iff.mpr (by decide))) (.int (inWord_iff.mpr (by decide)))
  have hexact : e.Exact (st.find? 0) (-((-2 ^ 63) * (-2 ^ 63) - (9223372036854775807 + 2))) :=
    .neg (.binary rfl (.binary rfl hx hx) hsum)
  obtain ⟨w, height, -, -, -, rfl, hrun⟩ := arithmetic_wraps_once hexact
  exact ⟨hexact, height, fun s depth hle => (hrun s depth).1 hle⟩

end Eval

end Ring

namespace Value

section Division

variable {a b : Int}

theorem div_integers (depth : Nat) (stamp : Stamp) (a : Int) (hb : b ≠ 0) :
    binary depth stamp .div (.integer a) (.integer b) = some (.integer (wrap (a.tdiv b))) := by
  simp [binary, integers, quotient?_eq a hb]

theorem mod_integers (depth : Nat) (stamp : Stamp) (a : Int) (hb : b ≠ 0) (h : InWord b) :
    binary depth stamp .mod (.integer a) (.integer b) = some (.integer (a.tmod b)) := by
  simp [binary, integers, quotient?_eq a hb, ← Int.tmod_def, wrap_of_inWord (tmod_inWord a hb h)]

/-- The one quotient that is not a word is that of the least word by minus one. -/
theorem wrap_tdiv (ha : InWord a) (hb : b ≠ 0) :
    wrap (a.tdiv b) = if a = -2 ^ 63 ∧ b = -1 then -2 ^ 63 else truncated (a / b) := by
  split
  · rename_i h
    rw [h.1, h.2]
    decide
  · rename_i h
    rw [wrap_of_inWord (tdiv_inWord ha hb h), truncated_div a hb]

/-- Quotients and remainders of words. Both are missing for the divisor zero and for no other one. The
remainder is less than the divisor and on the side of the dividend, the quotient is the exact one without
its fraction where that is a word, and the product of quotient and divisor makes up the dividend with
the remainder. Among all integers the quotient is the only one that leaves such a remainder. -/
theorem division_and_remainder_agree (depth : Nat) (stamp : Stamp) (ha : InWord a) (hb : InWord b) :
    (binary depth stamp .div (.integer a) (.integer b) = some (.error .divisionByZero) ↔ b = 0) ∧
    (binary depth stamp .mod (.integer a) (.integer b) = some (.error .divisionByZero) ↔ b = 0) ∧
    Failure.divisionByZero.message = "division by zero" ∧
    (b ≠ 0 → ∃ q r,
      binary depth stamp .div (.integer a) (.integer b) = some (.integer q) ∧
      binary depth stamp .mod (.integer a) (.integer b) = some (.integer r) ∧
      LeftOver a b r ∧
      (if a = -2 ^ 63 ∧ b = -1 then q = -2 ^ 63 ∧ r = 0 else q = truncated (a / b)) ∧
      ∃ p, binary depth stamp .mul (.integer q) (.integer b) = some p ∧
        binary depth stamp .add p (.integer r) = some (.integer a)) ∧
    ∀ x y : Int, y ≠ 0 → ∃ t, quotient? x y = some t ∧ ∀ t', LeftOver x y (x - y * t') ↔ t' = t := by
  refine ⟨⟨fun h => ?_, ?_⟩, ⟨fun h => ?_, ?_⟩, rfl, fun hzero => ?_, fun x y hy => quotient?_unique x hy⟩
  · by_contra hzero
    rw [div_integers depth stamp a hzero] at h
    cases h
  · rintro rfl
    rfl
  · by_contra hzero
    rw [mod_integers depth stamp a hzero hb] at h
    cases h
  · rintro rfl
    rfl
  · refine ⟨wrap (a.tdiv b), a.tmod b, div_integers depth stamp a hzero,
      mod_integers depth stamp a hzero hb, leftOver_tmod a hzero, ?_, _, rfl, ?_⟩
    · rw [wrap_tdiv ha hzero]
      split
      · rename_i hleast
        exact ⟨rfl, by rw [hleast.1, hleast.2]; decide⟩
      · rfl
    · exact congrArg (fun n => some (integer n)) (wrap_make_up b ha)

theorem division_and_remainder_agree_negative :
    InWord (-2 ^ 63) ∧ InWord (-1) ∧ InWord 7 ∧
      binary 1 1 .div (.integer (-2 ^ 63)) (.integer (-1)) = some (.integer (-2 ^ 63)) ∧
      binary 1 1 .div (.integer (-2 ^ 63)) (.integer 7) =
        some (.integer (truncated ((-2 ^ 63 : Int) / (7 : Int)))) := by
  have hleast : InWord (-2 ^ 63) := inWord_iff.mpr (by decide)
  have hone : InWord (-1) := inWord_iff.mpr (by decide)
  have hseven : InWord 7 := inWord_iff.mpr (by decide)
  obtain ⟨-, -, -, hover, -⟩ := division_and_remainder_agree 1 1 hleast hone
  obtain ⟨-, -, -, hwithin, -⟩ := division_and_remainder_agree 1 1 hleast hseven
  obtain ⟨q, r, hq, -, -, hq', -⟩ := hover (by decide)
  obtain ⟨p, r', hp, -, -, hp', -⟩ := hwithin (by decide)
  rw [if_pos (by decide)] at hq'
  rw [if_neg (by decide)] at hp'
  exact ⟨hleast, hone, hseven, hq'.1 ▸ hq, hp' ▸ hp⟩

end Division

end Value

end Marmoset
