import Marmoset.Proofs.Tree.Loops
import Marmoset.Proofs.Tree.Related

namespace Marmoset

open Grammar

def Reading.left (r : Reading) : Nat := (live r.tokens).length

namespace Read

variable {α β : Type} {r o : Reading} {i : List Token}

section Left

theorem live_tail_le (h : Ended i) : (live i.tail).length ≤ (live i).length - 1 := by
  by_cases hi : firstKind i = .eof
  · rw [h.live_tail hi]
    exact Nat.zero_le _
  · obtain ⟨t, ts, rfl, ht⟩ := first_cons rfl hi
    rw [live_cons ht hi]
    exact Nat.le_refl _

theorem live_suffix_le {o : List Token} (h : Ended i) (ho : o <:+ i) : (live o).length ≤ (live i).length := by
  induction i with
  | nil => rw [List.suffix_nil.mp ho]
  | cons t ts ih =>
      rcases List.suffix_cons_iff.mp ho with rfl | ho
      · exact Nat.le_refl _
      · exact (ih h.2 ho).trans ((live_tail_le h).trans (Nat.sub_le _ _))

theorem left_le (h : Ended r.tokens) (ho : o.tokens <:+ r.tokens) : o.left ≤ r.left :=
  live_suffix_le h ho

theorem left_past (h : Ended r.tokens) (ho : o.tokens <:+ r.tokens.tail) : o.left ≤ r.left - 1 :=
  (live_suffix_le (h.suffix (List.tail_suffix _)) ho).trans (live_tail_le h)

theorem left_eq_zero : r.left = 0 ↔ firstKind r.tokens = .eof := by
  constructor
  · intro h
    rw [← firstKind_live, List.eq_nil_of_length_eq_zero h, firstKind_nil]
  · intro h
    exact congrArg List.length (live_eof h)

theorem left_pos_of_next (h : Ended r.tokens) (hnext : firstKind r.tokens.tail ≠ .eof) : 0 < r.left := by
  refine Nat.pos_of_ne_zero fun hleft => hnext ?_
  rw [← firstKind_live, h.live_tail (left_eq_zero.mp hleft), firstKind_nil]

theorem ended_ofText (text : String) : Ended (Token.ofText text) := by
  obtain ⟨ts, e, htext, he, hts⟩ := Token.ofText_ending text
  rw [htext]
  exact (live_append hts he).1

theorem live_ofText_lt (text : String) : (live (Token.ofText text)).length < (Token.ofText text).length := by
  obtain ⟨ts, e, htext, he, hts⟩ := Token.ofText_ending text
  rw [htext, (live_append hts he).2, List.length_append]
  exact Nat.lt_succ_self _

end Left

section Moves

class Moves (p : Read α) : Prop where
  past {r : Reading} {a : α} {o : Reading} : p r = .ok a o → o.tokens <:+ r.tokens.tail

instance : Moves advance := ⟨fun h => tail_of_advance h ▸ List.suffix_refl _⟩

instance (kind : Token.Kind) : Moves (expect kind) := ⟨fun h => (expect_ok h).2 ▸ List.suffix_refl _⟩

instance {p : Read α} {f : α → Read β} [hp : Moves p] [∀ a, Grows (f a)] : Moves (p >>= f) where
  past h := by
    obtain ⟨a, mid, ha, hb⟩ := bind_eq_ok h
    exact (suffix_of_ok hb).trans (hp.past ha)

instance {p : Read α} {f : α → Read β} [Grows p] [hf : ∀ a, Moves (f a)] : Moves (p >>= f) where
  past h := by
    obtain ⟨a, mid, ha, hb⟩ := bind_eq_ok h
    exact ((hf a).past hb).trans (tail_suffix_tail (suffix_of_ok ha))

end Moves

end Read

open Read

namespace Loop

variable {α β : Type} {l : Loop β} {tokens : List Token}

/-- The reading is the loop. Each time around, the loop has less left of the tokens or is left by a stop. With more
rounds than there are tokens left, it goes on until it ends by itself. -/
structure Forward (l : Loop β) (tokens : List Token) (start : β) (p : Nat → Read β) : Prop where
  runs (n : Nat) : p n = l.run n start
  moves {b b' : β} {r o : Reading} : r.tokens <:+ tokens → l.goes r.tokens = true →
    l.round b r = .ok b' o → o.left < r.left
  ends {n : Nat} {b b' : β} {r o : Reading} : r.tokens <:+ tokens → r.left < n → l.run n b r = .ok b' o →
    l.goes o.tokens = false

theorem forward {start : β} {p : Nat → Read β} (hend : Ended tokens) (hruns : ∀ n, p n = l.run n start)
    (hmoves : ∀ b, Moves (l.round b))
    (hlive : ∀ {b b' r o}, Ended r.tokens → l.goes r.tokens = true → l.round b r = .ok b' o → 0 < r.left) :
    l.Forward tokens start p := by
  have moves {b b' : β} {r o : Reading} (hr : r.tokens <:+ tokens) (hgo : l.goes r.tokens = true)
      (hround : l.round b r = .ok b' o) : o.left < r.left := by
    have hle := left_past (hend.suffix hr) ((hmoves b).past hround)
    have hpos := hlive (hend.suffix hr) hgo hround
    omega
  refine ⟨hruns, moves, ?_⟩
  intro n b b' r o hr hn h
  induction n generalizing b r with
  | zero => exact absurd hn (Nat.not_lt_zero _)
  | succ n ih =>
      rw [run_succ] at h
      split at h
      · rename_i hgo
        obtain ⟨c, mid, hround, hrun⟩ := bind_eq_ok h
        have hmid : mid.tokens <:+ r.tokens := ((hmoves b).past hround).trans (List.tail_suffix _)
        exact ih (hmid.trans hr) (Nat.lt_of_lt_of_le (moves hr hgo hround) (Nat.le_of_lt_succ hn)) hrun
      · rename_i hgo
        cases h
        exact eq_false_of_ne_true hgo

end Loop

namespace Grammar

variable {g : Inside} [Steady g] {tokens : List Token} (hend : Ended tokens)

include hend

theorem forward_statements {s : Read Stmt} [Grows s] {ends : Token.Kind → Bool} (heof : ends .eof = true) :
    (stmtLoop s ends).Forward tokens [] (statements s ends) := by
  refine Loop.forward hend (statements_run s ends) (fun _ => inferInstanceAs (Moves (_ >>= _))) ?_
  intro b b' r o _ hgo _
  refine Nat.pos_of_ne_zero fun hleft => ?_
  simp [stmtLoop, Loop.collect, left_eq_zero.mp hleft, heof] at hgo

theorem forward_moreExprs : (exprLoop g).Forward tokens [] (moreExprs g) := by
  refine Loop.forward hend (moreExprs_run g) (fun _ => inferInstanceAs (Moves (_ >>= _))) ?_
  intro b b' r o hr hgo _
  have hnext : firstKind r.tokens.tail = .comma := of_decide_eq_true hgo
  exact left_pos_of_next hr (by simp [hnext])

theorem forward_moreParams : paramLoop.Forward tokens [] moreParams := by
  refine Loop.forward hend moreParams_run (fun _ => inferInstanceAs (Moves (_ >>= _))) ?_
  intro b b' r o hr hgo _
  have hnext : firstKind r.tokens.tail = .comma := of_decide_eq_true hgo
  exact left_pos_of_next hr (by simp [hnext])

theorem forward_pairs : (pairLoop g).Forward tokens [] (pairs g) := by
  refine Loop.forward hend (pairs_run g) (fun _ => inferInstanceAs (Moves (_ >>= _))) ?_
  -- the next token may be the end of the text, but then there is no colon
  intro b b' r o hr _ hround
  obtain ⟨ps, hstep, -⟩ := Loop.collect_round hround
  obtain ⟨_, q, hq, h⟩ := bind_eq_ok hstep
  obtain ⟨key, k, hk, h⟩ := bind_eq_ok h
  obtain ⟨_, c, hc, h⟩ := bind_eq_ok h
  have hcolon : c.left ≠ 0 := by simp [left_eq_zero, (expect_ok hc).1]
  have hle : c.tokens <:+ r.tokens := (suffix_of_ok hc).trans ((suffix_of_ok hk).trans (suffix_of_ok hq))
  exact Nat.lt_of_lt_of_le (Nat.pos_of_ne_zero hcolon) (left_le hr hle)

theorem forward_operations (level : Level) (left : Expr) :
    (operationLoop g level).Forward tokens left (operations g level · left) := by
  refine Loop.forward hend (operations_run g level · left) (fun _ => inferInstanceAs (Moves (_ >>= _))) ?_
  intro b b' r o hr hgo _
  have hnext : level.rank < (firstKind r.tokens.tail).level.rank := of_decide_eq_true hgo
  refine left_pos_of_next hr fun heof => ?_
  rw [heof] at hnext
  exact absurd hnext (Nat.not_lt_zero _)

end Grammar

end Marmoset
