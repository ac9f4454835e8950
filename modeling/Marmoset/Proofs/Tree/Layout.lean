import Marmoset.Proofs.Outcome
import Marmoset.Proofs.Tree.Relabel
import Marmoset.Proofs.Tree.Tracks
import Marmoset.Proofs.Tree.Whole

namespace Marmoset

def Reading.move (f : Pos → Pos) (r : Reading) : Reading :=
  { r with tokens := r.tokens.map (Token.move f) }

theorem Token.same_iff {s t : Token} : s.same t = true ↔ s.move nowhere = t.move nowhere := by
  simp [Token.same, Token.move, nowhere]

theorem Token.sameList_iff {ss ts : List Token} :
    Token.sameList ss ts = true ↔ ss.map (Token.move nowhere) = ts.map (Token.move nowhere) := by
  induction ss generalizing ts with
  | nil => cases ts <;> simp [Token.sameList]
  | cons s ss ih =>
      cases ts with
      | nil => simp [Token.sameList]
      | cons t ts => simp [Token.sameList, Token.same_iff, ih]

section Move

variable {f : Pos → Pos}

def Reading.moving (f : Pos → Pos) (size : Nat) : Pairing Reading Reading where
  Rel r r' := r' = r.move f ∧ r.tokens.length ≤ size

theorem Reading.tracks_moving (hf : f Pos.absent = Pos.absent) (size : Nat) :
    Read.Tracks f size (Reading.moving f size) where
  absent := hf
  current := by
    rintro r r' ⟨rfl, -⟩
    cases h : r.tokens with
    | nil => simp [Reading.move, Token.move, Read.endToken, h, hf]
    | cons t ts => simp [Reading.move, h]
  next := by
    rintro r r' ⟨rfl, -⟩
    rcases h : r.tokens with - | ⟨t, - | ⟨u, us⟩⟩ <;>
      simp [Reading.move, Token.move, Read.firstKind, h]
  advance := by
    rintro r r' ⟨rfl, hlen⟩
    refine .inr ⟨by simp [Reading.move], ?_⟩
    rw [List.length_tail]
    omega
  note := by
    rintro r r' m ⟨rfl, hlen⟩
    exact ⟨rfl, hlen⟩
  fits h := h.2
  lost _ _ h := h

def Program.Draft.move (f : Pos → Pos) (d : Program.Draft) : Program.Draft :=
  { d with program := d.program.move f }

theorem Program.Draft.of?_move (hf : f Pos.absent = Pos.absent) {n n' : Nat} (depth : Nat)
    {tokens : List Token} (hn : tokens.length ≤ n) (hn' : tokens.length ≤ n') :
    Program.Draft.of? (Grammar.program n' depth ⟨tokens.map (Token.move f), #[]⟩) =
      (Program.Draft.of? (Grammar.program n depth ⟨tokens, #[]⟩)).map (Program.Draft.move f) := by
  cases tokens with
  | nil =>
      have hend (k : Nat) : Grammar.program k depth ⟨[], #[]⟩ = .ok [] ⟨[], #[]⟩ := Grammar.statements_stop rfl k
      rw [List.map_nil, hend, hend]
      rfl
  | cons t ts =>
      have hS := Reading.tracks_moving hf (t :: ts).length
      have hread := Grammar.tracks_program hS (Nat.succ_pos _) hn hn' depth
      rcases hread.ends (s := ⟨t :: ts, #[]⟩) ⟨rfl, Nat.le_refl _⟩ id with
        ⟨ss, r, r', hp, hq, rfl, -⟩ | ⟨e, r, r', hp, hq, -⟩
      · rw [hp]
        exact congrArg Program.Draft.of? hq
      · rw [hp]
        exact congrArg Program.Draft.of? hq

theorem Program.ofTokens?_move (hf : f Pos.absent = Pos.absent) (depth : Nat) (tokens : List Token) :
    Program.ofTokens? depth (tokens.map (Token.move f)) =
      (Program.ofTokens? depth tokens).map (Program.Draft.move f) :=
  Program.Draft.of?_move hf depth (Nat.le_refl _) (List.length_map _).ge

theorem Program.Draft.move_id (d : Program.Draft) : d.move id = d := by
  have hstmts : d.program.stmts.map (Stmt.move id) = d.program.stmts :=
    (List.map_congr_left fun s _ => s.move_id).trans (List.map_id _)
  exact congrArg (Program.Draft.mk · d.mistakes) (congrArg Program.mk hstmts)

theorem Program.Draft.of?_rounds {n : Nat} (depth : Nat) {tokens : List Token} (hn : tokens.length ≤ n) :
    Program.Draft.of? (Grammar.program n depth ⟨tokens, #[]⟩) = Program.ofTokens? depth tokens := by
  have htokens : tokens.map (Token.move id) = tokens := List.map_id tokens
  have hmove := Program.Draft.of?_move (f := id) rfl depth (Nat.le_refl _) hn
  rwa [htokens, funext Program.Draft.move_id, Option.map_id'] at hmove

end Move

theorem Node.relabel_unplaced {x : Node} (h : Node.Every Node.Written x) :
    x.relabel .unplaced = x.move nowhere := by
  refine Node.relabel_eq_move (r := .unplaced) (h.mono fun y hy => ?_)
  unfold Node.Movable
  split
  · rfl
  · exact hy.elim
  · exact hy.elim
  · trivial

theorem Program.relabel_unplaced {p : Program} (h : p.Every Node.Written) :
    p.relabel .unplaced = p.move nowhere := by
  have hstmts := List.map_congr_left fun s hs => Node.stmt.inj (Node.relabel_unplaced (h s hs))
  exact congrArg Program.mk hstmts

theorem Program.ofText?_move {a b : String}
    (h : Token.sameList (Token.ofText a) (Token.ofText b) = true) (depth : Nat) :
    (Program.ofText? depth a).map (Program.Draft.move nowhere) =
      (Program.ofText? depth b).map (Program.Draft.move nowhere) := by
  have htokens := Token.sameList_iff.mp h
  unfold Program.ofText?
  rw [← Program.ofTokens?_move rfl, ← Program.ofTokens?_move rfl, htokens]

end Marmoset
