import Marmoset.Proofs.Tree.Brackets
import Marmoset.Proofs.Tree.Layout

/-!
Reading one text after another. Where the first text is read without mistakes, closes the brackets that
it opens and ends with a semicolon, its statements are read the same whatever comes after it, and then
reading goes on as at the start of the second text.
-/

set_option synthInstance.maxSize 1000

namespace Marmoset

open Token Read

section Seam

variable {y z : List Token}

def Reading.seam (y z : List Token) (size : Nat) : Pairing Reading Reading where
  Rel r r' := r'.mistakes = r.mistakes ∧ r.tokens.length ≤ size ∧
    ∃ t o, r.tokens = t :: o ++ y ∧ r'.tokens = t :: o ++ z
  Lost r := r.tokens.length ≤ y.length

theorem Reading.tracks_seam (h : firstKind z = firstKind y) (size : Nat) :
    Tracks id size (Reading.seam y z size) where
  absent := rfl
  current := by
    rintro ⟨i, m⟩ ⟨i', m'⟩ ⟨-, -, t, o, rfl, rfl⟩
    rfl
  next := by
    rintro ⟨i, m⟩ ⟨i', m'⟩ ⟨-, -, t, o, rfl, rfl⟩
    cases o with
    | nil => exact h
    | cons u o => rfl
  advance := by
    rintro ⟨i, m⟩ ⟨i', m'⟩ ⟨hm, hlen, t, o, rfl, rfl⟩
    cases o with
    | nil => exact .inl (Nat.le_refl _)
    | cons u o => exact .inr ⟨hm, (Nat.le_succ _).trans hlen, u, o, rfl, rfl⟩
  note := by
    rintro r r' m ⟨hm, hlen, ho⟩
    exact ⟨congrArg (Array.push · m) hm, hlen, ho⟩
  fits hr := hr.2.1
  lost ho _ hr := ho.length_le.trans hr

end Seam

namespace Grammar

section Loop

variable {semi e : Token} {o out : List Token}

theorem Shut.ne_nil (h : Shut (o ++ [semi]) out) (hsemi : semi.kind = .semicolon)
    (h0 : surplus (o ++ [semi]) = 0) : o ≠ [] ∧ out ≠ [] := by
  rcases h with ⟨-, t, ht, pre, hpre⟩ | hopen
  · have hout : out ≠ [] := by
      rintro rfl
      cases (List.append_inj' hpre rfl).2
      exact ht hsemi
    refine ⟨?_, hout⟩
    rintro rfl
    have hlen := congrArg List.length hpre
    have hpos := List.length_pos_iff.mpr hout
    simp only [List.length_append, List.length_cons, List.length_nil] at hlen
    omega
  · exact absurd h0 (Int.ne_of_gt hopen.surplus)

section Ending

variable (hsemi : semi.kind = .semicolon) (he : e.kind = .eof) (ho : ∀ t ∈ o, t.kind ≠ .eof)

include hsemi he ho

theorem live_seam : Ended (o ++ [semi, e]) ∧ live (o ++ [semi, e]) = o ++ [semi] := by
  have hts : ∀ t ∈ o ++ [semi], t.kind ≠ .eof := by
    intro t ht
    rcases List.mem_append.mp ht with ht | ht
    · exact ho t ht
    · rw [List.mem_singleton.mp ht, hsemi]
      decide
  have := live_append hts he
  rwa [List.append_assoc] at this

theorem live_tail_seam : live (o ++ [semi, e]).tail = (o ++ [semi]).tail := by
  cases o with
  | nil => exact live_eof he
  | cons t o => exact (live_seam hsemi he fun u hu => ho u (List.mem_cons_of_mem t hu)).2

end Ending

theorem firstKind_seam (hsemi : semi.kind = .semicolon) (ho : ∀ t ∈ o, t.kind ≠ .eof)
    (y : List Token) : firstKind (o ++ semi :: y) ≠ .eof := by
  cases o with
  | nil => simp [hsemi]
  | cons t o => exact ho t List.mem_cons_self

theorem live_tail_of_lost (he : e.kind = .eof) {ts : List Token} (hts : ts <:+ o ++ [semi, e])
    (hlen : ts.length ≤ [semi, e].length) : live ts.tail = [] := by
  have hlast : ts.tail <:+ [e] :=
    tail_suffix_tail (List.suffix_of_suffix_length_le hts (List.suffix_append o _) hlen)
  rcases List.suffix_cons_iff.mp hlast with h | h
  · rw [h]
    exact live_eof he
  · rw [List.suffix_nil.mp h]
    rfl

variable {g G : Inside} [Sound g] {more : List Token} (hsemi : semi.kind = .semicolon)
  (he : e.kind = .eof) (hg : ∀ level,
    Mirrors (Reading.seam [semi, e] (semi :: more) g.size) (Expr.move id) (g.expr level) (G.expr level))

include hsemi he hg

theorem stmtBody_joined (ho : ∀ t ∈ o, t.kind ≠ .eof) (hlen : (o ++ [semi, e]).length ≤ g.size)
    (h0 : surplus (o ++ [semi]) = 0) {m : Array Mistake} {s : Stmt} {r : Reading}
    (hrun : stmtBody g ⟨o ++ [semi, e], m⟩ = .ok s r) (hclean : r.mistakes.size = m.size) :
    ∃ t o', r.tokens = t :: o' ++ [semi, e] ∧
      stmtBody G ⟨o ++ semi :: more, m⟩ = .ok s ⟨t :: o' ++ semi :: more, r.mistakes⟩ := by
  obtain ⟨hended, hlive⟩ := live_seam hsemi he ho
  have hshut := ((clean_stmtBody ⟨hended, hlen⟩ m r hclean).1 s hrun).shut
  rw [hlive] at hshut
  obtain ⟨hne, hout⟩ := hshut.ne_nil hsemi h0
  obtain ⟨t, o, rfl⟩ := List.exists_cons_of_ne_nil hne
  have hS := Reading.tracks_seam (y := [semi, e]) (z := semi :: more) rfl g.size
  have hin : ¬(Reading.seam [semi, e] (semi :: more) g.size).Lost
      (finalState (stmtBody g) ⟨t :: o ++ [semi, e], m⟩) := by
    rw [finalState_ok hrun]
    intro hlost
    exact hout (live_tail_of_lost he (suffix_of_ok hrun) hlost)
  have hrel : (Reading.seam [semi, e] (semi :: more) g.size).Rel ⟨t :: o ++ [semi, e], m⟩
      ⟨t :: o ++ semi :: more, m⟩ :=
    ⟨rfl, hlen, t, o, rfl, rfl⟩
  rcases (tracks_stmtBody hS hg).ends hrel hin with
    ⟨s', r', q, hp, hq, hm, -, u, o', hr, hq'⟩ | ⟨_, _, _, hp, -⟩
  · cases hrun.symm.trans hp
    refine ⟨u, o', hr, hq.trans ?_⟩
    rw [Stmt.move_id, ← hm, ← hq']
  · cases hrun.symm.trans hp

theorem stmt_joined (ho : ∀ t ∈ o, t.kind ≠ .eof) (hlen : (o ++ [semi, e]).length ≤ g.size)
    (h0 : surplus (o ++ [semi]) = 0) {m : Array Mistake} {s : Stmt} {r : Reading}
    (hrun : stmt g ⟨o ++ [semi, e], m⟩ = .ok s r) (hclean : r.mistakes.size = m.size) :
    ∃ o', r.tokens = o' ++ [semi, e] ∧
      stmt G ⟨o ++ semi :: more, m⟩ = .ok s ⟨o' ++ semi :: more, r.mistakes⟩ := by
  rw [stmt_eq] at hrun ⊢
  obtain ⟨s', ⟨i, m'⟩, hbody, hrun⟩ := bind_eq_ok hrun
  obtain ⟨_, r', hskip, hpure⟩ := bind_eq_ok hrun
  cases hpure
  have hclean' : m'.size = m.size :=
    Nat.le_antisymm (hclean ▸ mistakes_of_ok hskip) (mistakes_of_ok hbody)
  obtain ⟨t, o', rfl, hbody'⟩ := stmtBody_joined hsemi he hg ho hlen h0 hbody hclean'
  rw [bind_ok hbody']
  have hkind : firstKind (o' ++ semi :: more) = firstKind (o' ++ [semi, e]) := by cases o' <;> rfl
  by_cases hk : firstKind (o' ++ [semi, e]) = .semicolon
  · cases hskip.symm.trans (yields_skip (i := t :: o' ++ [semi, e]) hk m')
    refine ⟨o', rfl, ?_⟩
    exact bind_ok (yields_skip (i := t :: o' ++ semi :: more) (hkind.trans hk) m')
  · cases hskip.symm.trans (yields_skip_other (i := t :: o' ++ [semi, e]) hk m')
    refine ⟨t :: o', rfl, ?_⟩
    exact bind_ok (yields_skip_other (i := t :: o' ++ semi :: more) (hkind ▸ hk) m')

omit hg in
theorem surplus_joined {o' : List Token} (ho : ∀ t ∈ o, t.kind ≠ .eof)
    (hlen : (o ++ [semi, e]).length ≤ g.size) (h0 : surplus (o ++ [semi]) = 0) {m m' : Array Mistake}
    {s : Stmt} (hrun : stmt g ⟨o ++ [semi, e], m⟩ = .ok s ⟨o' ++ [semi, e], m'⟩)
    (hclean : m'.size = m.size) : o' <:+ o ∧ surplus (o' ++ [semi]).tail = 0 := by
  obtain ⟨hended, hlive⟩ := live_seam hsemi he ho
  have hsuffix : o' <:+ o := by
    obtain ⟨pre, hpre⟩ := suffix_of_ok hrun
    exact ⟨pre, List.append_cancel_right ((List.append_assoc ..).trans hpre)⟩
  have hs := (clean_stmt ⟨hended, hlen⟩ m ⟨o' ++ [semi, e], m'⟩ hclean).1 s hrun
  have hbalanced := (hs.mono fun _ _ _ => free_of_careful).brackets
  rw [hlive, live_tail_seam hsemi he fun t ht => ho t (hsuffix.subset ht)] at hbalanced
  exact ⟨hsuffix, hbalanced.surplus_eq h0⟩

/-- Each statement takes tokens away, until the last semicolon is the current token; the next round
starts at the first token after it. -/
theorem statements_joined {k k' : Nat} (ho : ∀ t ∈ o, t.kind ≠ .eof)
    (hlen : (o ++ [semi, e]).length ≤ g.size) (hk : (o ++ [semi, e]).length ≤ k)
    (hk' : (o ++ semi :: more).length ≤ k') (h0 : surplus (o ++ [semi]) = 0) {m : Array Mistake}
    {ss : List Stmt} {q : Reading}
    (hrun : statements (stmt g) (· = .eof) k ⟨o ++ [semi, e], m⟩ = .ok ss q)
    (hclean : q.mistakes.size = m.size) :
    ∃ j, more.length ≤ j ∧ statements (stmt G) (· = .eof) k' ⟨o ++ semi :: more, m⟩ =
      (statements (stmt G) (· = .eof) j >>= fun rest => pure (ss ++ rest)) ⟨more, q.mistakes⟩ := by
  induction k generalizing o m ss k' with
  | zero => simp at hk
  | succ k ih =>
      obtain ⟨k', rfl⟩ : ∃ n, k' = n + 1 := Nat.exists_eq_succ_of_ne_zero (by simp at hk'; omega)
      obtain ⟨hended, -⟩ := live_seam hsemi he ho
      rw [statements_go (by simpa using firstKind_seam hsemi ho [e])] at hrun
      obtain ⟨a, ⟨i, m'⟩, hattempt, hrun⟩ := bind_eq_ok hrun
      rw [bind_ok (yields_advance i m')] at hrun
      obtain ⟨rest, q', hrest, hpure⟩ := bind_eq_ok hrun
      cases hpure
      have hm : m'.size = m.size :=
        Nat.le_antisymm (hclean ▸ mistakes_of_ok hrest) (mistakes_of_ok hattempt)
      obtain ⟨s, rfl, -⟩ := ((clean_stmt ⟨hended, hlen⟩).attempt m ⟨i, m'⟩ hm).1 a hattempt
      have hs := attempt_eq_some.mp hattempt
      obtain ⟨o', rfl, hs'⟩ := stmt_joined hsemi he hg ho hlen h0 hs hm
      obtain ⟨hsuffix, h0'⟩ := surplus_joined hsemi he ho hlen h0 hs hm
      rw [statements_go (by simpa using firstKind_seam hsemi ho more),
        bind_ok (attempt_eq_some.mpr hs'), bind_ok (yields_advance _ m')]
      cases o' with
      | nil =>
          cases hrest.symm.trans (statements_stop (r := ⟨[e], m'⟩) (by simp [he]) k)
          refine ⟨k', ?_, rfl⟩
          simp only [List.length_append, List.length_cons] at hk'
          omega
      | cons t o' =>
          have hshorter (y : List Token) : (o' ++ y).length < (o ++ y).length := by
            have hlt : o'.length < o.length := hsuffix.length_le
            rw [List.length_append, List.length_append]
            omega
          obtain ⟨j, hj, hjoined⟩ := ih
            (fun u hu => ho u (hsuffix.subset (List.mem_cons_of_mem t hu)))
            ((hshorter _).le.trans hlen) (Nat.le_of_lt_succ ((hshorter _).trans_le hk))
            (Nat.le_of_lt_succ ((hshorter _).trans_le hk')) h0' hrest (hclean.trans hm.symm)
          refine ⟨j, hj, (bind_of_eq hjoined).trans ?_⟩
          simp only [bind_assoc, pure_bind, List.append_assoc]

end Loop

end Grammar

namespace Program

def Draft.after (ss : List Stmt) (d : Draft) : Draft :=
  { d with program := ⟨ss ++ d.program.stmts⟩ }

variable {f : Pos → Pos} {depth : Nat} {tb : List Token} {e : Token} {d : Draft}

theorem ofTokens?_end (he : e.kind = .eof) (depth : Nat) :
    ofTokens? depth [e] = some ⟨⟨[]⟩, []⟩ := by
  rw [ofTokens?_eq, Grammar.program, Grammar.statements_stop (by simp [he])]
  rfl

theorem of?_statements (hf : f Pos.absent = Pos.absent) (hb : tb ≠ []) {n j : Nat} (hn : tb.length ≤ n)
    (hj : tb.length ≤ j) (ss : List Stmt) :
    Draft.of? ((Grammar.statements (Grammar.stmt ⟨n, Expr.read n depth⟩) (· = .eof) j >>=
        fun rest => pure (ss ++ rest)) ⟨tb.map (Token.move f), #[]⟩) =
      (ofTokens? depth tb).map fun b => (b.move f).after ss := by
  have hS := Reading.tracks_moving hf tb.length
  have hpos : 0 < tb.length := List.length_pos_iff.mpr hb
  have hread := Grammar.tracks_text hS hpos (Nat.le_refl _) hn (Nat.le_refl _) hj depth
  rw [ofTokens?_eq, Grammar.program]
  rcases hread.ends (s := ⟨tb, #[]⟩) (t := ⟨tb.map (Token.move f), #[]⟩) ⟨rfl, Nat.le_refl _⟩ id with
    ⟨ss', r, r', hp, hq, rfl, -⟩ | ⟨x, r, r', hp, hq, -⟩
  · rw [hp, bind_ok hq]
    rfl
  · rw [hp, bind_error hq]
    rfl

theorem ofTokens?_seam (hf : f Pos.absent = Pos.absent) {o : List Token} {semi : Token}
    (hsemi : semi.kind = .semicolon) (he : e.kind = .eof) (ho : ∀ t ∈ o, t.kind ≠ .eof)
    (h0 : surplus (o ++ [semi]) = 0) (hd : ofTokens? depth (o ++ [semi, e]) = some d)
    (hm : d.mistakes = []) (hb : tb ≠ []) :
    ofTokens? depth (o ++ semi :: tb.map (Token.move f)) =
      (ofTokens? depth tb).map fun b => (b.move f).after d.program.stmts := by
  have hpos : 0 < tb.length := List.length_pos_iff.mpr hb
  have hle : (o ++ [semi, e]).length ≤ (o ++ semi :: tb.map (Token.move f)).length := by
    simp only [List.length_append, List.length_cons, List.length_map, List.length_nil]
    omega
  have hle' : tb.length ≤ (o ++ semi :: tb.map (Token.move f)).length := by
    simp only [List.length_append, List.length_cons, List.length_map]
    omega
  rw [ofTokens?_eq] at hd ⊢
  cases hrun : Grammar.program (o ++ [semi, e]).length depth ⟨o ++ [semi, e], #[]⟩ with
  | error x q =>
      rw [hrun] at hd
      cases hd
  | ok ss q =>
      rw [hrun] at hd
      cases hd
      have hq : q.mistakes = #[] := Array.toList_eq_nil_iff.mp hm
      have hS := Reading.tracks_seam (y := [semi, e]) (z := semi :: tb.map (Token.move f)) rfl
        (o ++ [semi, e]).length
      have hg := Grammar.tracks_read hS (by simp) (Nat.le_refl _) hle depth
      obtain ⟨j, hj, hjoined⟩ := Grammar.statements_joined (g := ⟨_, Expr.read _ depth⟩)
        (G := ⟨_, Expr.read _ depth⟩) hsemi he hg ho (Nat.le_refl _) (Nat.le_refl _) (Nat.le_refl _) h0
        hrun (by rw [hq])
      rw [Grammar.program, hjoined, hq]
      exact of?_statements hf hb hle' (by simpa using hj) ss

theorem ofTokens?_join (hf : f Pos.absent = Pos.absent) {ts : List Token} (he : e.kind = .eof)
    (hts : ∀ t ∈ ts, t.kind ≠ .eof) (hlast : ∀ t ∈ ts.getLast?, t.kind = .semicolon)
    (h0 : surplus ts = 0) (hd : ofTokens? depth (ts ++ [e]) = some d) (hm : d.mistakes = [])
    (hb : tb ≠ []) :
    ofTokens? depth (ts ++ tb.map (Token.move f)) =
      (ofTokens? depth tb).map fun b => (b.move f).after d.program.stmts := by
  rcases List.eq_nil_or_concat ts with rfl | ⟨o, semi, rfl⟩
  · cases hd.symm.trans (ofTokens?_end he depth)
    exact ofTokens?_move hf depth tb
  · rw [List.concat_eq_append] at hts hlast h0 hd ⊢
    rw [List.append_assoc] at hd ⊢
    have hsemi := hlast semi (by simp)
    exact ofTokens?_seam hf hsemi he (fun t ht => hts t (List.mem_append_left _ ht)) h0 hd hm hb

end Program

end Marmoset
