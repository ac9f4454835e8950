import Marmoset.Proofs.Eval.Passing
import Marmoset.Proofs.Layout
import Marmoset.Proofs.Token.Joined
import Marmoset.Proofs.Tree.Joined

namespace Marmoset

def Concluded (text : String) : Prop :=
  Token.surplus (Token.ofText text).dropLast = 0 ∧
    (Token.ofText text).dropLast.getLast?.all (·.kind = .semicolon) = true

instance : DecidablePred Concluded := fun _ => inferInstanceAs (Decidable (_ ∧ _))

theorem Program.ofText?_join {depth : Nat} {a : String} {d : Program.Draft}
    (ha : Program.ofText? depth a = some d) (hm : d.mistakes = []) (hc : Concluded a) (b : String) :
    Program.ofText? depth (a ++ "\n" ++ b) = (Program.ofText? depth b).map fun e =>
      (e.move (Pos.down (1 + a.toList.count '\n'))).after d.program.stmts := by
  obtain ⟨hsurplus, hall⟩ := hc
  have hlast : ∀ t ∈ (Token.ofText a).dropLast.getLast?, t.kind = .semicolon := by
    simpa [Option.all_eq_true] using hall
  have hclosed : (Cursor.start a).Closed := by
    apply Cursor.closed_of_last
    intro t ht
    rw [hlast t ht]
    decide
  obtain ⟨ts, e, hts, he, hkinds⟩ := Token.ofText_ending a
  obtain ⟨us, u, hus, -, -⟩ := Token.ofText_ending b
  have hne : Token.ofText b ≠ [] := by simp [hus]
  rw [Program.ofText?, hts] at ha
  rw [hts, List.dropLast_concat] at hsurplus hlast
  rw [Program.ofText?, Token.ofText_join hclosed, hts, List.dropLast_concat]
  exact Program.ofTokens?_join (Pos.down_absent _) he hkinds hlast hsurplus ha hm hne

theorem Program.Draft.move_nowhere {depth : Nat} {text : String} {d : Program.Draft}
    (hd : Program.ofText? depth text = some d) {f : Pos → Pos} (hf : f Pos.absent = Pos.absent) :
    (d.program.move f).move nowhere = d.program.move nowhere := by
  have hmoved := Program.ofTokens?_move hf depth (Token.ofText text)
  have htwice := Program.ofTokens?_move (f := nowhere) rfl depth ((Token.ofText text).map (Token.move f))
  have honce := Program.ofTokens?_move (f := nowhere) rfl depth (Token.ofText text)
  rw [Program.ofText?] at hd
  rw [hd] at hmoved honce
  rw [hmoved, List.map_map] at htwice
  have hsame := htwice.symm.trans honce
  exact congrArg Program.Draft.program (Option.some.inj hsame)

namespace Eval

variable {s : Setting} {scope : ScopeId} {st st' : Store} {pre post : List Stmt}

def Completes (s : Setting) (scope : ScopeId) (ss : List Stmt) (st st' : Store) : Prop :=
  ∃ v, stmts (run s s.depth) scope .null ss st = .ok v st' ∧ v.leaves = false

theorem program_append (h : Completes s scope pre st st') (hpost : post ≠ []) :
    program s scope ⟨pre ++ post⟩ st = program s scope ⟨post⟩ st' := by
  obtain ⟨v, hpre, hv⟩ := h
  unfold program
  apply bind_of_eq
  rw [stmts_append rfl, bind_ok hpre, if_neg (by simp [hv])]
  cases post with
  | nil => exact absurd rfl hpost
  | cons x post => rfl

theorem Completes.program (h : Completes s scope pre st st') :
    ∃ v, program s scope ⟨pre⟩ st = .ok v st' := by
  obtain ⟨v, hpre, -⟩ := h
  exact ⟨v.settle, bind_ok hpre⟩

theorem program_append_left (h : ¬∃ st', Completes s scope pre st st') :
    program s scope ⟨pre ++ post⟩ st = program s scope ⟨pre⟩ st := by
  unfold program
  apply bind_of_eq
  rw [stmts_append rfl]
  cases hpre : stmts (run s s.depth) scope .null pre st with
  | ok v st' =>
      have hv : v.leaves = true := by
        by_contra hv
        exact h ⟨st', v, hpre, Bool.eq_false_iff.mpr hv⟩
      rw [bind_ok hpre, if_pos hv]
      rfl
  | error why st' => rw [bind_error hpre]

end Eval

namespace Session

variable {s : Session} {a b : String} {d e : Program.Draft}

theorem run_completed (hd : Program.ofText? s.setting.depth a = some d) (hm : d.mistakes = [])
    {st : Store} (hst : Eval.Completes s.setting s.scope d.program.stmts s.store st) :
    (s.run a).2 = { s with store := st } := by
  obtain ⟨v, hv⟩ := hst.program
  exact congrArg Prod.snd ((run_eq hd hm).trans (congrArg (ended s.setting s.scope) hv))

theorem run_after {ss : List Stmt} {f : Pos → Pos} (hf : f Pos.absent = Pos.absent)
    (hb : Program.ofText? s.setting.depth b = some e) (hm : e.mistakes = [])
    (ha : Program.ofText? s.setting.depth a = some ((e.move f).after ss)) (hne : e.program.stmts ≠ [])
    {st : Store} (hst : Eval.Completes s.setting s.scope ss s.store st) :
    (s.run a).1.Alike (run { s with store := st } b).1 ∧
      (s.run a).2.Alike (run { s with store := st } b).2 := by
  have hpost : (e.program.move f).stmts ≠ [] := by simpa [Program.move] using hne
  have hfirst : s.run a = ended s.setting s.scope (Eval.program s.setting s.scope (e.program.move f) st) :=
    (run_eq ha hm).trans (congrArg (ended s.setting s.scope) (Eval.program_append hst hpost))
  have hsecond : run { s with store := st } b =
      ended s.setting s.scope (Eval.program s.setting s.scope e.program st) :=
    run_eq (s := { s with store := st }) hb hm
  have hwritten : (e.program.move f).Every Node.Written := by
    intro x hx
    exact Program.written_of_text ha hm x (List.mem_append_right ss hx)
  have hrelabel : (e.program.move f).relabel .unplaced = e.program.relabel .unplaced := by
    rw [Program.relabel_unplaced hwritten, Program.Draft.move_nowhere hb hf]
    exact (Program.relabel_unplaced (Program.written_of_text hb hm)).symm
  rw [hfirst, hsecond]
  exact ended_alike s.setting s.scope hrelabel rfl

/-- A text after a concluded one is read as it would be alone, some lines further down. A run of both
is a run of the first and then of the second, or of the first alone if that does not come to its end. -/
theorem joined_text_runs_in_parts (s : Session) {a : String} {d : Program.Draft}
    (ha : Program.ofText? s.setting.depth a = some d) (hm : d.mistakes = []) (hc : Concluded a)
    (b : String) :
    let joined := a ++ "\n" ++ b
    let shift := Pos.down (1 + a.toList.count '\n')
    let completes := ∃ st, Eval.Completes s.setting s.scope d.program.stmts s.store st
    Program.ofText? s.setting.depth joined =
      (Program.ofText? s.setting.depth b).map (fun e => (e.move shift).after d.program.stmts) ∧
    ∀ e, Program.ofText? s.setting.depth b = some e → e.mistakes = [] → e.program.stmts ≠ [] →
      (completes → (s.run joined).1.Alike ((s.run a).2.run b).1 ∧
        (s.run joined).2.store.printed = ((s.run a).2.run b).2.store.printed ∧
        (s.run joined).2.Alike ((s.run a).2.run b).2) ∧
      (¬completes → s.run joined = s.run a) := by
  intro joined shift completes
  have hjoin := Program.ofText?_join ha hm hc b
  refine ⟨hjoin, ?_⟩
  intro e hb hm' hne
  have hj : Program.ofText? s.setting.depth joined = some ((e.move shift).after d.program.stmts) := by
    rw [hjoin, hb]
    rfl
  constructor
  · rintro ⟨st, hst⟩
    obtain ⟨hverdict, halike⟩ := run_after (Pos.down_absent _) hb hm' hj hne hst
    rw [run_completed ha hm hst]
    exact ⟨hverdict, congrArg (·.store.printed) halike, halike⟩
  · intro hst
    rw [run_eq hj hm', run_eq ha hm]
    exact congrArg (ended s.setting s.scope) (Eval.program_append_left hst)

theorem joined_text_runs_in_parts_function :
    let s := start ⟨[("puts", .puts)], 20, 20⟩
    let a := "let x = 2;\nputs(x);"
    let b := "let f = fn() \x7b x \x7d; f()"
    Concluded a ∧ (s.run (a ++ "\n" ++ b)).1.Alike (.value (.integer 2)) ∧
      (s.run (a ++ "\n" ++ b)).2.store.printed = "2\n" ∧
      s.run ("return 7;" ++ "\n" ++ b) = (.value (.integer 7), s) := by
  intro s a b
  let d : Program.Draft := ⟨⟨[.bind ⟨1, 1⟩ ⟨⟨1, 5⟩, "x"⟩ (.int ⟨1, 9⟩ 2),
    .expr ⟨2, 1⟩ (.call ⟨2, 1⟩ (.ident ⟨⟨2, 1⟩, "puts"⟩) [.ident ⟨⟨2, 6⟩, "x"⟩])]⟩, []⟩
  let e : Program.Draft := ⟨⟨[.bind ⟨1, 1⟩ ⟨⟨1, 5⟩, "f"⟩ (.fn ⟨1, 9⟩ []
      (.mk ⟨1, 14⟩ [.expr ⟨1, 16⟩ (.ident ⟨⟨1, 16⟩, "x"⟩)])),
    .expr ⟨1, 21⟩ (.call ⟨1, 21⟩ (.ident ⟨⟨1, 21⟩, "f"⟩) [])]⟩, []⟩
  let returns : Program.Draft := ⟨⟨[.ret ⟨1, 1⟩ (some (.int ⟨1, 8⟩ 7))]⟩, []⟩
  let bound : Session := ⟨s.setting, 0, ⟨#[⟨[("x", .integer 2)], none⟩], "2\n", 2⟩⟩
  have ha : Program.ofText? s.setting.depth a = some d := by cbv
  have hb : Program.ofText? s.setting.depth b = some e := by cbv
  have hreturns : Program.ofText? s.setting.depth "return 7;" = some returns := by cbv
  have hc : Concluded a := of_decide_eq_true (by cbv)
  have hne : e.program.stmts ≠ [] := List.cons_ne_nil _ _
  obtain ⟨-, hboth⟩ := s.joined_text_runs_in_parts ha rfl hc b
  obtain ⟨-, hleft⟩ := s.joined_text_runs_in_parts hreturns rfl (of_decide_eq_true (by cbv)) b
  have hcompletes : Eval.Completes s.setting s.scope d.program.stmts s.store bound.store :=
    ⟨.null, by cbv, rfl⟩
  have hreturned : ¬∃ st, Eval.Completes s.setting s.scope returns.program.stmts s.store st := by
    rintro ⟨st, v, hrun, hv⟩
    have hseven : Eval.stmts (Eval.run s.setting s.setting.depth) s.scope .null returns.program.stmts
        s.store = .ok (.returned (.integer 7)) s.store := rfl
    injection hseven.symm.trans hrun with hvalue
    rw [← hvalue] at hv
    cases hv
  have hsecond : (bound.run b).1 = .value (.integer 2) ∧ (bound.run b).2.store.printed = "2\n" := by
    rw [run_eq (s := bound) hb rfl]
    exact ⟨rfl, rfl⟩
  obtain ⟨hverdict, hprinted, -⟩ := (hboth e hb rfl hne).1 ⟨bound.store, hcompletes⟩
  rw [run_completed ha rfl hcompletes] at hverdict hprinted
  refine ⟨hc, hsecond.1 ▸ hverdict, hprinted.trans hsecond.2, ?_⟩
  exact ((hleft e hb rfl hne).2 hreturned).trans (run_eq hreturns rfl)

end Session

end Marmoset
