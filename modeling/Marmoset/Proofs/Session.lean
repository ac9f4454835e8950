import Marmoset.Proofs.Eval.Invariant
import Marmoset.Proofs.Tree.Whole
import Marmoset.Proofs.Value.Parts
import Marmoset.Session

namespace Marmoset

def Verdict.Within (P : Value → Prop) (H : Halt → Prop) : Verdict → Prop
  | .value v => P v
  | .rejected mistakes => mistakes ≠ []
  | .halted why => H why

theorem Verdict.Within.mono {P P' : Value → Prop} {H H' : Halt → Prop} {v : Verdict}
    (h : v.Within P H) (hP : ∀ w, P w → P' w) (hH : ∀ why, H why → H' why) : v.Within P' H' := by
  cases v with
  | value w => exact hP w h
  | rejected mistakes => exact h
  | halted why => exact hH why h

namespace Session

def runAll : Session → List String → List Verdict × Session
  | s, [] => ([], s)
  | s, text :: texts =>
      ((s.run text).1 :: ((s.run text).2.runAll texts).1, ((s.run text).2.runAll texts).2)

def ended (setting : Setting) (scope : ScopeId) :
    EStateM.Result Halt Store Value → Verdict × Session
  | .ok v store => (.value v, ⟨setting, scope, store⟩)
  | .error why store => (.halted why, ⟨setting, scope, store⟩)

theorem run_eq {s : Session} {text : String} {d : Program.Draft}
    (hd : Program.ofText? s.setting.depth text = some d) (hm : d.mistakes = []) :
    s.run text = ended s.setting s.scope (Eval.program s.setting s.scope d.program s.store) := by
  simp only [run, hd, hm, runProgram, List.isEmpty_nil, if_true]
  cases Eval.program s.setting s.scope d.program s.store <;> rfl

theorem run_cases (s : Session) (text : String) :
    (Program.ofText? s.setting.depth text = none ∧ s.run text = (.halted .tooDeep, s)) ∨
    ∃ d, Program.ofText? s.setting.depth text = some d ∧
      ((d.mistakes ≠ [] ∧ s.run text = (.rejected d.mistakes, s)) ∨
      (d.mistakes = [] ∧
        ((∃ v store, Eval.program s.setting s.scope d.program s.store = .ok v store ∧
          s.run text = (.value v, { s with store })) ∨
        ∃ why store, Eval.program s.setting s.scope d.program s.store = .error why store ∧
          s.run text = (.halted why, { s with store })))) := by
  cases hd : Program.ofText? s.setting.depth text with
  | none => exact .inl ⟨rfl, by simp [run, hd]⟩
  | some d =>
      refine .inr ⟨d, rfl, ?_⟩
      by_cases hm : d.mistakes = []
      · refine .inr ⟨hm, ?_⟩
        rw [run_eq hd hm]
        cases Eval.program s.setting s.scope d.program s.store with
        | ok v store => exact .inl ⟨v, store, rfl, rfl⟩
        | error why store => exact .inr ⟨why, store, rfl, rfl⟩
      · exact .inl ⟨hm, by simp [run, hd, hm]⟩

theorem run_store {s : Session} {text : String} {d : Program.Draft}
    (hd : Program.ofText? s.setting.depth text = some d) (hm : d.mistakes = []) :
    (s.run text).2.store = finalState (Eval.program s.setting s.scope d.program) s.store := by
  rw [run_eq hd hm, finalState]
  cases Eval.program s.setting s.scope d.program s.store <;> rfl

theorem run_setting (s : Session) (text : String) : (s.run text).2.setting = s.setting := by
  rcases run_cases s text with ⟨-, h⟩ | ⟨d, -, ⟨-, h⟩ | ⟨-, ⟨v, store, -, h⟩ | ⟨why, store, -, h⟩⟩⟩ <;>
    rw [h]

theorem runAll_length (s : Session) (texts : List String) :
    (s.runAll texts).1.length = texts.length := by
  induction texts generalizing s with
  | nil => rfl
  | cons text texts ih =>
      have hrest := ih (s.run text).2
      simp only [runAll, List.length_cons, hrest]

section Keeps

variable {s : Session} {Q : Node → Prop} {T : Table Value → Prop} {K : Value → Prop}

theorem start_holds (setting : Setting) : (start setting).store.Holds K := by
  have hempty : Store.empty.Holds K := fun sc hsc => absurd hsc (Array.not_mem_empty sc)
  exact hempty.push none

theorem top_good (hQ : ∀ x : Node, x.Written → Q x) (hst : s.store.Holds K) {text : String}
    {d : Program.Draft} (hd : Program.ofText? s.setting.depth text = some d) (hm : d.mistakes = []) :
    (Eval.Point.top s.setting s.scope d.program s.store).Good Q K := by
  have hwritten := Program.written_of_text hd hm
  exact Eval.top_good hst (hQ _ trivial) fun x hx => (hwritten x hx).mono hQ

theorem run_keeps_of (h : Eval.Regular s.setting Q T K) (hQ : ∀ x : Node, x.Written → Q x)
    (hst : s.store.Holds K) (text : String)
    (ht : ∀ d, Program.ofText? s.setting.depth text = some d → d.mistakes = [] →
      Eval.Tight s.setting K (.top s.setting s.scope d.program s.store))
    (hn : ∀ d, Program.ofText? s.setting.depth text = some d → d.mistakes = [] →
      Eval.Modest s.setting K (.top s.setting s.scope d.program s.store)) :
    (s.run text).1.Within (Value.Made K) (Halt.Arises Q) ∧ (s.run text).2.store.Holds K := by
  rcases run_cases s text with ⟨-, hrun⟩ | ⟨d, hd, ⟨hm, hrun⟩ | ⟨hm, hprogram⟩⟩
  · rw [hrun]
    exact ⟨trivial, hst⟩
  · rw [hrun]
    exact ⟨hm, hst⟩
  · obtain ⟨hok, herror⟩ := (hn d hd hm).keeps_program h (top_good hQ hst hd hm) (ht d hd hm)
    rcases hprogram with ⟨v, store, heval, hrun⟩ | ⟨why, store, heval, hrun⟩
    · rw [hrun]
      exact (hok v store heval).symm
    · rw [hrun]
      exact (herror why store heval).symm

theorem run_keeps (h : Eval.Lawful s.setting Q T K) (hQ : ∀ x : Node, x.Written → Q x)
    (hst : s.store.Holds K) (text : String)
    (ht : ∀ d, Program.ofText? s.setting.depth text = some d → d.mistakes = [] →
      Eval.Tight s.setting K (.top s.setting s.scope d.program s.store)) :
    (s.run text).1.Within (Value.Made K) (Halt.Arises Q) ∧ (s.run text).2.store.Holds K :=
  run_keeps_of h.toRegular hQ hst text ht fun _ _ _ => h.modest _

theorem runAll_keeps (h : Eval.Lawful s.setting Q T K) (hQ : ∀ x : Node, x.Written → Q x)
    (hreturned : ∀ v, K v → K (.returned v)) (hst : s.store.Holds K) (texts : List String) :
    (∀ v ∈ (s.runAll texts).1, v.Within (Value.Made K) (Halt.Arises Q)) ∧
      (s.runAll texts).2.store.Holds K := by
  induction texts generalizing s with
  | nil => exact ⟨List.forall_mem_nil _, hst⟩
  | cons text texts ih =>
      obtain ⟨hverdict, hst'⟩ := run_keeps h hQ hst text
        fun d _ _ => Eval.tight_of_returned hreturned _
      obtain ⟨hrest, hlast⟩ := ih ((run_setting s text).symm ▸ h) hst'
      exact ⟨List.forall_mem_cons.mpr ⟨hverdict, hrest⟩, hlast⟩

end Keeps

end Session

def Value.Whole : Value → Prop := Value.All { body := Node.Whole }

def Halt.IsLimit : Halt → Prop
  | .tooDeep | .endless => True
  | .unknownExpr _ | .unknownStmt _ => False

theorem Value.whole_of_made {v : Value} (h : v.Made Value.Whole) : v.Whole := by
  rcases h with h | ⟨f, rfl⟩
  · exact h
  · exact (Value.every_atom rfl).mpr trivial

theorem Halt.isLimit_of_whole {why : Halt} (h : why.Arises Node.Whole) : why.IsLimit := by
  cases why with
  | tooDeep => trivial
  | endless => trivial
  | unknownExpr name =>
      rcases h with ⟨-, h⟩ | ⟨pos, h⟩
      · exact h
      · exact h
  | unknownStmt name =>
      obtain ⟨pos, h⟩ := h
      exact h

theorem Eval.lawful_whole (s : Setting) :
    Eval.Lawful s Node.Whole (Value.EachEntry Value.Whole) Value.Whole :=
  Eval.lawful_all (c := { body := Node.Whole }) (fun _ _ => trivial) (fun _ _ _ => trivial)
    (fun _ _ _ => trivial) fun _ _ => trivial

theorem Session.runAll_whole (setting : Setting) (texts : List String) :
    (∀ v ∈ ((start setting).runAll texts).1, v.Within Value.Whole Halt.IsLimit) ∧
      ((start setting).runAll texts).2.store.Holds Value.Whole := by
  obtain ⟨hverdicts, hstore⟩ := runAll_keeps (Eval.lawful_whole (start setting).setting)
    (fun _ hx => hx.whole) (fun _ hv => Value.every_returned.mpr ⟨trivial, hv⟩)
    (start_holds setting) texts
  refine ⟨fun v hv => ?_, hstore⟩
  exact (hverdicts v hv).mono (fun _ => Value.whole_of_made) fun _ => Halt.isLimit_of_whole

/-- In whatever order texts are run in a scope that starts empty, and whatever names the builtin
functions have, each text ends with a value, with mistakes or at a limit. Trees without mistakes have
no gaps, and neither have the functions that values, bound ones or final ones, are made of. -/
theorem Session.texts_end_within_limits (setting : Setting) (texts : List String) :
    ((start setting).runAll texts).1.length = texts.length ∧
    (∀ v ∈ ((start setting).runAll texts).1, v.Within Value.Whole Halt.IsLimit) ∧
    ((start setting).runAll texts).2.store.Holds Value.Whole ∧
    ∀ depth text d, Program.ofText? depth text = some d → d.mistakes = [] →
      d.program.Every Node.Whole := by
  obtain ⟨hverdicts, hstore⟩ := runAll_whole setting texts
  refine ⟨runAll_length _ texts, hverdicts, hstore, fun depth text d hd hm x hx => ?_⟩
  exact (Program.written_of_text hd hm x hx).mono fun _ hy => hy.whole

theorem Session.texts_end_within_limits_endless :
    let setting : Setting := ⟨[("size", .len)], 9, 9⟩
    let texts := ["let f = fn(x) \x7b f(x) \x7d", "f(", "f(size)"]
    let f : Value := .function 1 [⟨⟨1, 12⟩, "x"⟩] (.mk ⟨1, 15⟩ [.expr ⟨1, 17⟩ (.call ⟨1, 17⟩
      (.ident ⟨⟨1, 17⟩, "f"⟩) [.ident ⟨⟨1, 19⟩, "x"⟩])]) 0
    let verdicts : List Verdict :=
      [.value f, .rejected [.noExpression .eof, .expected .rparen .eof], .halted .tooDeep]
    ((start setting).runAll texts).1 = verdicts ∧
      (∀ v ∈ verdicts, v.Within Value.Whole Halt.IsLimit) ∧
      ((start setting).runAll texts).2.find? "f" = some f ∧ f.Whole := by
  intro setting texts f verdicts
  have hverdicts : ((start setting).runAll texts).1 = verdicts := by cbv
  have hfound : ((start setting).runAll texts).2.find? "f" = some f := by cbv
  obtain ⟨-, hwithin, hstore, -⟩ := texts_end_within_limits setting texts
  exact ⟨hverdicts, hverdicts ▸ hwithin, hfound, hstore.find? hfound⟩

end Marmoset
