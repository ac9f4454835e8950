import Mathlib.Data.List.Forall2
import Marmoset.Proofs.Eval.Relabel
import Marmoset.Proofs.Session
import Marmoset.Proofs.Tree.Layout

namespace Marmoset

/-- The texts differ in blanks, line breaks and the spelling of their tokens only. -/
def SameTokens (a b : String) : Prop := Token.sameList (Token.ofText a) (Token.ofText b) = true

def Program.Draft.Alike (d e : Program.Draft) : Prop :=
  d.mistakes = e.mistakes ∧ d.program.Alike e.program

def Value.Alike (v w : Value) : Prop := v.relabel .unplaced = w.relabel .unplaced

def Verdict.Alike : Verdict → Verdict → Prop
  | .value v, .value w => v.Alike w ∧ ∀ depth, v.text? depth = w.text? depth
  | .rejected ms, .rejected ns => ms = ns
  | .halted why, .halted why' => why = why'
  | _, _ => False

def Session.unplaced (s : Session) : Session := { s with store := s.store.unplaced }

def Session.Alike (s t : Session) : Prop := s.unplaced = t.unplaced

theorem Value.Alike.text? {v w : Value} (h : v.Alike w) (depth : Nat) :
    v.text? depth = w.text? depth := by
  rw [← text?_relabel .unplaced v, ← text?_relabel .unplaced w, h]

theorem Program.ofText?_alike {a b : String} (h : SameTokens a b) (depth : Nat) :
    Option.Rel Program.Draft.Alike (Program.ofText? depth a) (Program.ofText? depth b) := by
  have hmove := Program.ofText?_move h depth
  cases ha : Program.ofText? depth a with
  | none =>
      rw [ha, Option.map_none] at hmove
      rw [Option.map_eq_none_iff.mp hmove.symm]
      exact .none
  | some d =>
      rw [ha, Option.map_some] at hmove
      obtain ⟨e, hb, hde⟩ := Option.map_eq_some_iff.mp hmove.symm
      rw [hb]
      obtain ⟨hprogram, hmistakes⟩ := Program.Draft.mk.inj hde.symm
      exact .some ⟨hmistakes, hprogram⟩

theorem Eval.program_alike (s : Setting) (scope : ScopeId) {p q : Program} {st tt : Store}
    (hp : p.relabel .unplaced = q.relabel .unplaced) (hst : st.unplaced = tt.unplaced) :
    (∃ v st' w tt', program s scope p st = .ok v st' ∧ program s scope q tt = .ok w tt' ∧
      v.Alike w ∧ st'.unplaced = tt'.unplaced) ∨
    ∃ why st' tt', program s scope p st = .error why st' ∧ program s scope q tt = .error why tt' ∧
      st'.unplaced = tt'.unplaced := by
  -- both runs go in step with the run without places
  have hS := Relabeling.respects_inPlace (r := .unplaced) rfl rfl "" ""
  have hleft := (mirrors_program hS s scope p).ends (t := st.unplaced) (Store.unplaced_iff.mpr rfl) id
  have hright := (mirrors_program hS s scope q).ends (t := st.unplaced) (Store.unplaced_iff.mpr hst) id
  simp only [Store.unplaced_iff, ← hp] at hleft hright
  rcases hleft with ⟨v, st', u, hv, hu, rfl⟩ | ⟨why, st', u, hv, hu, rfl⟩
  · rcases hright with ⟨w, tt', u', hw, hu', rfl⟩ | ⟨why, tt', u', hw, hu', -⟩
    · have hsame := hu.symm.trans hu'
      injection hsame with hvalue hstore
      exact .inl ⟨v, st', w, tt', hv, hw, hvalue, hstore⟩
    · cases hu.symm.trans hu'
  · rcases hright with ⟨w, tt', u', hw, hu', -⟩ | ⟨why', tt', u', hw, hu', rfl⟩
    · cases hu.symm.trans hu'
    · have hsame := hu.symm.trans hu'
      injection hsame with hwhy hstore
      exact .inr ⟨why, st', tt', hv, hwhy ▸ hw, hstore⟩

namespace Session

theorem ended_alike (setting : Setting) (scope : ScopeId) {p q : Program} {st tt : Store}
    (h : p.relabel .unplaced = q.relabel .unplaced) (hst : st.unplaced = tt.unplaced) :
    (ended setting scope (Eval.program setting scope p st)).1.Alike
        (ended setting scope (Eval.program setting scope q tt)).1 ∧
      (ended setting scope (Eval.program setting scope p st)).2.Alike
        (ended setting scope (Eval.program setting scope q tt)).2 := by
  rcases Eval.program_alike setting scope h hst with
    ⟨v, st', w, tt', hv, hw, hvw, hstore⟩ | ⟨why, st', tt', hv, hw, hstore⟩
  · rw [hv, hw]
    exact ⟨⟨hvw, hvw.text?⟩, congrArg (Session.mk setting scope) hstore⟩
  · rw [hv, hw]
    exact ⟨rfl, congrArg (Session.mk setting scope) hstore⟩

theorem run_alike {s t : Session} (hst : s.Alike t) {a b : String} (h : SameTokens a b) :
    (s.run a).1.Alike (t.run b).1 ∧ (s.run a).2.Alike (t.run b).2 := by
  obtain ⟨setting, scope, st⟩ := s
  obtain ⟨setting', scope', tt⟩ := t
  obtain ⟨rfl, rfl, hstore⟩ : setting = setting' ∧ scope = scope' ∧ st.unplaced = tt.unplaced := by
    simpa [Session.Alike, Session.unplaced] using hst
  have hdrafts := Program.ofText?_alike h setting.depth
  generalize ha : Program.ofText? setting.depth a = draft at hdrafts
  generalize hb : Program.ofText? setting.depth b = draft' at hdrafts
  cases hdrafts with
  | none =>
      simp only [run, ha, hb]
      exact ⟨rfl, hst⟩
  | @some d e hde =>
      obtain ⟨hmistakes, hprogram⟩ := hde
      by_cases hm : d.mistakes = []
      · have hm' : e.mistakes = [] := hmistakes ▸ hm
        have hd := Program.relabel_unplaced (Program.written_of_text ha hm)
        have he := Program.relabel_unplaced (Program.written_of_text hb hm')
        have hrelabel : d.program.relabel .unplaced = e.program.relabel .unplaced :=
          hd.trans (hprogram.trans he.symm)
        rw [run_eq (s := ⟨setting, scope, st⟩) ha hm, run_eq (s := ⟨setting, scope, tt⟩) hb hm']
        exact ended_alike setting scope hrelabel hstore
      · simp only [run, ha, hb, ← hmistakes, List.isEmpty_iff, hm, if_false]
        exact ⟨rfl, hst⟩

theorem runAll_alike {s t : Session} (hst : s.Alike t) {as bs : List String}
    (h : List.Forall₂ SameTokens as bs) :
    List.Forall₂ Verdict.Alike (s.runAll as).1 (t.runAll bs).1 ∧
      (s.runAll as).2.Alike (t.runAll bs).2 := by
  induction h generalizing s t with
  | nil => exact ⟨.nil, hst⟩
  | cons hab _ ih =>
      obtain ⟨hverdict, hst'⟩ := run_alike hst hab
      obtain ⟨hverdicts, hlast⟩ := ih hst'
      exact ⟨.cons hverdict hverdicts, hlast⟩

/-- Of two lists of texts with the same tokens, run in the same session, all texts have the same
mistakes, or trees and then values that differ in places only, or halt alike; the texts of the values
and what is printed are the same. One text may be laid out differently, with the others after it. -/
theorem layout_is_irrelevant (s : Session) {as bs : List String}
    (h : List.Forall₂ SameTokens as bs) :
    (∀ depth, List.Forall₂ (Option.Rel Program.Draft.Alike) (as.map (Program.ofText? depth))
      (bs.map (Program.ofText? depth))) ∧
    List.Forall₂ Verdict.Alike (s.runAll as).1 (s.runAll bs).1 ∧
    (s.runAll as).2.store.printed = (s.runAll bs).2.store.printed ∧
    (s.runAll as).2.Alike (s.runAll bs).2 := by
  obtain ⟨hverdicts, hlast⟩ := runAll_alike (rfl : s.Alike s) h
  refine ⟨fun depth => ?_, hverdicts, congrArg (·.store.printed) hlast, hlast⟩
  rw [List.forall₂_map_left_iff, List.forall₂_map_right_iff]
  exact h.imp fun a b hab => Program.ofText?_alike hab depth

theorem layout_is_irrelevant_escape :
    let setting : Setting := ⟨[("puts", .puts)], 20, 20⟩
    let as := ["let f = fn(x) \x7b puts(x); fn(y) \x7b x \x7d \x7d", "f(\"a\\tb\")"]
    let bs := ["let f =\n  fn (x) \x7b\n puts (x) ;fn(y)\n\x7bx\x7d\n\x7d", "f\n(\"a\tb\")"]
    List.Forall₂ SameTokens as bs ∧
      List.Forall₂ Verdict.Alike ((start setting).runAll as).1 ((start setting).runAll bs).1 ∧
      ((start setting).runAll as).2.store.printed = "a\tb\n" ∧
      ((start setting).runAll bs).2.store.printed = "a\tb\n" := by
  intro setting as bs
  have hfirst : Token.sameList (Token.ofText as[0]) (Token.ofText bs[0]) = true := by cbv
  have hsecond : Token.sameList (Token.ofText as[1]) (Token.ofText bs[1]) = true := by cbv
  have h : List.Forall₂ SameTokens as bs := .cons hfirst (.cons hsecond .nil)
  obtain ⟨-, hverdicts, hprinted, -⟩ := (start setting).layout_is_irrelevant h
  have hout : ((start setting).runAll as).2.store.printed = "a\tb\n" := by cbv
  exact ⟨h, hverdicts, hout, hprinted ▸ hout⟩

end Session

end Marmoset
