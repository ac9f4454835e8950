import Marmoset.Dialogue
import Marmoset.Proofs.Eval.Frame
import Marmoset.Proofs.Eval.Relabel
import Marmoset.Proofs.Eval.Stopping
import Marmoset.Proofs.Session

namespace Marmoset

section Silent

theorem Scope.relabel_same (sc : Scope) : sc.relabel .same = sc := by
  have hbindings : sc.bindings.map (fun b => (b.1, b.2.relabel .same)) = sc.bindings := by
    conv_rhs => rw [← List.map_id sc.bindings]
    exact List.map_congr_left fun b _ => congrArg (Prod.mk b.1) b.2.relabel_same
  have houter : sc.outer.map Relabeling.same.scope = sc.outer := Option.map_id_apply
  rw [Scope.relabel, hbindings, houter]

theorem Program.relabel_same (p : Program) : p.relabel .same = p := by
  have hstmts : p.stmts.map (Stmt.relabel .same) = p.stmts := by
    conv_rhs => rw [← List.map_id p.stmts]
    exact List.map_congr_left fun x _ => Node.stmt.inj (Node.relabel_same (.stmt x))
  exact congrArg Program.mk hstmts

def Store.silent (st : Store) : Store := { st with printed := "" }

theorem Eval.program_silent (s : Setting) (scope : ScopeId) (p : Program) (st : Store) :
    (∃ v st' tt', program s scope p st = .ok v st' ∧ program s scope p st.silent = .ok v tt' ∧
      tt'.silent = st'.silent ∧ st'.printed = st.printed ++ tt'.printed) ∨
    ∃ why st' tt', program s scope p st = .error why st' ∧ program s scope p st.silent = .error why tt' ∧
      tt'.silent = st'.silent ∧ st'.printed = st.printed ++ tt'.printed := by
  have hscopes (scopes : Array Scope) : scopes.map (Scope.relabel .same) = scopes := by
    rw [funext Scope.relabel_same]
    exact Array.map_id scopes
  have hrel {a b : Store} : (Relabeling.same.inPlace st.printed "").Rel a b →
      b.silent = a.silent ∧ a.printed = st.printed ++ b.printed := by
    rw [Relabeling.inPlace_iff rfl, hscopes]
    rintro ⟨hb, hstamp, text, ha, htext⟩
    rw [String.empty_append] at htext
    constructor
    · rw [Store.silent, Store.silent, hb, hstamp]
    · rw [ha, htext]
  have hstart : (Relabeling.same.inPlace st.printed "").Rel st st.silent := by
    rw [Relabeling.inPlace_iff rfl, hscopes]
    exact ⟨rfl, rfl, "", by simp, by simp [Store.silent]⟩
  have hrun := (mirrors_program (Relabeling.respects_inPlace rfl rfl st.printed "") s scope p).ends
    hstart id
  rw [p.relabel_same] at hrun
  rcases hrun with ⟨v, st', tt', hp, hq, hend⟩ | ⟨why, st', tt', hp, hq, hend⟩
  · rw [Value.relabel_same] at hq
    exact .inl ⟨v, st', tt', hp, hq, hrel hend⟩
  · exact .inr ⟨why, st', tt', hp, hq, hrel hend⟩

namespace Session

def silent (s : Session) : Session := { s with store := s.store.silent }

theorem run_silent (s : Session) (text : String) :
    (s.silent.run text).1 = (s.run text).1 ∧ (s.silent.run text).2.silent = (s.run text).2.silent ∧
      (s.run text).2.store.printed = s.store.printed ++ (s.silent.run text).2.store.printed := by
  obtain ⟨setting, scope, st⟩ := s
  simp only [run, silent, runProgram]
  cases Program.ofText? setting.depth text with
  | none => exact ⟨rfl, rfl, (String.append_empty).symm⟩
  | some d =>
      by_cases hm : d.mistakes = []
      · simp only [hm, List.isEmpty_nil, if_true]
        rcases Eval.program_silent setting scope d.program st with
          ⟨v, st', tt', hp, hq, hsilent, hprinted⟩ | ⟨why, st', tt', hp, hq, hsilent, hprinted⟩
        · rw [hp, hq]
          exact ⟨rfl, congrArg (Session.mk setting scope) hsilent, hprinted⟩
        · rw [hp, hq]
          exact ⟨rfl, congrArg (Session.mk setting scope) hsilent, hprinted⟩
      · simp [hm, Store.silent]

end Session

end Silent

namespace Session

section Unfinished

variable {s : Session} {text : String} {d : Program.Draft}

theorem run_extends (hd : Program.ofText? s.setting.depth text = some d) (hm : d.mistakes = [])
    {pre post : List Stmt} (hstmts : d.program.stmts = pre ++ post) {v : Value} {st : Store}
    (hpre : Eval.stmts (Eval.run s.setting s.setting.depth) s.scope .null pre s.store = .ok v st) :
    st.Extends (some s.scope) (s.run text).2.store := by
  have hrest : Eval.Extending (some s.scope) (do
      if v.leaves then return v
      Eval.stmts (Eval.run s.setting s.setting.depth) s.scope v post) :=
    .ite (Eval.extending_pure v) (Eval.extending_stmts (Eval.extending_run _ _) post v)
  have hsettled := hrest.bind fun w => Eval.extending_pure w.settle
  have hrun : Eval.program s.setting s.scope d.program s.store = (do
      let w ← (do
        if v.leaves then return v
        Eval.stmts (Eval.run s.setting s.setting.depth) s.scope v post)
      return w.settle) st := by
    rw [Eval.program, hstmts, Eval.stmts_append rfl, bind_assoc, bind_ok hpre]
  rw [run_store hd hm, finalState, hrun]
  exact (hsettled st).finalState

theorem run_unread (hd : Program.ofText? s.setting.depth text = none) :
    s.run text = (.halted .tooDeep, s) := by
  simp only [run, hd]

theorem run_rejected {mistakes : List Mistake} (h : (s.run text).1 = .rejected mistakes) :
    (s.run text).2 = s := by
  rcases s.run_cases text with ⟨-, hrun⟩ | ⟨d, -, ⟨-, hrun⟩ | ⟨-, ⟨v, st, -, hrun⟩ | ⟨why, st, -, hrun⟩⟩⟩
  · rw [hrun]
  · rw [hrun]
  · rw [hrun] at h
    cases h
  · rw [hrun] at h
    cases h

theorem run_halts_iff (hd : Program.ofText? s.setting.depth text = some d) (hm : d.mistakes = [])
    {why : Halt} {s' : Session} :
    s.run text = (.halted why, s') ↔
      ∃ st, (Eval.Point.top s.setting s.scope d.program s.store).result s.setting = .error why st ∧
        s' = { s with store := st } := by
  simp only [← Eval.program_halt_iff, run_eq hd hm]
  cases Eval.program s.setting s.scope d.program s.store with
  | ok v st => simp [ended]
  | error why' st => simp [ended, eq_comm]

/-- What a text leaves behind that is not run to its end. A text with mistakes, and one that nests too
deeply to be read, changes nothing. A text that halts does so in the first statement that halts, after
the statements before it. The store is then as that statement has left it, and whatever part of it came
to the halt, as that part has left it. -/
structure Unfinished (s : Session) (text : String) : Prop where
  rejected {mistakes : List Mistake} : (s.run text).1 = .rejected mistakes → (s.run text).2 = s
  unread : Program.ofText? s.setting.depth text = none → s.run text = (.halted .tooDeep, s)
  halted {d : Program.Draft} {why : Halt} {s' : Session} :
    Program.ofText? s.setting.depth text = some d → d.mistakes = [] →
    (s.run text = (.halted why, s') ↔ ∃ pre x post v st st', d.program.stmts = pre ++ x :: post ∧
      Eval.stmts (Eval.run s.setting s.setting.depth) s.scope .null pre s.store = .ok v st ∧
      v.leaves = false ∧ Eval.stmt (Eval.run s.setting s.setting.depth) s.scope x st = .error why st' ∧
      s' = { s with store := st' })
  inside {d : Program.Draft} {r : Eval.Role} {q : Eval.Point} {why : Halt} {st' : Store} :
    Program.ofText? s.setting.depth text = some d → d.mistakes = [] →
    Eval.Visits s.setting (.top s.setting s.scope d.program s.store) r q →
    q.result s.setting = .error why st' → s.run text = (.halted why, { s with store := st' })
  kept {d : Program.Draft} {pre post : List Stmt} {v : Value} {st : Store} :
    Program.ofText? s.setting.depth text = some d → d.mistakes = [] →
    d.program.stmts = pre ++ post →
    Eval.stmts (Eval.run s.setting s.setting.depth) s.scope .null pre s.store = .ok v st →
    st.Extends (some s.scope) (s.run text).2.store

theorem unfinished (s : Session) (text : String) : s.Unfinished text where
  rejected := run_rejected
  unread := run_unread
  halted hd hm := by
    rw [run_halts_iff hd hm]
    constructor
    · rintro ⟨st', htop, rfl⟩
      obtain ⟨pre, x, post, v, st, hstmts, hpre, hv, hx⟩ := (Eval.stmts_halt_iff rfl).mp htop
      exact ⟨pre, x, post, v, st, st', hstmts, hpre, hv, hx, rfl⟩
    · rintro ⟨pre, x, post, v, st, st', hstmts, hpre, hv, hx, rfl⟩
      exact ⟨st', (Eval.stmts_halt_iff rfl).mpr ⟨pre, x, post, v, st, hstmts, hpre, hv, hx⟩, rfl⟩
  inside hd hm hvisits hq := (run_halts_iff hd hm).mpr ⟨_, hvisits.halts hq, rfl⟩
  kept hd hm hstmts hpre := run_extends hd hm hstmts hpre

end Unfinished

end Session

section Lines

def FullLine (l : String) : Prop := ∃ body : List Char, '\n' ∉ body ∧ l.toList = body ++ ['\n']

def LastLine (l : String) : Prop := '\n' ∉ l.toList ∧ l ≠ ""

theorem splitLines_flatten (cs : List Char) : (splitLines cs).flatten = cs := by
  induction cs with
  | nil => rfl
  | cons c cs ih =>
      rw [splitLines]
      split
      · rw [List.flatten_cons, ih]
        rfl
      · split
        · rename_i hnil
          rw [hnil] at ih
          simp [← ih]
        · rename_i line rest hcons
          rw [hcons] at ih
          simp [← ih]

theorem join_lines (text : String) : String.join (lines text) = text := by
  apply String.toList_inj.mp
  rw [String.toList_join, lines, List.flatMap_map]
  simp [List.flatMap, splitLines_flatten]

theorem splitLines_split (cs : List Char) :
    ∃ full last, splitLines cs = full ++ last ∧ (∀ l ∈ full, FullLine (.ofList l)) ∧
      (last = [] ∨ ∃ l, last = [l] ∧ LastLine (.ofList l)) := by
  induction cs with
  | nil => exact ⟨[], [], rfl, List.forall_mem_nil _, .inl rfl⟩
  | cons c cs ih =>
      obtain ⟨full, last, hcs, hfull, hlast⟩ := ih
      rw [splitLines]
      split
      · rename_i hc
        refine ⟨[c] :: full, last, by rw [hcs]; rfl, ?_, hlast⟩
        refine List.forall_mem_cons.mpr ⟨⟨[], List.not_mem_nil, ?_⟩, hfull⟩
        rw [hc, String.toList_ofList]
        rfl
      · rename_i hc
        rw [hcs]
        cases full with
        | nil =>
            rcases hlast with rfl | ⟨l, rfl, hno, hne⟩
            · refine ⟨[], [[c]], rfl, List.forall_mem_nil _, .inr ⟨[c], rfl, ?_, ?_⟩⟩
              · simpa using Ne.symm hc
              · simp
            · refine ⟨[], [c :: l], rfl, List.forall_mem_nil _, .inr ⟨c :: l, rfl, ?_, ?_⟩⟩
              · simpa [Ne.symm hc] using hno
              · simp
        | cons l full =>
            obtain ⟨⟨body, hno, hl⟩, hrest⟩ := List.forall_mem_cons.mp hfull
            refine ⟨(c :: l) :: full, last, rfl, ?_, hlast⟩
            refine List.forall_mem_cons.mpr ⟨⟨c :: body, ?_, ?_⟩, hrest⟩
            · simpa [Ne.symm hc] using hno
            · simpa using hl

theorem lines_split (text : String) :
    ∃ full last, lines text = full ++ last ∧ (∀ l ∈ full, FullLine l) ∧
      (last = [] ∨ ∃ l, last = [l] ∧ LastLine l) := by
  obtain ⟨full, last, hlines, hfull, hlast⟩ := splitLines_split text.toList
  refine ⟨full.map .ofList, last.map .ofList, ?_, ?_, ?_⟩
  · rw [lines, hlines, List.map_append]
  · intro l hl
    obtain ⟨cs, hcs, rfl⟩ := List.mem_map.mp hl
    exact hfull cs hcs
  · rcases hlast with rfl | ⟨l, rfl, hl⟩
    · exact .inl rfl
    · exact .inr ⟨.ofList l, rfl, hl⟩

end Lines

section Chunks

structure IsChunk (ls : List String) : Prop where
  ne_nil : ls ≠ []
  closed : needsMore (String.join ls) = false
  shortest (n : Nat) : 0 < n → n < ls.length → needsMore (String.join (ls.take n)) = true

def StaysOpen (ls : List String) : Prop :=
  ∀ n, 0 < n → n ≤ ls.length → needsMore (String.join (ls.take n)) = true

def chunksFrom (pending : List String) : List String → List (List String) × List String
  | [] => ([], pending)
  | line :: rest =>
      if needsMore (String.join (pending ++ [line])) then chunksFrom (pending ++ [line]) rest
      else ((pending ++ [line]) :: (chunksFrom [] rest).1, (chunksFrom [] rest).2)

def chunks (ls : List String) : List (List String) × List String := chunksFrom [] ls

theorem staysOpen_nil : StaysOpen [] := fun _ h0 hn => absurd h0 (Nat.not_lt.mpr hn)

theorem staysOpen_snoc {pending : List String} {line : String} (h : StaysOpen pending)
    (hmore : needsMore (String.join (pending ++ [line])) = true) : StaysOpen (pending ++ [line]) := by
  intro n h0 hn
  rw [List.length_append, List.length_singleton] at hn
  rcases Nat.lt_or_ge n (pending.length + 1) with hlt | hge
  · rw [List.take_append_of_le_length (Nat.le_of_lt_succ hlt)]
    exact h n h0 (Nat.le_of_lt_succ hlt)
  · rwa [List.take_of_length_le (by simpa using hge)]

theorem isChunk_snoc {pending : List String} {line : String} (h : StaysOpen pending)
    (hmore : needsMore (String.join (pending ++ [line])) = false) : IsChunk (pending ++ [line]) := by
  refine ⟨by simp, hmore, fun n h0 hn => ?_⟩
  rw [List.length_append, List.length_singleton] at hn
  rw [List.take_append_of_le_length (Nat.le_of_lt_succ hn)]
  exact h n h0 (Nat.le_of_lt_succ hn)

theorem chunksFrom_spec {pending : List String} (h : StaysOpen pending) (ls : List String) :
    (chunksFrom pending ls).1.flatten ++ (chunksFrom pending ls).2 = pending ++ ls ∧
      (∀ c ∈ (chunksFrom pending ls).1, IsChunk c) ∧ StaysOpen (chunksFrom pending ls).2 := by
  induction ls generalizing pending with
  | nil => exact ⟨(List.append_nil pending).symm, List.forall_mem_nil _, h⟩
  | cons line ls ih =>
      rw [chunksFrom]
      split
      · rename_i hmore
        have hrest := ih (staysOpen_snoc h hmore)
        rwa [List.append_assoc] at hrest
      · rename_i hmore
        obtain ⟨hjoin, hchunks, hopen⟩ := ih staysOpen_nil
        refine ⟨?_, List.forall_mem_cons.mpr ⟨?_, hchunks⟩, hopen⟩
        · rw [List.flatten_cons, List.append_assoc, hjoin]
          simp
        · exact isChunk_snoc h (by simpa using hmore)

end Chunks

def Verdict.reply? (depth : Nat) : Verdict → Option String
  | .value v => (v.text? depth).map (· ++ "\n")
  | .rejected mistakes => some (Dialogue.mistakesText mistakes)
  | .halted .tooDeep => some Dialogue.tooDeepText
  | .halted _ => none

namespace Dialogue

section Turns

theorem respond_of_silent {s : Session} (hs : s.store.printed = "") (text : String) :
    (respond s text).session = (s.run text).2.silent ∧
    Piece.joined Piece.printedText (respond s text).pieces = (s.run text).2.store.printed ∧
    Piece.joined Piece.replyText (respond s text).pieces =
      ((s.run text).1.reply? s.setting.depth).getD "" ∧
    (respond s text).broken = ((s.run text).1.reply? s.setting.depth).isNone := by
  obtain ⟨setting, scope, scopes, printed, stamp⟩ := s
  obtain rfl : printed = "" := hs
  simp only [respond, Session.run]
  cases Program.ofText? setting.depth text with
  | none => exact ⟨rfl, rfl, by simp [Piece.joined, Piece.replyText, Verdict.reply?], rfl⟩
  | some d =>
      by_cases hm : d.mistakes = []
      · simp only [hm, List.isEmpty_nil, if_true, answer, Session.runProgram]
        cases Eval.program setting scope d.program ⟨scopes, "", stamp⟩ with
        | error why st =>
            cases why <;>
              exact ⟨rfl, by simp [reply?, Piece.joined, Piece.printedText, Session.takePrinted],
                by simp [reply?, Piece.joined, Piece.replyText, Verdict.reply?], rfl⟩
        | ok v st =>
            simp only [Session.takePrinted, reply?, Verdict.reply?]
            cases v.text? setting.depth with
            | none =>
                exact ⟨rfl, by simp [Piece.joined, Piece.printedText],
                  by simp [Piece.joined, Piece.replyText], rfl⟩
            | some t =>
                exact ⟨rfl, by simp [Piece.joined, Piece.printedText],
                  by simp [Piece.joined, Piece.replyText], rfl⟩
      · simp [hm, Piece.joined, Piece.printedText, Piece.replyText, Verdict.reply?, Session.silent,
          Store.silent]

theorem respond_run (s : Session) (text : String) :
    (respond s.silent text).session = (s.run text).2.silent ∧
    s.store.printed ++ Piece.joined Piece.printedText (respond s.silent text).pieces =
      (s.run text).2.store.printed ∧
    Piece.joined Piece.replyText (respond s.silent text).pieces =
      ((s.run text).1.reply? s.setting.depth).getD "" ∧
    (respond s.silent text).broken = ((s.run text).1.reply? s.setting.depth).isNone := by
  obtain ⟨hverdict, hsilent, hprinted⟩ := s.run_silent text
  obtain ⟨hsession, hout, hreply, hbroken⟩ := respond_of_silent (s := s.silent) rfl text
  rw [hverdict] at hreply hbroken
  exact ⟨hsession.trans hsilent, by rw [hout, hprinted], hreply, hbroken⟩

def prompts : Nat → String
  | 0 => ""
  | n + 1 => ">> " ++ String.join (List.replicate n "... ")

theorem prompts_succ {d : Dialogue} {pending : List String} (hd : d.pending = String.join pending)
    (hopen : StaysOpen pending) : prompts (pending.length + 1) = prompts pending.length ++ d.prompt := by
  rcases pending.eq_nil_or_concat' with rfl | ⟨ls, line, rfl⟩
  · rw [prompt, hd]
    rfl
  · have hmore := hopen (ls ++ [line]).length (by simp) (Nat.le_refl _)
    rw [List.take_length, ← hd] at hmore
    have hne : d.pending.isEmpty = false := by
      rw [Bool.eq_false_iff, Ne, String.isEmpty_iff]
      intro he
      rw [he] at hmore
      exact absurd hmore (by decide)
    rw [prompt, hne, List.length_append, List.length_singleton, prompts, prompts, List.replicate_succ',
      String.join_append, String.append_assoc]
    rfl

def texts (chunks : List (List String)) : List String :=
  (chunks.map String.join).filter fun text => !Text.blank text

def transcript (depth : Nat) : List (List String) → List Verdict → String
  | [], _ => ""
  | c :: cs, verdicts =>
      prompts c.length ++
        if Text.blank (String.join c) then transcript depth cs verdicts
        else match verdicts with
          | [] => transcript depth cs []
          | v :: vs => (v.reply? depth).getD "" ++ transcript depth cs vs

theorem transcript_blank {c : List String} (h : Text.blank (String.join c) = true) (depth : Nat)
    (cs : List (List String)) (verdicts : List Verdict) :
    transcript depth (c :: cs) verdicts = prompts c.length ++ transcript depth cs verdicts := by
  cases verdicts <;> simp [transcript, h]

end Turns

section Course

/-- How a dialogue goes on: all chunks are heard, or those up to one that there is no reply to. What
was written and printed before comes first. -/
def Goes (s : Session) (chunks : List (List String)) (rest : List String) (written : String)
    (course : Course) : Prop :=
  ∃ heard unheard, chunks = heard ++ unheard ∧
    course.state.session = (s.runAll (texts heard)).2.silent ∧
    s.store.printed ++ Piece.joined Piece.printedText course.pieces =
      (s.runAll (texts heard)).2.store.printed ∧
    (course.broken = false ∧ unheard = [] ∧
        (∀ v ∈ (s.runAll (texts heard)).1, v.reply? s.setting.depth ≠ none) ∧
        written ++ Piece.joined Piece.replyText course.pieces =
          transcript s.setting.depth heard (s.runAll (texts heard)).1 ++
            (prompts (rest.length + 1) ++ "\n") ∨
      course.broken = true ∧
        (∃ early v, (s.runAll (texts heard)).1 = early ++ [v] ∧ v.reply? s.setting.depth = none ∧
          ∀ w ∈ early, w.reply? s.setting.depth ≠ none) ∧
        written ++ Piece.joined Piece.replyText course.pieces =
          transcript s.setting.depth heard (s.runAll (texts heard)).1)

variable {s : Session} {d : Dialogue} {pending c rest : List String} {cs : List (List String)}
  {written said : String} {course : Course}

theorem Goes.prompted (h : Goes s cs rest (written ++ said) course) :
    Goes s cs rest written { course with pieces := .reply said :: course.pieces } := by
  obtain ⟨heard, unheard, hcs, hsession, hprinted, hcourse⟩ := h
  refine ⟨heard, unheard, hcs, hsession, ?_, ?_⟩
  · simpa [Piece.joined, Piece.printedText] using hprinted
  · simpa [Piece.joined, Piece.replyText, String.append_assoc] using hcourse

theorem Goes.blank (hblank : Text.blank (String.join c) = true) (h : Goes s cs rest "" course) :
    Goes s (c :: cs) rest (prompts c.length) course := by
  obtain ⟨heard, unheard, rfl, hsession, hprinted, hcourse⟩ := h
  have htexts : texts (c :: heard) = texts heard := by simp [texts, hblank]
  refine ⟨c :: heard, unheard, rfl, htexts ▸ hsession, htexts ▸ hprinted, ?_⟩
  rw [htexts]
  refine hcourse.imp (fun ⟨hok, hall, hreplies, hwritten⟩ => ⟨hok, hall, hreplies, ?_⟩)
    fun ⟨hbroken, hlast, hwritten⟩ => ⟨hbroken, hlast, ?_⟩
  · rw [transcript_blank hblank, String.append_assoc, ← hwritten, String.empty_append]
  · rw [transcript_blank hblank, ← hwritten, String.empty_append]

theorem Goes.answered (hblank : Text.blank (String.join c) = false) {pieces : List Piece}
    (hout : s.store.printed ++ Piece.joined Piece.printedText pieces =
      (s.run (String.join c)).2.store.printed)
    (hreply : (s.run (String.join c)).1.reply? s.setting.depth =
      some (Piece.joined Piece.replyText pieces))
    (h : Goes (s.run (String.join c)).2 cs rest "" course) :
    Goes s (c :: cs) rest (prompts c.length) { course with pieces := pieces ++ course.pieces } := by
  obtain ⟨heard, unheard, rfl, hsession, hprinted, hcourse⟩ := h
  have htexts : texts (c :: heard) = String.join c :: texts heard := by simp [texts, hblank]
  have hjoined (part : Piece → String) : Piece.joined part (pieces ++ course.pieces) =
      Piece.joined part pieces ++ Piece.joined part course.pieces := by
    simp [Piece.joined]
  rw [Session.run_setting] at hcourse
  refine ⟨c :: heard, unheard, rfl, ?_, ?_, ?_⟩
  · rw [htexts]
    exact hsession
  · rw [htexts, hjoined, ← String.append_assoc, hout]
    exact hprinted
  · rw [htexts, Session.runAll, hjoined]
    rcases hcourse with ⟨hok, hall, hreplies, hwritten⟩ |
      ⟨hbroken, ⟨early, v, hverdicts, hv, hearly⟩, hwritten⟩
    · refine .inl ⟨hok, hall, List.forall_mem_cons.mpr ⟨by rw [hreply]; simp, hreplies⟩, ?_⟩
      rw [String.empty_append] at hwritten
      simp [transcript, hblank, hreply, String.append_assoc, hwritten]
    · refine .inr ⟨hbroken, ⟨_ :: early, v, congrArg (_ :: ·) hverdicts, hv, ?_⟩, ?_⟩
      · exact List.forall_mem_cons.mpr ⟨by rw [hreply]; simp, hearly⟩
      · rw [String.empty_append] at hwritten
        simp [transcript, hblank, hreply, hwritten]

theorem Goes.broken (hblank : Text.blank (String.join c) = false) {pieces : List Piece}
    (hout : s.store.printed ++ Piece.joined Piece.printedText pieces =
      (s.run (String.join c)).2.store.printed)
    (hreply : (s.run (String.join c)).1.reply? s.setting.depth = none)
    (hpieces : Piece.joined Piece.replyText pieces = "") :
    Goes s (c :: cs) rest (prompts c.length)
      ⟨pieces, ⟨(s.run (String.join c)).2.silent, ""⟩, true⟩ := by
  have htexts : texts [c] = [String.join c] := by simp [texts, hblank]
  refine ⟨[c], cs, rfl, ?_, ?_, .inr ⟨rfl, ?_, ?_⟩⟩
  · rw [htexts]
    rfl
  · rw [htexts]
    exact hout
  · rw [htexts]
    exact ⟨[], _, rfl, hreply, List.forall_mem_nil _⟩
  · rw [htexts, hpieces]
    simp [transcript, hblank, hreply, Session.runAll]

theorem readAll_goes (hs : d.session = s.silent) (hd : d.pending = String.join pending)
    (hopen : StaysOpen pending) (ls : List String) :
    Goes s (chunksFrom pending ls).1 (chunksFrom pending ls).2 (prompts pending.length)
      (d.readAll ls) := by
  induction ls generalizing d s pending with
  | nil =>
      refine ⟨[], [], rfl, hs, by simp [readAll, Piece.joined, Piece.printedText, texts, Session.runAll],
        .inl ⟨rfl, rfl, List.forall_mem_nil _, ?_⟩⟩
      rw [chunksFrom, prompts_succ hd hopen]
      simp [readAll, Piece.joined, Piece.replyText, transcript, String.append_assoc]
  | cons line ls ih =>
      have htext : d.pending ++ line = String.join (pending ++ [line]) := by
        rw [hd, String.join_append, String.join_cons, String.join_nil, String.append_empty]
      have hprompts : prompts pending.length ++ d.prompt = prompts (pending ++ [line]).length := by
        rw [List.length_append, List.length_singleton, prompts_succ hd hopen]
      rw [chunksFrom, readAll, read, htext]
      by_cases hmore : needsMore (String.join (pending ++ [line])) = true
      · rw [if_pos hmore, if_pos hmore]
        refine Goes.prompted (hprompts ▸ ?_)
        exact ih hs rfl (staysOpen_snoc hopen hmore)
      · rw [if_neg hmore, if_neg hmore]
        by_cases hblank : Text.blank (String.join (pending ++ [line])) = true
        · rw [if_pos hblank]
          refine Goes.prompted (hprompts ▸ ?_)
          exact (ih (d := ⟨d.session, ""⟩) hs rfl staysOpen_nil).blank hblank
        · rw [if_neg hblank]
          have hblank' := Bool.eq_false_iff.mpr hblank
          obtain ⟨hsession, hout, hreply, hbroken⟩ := respond_run s (String.join (pending ++ [line]))
          rw [hs]
          cases hanswer : (s.run (String.join (pending ++ [line]))).1.reply? s.setting.depth with
          | none =>
              rw [hanswer] at hbroken hreply
              simp only [hbroken, hsession]
              exact Goes.prompted (hprompts ▸ Goes.broken hblank' hout hanswer hreply)
          | some t =>
              rw [hanswer] at hbroken hreply
              simp only [hbroken, hsession]
              have hrest := ih (d := ⟨(s.run (String.join (pending ++ [line]))).2.silent, ""⟩) rfl rfl staysOpen_nil
              exact Goes.prompted (hprompts ▸ hrest.answered hblank' hout (hanswer.trans (by rw [hreply]; rfl)))

theorem reply?_eq_none {P : Value → Prop} {depth : Nat} {v : Verdict} (h : v.reply? depth = none)
    (hv : v.Within P Halt.IsLimit) :
    (∃ w, v = .value w ∧ w.text? depth = none) ∨ v = .halted .endless := by
  cases v with
  | value w => exact .inl ⟨w, rfl, Option.map_eq_none_iff.mp h⟩
  | rejected mistakes => cases h
  | halted why =>
      cases why with
      | tooDeep => cases h
      | endless => exact .inr rfl
      | unknownExpr | unknownStmt => cases hv

/-- A dialogue goes through the lines of a text, chunk by chunk, up to its end, to a value that cannot be
shown or to a loop without end. Its session and what is printed are those of the texts of the chunks that
are not blank, run one after the other; lines that are left over are not run. There is a prompt for each
line, a reply after each chunk that is run, and a last prompt at the end. -/
theorem chunks_run_in_turn (setting : Setting) (text : String) :
    let found := chunks (lines text)
    let course := run setting text
    (String.join (lines text) = text ∧ ∃ full last, lines text = full ++ last ∧
      (∀ l ∈ full, FullLine l) ∧ (last = [] ∨ ∃ l, last = [l] ∧ LastLine l)) ∧
    (found.1.flatten ++ found.2 = lines text ∧ (∀ c ∈ found.1, IsChunk c) ∧ StaysOpen found.2) ∧
    (∃ heard unheard, found.1 = heard ++ unheard ∧
      let ran := (Session.start setting).runAll (texts heard)
      course.state.session = ran.2.silent ∧
      Piece.joined Piece.printedText course.pieces = ran.2.store.printed ∧
      (course.broken = false ∧ unheard = [] ∧ (∀ v ∈ ran.1, v.reply? setting.depth ≠ none) ∧
          Piece.joined Piece.replyText course.pieces =
            transcript setting.depth heard ran.1 ++ (prompts (found.2.length + 1) ++ "\n") ∨
        course.broken = true ∧
          (∃ early v, ran.1 = early ++ [v] ∧
            ((∃ w, v = .value w ∧ w.text? setting.depth = none) ∨ v = .halted .endless) ∧
            ∀ w ∈ early, w.reply? setting.depth ≠ none) ∧
          Piece.joined Piece.replyText course.pieces = transcript setting.depth heard ran.1)) ∧
    ∀ (s : Session) (t : String), s.Unfinished t := by
  intro found course
  refine ⟨⟨join_lines text, lines_split text⟩, chunksFrom_spec staysOpen_nil (lines text), ?_,
    Session.unfinished⟩
  have hgoes := readAll_goes (d := start setting) (s := Session.start setting) rfl rfl staysOpen_nil
    (lines text)
  obtain ⟨heard, unheard, hfound, hsession, hprinted, hcourse⟩ := hgoes
  refine ⟨heard, unheard, hfound, hsession, String.empty_append.symm.trans hprinted, ?_⟩
  rcases hcourse with ⟨hok, hall, hreplies, hwritten⟩ |
    ⟨hbroken, ⟨early, v, hran, hv, hearly⟩, hwritten⟩
  · exact .inl ⟨hok, hall, hreplies, String.empty_append.symm.trans hwritten⟩
  · have hwithin := (Session.runAll_whole setting (texts heard)).1 v (hran ▸ List.mem_concat_self)
    refine .inr ⟨hbroken, ⟨early, v, hran, reply?_eq_none hv hwithin, hearly⟩, ?_⟩
    exact String.empty_append.symm.trans hwritten

theorem read_alone (s : Session) {line : String} (hmore : needsMore line = false)
    (hblank : Text.blank line = false) :
    read ⟨s, ""⟩ line =
      (⟨(respond s line).session, ""⟩, (respond s line).pieces, (respond s line).broken) := by
  simp [read, hmore, hblank]

/-- A value with more levels than can be shown ends the dialogue: no reply to it is written, and the
next line is not run, although the session could run it. -/
theorem deep_value_ends_dialogue :
    let setting : Setting := ⟨[], 2, 0⟩
    let next := "let y = 2\n"
    let course := run setting ("let a = [[]]; let a = [a]; 1\na\n" ++ next)
    course.broken = true ∧ Piece.joined Piece.replyText course.pieces = ">> 1\n>> " ∧
      course.state.session.find? "y" = none ∧
      (course.state.session.run next).2.find? "y" = some (.integer 2) := by
  intro setting next course
  let bound : Session :=
    ⟨setting, 0, ⟨#[⟨[("a", .array 3 [.array 2 [.array 1 []]])], none⟩], "", 4⟩⟩
  let note (n : String) : String :=
    "[DEBUG] parse.parser: parsed " ++ n ++ " statements with 0 errors\n"
  have hlines : lines ("let a = [[]]; let a = [a]; 1\na\n" ++ next) =
      ["let a = [[]]; let a = [a]; 1\n", "a\n", next] := by cbv
  have hmore : needsMore "let a = [[]]; let a = [a]; 1\n" = false := by cbv
  have hmore' : needsMore "a\n" = false := by cbv
  have hfirst := read_alone (Session.start setting) hmore (by cbv)
  have hsecond := read_alone bound hmore' (by cbv)
  rw [show respond (Session.start setting) "let a = [[]]; let a = [a]; 1\n" =
      ⟨[.noted (note "3"), .printed "", .reply "1\n"], bound, false⟩ by cbv] at hfirst
  rw [show respond bound "a\n" = ⟨[.noted (note "1"), .printed ""], bound, true⟩ by cbv] at hsecond
  have hcourse : course = ⟨[.reply ">> ", .noted (note "3"), .printed "", .reply "1\n",
      .reply ">> ", .noted (note "1"), .printed ""], ⟨bound, ""⟩, true⟩ := by
    simp only [course, run, start, hlines, readAll, hfirst, hsecond]
    rfl
  rw [hcourse]
  exact ⟨rfl, by cbv, by cbv, by cbv⟩

end Course

end Dialogue

end Marmoset
