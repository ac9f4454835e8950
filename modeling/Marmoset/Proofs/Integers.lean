import Marmoset.Proofs.Session

/-!
Numbers stay in a word. Arithmetic wraps and literals are read within the bounds, so the one number
that could leave them is the length of a collection.
-/

namespace Marmoset

def Node.InWord : Node → Prop
  | .expr (.int _ n) => 0 ≤ n ∧ n ≤ Number.maxWord
  | _ => True

def Value.InWord : Value → Prop := Value.All { body := Node.InWord, number := Number.InWord }

theorem Node.Written.inWord {x : Node} (h : x.Written) : x.InWord := by
  unfold Node.InWord
  split
  · exact h
  · trivial

theorem Number.inWord_of_nonneg {n : Int} (h0 : 0 ≤ n) (h : n ≤ maxWord) : InWord n := by
  constructor
  · exact Int.le_trans (by decide) h0
  · exact h

section Registered

def Value.inWordBy (s : Setting) : Value.Demand where
  body := Node.InWord
  number := Number.InWord
  builtin f := ∃ name, s.registry.lookup name = some f

def Value.InWordBy (s : Setting) : Value → Prop := Value.All (Value.inWordBy s)

theorem Value.InWordBy.inWord {s : Setting} {v : Value} (h : v.InWordBy s) : v.InWord := by
  refine Value.Every.mono (fun w hw => ?_) h
  cases w with
  | builtin f => trivial
  | _ => exact hw

theorem Value.InWordBy.of_made {s : Setting} {v : Value} (h : v.Made (Value.InWordBy s)) :
    v.InWord := by
  rcases h with h | ⟨f, rfl⟩
  · exact h.inWord
  · exact (Value.every_atom rfl).mpr trivial

theorem Eval.regular_inWordBy (s : Setting) :
    Regular s Node.InWord (Value.EachEntry (Value.InWordBy s)) (Value.InWordBy s) := by
  apply regular_all (c := Value.inWordBy s)
  · intro n hn
    exact hn
  · intro pos n hn
    exact Number.inWord_of_nonneg hn.1 hn.2
  · intro name f hf
    exact ⟨name, hf⟩

end Registered

namespace Session

inductive Measures : Session → List String → Nat → Prop where
  | here {s text texts d r q n} : Program.ofText? s.setting.depth text = some d → d.mistakes = [] →
      Eval.Visits s.setting (.top s.setting s.scope d.program s.store) r q →
      Eval.Measures s.setting q n → Measures s (text :: texts) n
  | later {s text texts n} : Measures (s.run text).2 texts n → Measures s (text :: texts) n

variable {s : Session}

theorem modest_of_measures {text : String} {texts : List String} {d : Program.Draft}
    (hlen : (∀ name, s.setting.registry.lookup name ≠ some .len) ∨
      ∀ n, s.Measures (text :: texts) n → (n : Int) ≤ Number.maxWord)
    (hd : Program.ofText? s.setting.depth text = some d) (hm : d.mistakes = []) :
    Eval.Modest s.setting (Value.InWordBy s.setting)
      (.top s.setting s.scope d.program s.store) := by
  intro hK n hn
  obtain ⟨name, hname⟩ := (Value.every_atom rfl).mp hK
  rcases hlen with hnone | hsmall
  · exact absurd hname (hnone name)
  · rcases hn with hn | ⟨r, q, hq, hn⟩
    · cases hn
    · have hword := hsmall n (.here hd hm hq hn)
      exact (Value.every_atom rfl).mpr (Number.inWord_of_nonneg (Int.natCast_nonneg n) hword)

theorem runAll_inWordBy (hst : s.store.Holds (Value.InWordBy s.setting)) {texts : List String}
    (hlen : (∀ name, s.setting.registry.lookup name ≠ some .len) ∨
      ∀ n, s.Measures texts n → (n : Int) ≤ Number.maxWord) :
    (∀ v ∈ (s.runAll texts).1, v.Within Value.InWord fun _ => True) ∧
      (s.runAll texts).2.store.Holds Value.InWord := by
  induction texts generalizing s with
  | nil => exact ⟨List.forall_mem_nil _, hst.mono fun _ hv => hv.inWord⟩
  | cons text texts ih =>
      obtain ⟨hverdict, hst'⟩ := run_keeps_of (Eval.regular_inWordBy s.setting)
        (fun _ hx => hx.inWord) hst text
        (fun _ _ _ => Eval.tight_of_returned (fun _ hv => Value.every_returned.mpr ⟨trivial, hv⟩) _)
        fun _ hd hm => modest_of_measures hlen hd hm
      have hfirst := hverdict.mono (fun _ => Value.InWordBy.of_made) fun _ _ => trivial
      have hsetting := run_setting s text
      rw [← hsetting] at hst'
      obtain ⟨hrest, hlast⟩ := ih hst' <| by
        rw [hsetting]
        exact hlen.imp_right fun hsmall n hn => hsmall n (.later hn)
      exact ⟨List.forall_mem_cons.mpr ⟨hfirst, hrest⟩, hlast⟩

/-- In whatever order texts are run in a scope that starts empty, without the builtin function for
lengths or with no length beyond a word asked for, all numbers in values, bound ones or final ones,
are in a word. Trees without mistakes have literals from zero up to its end. -/
theorem numbers_stay_in_word (setting : Setting) (texts : List String)
    (hlen : (∀ name, setting.registry.lookup name ≠ some .len) ∨
      ∀ n, (start setting).Measures texts n → (n : Int) ≤ Number.maxWord) :
    (∀ v ∈ ((start setting).runAll texts).1, v.Within Value.InWord fun _ => True) ∧
    ((start setting).runAll texts).2.store.Holds Value.InWord ∧
    ∀ depth text d, Program.ofText? depth text = some d → d.mistakes = [] →
      d.program.Every Node.InWord := by
  obtain ⟨hverdicts, hstore⟩ := runAll_inWordBy (start_holds setting) hlen
  refine ⟨hverdicts, hstore, ?_⟩
  intro depth text d hd hm x hx
  exact (Program.written_of_text hd hm x hx).mono fun _ hy => hy.inWord

theorem numbers_stay_in_word_edges :
    let setting : Setting := ⟨[("first", .first)], 20, 9⟩
    let texts := ["let least = fn(x) \x7b -x - 1 \x7d(9223372036854775807)",
      "[-least, \x7bleast / -1: least..least - 1\x7d]"]
    let least : Value := .integer (-9223372036854775808)
    let edges : Value := .array 9 [least, .hash 8 [⟨.integer (-9223372036854775808), least,
      .range (-9223372036854775808) 9223372036854775807⟩]]
    ((start setting).runAll texts).1 = [.value least, .value edges] ∧ edges.InWord ∧
      ((start setting).runAll texts).2.find? "least" = some least ∧ least.InWord := by
  intro setting texts least edges
  have hverdicts : ((start setting).runAll texts).1 = [.value least, .value edges] := by cbv
  have hfound : ((start setting).runAll texts).2.find? "least" = some least := by cbv
  have hlen (name : String) : setting.registry.lookup name ≠ some .len := by
    simp [setting, List.lookup]
    split <;> simp
  obtain ⟨hwithin, hstore, -⟩ := numbers_stay_in_word setting texts (.inl hlen)
  rw [hverdicts] at hwithin
  exact ⟨hverdicts, hwithin (.value edges) (by simp), hfound, hstore.find? hfound⟩

end Session

end Marmoset
