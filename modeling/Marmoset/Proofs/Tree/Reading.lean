import Mathlib.Data.List.Infix
import Marmoset.Proofs.Outcome
import Marmoset.Tree.Reading

/-!
Runs of a reading. `Yields` says what a reading makes of tokens without a mistake; `Grows` says that a
reading, whatever comes of it, only goes forward in the tokens and only adds mistakes; `Clean` says
what is known of a run that has added none.
-/

namespace Marmoset.Read

variable {α β : Type}

def firstKind (ts : List Token) : Token.Kind := (ts.head?.getD endToken).kind

@[simp]
theorem firstKind_nil : firstKind [] = .eof := rfl

@[simp]
theorem firstKind_cons (t : Token) (ts : List Token) : firstKind (t :: ts) = t.kind := rfl

theorem first_cons {i : List Token} {k : Token.Kind} (h : firstKind i = k) (hk : k ≠ .eof) :
    ∃ t ts, i = t :: ts ∧ t.kind = k := by
  cases i with
  | nil => exact absurd h.symm hk
  | cons t ts => exact ⟨t, ts, rfl, h⟩

theorem tail_cons {i : List Token} {k : Token.Kind} (h : firstKind i.tail = k) (hk : k ≠ .eof) :
    ∃ t u us, i = t :: u :: us ∧ u.kind = k := by
  obtain ⟨u, us, hi, hu⟩ := first_cons h hk
  cases i with
  | nil => simp at hi
  | cons t ts => exact ⟨t, u, us, congrArg (t :: ·) hi, hu⟩

section Yields

def Yields (p : Read α) (i : List Token) (a : α) (o : List Token) : Prop :=
  ∀ m, p ⟨i, m⟩ = .ok a ⟨o, m⟩

theorem Yields.bind {p : Read α} {f : α → Read β} {i mid o : List Token} {a : α} {b : β}
    (hp : Yields p i a mid) (hf : Yields (f a) mid b o) : Yields (p >>= f) i b o := by
  intro m
  rw [bind_ok (hp m)]
  exact hf m

theorem yields_pure (a : α) (i : List Token) : Yields (pure a) i a i := fun _ => rfl

theorem yields_current (i : List Token) : Yields current i (i.head?.getD endToken) i :=
  fun _ => rfl

theorem yields_currentKind (i : List Token) : Yields currentKind i (firstKind i) i :=
  fun _ => rfl

theorem yields_nextKind (i : List Token) : Yields nextKind i (firstKind i.tail) i :=
  fun _ => rfl

theorem yields_advance (i : List Token) : Yields advance i () i.tail :=
  fun _ => rfl

theorem yields_expect {kind : Token.Kind} {i : List Token} (h : firstKind i.tail = kind) :
    Yields (expect kind) i () i.tail := by
  apply (yields_nextKind i).bind
  rw [if_pos h]
  exact yields_advance i

theorem yields_skip {kind : Token.Kind} {i : List Token} (h : firstKind i.tail = kind) :
    Yields (skip kind) i () i.tail := by
  apply (yields_nextKind i).bind
  rw [if_pos h]
  exact yields_advance i

theorem yields_skip_other {kind : Token.Kind} {i : List Token} (h : firstKind i.tail ≠ kind) :
    Yields (skip kind) i () i := by
  apply (yields_nextKind i).bind
  rw [if_neg h]
  exact yields_pure () i

theorem attempt_eq_some {p : Read α} {r o : Reading} {a : α} :
    attempt p r = .ok (some a) o ↔ p r = .ok a o := by
  unfold attempt
  cases p r with
  | ok b q => simp
  | error e q => cases e <;> simp

theorem attempt_eq_none {p : Read α} {r o : Reading} :
    attempt p r = .ok none o ↔ p r = .error .mistaken o := by
  unfold attempt
  cases p r with
  | ok b q => simp
  | error e q => cases e <;> simp

theorem Yields.attempt {p : Read α} {i o : List Token} {a : α} (h : Yields p i a o) :
    Yields (Read.attempt p) i (some a) o :=
  fun m => attempt_eq_some.mpr (h m)

end Yields

section Clean

class Grows (p : Read α) : Prop where
  stop_le (r : Reading) :
    (finalState p r).tokens <:+ r.tokens ∧ r.mistakes.size ≤ (finalState p r).mistakes.size

theorem Grows.of_same {p : Read α} (h : ∀ r, finalState p r = r) : Grows p where
  stop_le r := by
    rw [h r]
    exact ⟨List.suffix_refl _, Nat.le_refl _⟩

instance (a : α) : Grows (pure a) := .of_same fun _ => rfl

instance (e : Reading.Stop) : Grows (throw e : Read α) := .of_same fun _ => rfl

instance : Grows current := .of_same fun _ => rfl

instance : Grows currentKind := .of_same fun _ => rfl

instance : Grows nextKind := .of_same fun _ => rfl

instance : Grows advance where
  stop_le _ := ⟨List.tail_suffix _, Nat.le_refl _⟩

instance (m : Mistake) : Grows (mistake m : Read α) where
  stop_le r := by
    refine ⟨List.suffix_refl _, ?_⟩
    change r.mistakes.size ≤ (r.mistakes.push m).size
    simp

instance Grows.bind {p : Read α} {f : α → Read β} [hp : Grows p] [hf : ∀ a, Grows (f a)] :
    Grows (p >>= f) where
  stop_le r := by
    have hr := hp.stop_le r
    cases h : p r with
    | ok a r' =>
        have ha := (hf a).stop_le r'
        have step : finalState (p >>= f) r = finalState (f a) r' := by simp only [finalState, bind_ok h]
        rw [finalState_ok h] at hr
        rw [step]
        exact ⟨ha.1.trans hr.1, hr.2.trans ha.2⟩
    | error e r' =>
        rw [finalState_error h] at hr
        rw [finalState_error (bind_error h)]
        exact hr

instance {c : Prop} [Decidable c] {p q : Read α} [hp : Grows p] [hq : Grows q] :
    Grows (if c then p else q) := by
  split
  · exact hp
  · exact hq

instance (kind : Token.Kind) : Grows (expect kind) := by
  unfold expect
  infer_instance

instance (kind : Token.Kind) : Grows (skip kind) := by
  unfold skip
  infer_instance

instance {p : Read α} [hp : Grows p] : Grows (attempt p) where
  stop_le r := by
    have same : finalState (attempt p) r = finalState p r := by
      unfold finalState attempt
      cases p r with
      | ok a r' => rfl
      | error e r' => cases e <;> rfl
    rw [same]
    exact hp.stop_le r

instance (a : Option α) : Grows (require a) := by
  cases a with
  | none => exact inferInstanceAs (Grows (throw _))
  | some a => exact inferInstanceAs (Grows (pure a))

def Clean (p : Read α) (i : List Token) (P : List Token → α → Prop) : Prop :=
  ∀ m r, r.mistakes.size = m.size →
    (∀ a, p ⟨i, m⟩ = .ok a r → P r.tokens a) ∧ p ⟨i, m⟩ ≠ .error .mistaken r

variable {p : Read α} {f : α → Read β} {i : List Token} {P : List Token → α → Prop}
  {Q : List Token → β → Prop}

theorem Clean.mono {P' : List Token → α → Prop} (h : Clean p i P) (hP : ∀ o a, P o a → P' o a) :
    Clean p i P' :=
  fun m r hr => ⟨fun a ha => hP _ _ ((h m r hr).1 a ha), (h m r hr).2⟩

theorem Clean.bind [hp : Grows p] [hf : ∀ a, Grows (f a)] (first : Clean p i P)
    (second : ∀ a o, o <:+ i → P o a → Clean (f a) o Q) : Clean (p >>= f) i Q := by
  intro m r hr
  have le := hp.stop_le ⟨i, m⟩
  cases h : p ⟨i, m⟩ with
  | ok a r' =>
      rw [finalState_ok h] at le
      rw [bind_ok h]
      have le' := (hf a).stop_le r'
      have clean (stops : finalState (f a) r' = r) : Clean (f a) r'.tokens Q ∧ r.mistakes.size = r'.mistakes.size := by
        rw [stops] at le'
        have same : r'.mistakes.size = m.size := Nat.le_antisymm (hr ▸ le'.2) le.2
        exact ⟨second a r'.tokens le.1 ((first m r' same).1 a h), hr.trans same.symm⟩
      constructor
      · intro b hb
        obtain ⟨hc, hs⟩ := clean (finalState_ok hb)
        exact (hc r'.mistakes r hs).1 b hb
      · intro he
        obtain ⟨hc, hs⟩ := clean (finalState_error he)
        exact (hc r'.mistakes r hs).2 he
  | error e r' =>
      rw [bind_error h]
      refine ⟨fun b hb => by simp at hb, fun he => ?_⟩
      obtain ⟨rfl, rfl⟩ : e = .mistaken ∧ r' = r := by simpa using he
      exact (first m r' hr).2 h

theorem clean_pure {a : α} (h : P i a) : Clean (pure a) i P := by
  intro m r _
  refine ⟨fun b hb => ?_, fun he => by cases he⟩
  cases hb
  exact h

theorem Clean.step {a : α} {o : List Token} (hp : Yields p i a o) (h : Clean (f a) o Q) :
    Clean (p >>= f) i Q := by
  intro m r hr
  rw [bind_ok (hp m)]
  exact h m r hr

theorem clean_mistake (m : Mistake) : Clean (mistake m) i P := by
  intro m' r hr
  refine ⟨fun a ha => (by cases ha), fun he => ?_⟩
  obtain rfl : (⟨i, m'.push m⟩ : Reading) = r := by
    cases he
    rfl
  simp at hr

theorem Clean.expect {kind : Token.Kind} {f : Unit → Read β} (hk : kind ≠ .eof)
    (h : ∀ t u us, i = t :: u :: us → u.kind = kind → Clean (f ()) (u :: us) Q) :
    Clean (Read.expect kind >>= f) i Q := by
  by_cases hn : firstKind i.tail = kind
  · obtain ⟨t, u, us, rfl, hu⟩ := tail_cons hn hk
    exact .step (yields_expect hn) (h t u us rfl hu)
  · intro m r hr
    have stops : Read.expect kind ⟨i, m⟩ =
        (mistake (.expected kind (firstKind i.tail)) : Read Unit) ⟨i, m⟩ := by
      unfold Read.expect
      rw [bind_ok (yields_nextKind i m), if_neg hn]
    have he : Read.expect kind ⟨i, m⟩ =
        .error .mistaken ⟨i, m.push (.expected kind (firstKind i.tail))⟩ := stops
    rw [bind_error he]
    refine ⟨fun b hb => by simp at hb, fun hr' => ?_⟩
    obtain rfl : (⟨i, m.push (.expected kind (firstKind i.tail))⟩ : Reading) = r := by
      simpa using hr'
    simp at hr

theorem Clean.skip {kind : Token.Kind} {f : Unit → Read β}
    (there : firstKind i.tail = kind → Clean (f ()) i.tail Q)
    (absent : firstKind i.tail ≠ kind → Clean (f ()) i Q) : Clean (Read.skip kind >>= f) i Q := by
  by_cases hk : firstKind i.tail = kind
  · exact .step (yields_skip hk) (there hk)
  · exact .step (yields_skip_other hk) (absent hk)

theorem Clean.attempt (h : Clean p i P) :
    Clean (Read.attempt p) i (fun o a => ∃ b, a = some b ∧ P o b) := by
  intro m r hr
  cases hp : p ⟨i, m⟩ with
  | ok b r' =>
      have he : Read.attempt p ⟨i, m⟩ = .ok (some b) r' := attempt_eq_some.mpr hp
      rw [he]
      refine ⟨fun a ha => ?_, by simp⟩
      obtain ⟨rfl, rfl⟩ : some b = a ∧ r' = r := by simpa using ha
      exact ⟨b, rfl, (h m r' hr).1 b hp⟩
  | error e r' =>
      cases e with
      | tooDeep => simp [Read.attempt, hp]
      | mistaken =>
          have he : Read.attempt p ⟨i, m⟩ = .ok none r' := by simp [Read.attempt, hp]
          rw [he]
          refine ⟨fun a ha => ?_, by simp⟩
          obtain ⟨-, rfl⟩ : none = a ∧ r' = r := by simpa using ha
          exact absurd hp (h m r' hr).2

end Clean

end Marmoset.Read
