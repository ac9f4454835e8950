namespace Marmoset

variable {ε σ α β : Type} {p : EStateM ε σ α} {f : α → EStateM ε σ β} {s s' : σ} {a : α} {e : ε}

theorem bind_ok (h : p s = .ok a s') : (p >>= f) s = f a s' := by
  change EStateM.bind p f s = f a s'
  simp [EStateM.bind, h]

theorem bind_error (h : p s = .error e s') : (p >>= f) s = .error e s' := by
  change EStateM.bind p f s = .error e s'
  simp [EStateM.bind, h]

theorem bind_of_eq {p' : EStateM ε σ α} (h : p s = p' s') : (p >>= f) s = (p' >>= f) s' := by
  change EStateM.bind p f s = EStateM.bind p' f s'
  simp only [EStateM.bind, h]

theorem bind_eq_ok {b : β} (h : (p >>= f) s = .ok b s') :
    ∃ a mid, p s = .ok a mid ∧ f a mid = .ok b s' := by
  cases hp : p s with
  | ok a mid =>
      rw [bind_ok hp] at h
      exact ⟨a, mid, rfl, h⟩
  | error e mid =>
      rw [bind_error hp] at h
      cases h

theorem bind_eq_error (h : (p >>= f) s = .error e s') :
    p s = .error e s' ∨ ∃ a mid, p s = .ok a mid ∧ f a mid = .error e s' := by
  cases hp : p s with
  | ok a mid =>
      rw [bind_ok hp] at h
      exact .inr ⟨a, mid, rfl, h⟩
  | error e mid =>
      rw [bind_error hp] at h
      cases h
      exact .inl rfl

def Ends (p : EStateM ε σ α) (s : σ) (R : α → σ → Prop) (H : ε → σ → Prop) : Prop :=
  (∀ a s', p s = .ok a s' → R a s') ∧ ∀ e s', p s = .error e s' → H e s'

variable {R : α → σ → Prop} {R' : β → σ → Prop} {H : ε → σ → Prop}

theorem Ends.pure (h : R a s) : Ends (pure a) s R H := by
  refine ⟨fun b s' hb => ?_, fun e s' he => (by cases he)⟩
  cases hb
  exact h

theorem Ends.throw (h : H e s) : Ends (throw e) s R H := by
  refine ⟨fun b s' hb => (by cases hb), fun e' s' he => ?_⟩
  cases he
  exact h

theorem Ends.bind (hp : Ends p s R H) (hf : ∀ a s', p s = .ok a s' → R a s' → Ends (f a) s' R' H) :
    Ends (p >>= f) s R' H := by
  cases h : p s with
  | ok a mid =>
      have hn := hf a mid h (hp.1 a mid h)
      refine ⟨fun b s' hb => hn.1 b s' ?_, fun e s' he => hn.2 e s' ?_⟩
      · rwa [bind_ok h] at hb
      · rwa [bind_ok h] at he
  | error e mid =>
      refine ⟨fun b s' hb => ?_, fun e' s' he => ?_⟩
      · rw [bind_error h] at hb
        cases hb
      · rw [bind_error h] at he
        cases he
        exact hp.2 e mid h

theorem Ends.mono {R₂ : α → σ → Prop} (hp : Ends p s R H) (h : ∀ a s', R a s' → R₂ a s') :
    Ends p s R₂ H :=
  ⟨fun a s' ha => h a s' (hp.1 a s' ha), hp.2⟩

def finalState (p : EStateM ε σ α) (s : σ) : σ :=
  match p s with
  | .ok _ s' | .error _ s' => s'

theorem finalState_ok (h : p s = .ok a s') : finalState p s = s' := by
  rw [finalState, h]

theorem finalState_error (h : p s = .error e s') : finalState p s = s' := by
  rw [finalState, h]

theorem Ends.finalState {P : σ → Prop} (h : Ends p s (fun _ => P) fun _ => P) :
    P (finalState p s) := by
  cases hp : p s with
  | ok a s' =>
      rw [finalState_ok hp]
      exact h.1 a s' hp
  | error e s' =>
      rw [finalState_error hp]
      exact h.2 e s' hp

theorem finalState_bind {P : σ → Prop} (hp : P (finalState p s))
    (hf : ∀ a s', p s = .ok a s' → P s' → P (finalState (f a) s')) : P (finalState (p >>= f) s) := by
  cases h : p s with
  | ok a mid =>
      rw [finalState_ok h] at hp
      rw [finalState, bind_ok h]
      exact hf a mid h hp
  | error e mid =>
      rw [finalState_error h] at hp
      rwa [finalState_error (bind_error h)]

section Mirrors

/-- States of two computations that belong together. Where the first computation gets lost, nothing is
said of the second one any more. -/
structure Pairing (σ τ : Type) where
  Rel : σ → τ → Prop
  Lost : σ → Prop := fun _ => False

variable {τ α' β' : Type} {S : Pairing σ τ} {f : α → β} {f' : α' → β'} {p : EStateM ε σ α}
  {q : EStateM ε τ β} {t : τ}

inductive Matching (S : Pairing σ τ) (f : α → β) :
    EStateM.Result ε σ α → EStateM.Result ε τ β → Prop where
  | ok {x : α} {y : σ} {z : τ} : S.Rel y z → Matching S f (.ok x y) (.ok (f x) z)
  | error {x : ε} {y : σ} {z : τ} : S.Rel y z → Matching S f (.error x y) (.error x z)

def Steps (S : Pairing σ τ) (f : α → β) (p : EStateM ε σ α) (q : EStateM ε τ β) (s : σ) (t : τ) :
    Prop :=
  S.Lost (finalState p s) ∨ Matching S f (p s) (q t)

/-- From states that belong together the second computation goes in step with the first one, and from
a lost state the first one does not come back. -/
structure Mirrors (S : Pairing σ τ) (f : α → β) (p : EStateM ε σ α) (q : EStateM ε τ β) : Prop where
  lost {s : σ} : S.Lost s → S.Lost (finalState p s)
  step {s : σ} {t : τ} : S.Rel s t → Steps S f p q s t

theorem Steps.bind {k : α → EStateM ε σ α'} {l : β → EStateM ε τ β'} (h : Steps S f p q s t)
    (hlost : ∀ a s', S.Lost s' → S.Lost (finalState (k a) s'))
    (hk : ∀ a s' t', p s = .ok a s' → S.Rel s' t' → Steps S f' (k a) (l (f a)) s' t') :
    Steps S f' (p >>= k) (q >>= l) s t := by
  rcases h with hs | hmatch
  · exact .inl (finalState_bind hs fun a s' _ => hlost a s')
  · generalize hp : p s = x at hmatch
    generalize hq : q t = y at hmatch
    cases hmatch with
    | ok hS =>
        rw [Steps, finalState, bind_ok hp, bind_ok hq]
        exact hk _ _ _ hp hS
    | error hS =>
        rw [Steps, bind_error hp, bind_error hq]
        exact .inr (.error hS)

theorem mirrors_pure {a : α} {b : β} (h : b = f a) :
    Mirrors S f (pure a : EStateM ε σ α) (pure b : EStateM ε τ β) :=
  ⟨fun hs => hs, fun hS => h ▸ .inr (.ok hS)⟩

theorem mirrors_throw (e : ε) : Mirrors S f (throw e : EStateM ε σ α) (throw e : EStateM ε τ β) :=
  ⟨fun hs => hs, fun hS => .inr (.error hS)⟩

theorem Mirrors.bind {k : α → EStateM ε σ α'} {l : β → EStateM ε τ β'} (h : Mirrors S f p q)
    (hk : ∀ a, Mirrors S f' (k a) (l (f a))) : Mirrors S f' (p >>= k) (q >>= l) where
  lost hs := finalState_bind (h.lost hs) fun a _ _ => (hk a).lost
  step hS := (h.step hS).bind (fun a _ => (hk a).lost) fun a _ _ _ => (hk a).step

theorem Mirrors.ite {c d : Prop} [Decidable c] [Decidable d] {p' : EStateM ε σ α}
    {q' : EStateM ε τ β} (hcd : c ↔ d) (h : Mirrors S f p q) (h' : Mirrors S f p' q') :
    Mirrors S f (if c then p else p') (if d then q else q') := by
  by_cases hc : c
  · rw [if_pos hc, if_pos (hcd.mp hc)]
    exact h
  · rw [if_neg hc, if_neg fun hd => hc (hcd.mpr hd)]
    exact h'

theorem mirrors_modifyGet {g : σ → α × σ} {k : τ → β × τ} (hlost : ∀ s, S.Lost s → S.Lost (g s).2)
    (h : ∀ s t, S.Rel s t → S.Lost (g s).2 ∨ (k t).1 = f (g s).1 ∧ S.Rel (g s).2 (k t).2) :
    Mirrors S f (modifyGet g : EStateM ε σ α) (modifyGet k : EStateM ε τ β) where
  lost hs := hlost _ hs
  step {s t} hS := by
    rcases h s t hS with hs | ⟨hf, hS'⟩
    · exact .inl hs
    · refine .inr ?_
      change Matching S f (.ok (g s).1 (g s).2) (.ok (k t).1 (k t).2)
      rw [hf]
      exact .ok hS'

theorem mirrors_get {g : σ → α} {k : τ → β} (h : ∀ s t, S.Rel s t → k t = f (g s)) :
    Mirrors S f (do return g (← get) : EStateM ε σ α) (do return k (← get) : EStateM ε τ β) where
  lost hs := hs
  step {s t} hS := by
    refine .inr ?_
    change Matching S f (.ok (g s) s) (.ok (k t) t)
    rw [h s t hS]
    exact .ok hS

theorem Mirrors.ends (h : Mirrors S f p q) (hS : S.Rel s t) (hs : ¬S.Lost (finalState p s)) :
    (∃ a s' t', p s = .ok a s' ∧ q t = .ok (f a) t' ∧ S.Rel s' t') ∨
      ∃ e s' t', p s = .error e s' ∧ q t = .error e t' ∧ S.Rel s' t' := by
  have hmatch := (h.step hS).resolve_left hs
  generalize hp : p s = x at hmatch
  generalize hq : q t = y at hmatch
  cases hmatch with
  | ok hS' => exact .inl ⟨_, _, _, rfl, rfl, hS'⟩
  | error hS' => exact .inr ⟨_, _, _, rfl, rfl, hS'⟩

end Mirrors

section Agrees

variable {S : σ → σ → Prop} {P : α → Prop} {P' : β → Prop} {p q : EStateM ε σ α}

inductive SameEnd (S : σ → σ → Prop) (P : α → Prop) :
    EStateM.Result ε σ α → EStateM.Result ε σ α → Prop where
  | ok {x : α} {y z : σ} : P x → S y z → SameEnd S P (.ok x y) (.ok x z)
  | error {x : ε} {y z : σ} : S y z → SameEnd S P (.error x y) (.error x z)

theorem SameEnd.mono {S' : σ → σ → Prop} {Q : α → Prop} {x y : EStateM.Result ε σ α}
    (h : SameEnd S P x y) (hS : ∀ s t, S s t → S' s t) (hP : ∀ a, P a → Q a) : SameEnd S' Q x y := by
  cases h with
  | ok ha hs => exact .ok (hP _ ha) (hS _ _ hs)
  | error hs => exact .error (hS _ _ hs)

def Agrees (S : σ → σ → Prop) (P : α → Prop) (p q : EStateM ε σ α) : Prop :=
  ∀ s t, S s t → SameEnd S P (p s) (q t)

theorem agrees_pure {a : α} (h : P a) : Agrees S P (pure a : EStateM ε σ α) (pure a) :=
  fun _ _ hS => .ok h hS

theorem agrees_throw (e : ε) : Agrees S P (throw e : EStateM ε σ α) (throw e) :=
  fun _ _ hS => .error hS

theorem Agrees.bind {k l : α → EStateM ε σ β} (h : Agrees S P p q)
    (hk : ∀ a, P a → Agrees S P' (k a) (l a)) : Agrees S P' (p >>= k) (q >>= l) := by
  intro s t hS
  have hend := h s t hS
  generalize hp : p s = x at hend
  generalize hq : q t = y at hend
  cases hend with
  | ok ha hS' =>
      rw [bind_ok hp, bind_ok hq]
      exact hk _ ha _ _ hS'
  | error hS' =>
      rw [bind_error hp, bind_error hq]
      exact .error hS'

theorem Agrees.ite {c : Prop} [Decidable c] {p' q' : EStateM ε σ α} (h : Agrees S P p q)
    (h' : Agrees S P p' q') : Agrees S P (if c then p else p') (if c then q else q') := by
  split
  · exact h
  · exact h'

theorem agrees_modifyGet {g : σ → α × σ}
    (h : ∀ s t, S s t → (g s).1 = (g t).1 ∧ P (g s).1 ∧ S (g s).2 (g t).2) :
    Agrees S P (modifyGet g : EStateM ε σ α) (modifyGet g) := by
  intro s t hS
  obtain ⟨hsame, hP, hS'⟩ := h s t hS
  change SameEnd S P (.ok (g s).1 (g s).2) (.ok (g t).1 (g t).2)
  rw [← hsame]
  exact .ok hP hS'

theorem agrees_get {g : σ → α} (h : ∀ s t, S s t → g s = g t ∧ P (g s)) :
    Agrees S P (do return g (← get) : EStateM ε σ α) (do return g (← get)) := by
  intro s t hS
  obtain ⟨hsame, hP⟩ := h s t hS
  change SameEnd S P (.ok (g s) s) (.ok (g t) t)
  rw [← hsame]
  exact .ok hP hS

end Agrees

section Outlasts

variable {L : ε → Prop} {p q : EStateM ε σ α}

/-- The second computation comes to the same end as the first one, unless that one is stopped by a
limit. -/
class Outlasts (L : ε → Prop) (p q : EStateM ε σ α) : Prop where
  ends (s : σ) : p s = q s ∨ ∃ e s', p s = .error e s' ∧ L e

instance Outlasts.refl (p : EStateM ε σ α) : Outlasts L p p := ⟨fun _ => .inl rfl⟩

theorem outlasts_throw {e : ε} (h : L e) : Outlasts L (throw e) q := ⟨fun s => .inr ⟨e, s, rfl, h⟩⟩

instance Outlasts.bind {f g : α → EStateM ε σ β} [h : Outlasts L p q] [k : ∀ a, Outlasts L (f a) (g a)] :
    Outlasts L (p >>= f) (q >>= g) where
  ends s := by
    rcases h.ends s with hsame | ⟨e, s', hs, hlimit⟩
    · cases hs : p s with
      | ok a s' =>
          rw [bind_ok hs, bind_ok (hsame.symm.trans hs)]
          exact (k a).ends s'
      | error e s' =>
          rw [bind_error hs, bind_error (hsame.symm.trans hs)]
          exact .inl rfl
    · exact .inr ⟨e, s', bind_error hs, hlimit⟩

instance Outlasts.ite {c : Prop} [Decidable c] {p' q' : EStateM ε σ α} [h : Outlasts L p q]
    [k : Outlasts L p' q'] : Outlasts L (if c then p else p') (if c then q else q') := by
  split
  · exact h
  · exact k

end Outlasts

end Marmoset
