import Marmoset.Proofs.Tree.Derivation

/-!
Brackets in the sentences of the grammar. A phrase closes all brackets that it opens, except that a
block may be left open at the end of the text; an expression does not end with a semicolon.
-/

namespace Marmoset

def Token.Kind.weight : Token.Kind → Int
  | .lparen | .lbracket | .lbrace => 1
  | .rparen | .rbracket | .rbrace => -1
  | _ => 0

def Token.surplus : List Token → Int
  | [] => 0
  | t :: ts => t.kind.weight + surplus ts

namespace Grammar

open Token

section Even

variable {inp mid out : List Token} {t u : Token}

structure Even (inp out : List Token) : Prop where
  suffix : out <:+ inp
  surplus : surplus inp = surplus out

structure LeftOpen (inp out : List Token) : Prop where
  ends : out = []
  surplus : 0 < surplus inp

def Balanced (inp out : List Token) : Prop := Even inp out ∨ LeftOpen inp out

def Shut (inp out : List Token) : Prop :=
  (Even inp out ∧ ∃ t, t.kind ≠ .semicolon ∧ t :: out <:+ inp) ∨ LeftOpen inp out

theorem Shut.balanced (h : Shut inp out) : Balanced inp out := h.imp_left And.left

theorem Even.refl (ts : List Token) : Even ts ts := ⟨List.suffix_refl ts, rfl⟩

theorem Even.trans (h : Even inp mid) (h' : Even mid out) : Even inp out :=
  ⟨h'.suffix.trans h.suffix, h.surplus.trans h'.surplus⟩

theorem Even.leftOpen (h : Even inp mid) (h' : LeftOpen mid out) : LeftOpen inp out :=
  ⟨h'.ends, h.surplus ▸ h'.surplus⟩

theorem Even.balanced (h : Even inp mid) (h' : Balanced mid out) : Balanced inp out :=
  h'.imp h.trans h.leftOpen

theorem Even.shut (h : Even inp mid) (h' : Shut mid out) : Shut inp out := by
  refine h'.imp (fun ⟨heven, t, ht, hlast⟩ => ?_) h.leftOpen
  exact ⟨h.trans heven, t, ht, hlast.trans h.suffix⟩

theorem even_cons (ht : t.kind.weight = 0) (ts : List Token) : Even (t :: ts) ts :=
  ⟨List.suffix_cons t ts, by simp [Token.surplus, ht]⟩

theorem even_let {i : Token} (ht : t.kind = .kwLet) (hi : i.kind = .ident) (hu : u.kind = .assign)
    (ts : List Token) : Even (t :: i :: u :: ts) ts := by
  refine (even_cons ?_ _).trans ((even_cons ?_ _).trans (even_cons ?_ ts))
  · rw [ht]; rfl
  · rw [hi]; rfl
  · rw [hu]; rfl

theorem Balanced.even (h : Balanced inp (t :: out)) : Even inp (t :: out) :=
  h.resolve_right fun ho => by cases ho.ends

theorem Balanced.step (h : Balanced inp (t :: mid)) (ht : t.kind.weight = 0) : Even inp mid :=
  h.even.trans (even_cons ht mid)

theorem Balanced.enclosed (h : Balanced mid (u :: out)) (htu : t.kind.weight + u.kind.weight = 0) :
    Even (t :: mid) out := by
  refine ⟨(List.suffix_cons u out).trans (h.even.suffix.trans (List.suffix_cons t mid)), ?_⟩
  have hmid := h.even.surplus
  simp only [Token.surplus] at hmid ⊢
  omega

theorem shut_token (ht : t.kind.weight = 0) (hsemi : t.kind ≠ .semicolon) (out : List Token) :
    Shut (t :: out) out :=
  .inl ⟨even_cons ht out, t, hsemi, List.suffix_refl _⟩

theorem Balanced.shut (h : Balanced inp (t :: mid)) (h' : Balanced mid (u :: out))
    (htu : t.kind.weight + u.kind.weight = 0) (hu : u.kind ≠ .semicolon) : Shut inp out := by
  have hlast : u :: out <:+ t :: mid := h'.even.suffix.trans (List.suffix_cons t mid)
  exact h.even.shut (.inl ⟨h'.enclosed htu, u, hu, hlast⟩)

theorem Balanced.trans (h : Balanced inp mid) (h' : Balanced mid out) : Balanced inp out := by
  rcases h with heven | ⟨rfl, hopen⟩
  · exact heven.balanced h'
  · refine .inr ⟨?_, hopen⟩
    rcases h' with heven | hopen'
    · exact List.suffix_nil.mp heven.suffix
    · exact hopen'.ends

theorem Balanced.optional (h : Balanced inp mid) {bare : Bool} (ho : free bare mid out) :
    Balanced inp out := by
  rcases ho with rfl | ⟨t, ht, rfl⟩
  · exact h
  · exact .inl (h.step (by rw [ht]; rfl))

theorem Balanced.surplus_eq (h : Balanced inp out) (h0 : surplus inp = 0) : surplus out = 0 := by
  rcases h with heven | hopen
  · exact heven.surplus.symm.trans h0
  · exact absurd h0 (Int.ne_of_gt hopen.surplus)

theorem Balanced.leftOpen (h : Balanced mid []) (ht : t.kind.weight = 1) : LeftOpen (t :: mid) [] := by
  refine ⟨rfl, ?_⟩
  rcases h with heven | hopen
  · simp [Token.surplus, heven.surplus, ht]
  · have hmid := hopen.surplus
    simp only [Token.surplus, ht]
    omega

end Even

instance : DecidablePred Kind.Joins := fun _ => inferInstanceAs (Decidable (_ ∧ _))

theorem weight_of_joins {k : Token.Kind} : k.Joins → k.weight = 0 := by
  cases k <;> decide

def Phrase.Brackets : Phrase → List Token → List Token → Prop
  | .expr _ _, inp, out | .block _, inp, out => Shut inp out
  | _, inp, out => Balanced inp out

theorem Derives.brackets {φ : Phrase} {inp out : List Token} (h : Derives free φ inp out) :
    φ.Brackets inp out := by
  induction h with
  | above _ ih => exact ih
  | binary ht _ _ _ ihl ihr => exact (ihl.balanced.step (weight_of_joins ht)).shut ihr
  | range ht _ _ ihl ihr => exact (ihl.balanced.step (by rw [ht]; rfl)).shut ihr
  | @unary t e mid out ht _ ih =>
      have hweight : t.kind.weight = 0 := by rcases ht with ht | ht <;> rw [ht] <;> rfl
      exact (even_cons hweight mid).shut ih
  | call ht hu _ _ ihf ihargs => exact ihf.balanced.shut ihargs (by rw [ht, hu]; rfl) (by simp [hu])
  | index ht hu _ _ ihc ihi =>
      exact ihc.balanced.shut ihi.balanced (by rw [ht, hu]; rfl) (by simp [hu])
  | ident ht | int ht | double ht | string ht | yes ht | no ht =>
      exact shut_token (by rw [ht]; rfl) (by simp [ht]) _
  | group ht hu _ ih =>
      exact Balanced.shut (.inl (.refl _)) ih.balanced (by rw [ht, hu]; rfl) (by simp [hu])
  | cond ht hl hr _ _ ihe ihb =>
      exact (even_cons (by rw [ht]; rfl) _).shut ((ihe.balanced.enclosed (by rw [hl, hr]; rfl)).shut ihb)
  | condElse ht hl hr hf _ _ _ ihe ihb ihb' =>
      have htest := (even_cons (by rw [ht]; rfl) _).trans (ihe.balanced.enclosed (by rw [hl, hr]; rfl))
      exact (htest.trans (ihb.balanced.step (by rw [hf]; rfl))).shut ihb'
  | loop ht hl hr _ _ ihe ihb =>
      exact (even_cons (by rw [ht]; rfl) _).shut ((ihe.balanced.enclosed (by rw [hl, hr]; rfl)).shut ihb)
  | fn ht hl hr _ _ ihp ihb =>
      exact (even_cons (by rw [ht]; rfl) _).shut ((Balanced.enclosed ihp (by rw [hl, hr]; rfl)).shut ihb)
  | array ht hu _ ih =>
      exact Balanced.shut (.inl (.refl _)) ih (by rw [ht, hu]; rfl) (by simp [hu])
  | hash ht hu _ ih =>
      exact Balanced.shut (.inl (.refl _)) ih (by rw [ht, hu]; rfl) (by simp [hu])
  | hashComma ht hc hu _ ih =>
      have hinner := Balanced.step ih (by rw [hc]; rfl)
      exact Balanced.shut (.inl (.refl _)) (.inl hinner) (by rw [ht, hu]; rfl) (by simp [hu])
  | exprsNil | paramsNil | pairsNil | stmtsNil => exact .inl (.refl _)
  | exprsOne _ ih => exact Shut.balanced ih
  | exprsMore hc _ _ ihe ihs => exact (ihe.balanced.step (by rw [hc]; rfl)).balanced ihs
  | paramsOne ht => exact .inl (even_cons (by rw [ht]; rfl) _)
  | paramsMore ht hc _ ih =>
      exact ((even_cons (by rw [ht]; rfl) _).trans (even_cons (by rw [hc]; rfl) _)).balanced ih
  | pairsOne hc _ _ ihk ihv => exact (ihk.balanced.step (by rw [hc]; rfl)).balanced ihv.balanced
  | pairsMore hc hd _ _ _ ihk ihv ihs =>
      have hvalue := (ihk.balanced.step (by rw [hc]; rfl)).trans (ihv.balanced.step (by rw [hd]; rfl))
      exact hvalue.balanced ihs
  | block ht hu _ ih =>
      exact Balanced.shut (.inl (.refl _)) ih (by rw [ht, hu]; rfl) (by simp [hu])
  | blockOpen ht _ ih => exact .inr (Balanced.leftOpen ih (by rw [ht]; rfl))
  | bind ht hi ha _ ho ih =>
      exact ((even_let ht hi ha _).balanced ih.balanced).optional ho
  | ret ht ho => exact Balanced.optional (.inl (even_cons (by rw [ht]; rfl) _)) ho
  | retValue ht _ ho ih => exact ((even_cons (by rw [ht]; rfl) _).balanced ih.balanced).optional ho
  | expr _ ho ih => exact ih.balanced.optional ho
  | stmtsCons _ _ ihs ihss => exact Balanced.trans ihs ihss

end Grammar

end Marmoset
