import Mathlib.Data.List.Basic
import Marmoset.Proofs.Tree.Whole

namespace Marmoset

namespace Token

def Kind.partner? : Kind → Option Kind
  | .rparen => some .lparen
  | .rbracket => some .lbracket
  | .rbrace => some .lbrace
  | _ => none

def Kind.opens : Kind → Bool
  | .lparen | .lbracket | .lbrace => true
  | _ => false

def shift (stack : List Token) (t : Token) : Option (List Token) :=
  if t.kind.opens then some (t :: stack)
  else match t.kind.partner?, stack with
    | none, stack => some stack
    | some k, u :: rest => if u.kind = k then some rest else none
    | some _, [] => none

/-- The brackets that are open after the tokens, unless one of the tokens closes a bracket of another kind
or none at all. -/
def scan (stack ts : List Token) : Option (List Token) := ts.foldlM shift stack

variable {st us ts ts' : List Token} {t u : Token} {k k' : Kind}

theorem Kind.opens_of_partner (h : k'.partner? = some k) : k.opens = true := by
  cases k' <;> cases h <;> rfl

theorem shift_open (h : t.kind.opens = true) (st : List Token) : shift st t = some (t :: st) :=
  if_pos h

theorem shift_other (h : t.kind.weight = 0) (st : List Token) : shift st t = some st := by
  obtain ⟨k, literal, pos⟩ := t
  cases k <;> first | rfl | cases h

theorem shift_close (h : u.kind.partner? = some t.kind) (st : List Token) : shift (t :: st) u = some st := by
  obtain ⟨k, literal, pos⟩ := u
  cases k with
  | rparen | rbracket | rbrace => simp_all [shift, Kind.opens, Kind.partner?]
  | _ => cases h

theorem scan_cons (st : List Token) (t : Token) (ts : List Token) :
    scan st (t :: ts) = (shift st t).bind (scan · ts) :=
  List.foldlM_cons

theorem scan_append (st ts ts' : List Token) : scan st (ts ++ ts') = (scan st ts).bind (scan · ts') :=
  List.foldlM_append

theorem shift_length (h : shift st t = some us) : (us.length : Int) = st.length + t.kind.weight := by
  obtain ⟨k, literal, pos⟩ := t
  cases k with
  | lparen | lbracket | lbrace =>
      cases h
      rfl
  | rparen | rbracket | rbrace =>
      cases st with
      | nil => cases h
      | cons u rest =>
          obtain ⟨-, h⟩ := Option.ite_none_right_eq_some.mp h
          cases h
          simp only [List.length_cons, Kind.weight]
          omega
  | _ =>
      cases h
      simp [Kind.weight]

theorem scan_length (h : scan st ts = some us) : (us.length : Int) = st.length + surplus ts := by
  induction ts generalizing st with
  | nil =>
      cases h
      simp [surplus]
  | cons t ts ih =>
      rw [scan_cons] at h
      obtain ⟨st', ht, hts⟩ := Option.bind_eq_some_iff.mp h
      rw [ih hts, shift_length ht, surplus]
      omega

end Token

namespace Grammar

open Token

structure EndsOpen (inp : List Token) (u : Token) (b : Block) : Prop where
  brace : u.kind = .lbrace
  place : b.pos = u.pos
  rest : ∃ pre post, inp = pre ++ u :: post ∧ Derives careful (.stmts b.stmts) post []

/-- The tokens before `out` close each bracket that they open, except for blocks with the property that
are open at the end of the text. -/
def Nested (P : Node → Prop) (inp out : List Token) : Prop :=
  ∃ ts us, inp = ts ++ out ∧ (∀ st, scan st ts = some (us ++ st)) ∧ (us = [] ∨ out = []) ∧
    ∀ u ∈ us, ∃ b, P (.block b) ∧ EndsOpen inp u b

section Nested

variable {P : Node → Prop} {inp mid out : List Token} {t u : Token} {k k' : Token.Kind}

theorem EndsOpen.prepend {b : Block} (h : EndsOpen mid u b) (ts : List Token) :
    EndsOpen (ts ++ mid) u b := by
  obtain ⟨hbrace, hplace, pre, post, rfl, hd⟩ := h
  exact ⟨hbrace, hplace, ts ++ pre, post, (List.append_assoc ..).symm, hd⟩

theorem Nested.refl (ts : List Token) : Nested P ts ts :=
  ⟨[], [], rfl, fun _ => rfl, .inl rfl, List.forall_mem_nil _⟩

theorem Nested.trans (h : Nested P inp mid) (h' : Nested P mid out) : Nested P inp out := by
  obtain ⟨ts, us, rfl, hts, hmid, hus⟩ := h
  obtain ⟨ts', us', rfl, hts', hout, hus'⟩ := h'
  refine ⟨ts ++ ts', us' ++ us, (List.append_assoc ..).symm, fun st => ?_, ?_, fun u hu => ?_⟩
  · rw [scan_append, hts, Option.bind_some, hts', List.append_assoc]
  · rcases hmid with rfl | hnil
    · rwa [List.append_nil]
    · exact .inr (List.append_eq_nil_iff.mp hnil).2
  · rcases List.mem_append.mp hu with hu | hu
    · obtain ⟨b, hb, hopen⟩ := hus' u hu
      exact ⟨b, hb, hopen.prepend ts⟩
    · exact hus u hu

theorem nested_token (ht : t.kind = k) (hk : k.weight = 0) (out : List Token) : Nested P (t :: out) out := by
  subst ht
  refine ⟨[t], [], rfl, fun st => ?_, .inl rfl, List.forall_mem_nil _⟩
  rw [scan_cons, shift_other hk]
  rfl

theorem Nested.step (h : Nested P inp (t :: mid)) (ht : t.kind = k) (hk : k.weight = 0) :
    Nested P inp mid :=
  h.trans (nested_token ht hk mid)

theorem Nested.enclosed (h : Nested P mid (u :: out)) (ht : t.kind = k) (hu : u.kind = k')
    (hk : k'.partner? = some k) : Nested P (t :: mid) out := by
  subst ht hu
  -- the text does not end inside, since the closing bracket is still to come
  obtain ⟨ts, us, rfl, hts, rfl | hnil, -⟩ := h
  · refine ⟨t :: (ts ++ [u]), [], by simp, fun st => ?_, .inl rfl, List.forall_mem_nil _⟩
    rw [scan_cons, shift_open (Kind.opens_of_partner hk), Option.bind_some, scan_append, hts,
      List.nil_append, Option.bind_some, scan_cons, shift_close hk]
    rfl
  · cases hnil

theorem Nested.open {ss : List Stmt} (h : Nested P mid []) (ht : t.kind = .lbrace)
    (hb : P (.block (.mk t.pos ss))) (hd : Derives careful (.stmts ss) mid []) : Nested P (t :: mid) [] := by
  obtain ⟨ts, us, rfl, hts, -, hus⟩ := h
  rw [List.append_nil] at hus hd
  refine ⟨t :: ts, us ++ [t], by simp, fun st => ?_, .inr rfl, fun u hu => ?_⟩
  · rw [scan_cons, shift_open (by rw [ht]; rfl), Option.bind_some, hts, List.append_assoc]
    rfl
  · rw [List.append_nil]
    rcases List.mem_append.mp hu with hu | hu
    · obtain ⟨b, hb, hopen⟩ := hus u hu
      exact ⟨b, hb, hopen.prepend [t]⟩
    · obtain rfl := List.mem_singleton.mp hu
      exact ⟨_, hb, ht, rfl, [], ts, rfl, hd⟩

theorem Nested.ending {bare : Bool} (h : Nested P inp mid) (ho : careful bare mid out) :
    Nested P inp out := by
  rcases ho with ⟨rfl, -⟩ | ⟨t, ht, rfl⟩
  · exact h
  · exact h.step ht rfl

theorem every_children {x : Node} (h : ∀ y ∈ [x], Node.Every P y) : ∀ y ∈ x.children, Node.Every P y :=
  fun _ hy => (List.forall_mem_singleton.mp h).child hy

theorem Derives.nested {φ : Phrase} (h : Derives careful φ inp out)
    (hP : ∀ x ∈ φ.nodes, Node.Every P x) : Nested P inp out := by
  induction h with
  | above _ ih => exact ih hP
  | binary ht _ _ _ ihl ihr =>
      obtain ⟨hl, hr⟩ := List.forall_mem_cons.mp (every_children hP)
      have hleft := ihl (List.forall_mem_singleton.mpr hl)
      exact (hleft.step rfl (weight_of_joins ht)).trans (ihr hr)
  | range ht _ _ ihl ihr =>
      obtain ⟨hl, hr⟩ := List.forall_mem_cons.mp (every_children hP)
      have hleft := ihl (List.forall_mem_singleton.mpr hl)
      exact (hleft.step ht rfl).trans (ihr hr)
  | @unary t e mid out ht _ ih =>
      have hweight : t.kind.weight = 0 := by rcases ht with ht | ht <;> rw [ht] <;> rfl
      exact (nested_token rfl hweight mid).trans (ih (every_children hP))
  | call ht hu _ _ ihf ihargs =>
      obtain ⟨hf, hargs⟩ := List.forall_mem_cons.mp (every_children hP)
      have hcallee := ihf (List.forall_mem_singleton.mpr hf)
      exact hcallee.trans ((ihargs hargs).enclosed ht hu rfl)
  | index ht hu _ _ ihc ihi =>
      obtain ⟨hc, hi⟩ := List.forall_mem_cons.mp (every_children hP)
      have hcollection := ihc (List.forall_mem_singleton.mpr hc)
      exact hcollection.trans ((ihi hi).enclosed ht hu rfl)
  | ident ht | int ht | double ht | string ht | yes ht | no ht =>
      exact nested_token ht rfl _
  | group ht hu _ ih => exact (ih hP).enclosed ht hu rfl
  | cond ht hl hr _ _ ihe ihb =>
      obtain ⟨he, hb⟩ := List.forall_mem_cons.mp (every_children hP)
      have htest := (ihe (List.forall_mem_singleton.mpr he)).enclosed hl hr rfl
      exact (nested_token ht rfl _).trans (htest.trans (ihb hb))
  | condElse ht hl hr hf _ _ _ ihe ihy ihn =>
      obtain ⟨he, hblocks⟩ := List.forall_mem_cons.mp (every_children hP)
      obtain ⟨hy, hn⟩ := List.forall_mem_cons.mp hblocks
      have htest := (ihe (List.forall_mem_singleton.mpr he)).enclosed hl hr rfl
      have hyes := (ihy (List.forall_mem_singleton.mpr hy)).step hf rfl
      exact (nested_token ht rfl _).trans (htest.trans (hyes.trans (ihn hn)))
  | loop ht hl hr _ _ ihe ihb =>
      obtain ⟨he, hb⟩ := List.forall_mem_cons.mp (every_children hP)
      have htest := (ihe (List.forall_mem_singleton.mpr he)).enclosed hl hr rfl
      exact (nested_token ht rfl _).trans (htest.trans (ihb hb))
  | fn ht hl hr _ _ ihp ihb =>
      have hparams := (ihp (List.forall_mem_nil _)).enclosed hl hr rfl
      exact (nested_token ht rfl _).trans (hparams.trans (ihb (every_children hP)))
  | array ht hu _ ih => exact (ih (every_children hP)).enclosed ht hu rfl
  | hash ht hu _ ih => exact (ih (every_children hP)).enclosed ht hu rfl
  | hashComma ht hc hu _ ih =>
      have hpairs := (ih (every_children hP)).step hc rfl
      exact hpairs.enclosed ht hu rfl
  | exprsNil | paramsNil | pairsNil | stmtsNil => exact .refl _
  | exprsOne _ ih => exact ih hP
  | exprsMore hc _ _ ihe ihs =>
      obtain ⟨he, hes⟩ := List.forall_mem_cons.mp hP
      exact ((ihe (List.forall_mem_singleton.mpr he)).step hc rfl).trans (ihs hes)
  | paramsOne ht => exact nested_token ht rfl _
  | paramsMore ht hc _ ih =>
      exact (nested_token ht rfl _).trans ((nested_token hc rfl _).trans (ih hP))
  | pairsOne hc _ _ ihk ihv =>
      obtain ⟨hk, hrest⟩ := List.forall_mem_cons.mp hP
      exact ((ihk (List.forall_mem_singleton.mpr hk)).step hc rfl).trans (ihv hrest)
  | pairsMore hc hd _ _ _ ihk ihv ihs =>
      obtain ⟨hk, hrest⟩ := List.forall_mem_cons.mp hP
      obtain ⟨hv, hps⟩ := List.forall_mem_cons.mp hrest
      have hkey := (ihk (List.forall_mem_singleton.mpr hk)).step hc rfl
      have hvalue := (ihv (List.forall_mem_singleton.mpr hv)).step hd rfl
      exact hkey.trans (hvalue.trans (ihs hps))
  | block ht hu _ ih => exact (ih (every_children hP)).enclosed ht hu rfl
  -- the only phrase that may lack its closing bracket
  | blockOpen ht hd ih => exact (ih (every_children hP)).open ht (List.forall_mem_singleton.mp hP).self hd
  | bind ht hi ha _ ho ih =>
      have hvalue := (nested_token ha rfl _).trans (ih (every_children hP))
      have hname := (nested_token hi rfl _).trans hvalue
      exact ((nested_token ht rfl _).trans hname).ending ho
  | ret ht ho => exact (nested_token ht rfl _).ending ho
  | retValue ht _ ho ih =>
      exact ((nested_token ht rfl _).trans (ih (every_children hP))).ending ho
  | expr _ ho ih => exact (ih (every_children hP)).ending ho
  | stmtsCons _ _ ihs ihss =>
      obtain ⟨hs, hss⟩ := List.forall_mem_cons.mp hP
      exact (ihs (List.forall_mem_singleton.mpr hs)).trans (ihss hss)

end Nested

end Grammar

end Marmoset
