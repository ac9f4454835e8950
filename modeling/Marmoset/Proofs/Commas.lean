import Marmoset.Proofs.Termination
import Marmoset.Proofs.Tree.Completeness
import Marmoset.Proofs.Unclosed

namespace Marmoset

namespace Grammar

open Read

variable {P : Node → Prop} {inp mid out rest : List Token} {t c u : Token}

structure EndsPairs (P : Node → Prop) (inp : List Token) (c : Token) (rest : List Token) : Prop where
  brace : firstKind rest = .rbrace
  pairs : ∃ t mid p ps, t.kind = .lbrace ∧ t :: mid <:+ inp ∧ P (.expr (.hash t.pos (p :: ps))) ∧
    Derives careful (.pairs (p :: ps)) mid (c :: rest)

/-- The commas of the tokens before `out` stand before items, or after the last pair of a hash with the property. -/
structure Parted (P : Node → Prop) (inp out : List Token) : Prop where
  suffix : out <:+ inp
  comma {c : Token} {rest : List Token} : c :: rest <:+ inp → out.length ≤ rest.length → c.kind = .comma →
    (firstKind rest).closes = true → EndsPairs P inp c rest

theorem EndsPairs.prepend (h : EndsPairs P mid c rest) (hmid : mid <:+ inp) : EndsPairs P inp c rest := by
  obtain ⟨hbrace, t, body, p, ps, ht, hbody, hp, hd⟩ := h
  exact ⟨hbrace, t, body, p, ps, ht, hbody.trans hmid, hp, hd⟩

theorem Parted.refl (ts : List Token) : Parted P ts ts where
  suffix := List.suffix_refl ts
  comma hrest hlen := by
    have hle := hrest.length_le
    rw [List.length_cons] at hle
    omega

theorem Parted.trans (h : Parted P inp mid) (h' : Parted P mid out) : Parted P inp out where
  suffix := h'.suffix.trans h.suffix
  comma {c rest} hrest hlen hc hclose := by
    by_cases hmid : mid.length ≤ rest.length
    · exact h.comma hrest hmid hc hclose
    · have hin : c :: rest <:+ mid :=
        List.suffix_of_suffix_length_le hrest h.suffix (Nat.succ_le_of_lt (Nat.lt_of_not_le hmid))
      exact (h'.comma hin hlen hc hclose).prepend h.suffix

theorem head_of_suffix {x : Token} (h : x :: rest <:+ t :: out) (hlen : out.length ≤ rest.length) :
    x = t ∧ rest = out :=
  List.cons.inj (h.eq_of_length_le (Nat.succ_le_succ hlen))

theorem parted_token {k : Token.Kind} (ht : t.kind = k) (hk : k ≠ .comma) (out : List Token) :
    Parted P (t :: out) out where
  suffix := List.suffix_cons t out
  comma {c rest} hrest hlen hc _ := by
    obtain ⟨rfl, -⟩ := head_of_suffix hrest hlen
    exact absurd (ht.symm.trans hc) hk

theorem parted_comma (h : (firstKind out).closes = false) (t : Token) : Parted P (t :: out) out where
  suffix := List.suffix_cons t out
  comma {c rest} hrest hlen _ hclose := by
    obtain ⟨-, rfl⟩ := head_of_suffix hrest hlen
    cases h.symm.trans hclose

section Steps

variable {k k' : Token.Kind}

theorem Parted.step (h : Parted P inp (t :: mid)) (ht : t.kind = k) (hk : k ≠ .comma) : Parted P inp mid :=
  h.trans (parted_token ht hk mid)

theorem Parted.enclosed (h : Parted P mid (u :: out)) (ht : t.kind = k) (hk : k ≠ .comma) (hu : u.kind = k')
    (hk' : k' ≠ .comma) : Parted P (t :: mid) out :=
  (parted_token ht hk mid).trans (h.step hu hk')

theorem Parted.ending {bare : Bool} (h : Parted P inp mid) (ho : careful bare mid out) : Parted P inp out := by
  rcases ho with ⟨rfl, -⟩ | ⟨t, ht, rfl⟩
  · exact h
  · exact h.step ht (by decide)

theorem Parted.pairsComma {p : Expr × Expr} {ps : List (Expr × Expr)} (h : Parted P mid (c :: u :: out))
    (ht : t.kind = .lbrace) (hu : u.kind = .rbrace) (hp : P (.expr (.hash t.pos (p :: ps))))
    (hd : Derives careful (.pairs (p :: ps)) mid (c :: u :: out)) : Parted P (t :: mid) out where
  suffix := (List.suffix_append [c, u] out).trans (h.suffix.trans (List.suffix_cons t mid))
  comma {x rest} hrest hlen hx hclose := by
    have hopen : Parted P (t :: mid) (c :: u :: out) := (parted_token ht (by decide) mid).trans h
    by_cases hin : (c :: u :: out).length ≤ rest.length
    · exact hopen.comma hrest hin hx hclose
    · have hlast : x :: rest <:+ c :: u :: out :=
        List.suffix_of_suffix_length_le hrest hopen.suffix (Nat.succ_le_of_lt (Nat.lt_of_not_le hin))
      rcases List.suffix_cons_iff.mp hlast with heq | hlast
      · obtain ⟨rfl, rfl⟩ := List.cons.inj heq
        exact ⟨hu, t, mid, p, ps, ht, List.suffix_refl _, hp, hd⟩
      · obtain ⟨rfl, -⟩ := head_of_suffix hlast hlen
        exact absurd (hu.symm.trans hx) (by decide)

end Steps

theorem not_closes_of_starter {k : Token.Kind} (h : k ∈ starters) : k.closes = false := by
  revert k
  decide

theorem not_closes_of_params {i : Ident} {ps : List Ident} (h : Derives careful (.params (i :: ps)) inp out) :
    (firstKind inp).closes = false := by
  cases h with
  | paramsOne ht => rw [firstKind_cons, ht]; rfl
  | paramsMore ht => rw [firstKind_cons, ht]; rfl

theorem Derives.parted {φ : Phrase} (h : Derives careful φ inp out)
    (hP : ∀ x ∈ φ.nodes, Node.Every P x) : Parted P inp out := by
  induction h with
  | above _ ih => exact ih hP
  | @binary t _ _ _ _ _ ht _ _ _ ihl ihr =>
      have hcomma : t.kind ≠ .comma := by
        intro hk
        rw [hk] at ht
        exact absurd ht.1 (by decide)
      obtain ⟨hl, hr⟩ := List.forall_mem_cons.mp (every_children hP)
      have hleft := ihl (List.forall_mem_singleton.mpr hl)
      exact (hleft.step rfl hcomma).trans (ihr hr)
  | range ht _ _ ihl ihr =>
      obtain ⟨hl, hr⟩ := List.forall_mem_cons.mp (every_children hP)
      have hleft := ihl (List.forall_mem_singleton.mpr hl)
      exact (hleft.step ht (by decide)).trans (ihr hr)
  | @unary t e mid out ht _ ih =>
      have hcomma : t.kind ≠ .comma := by rcases ht with ht | ht <;> rw [ht] <;> decide
      exact (parted_token rfl hcomma mid).trans (ih (every_children hP))
  | call ht hu _ _ ihf ihargs =>
      obtain ⟨hf, hargs⟩ := List.forall_mem_cons.mp (every_children hP)
      have hcallee := ihf (List.forall_mem_singleton.mpr hf)
      exact hcallee.trans ((ihargs hargs).enclosed ht (by decide) hu (by decide))
  | index ht hu _ _ ihc ihi =>
      obtain ⟨hc, hi⟩ := List.forall_mem_cons.mp (every_children hP)
      have hcollection := ihc (List.forall_mem_singleton.mpr hc)
      exact hcollection.trans ((ihi hi).enclosed ht (by decide) hu (by decide))
  | ident ht | int ht | double ht | string ht | yes ht | no ht | paramsOne ht =>
      exact parted_token ht (by decide) _
  | group ht hu _ ih => exact (ih hP).enclosed ht (by decide) hu (by decide)
  | cond ht hl hr _ _ ihe ihb =>
      obtain ⟨he, hb⟩ := List.forall_mem_cons.mp (every_children hP)
      have htest := (ihe (List.forall_mem_singleton.mpr he)).enclosed hl (by decide) hr (by decide)
      exact (parted_token ht (by decide) _).trans (htest.trans (ihb hb))
  | condElse ht hl hr hf _ _ _ ihe ihy ihn =>
      obtain ⟨he, hblocks⟩ := List.forall_mem_cons.mp (every_children hP)
      obtain ⟨hy, hn⟩ := List.forall_mem_cons.mp hblocks
      have htest := (ihe (List.forall_mem_singleton.mpr he)).enclosed hl (by decide) hr (by decide)
      have hyes := (ihy (List.forall_mem_singleton.mpr hy)).step hf (by decide)
      exact (parted_token ht (by decide) _).trans (htest.trans (hyes.trans (ihn hn)))
  | loop ht hl hr _ _ ihe ihb =>
      obtain ⟨he, hb⟩ := List.forall_mem_cons.mp (every_children hP)
      have htest := (ihe (List.forall_mem_singleton.mpr he)).enclosed hl (by decide) hr (by decide)
      exact (parted_token ht (by decide) _).trans (htest.trans (ihb hb))
  | fn ht hl hr _ _ ihp ihb =>
      have hparams := (ihp (List.forall_mem_nil _)).enclosed hl (by decide) hr (by decide)
      exact (parted_token ht (by decide) _).trans (hparams.trans (ihb (every_children hP)))
  | array ht hu _ ih | hash ht hu _ ih =>
      exact (ih (every_children hP)).enclosed ht (by decide) hu (by decide)
  | hashComma ht _ hu hd ih =>
      exact (ih (every_children hP)).pairsComma ht hu (List.forall_mem_singleton.mp hP).self hd
  | exprsNil | paramsNil | pairsNil | stmtsNil => exact .refl _
  | exprsOne _ ih => exact ih hP
  -- after a comma there is an item, which no closing bracket starts
  | exprsMore _ _ hds ihe ihs =>
      obtain ⟨he, hes⟩ := List.forall_mem_cons.mp hP
      have hitem := not_closes_of_starter hds.starts
      exact (ihe (List.forall_mem_singleton.mpr he)).trans ((parted_comma hitem _).trans (ihs hes))
  | paramsMore ht _ hds ih =>
      have hitem := not_closes_of_params hds
      exact (parted_token ht (by decide) _).trans ((parted_comma hitem _).trans (ih hP))
  | pairsOne hc _ _ ihk ihv =>
      obtain ⟨hk, hrest⟩ := List.forall_mem_cons.mp hP
      exact ((ihk (List.forall_mem_singleton.mpr hk)).step hc (by decide)).trans (ihv hrest)
  | pairsMore hc _ _ _ hds ihk ihv ihs =>
      obtain ⟨hk, hrest⟩ := List.forall_mem_cons.mp hP
      obtain ⟨hv, hps⟩ := List.forall_mem_cons.mp hrest
      have hkey := (ihk (List.forall_mem_singleton.mpr hk)).step hc (by decide)
      have hvalue := ihv (List.forall_mem_singleton.mpr hv)
      have hitem := not_closes_of_starter hds.starts
      exact hkey.trans (hvalue.trans ((parted_comma hitem _).trans (ihs hps)))
  | block ht hu _ ih => exact (ih (every_children hP)).enclosed ht (by decide) hu (by decide)
  | blockOpen ht _ ih => exact (parted_token ht (by decide) _).trans (ih (every_children hP))
  | bind ht hi ha _ ho ih =>
      have hvalue := (parted_token ha (by decide) _).trans (ih (every_children hP))
      have hname := (parted_token hi (by decide) _).trans hvalue
      exact ((parted_token ht (by decide) _).trans hname).ending ho
  | ret ht ho => exact (parted_token ht (by decide) _).ending ho
  | retValue ht _ ho ih => exact ((parted_token ht (by decide) _).trans (ih (every_children hP))).ending ho
  | expr _ ho ih => exact (ih (every_children hP)).ending ho
  | stmtsCons _ _ ihs ihss =>
      obtain ⟨hs, hss⟩ := List.forall_mem_cons.mp hP
      exact (ihs (List.forall_mem_singleton.mpr hs)).trans (ihss hss)

end Grammar

theorem rest_ne_nil {text : String} {pre post : List Token} {c u : Token}
    (htext : Token.ofText text = pre ++ c :: u :: post) (hu : u.kind.closes = true) : post ≠ [] := by
  rintro rfl
  obtain ⟨ts, e, hending, he, -⟩ := Token.ofText_ending text
  have hlast : ts ++ [e] = (pre ++ [c]) ++ [u] := by
    rw [← hending, htext, List.append_assoc, List.singleton_append]
  obtain ⟨-, hsame⟩ := List.append_inj' hlast rfl
  cases hsame
  rw [he] at hu
  cases hu

/-- Where commas may stand. Every text is read, and one with a comma before a closing bracket is read with a mistake,
unless the comma stands after the last pair of a hash: there it is taken without one. -/
theorem commas_stand_between_items (text : String) :
    (∀ depth, (Token.ofText text).length ≤ depth → ∃ d, Program.ofText? depth text = some d) ∧
    ∀ pre post c u, Token.ofText text = pre ++ c :: u :: post → c.kind = .comma → u.kind.closes = true →
      ∀ depth d, Program.ofText? depth text = some d →
        d.mistakes ≠ [] ∨ Grammar.EndsPairs d.program.Has (Token.ofText text).dropLast c (u :: post).dropLast := by
  refine ⟨fun depth hdepth => ?_, fun pre post c u htext hc hu depth d hread => ?_⟩
  · obtain ⟨ss, o, hread⟩ := Grammar.program_answers (Token.ofText text).length (Read.ended_ofText text)
      (Nat.lt_of_lt_of_le (Read.live_ofText_lt text) hdepth)
    exact ⟨_, congrArg Program.Draft.of? hread⟩
  · by_cases hm : d.mistakes = []
    · have hparted := (Grammar.derives_of_text hread hm).parted d.program.has_stmts
      have hclose : (Read.firstKind (u :: post).dropLast).closes = true := by
        obtain ⟨x, post, rfl⟩ := List.exists_cons_of_ne_nil (rest_ne_nil htext hu)
        exact hu
      have hcomma : c :: (u :: post).dropLast <:+ (Token.ofText text).dropLast := by
        rw [htext, List.dropLast_append_cons, List.dropLast_cons_cons]
        exact List.suffix_append pre _
      exact .inr (hparted.comma hcomma (Nat.zero_le _) hc hclose)
    · exact .inl hm

theorem commas_stand_between_items_pairs :
    let text := "[\x7b1: 2,\x7d]"
    let pre : List Token := [⟨.lbracket, "[", ⟨1, 1⟩⟩, ⟨.lbrace, "\x7b", ⟨1, 2⟩⟩, ⟨.int, "1", ⟨1, 3⟩⟩,
      ⟨.colon, ":", ⟨1, 4⟩⟩, ⟨.int, "2", ⟨1, 6⟩⟩]
    let c : Token := ⟨.comma, ",", ⟨1, 7⟩⟩
    let u : Token := ⟨.rbrace, "\x7d", ⟨1, 8⟩⟩
    let post : List Token := [⟨.rbracket, "]", ⟨1, 9⟩⟩, ⟨.eof, "", ⟨1, 10⟩⟩]
    let p := Program.mk [.expr ⟨1, 1⟩ (.array ⟨1, 1⟩ [.hash ⟨1, 2⟩ [(.int ⟨1, 3⟩ 1, .int ⟨1, 6⟩ 2)]])]
    Token.ofText text = pre ++ c :: u :: post ∧ Program.ofText? 9 text = some ⟨p, []⟩ ∧
      Grammar.EndsPairs p.Has (Token.ofText text).dropLast c (u :: post).dropLast := by
  intro text pre c u post p
  have htext : Token.ofText text = pre ++ c :: u :: post := by cbv
  have hread : Program.ofText? 9 text = some ⟨p, []⟩ := by cbv
  have hcomma := (commas_stand_between_items text).2 pre post c u htext rfl rfl 9 ⟨p, []⟩ hread
  exact ⟨htext, hread, hcomma.resolve_left (absurd rfl)⟩

theorem hash_may_end_with_comma :
    let text := "\x7b1: 2,\x7d"
    (Token.ofText text).map Token.kind = [.lbrace, .int, .colon, .int, .comma, .rbrace, .eof] ∧
      ∃ d, Program.ofText? 7 text = some d ∧ d.mistakes = [] := by
  intro text
  have hread : Program.ofText? 7 text =
      some ⟨⟨[.expr ⟨1, 1⟩ (.hash ⟨1, 1⟩ [(.int ⟨1, 2⟩ 1, .int ⟨1, 5⟩ 2)])]⟩, []⟩ := by cbv
  exact ⟨by cbv, _, hread, rfl⟩

end Marmoset
