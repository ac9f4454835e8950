import Marmoset.Proofs.Tree.Reading
import Marmoset.Tree.Grammar

/-!
The grammar of programs, as a relation between tokens and trees. An expression is in a stratum: that
of an operator holds its operations, with left operands of the same stratum and right operands of the
one above, and each stratum holds all above it. Calls and indexing have no right operand and share the
topmost stratum. The semicolon after a statement may be left out: anywhere by the `free` grammar, and
by the `careful` one only where no token after the statement could be taken for more of it.
-/

namespace Marmoset

def Token.Kind.Joins (k : Token.Kind) : Prop :=
  Level.lowest.rank < k.level.rank ∧ k.level.rank < Level.unary.rank

namespace Grammar

inductive Phrase where
  | expr (stratum : Nat) (e : Expr)
  | exprs (es : List Expr)
  | params (ps : List Ident)
  | pairs (ps : List (Expr × Expr))
  | block (b : Block)
  | stmt (s : Stmt)
  | stmts (ss : List Stmt)

def Optional (kind : Token.Kind) (inp out : List Token) : Prop :=
  inp = out ∨ ∃ t, t.kind = kind ∧ inp = t :: out

/-- How a statement ends; a `bare` one is a return without a value. -/
abbrev Ending := (bare : Bool) → List Token → List Token → Prop

def free : Ending := fun _ => Optional .semicolon

def Parts : Bool → Token.Kind → Prop
  | true, k => k = .rbrace ∨ k = .eof
  | false, k => k.level.rank = 0 ∧ k ≠ .semicolon

def careful : Ending := fun bare inp out =>
  (inp = out ∧ Parts bare (Read.firstKind out)) ∨ ∃ t, t.kind = .semicolon ∧ inp = t :: out

theorem free_of_careful {bare : Bool} {inp out : List Token} (h : careful bare inp out) :
    free bare inp out :=
  h.imp_left And.left

/-- The tokens `inp` start with those of the phrase, and `out` is what comes after them. A block may be
left open at the end of the text, and a comma may stand before the brace that closes a hash. -/
inductive Derives (ends : Ending) : Phrase → List Token → List Token → Prop where
  | above {n e inp out} :
      Derives ends (.expr (n + 1) e) inp out → Derives ends (.expr n e) inp out
  | binary {t l r inp mid out} :
      t.kind.Joins → t.kind ≠ .dots →
      Derives ends (.expr t.kind.level.rank l) inp (t :: mid) →
      Derives ends (.expr (t.kind.level.rank + 1) r) mid out →
      Derives ends (.expr t.kind.level.rank (.binary l.pos (BinaryOp.ofSymbol t.literal) l r)) inp out
  | range {t lo hi inp mid out} :
      t.kind = .dots →
      Derives ends (.expr Level.range.rank lo) inp (t :: mid) →
      Derives ends (.expr (Level.range.rank + 1) hi) mid out →
      Derives ends (.expr Level.range.rank (.range lo.pos lo hi)) inp out
  | unary {t e mid out} :
      t.kind = .bang ∨ t.kind = .minus →
      Derives ends (.expr Level.unary.rank e) mid out →
      Derives ends (.expr Level.unary.rank (.unary t.pos (UnaryOp.ofSymbol t.literal) e)) (t :: mid) out
  | call {t u f args inp mid out} :
      t.kind = .lparen → u.kind = .rparen →
      Derives ends (.expr Level.call.rank f) inp (t :: mid) →
      Derives ends (.exprs args) mid (u :: out) →
      Derives ends (.expr Level.call.rank (.call f.pos f args)) inp out
  | index {t u c i inp mid out} :
      t.kind = .lbracket → u.kind = .rbracket →
      Derives ends (.expr Level.call.rank c) inp (t :: mid) →
      Derives ends (.expr Level.lowest.rank i) mid (u :: out) →
      Derives ends (.expr Level.call.rank (.index c.pos c i)) inp out
  | ident {t out} :
      t.kind = .ident → Derives ends (.expr Level.call.rank (.ident ⟨t.pos, t.literal⟩)) (t :: out) out
  | int {t n out} :
      t.kind = .int → Number.integer? t.literal = some n →
      Derives ends (.expr Level.call.rank (.int t.pos n)) (t :: out) out
  | double {t out} :
      t.kind = .double →
      Derives ends (.expr Level.call.rank (.double t.pos Stamp.shared (Number.double t.literal)))
        (t :: out) out
  | string {t out} :
      t.kind = .string → Derives ends (.expr Level.call.rank (.string t.pos t.literal)) (t :: out) out
  | yes {t out} :
      t.kind = .kwTrue → Derives ends (.expr Level.call.rank (.bool t.pos true)) (t :: out) out
  | no {t out} :
      t.kind = .kwFalse → Derives ends (.expr Level.call.rank (.bool t.pos false)) (t :: out) out
  | group {t u e mid out} :
      t.kind = .lparen → u.kind = .rparen →
      Derives ends (.expr Level.lowest.rank e) mid (u :: out) →
      Derives ends (.expr Level.call.rank e) (t :: mid) out
  | cond {t l r e yes mid body out} :
      t.kind = .kwIf → l.kind = .lparen → r.kind = .rparen →
      Derives ends (.expr Level.lowest.rank e) mid (r :: body) →
      Derives ends (.block yes) body out →
      Derives ends (.expr Level.call.rank (.cond t.pos e yes none)) (t :: l :: mid) out
  | condElse {t l r f e yes no mid body other out} :
      t.kind = .kwIf → l.kind = .lparen → r.kind = .rparen → f.kind = .kwElse →
      Derives ends (.expr Level.lowest.rank e) mid (r :: body) →
      Derives ends (.block yes) body (f :: other) →
      Derives ends (.block no) other out →
      Derives ends (.expr Level.call.rank (.cond t.pos e yes (some no))) (t :: l :: mid) out
  | loop {t l r e b mid body out} :
      t.kind = .kwWhile → l.kind = .lparen → r.kind = .rparen →
      Derives ends (.expr Level.lowest.rank e) mid (r :: body) →
      Derives ends (.block b) body out →
      Derives ends (.expr Level.call.rank (.loop t.pos e b)) (t :: l :: mid) out
  | fn {t l r ps b mid body out} :
      t.kind = .kwFn → l.kind = .lparen → r.kind = .rparen →
      Derives ends (.params ps) mid (r :: body) →
      Derives ends (.block b) body out →
      Derives ends (.expr Level.call.rank (.fn t.pos ps b)) (t :: l :: mid) out
  | array {t u es mid out} :
      t.kind = .lbracket → u.kind = .rbracket →
      Derives ends (.exprs es) mid (u :: out) →
      Derives ends (.expr Level.call.rank (.array t.pos es)) (t :: mid) out
  | hash {t u ps mid out} :
      t.kind = .lbrace → u.kind = .rbrace →
      Derives ends (.pairs ps) mid (u :: out) →
      Derives ends (.expr Level.call.rank (.hash t.pos ps)) (t :: mid) out
  | hashComma {t c u p ps mid out} :
      t.kind = .lbrace → c.kind = .comma → u.kind = .rbrace →
      Derives ends (.pairs (p :: ps)) mid (c :: u :: out) →
      Derives ends (.expr Level.call.rank (.hash t.pos (p :: ps))) (t :: mid) out
  | exprsNil {out} : Derives ends (.exprs []) out out
  | exprsOne {e inp out} :
      Derives ends (.expr Level.lowest.rank e) inp out → Derives ends (.exprs [e]) inp out
  | exprsMore {c e e' es inp mid out} :
      c.kind = .comma →
      Derives ends (.expr Level.lowest.rank e) inp (c :: mid) →
      Derives ends (.exprs (e' :: es)) mid out →
      Derives ends (.exprs (e :: e' :: es)) inp out
  | paramsNil {out} : Derives ends (.params []) out out
  | paramsOne {t out} : t.kind = .ident → Derives ends (.params [⟨t.pos, t.literal⟩]) (t :: out) out
  | paramsMore {t c p ps mid out} :
      t.kind = .ident → c.kind = .comma →
      Derives ends (.params (p :: ps)) mid out →
      Derives ends (.params (⟨t.pos, t.literal⟩ :: p :: ps)) (t :: c :: mid) out
  | pairsNil {out} : Derives ends (.pairs []) out out
  | pairsOne {c k v inp mid out} :
      c.kind = .colon →
      Derives ends (.expr Level.lowest.rank k) inp (c :: mid) →
      Derives ends (.expr Level.lowest.rank v) mid out →
      Derives ends (.pairs [(k, v)]) inp out
  | pairsMore {c d k v p ps inp mid next out} :
      c.kind = .colon → d.kind = .comma →
      Derives ends (.expr Level.lowest.rank k) inp (c :: mid) →
      Derives ends (.expr Level.lowest.rank v) mid (d :: next) →
      Derives ends (.pairs (p :: ps)) next out →
      Derives ends (.pairs ((k, v) :: p :: ps)) inp out
  | block {t u ss mid out} :
      t.kind = .lbrace → u.kind = .rbrace →
      Derives ends (.stmts ss) mid (u :: out) →
      Derives ends (.block (.mk t.pos ss)) (t :: mid) out
  | blockOpen {t ss mid} :
      t.kind = .lbrace →
      Derives ends (.stmts ss) mid [] →
      Derives ends (.block (.mk t.pos ss)) (t :: mid) []
  | bind {t i a e mid last out} :
      t.kind = .kwLet → i.kind = .ident → a.kind = .assign →
      Derives ends (.expr Level.lowest.rank e) mid last → ends false last out →
      Derives ends (.stmt (.bind t.pos ⟨i.pos, i.literal⟩ e)) (t :: i :: a :: mid) out
  | ret {t last out} :
      t.kind = .kwReturn → ends true last out →
      Derives ends (.stmt (.ret t.pos none)) (t :: last) out
  | retValue {t e mid last out} :
      t.kind = .kwReturn →
      Derives ends (.expr Level.lowest.rank e) mid last → ends false last out →
      Derives ends (.stmt (.ret t.pos (some e))) (t :: mid) out
  | expr {t e mid last out} :
      Derives ends (.expr Level.lowest.rank e) (t :: mid) last → ends false last out →
      Derives ends (.stmt (.expr t.pos e)) (t :: mid) out
  | stmtsNil {out} : Derives ends (.stmts []) out out
  | stmtsCons {s ss inp mid out} :
      Derives ends (.stmt s) inp mid → Derives ends (.stmts ss) mid out → Derives ends (.stmts (s :: ss)) inp out

theorem Derives.lower {ends : Ending} {m n : Nat} {e : Expr} {inp out : List Token}
    (h : Derives ends (.expr n e) inp out) (hm : m ≤ n) : Derives ends (.expr m e) inp out := by
  induction hm with
  | refl => exact h
  | step _ ih => exact ih h.above

theorem Derives.mono {ends ends' : Ending} {φ : Phrase} {inp out : List Token}
    (hends : ∀ bare i o, ends bare i o → ends' bare i o) (h : Derives ends φ inp out) :
    Derives ends' φ inp out := by
  induction h with
  | above _ ih => exact ih.above
  | binary ht hn _ _ ihl ihr => exact .binary ht hn ihl ihr
  | range ht _ _ ihl ihr => exact .range ht ihl ihr
  | unary ht _ ih => exact .unary ht ih
  | call ht hu _ _ ihf ihargs => exact .call ht hu ihf ihargs
  | index ht hu _ _ ihc ihi => exact .index ht hu ihc ihi
  | ident ht => exact .ident ht
  | int ht hn => exact .int ht hn
  | double ht => exact .double ht
  | string ht => exact .string ht
  | yes ht => exact .yes ht
  | no ht => exact .no ht
  | group ht hu _ ih => exact .group ht hu ih
  | cond ht hl hr _ _ ihe ihb => exact .cond ht hl hr ihe ihb
  | condElse ht hl hr hf _ _ _ ihe ihy ihn => exact .condElse ht hl hr hf ihe ihy ihn
  | loop ht hl hr _ _ ihe ihb => exact .loop ht hl hr ihe ihb
  | fn ht hl hr _ _ ihp ihb => exact .fn ht hl hr ihp ihb
  | array ht hu _ ih => exact .array ht hu ih
  | hash ht hu _ ih => exact .hash ht hu ih
  | hashComma ht hc hu _ ih => exact .hashComma ht hc hu ih
  | exprsNil => exact .exprsNil
  | exprsOne _ ih => exact .exprsOne ih
  | exprsMore hc _ _ ihe ihs => exact .exprsMore hc ihe ihs
  | paramsNil => exact .paramsNil
  | paramsOne ht => exact .paramsOne ht
  | paramsMore ht hc _ ih => exact .paramsMore ht hc ih
  | pairsNil => exact .pairsNil
  | pairsOne hc _ _ ihk ihv => exact .pairsOne hc ihk ihv
  | pairsMore hc hd _ _ _ ihk ihv ihs => exact .pairsMore hc hd ihk ihv ihs
  | block ht hu _ ih => exact .block ht hu ih
  | blockOpen ht _ ih => exact .blockOpen ht ih
  | bind ht hi ha _ ho ih => exact .bind ht hi ha ih (hends _ _ _ ho)
  | ret ht ho => exact .ret ht (hends _ _ _ ho)
  | retValue ht _ ho ih => exact .retValue ht ih (hends _ _ _ ho)
  | expr _ ho ih => exact .expr ih (hends _ _ _ ho)
  | stmtsNil => exact .stmtsNil
  | stmtsCons _ _ ihs ihss => exact .stmtsCons ihs ihss

end Grammar

end Marmoset
