import Marmoset.Proofs.Number.Literal
import Marmoset.Proofs.Tree.Completeness
import Marmoset.Proofs.Tree.Shape

namespace Marmoset

abbrev Word := Token.Kind × String

def Token.word (t : Token) : Word := (t.kind, t.literal)

def Token.Kind.spelling : Token.Kind → String
  | .eof => ""
  | .kwFn => "fn"
  | .kwLet => "let"
  | .kwTrue => "true"
  | .kwFalse => "false"
  | .kwIf => "if"
  | .kwElse => "else"
  | .kwWhile => "while"
  | .kwReturn => "return"
  | k => k.name

def Word.of (k : Token.Kind) : Word := (k, k.spelling)

def UnaryOp.kind : UnaryOp → Token.Kind
  | .not => .bang
  | .neg => .minus
  | .unknown _ => .illegal

def BinaryOp.kind : BinaryOp → Token.Kind
  | .add => .plus
  | .sub => .minus
  | .mul => .star
  | .div => .slash
  | .mod => .percent
  | .lt => .lt
  | .gt => .gt
  | .le => .le
  | .ge => .ge
  | .eq => .eq
  | .ne => .ne
  | .and => .and
  | .or => .or
  | .unknown _ => .illegal

def Expr.level : Expr → Level
  | .range _ _ _ => .range
  | .binary _ op _ _ => op.kind.level
  | .unary _ _ _ => .unary
  | _ => .call

def Expr.enclosed (n : Nat) (e : Expr) (ws : List Word) : List Word :=
  if e.level.rank < n then Word.of .lparen :: (ws ++ [Word.of .rparen]) else ws

def Word.commas : List (List Word) → List Word
  | [] => []
  | [ws] => ws
  | ws :: vs :: rest => ws ++ Word.of .comma :: Word.commas (vs :: rest)

def Ident.word (i : Ident) : Word := (.ident, i.name)

section Words

-- how a double is spelled in the text is left open
variable (spell : Float → String)

mutual

def Expr.words : Expr → List Word
  | .missing | .foreign _ _ => []
  | .ident i => [i.word]
  | .int _ n => [(.int, toString n)]
  | .double _ _ x => [(.double, spell x)]
  | .string _ s => [(.string, s)]
  | .bool _ true => [Word.of .kwTrue]
  | .bool _ false => [Word.of .kwFalse]
  | .array _ es => Word.of .lbracket :: (Word.commas (Expr.wordsEach es) ++ [Word.of .rbracket])
  | .hash _ ps => Word.of .lbrace :: (Word.commas (Expr.wordsPairs ps) ++ [Word.of .rbrace])
  | .range _ lo hi =>
      lo.enclosed Level.range.rank lo.words ++
        Word.of .dots :: hi.enclosed (Level.range.rank + 1) hi.words
  | .unary _ op e => (op.kind, op.symbol) :: e.enclosed Level.unary.rank e.words
  | .binary _ op l r =>
      l.enclosed op.kind.level.rank l.words ++
        (op.kind, op.symbol) :: r.enclosed (op.kind.level.rank + 1) r.words
  | .cond _ t yes no =>
      Word.of .kwIf :: Word.of .lparen :: (t.words ++ Word.of .rparen :: (yes.words ++ Block.wordsElse no))
  | .loop _ t b =>
      Word.of .kwWhile :: Word.of .lparen :: (t.words ++ Word.of .rparen :: b.words)
  | .fn _ ps b =>
      Word.of .kwFn :: Word.of .lparen ::
        (Word.commas (ps.map fun i => [i.word]) ++ Word.of .rparen :: b.words)
  | .call _ f args =>
      f.enclosed Level.call.rank f.words ++
        Word.of .lparen :: (Word.commas (Expr.wordsEach args) ++ [Word.of .rparen])
  | .index _ c i =>
      c.enclosed Level.call.rank c.words ++ Word.of .lbracket :: (i.words ++ [Word.of .rbracket])

def Expr.wordsEach : List Expr → List (List Word)
  | [] => []
  | e :: es => e.words :: Expr.wordsEach es

def Expr.wordsPairs : List (Expr × Expr) → List (List Word)
  | [] => []
  | (k, v) :: ps => (k.words ++ Word.of .colon :: v.words) :: Expr.wordsPairs ps

def Block.wordsElse : Option Block → List Word
  | none => []
  | some b => Word.of .kwElse :: b.words

def Block.words : Block → List Word
  | .mk _ ss => Word.of .lbrace :: (Stmt.wordsAll ss ++ [Word.of .rbrace])

def Stmt.words : Stmt → List Word
  | .bind _ i e =>
      Word.of .kwLet :: i.word :: Word.of .assign :: (e.words ++ [Word.of .semicolon])
  | .ret _ none => [Word.of .kwReturn, Word.of .semicolon]
  | .ret _ (some e) => Word.of .kwReturn :: (e.words ++ [Word.of .semicolon])
  | .expr _ e => e.words ++ [Word.of .semicolon]
  | .block _ | .foreign _ _ => []

def Stmt.wordsAll : List Stmt → List Word
  | [] => []
  | s :: ss => s.words ++ Stmt.wordsAll ss

end

def Program.words (p : Program) : List Word := Stmt.wordsAll spell p.stmts

/-- A node that some text can be read as; its doubles are those that their spelling stands for. -/
def Node.Readable : Node → Prop
  | .expr .missing | .expr (.foreign _ _) | .stmt (.block _) | .stmt (.foreign _ _) => False
  | .expr (.int _ n) => 0 ≤ n ∧ n ≤ Number.maxWord
  | .expr (.double _ s x) => s = Stamp.shared ∧ Number.double (spell x) = x
  | .expr (.unary _ op _) => ∀ s, op ≠ .unknown s
  | .expr (.binary _ op _ _) => ∀ s, op ≠ .unknown s
  | _ => True

end Words

namespace Grammar

open Read

def Spelt (ws : List Word) (inp out : List Token) : Prop :=
  ∃ ts, ts.map Token.word = ws ∧ inp = ts ++ out

theorem spelt_nil {inp out : List Token} : Spelt [] inp out ↔ inp = out := by
  simp [Spelt]

theorem spelt_cons {w : Word} {ws : List Word} {inp out : List Token} :
    Spelt (w :: ws) inp out ↔ ∃ t mid, inp = t :: mid ∧ t.word = w ∧ Spelt ws mid out := by
  constructor
  · rintro ⟨ts, hts, rfl⟩
    obtain ⟨t, us, rfl, ht, hus⟩ := List.map_eq_cons_iff.mp hts
    exact ⟨t, us ++ out, rfl, ht, us, hus, rfl⟩
  · rintro ⟨t, mid, rfl, ht, us, hus, rfl⟩
    exact ⟨t :: us, by rw [List.map_cons, ht, hus], rfl⟩

theorem spelt_append {ws vs : List Word} {inp out : List Token} :
    Spelt (ws ++ vs) inp out ↔ ∃ mid, Spelt ws inp mid ∧ Spelt vs mid out := by
  constructor
  · rintro ⟨ts, hts, rfl⟩
    obtain ⟨us, us', rfl, hus, hus'⟩ := List.map_eq_append_iff.mp hts
    exact ⟨us' ++ out, ⟨us, hus, List.append_assoc ..⟩, us', hus', rfl⟩
  · rintro ⟨mid, ⟨us, hus, rfl⟩, us', hus', rfl⟩
    exact ⟨us ++ us', by rw [List.map_append, hus, hus'], (List.append_assoc ..).symm⟩

theorem kind_of_word {t : Token} {k : Token.Kind} (h : t.word = Word.of k) : t.kind = k :=
  congrArg Prod.fst h

section Reads

variable {inp out : List Token} {pos : Pos} {e l r : Expr} {ws vs : List Word} {m n : Nat}

def Reads (ws : List Word) (n : Nat) (e : Expr) : Prop :=
  ∀ inp out, Spelt ws inp out →
    ∃ e', e'.move nowhere = e.move nowhere ∧ Derives careful (.expr n e') inp out

theorem Reads.lower (h : Reads ws n e) (hm : m ≤ n) : Reads ws m e := by
  intro inp out hs
  obtain ⟨e', he', hd⟩ := h inp out hs
  exact ⟨e', he', hd.lower hm⟩

theorem Reads.group (h : Reads ws n e) :
    Reads (Word.of .lparen :: (ws ++ [Word.of .rparen])) Level.call.rank e := by
  intro inp out hs
  simp only [spelt_cons, spelt_append, spelt_nil] at hs
  obtain ⟨t, mid, rfl, ht, last, hws, u, _, rfl, hu, rfl⟩ := hs
  obtain ⟨e', he', hd⟩ := h _ _ hws
  exact ⟨e', he', .group (kind_of_word ht) (kind_of_word hu) (hd.lower (Nat.zero_le _))⟩

theorem reads_token {w : Word} (h : ∀ t out, t.word = w → ∃ e', e'.move nowhere = e.move nowhere ∧
    Derives careful (.expr Level.call.rank e') (t :: out) out) : Reads [w] Level.call.rank e := by
  intro inp out hs
  simp only [spelt_cons, spelt_nil] at hs
  obtain ⟨t, _, rfl, ht, rfl⟩ := hs
  exact h t _ ht

theorem reads_ident (i : Ident) : Reads [i.word] Level.call.rank (.ident i) := by
  refine reads_token fun t out ht => ?_
  obtain ⟨hk, hname⟩ : t.kind = .ident ∧ t.literal = i.name := Prod.mk.inj ht
  refine ⟨_, ?_, .ident hk⟩
  rw [Expr.move, Expr.move, Ident.move, Ident.move, hname]
  rfl

theorem reads_int {k : Int} (h0 : 0 ≤ k) (hk : k ≤ Number.maxWord) :
    Reads [(.int, toString k)] Level.call.rank (.int pos k) := by
  refine reads_token fun t out ht => ?_
  obtain ⟨hint, hlit⟩ : t.kind = .int ∧ t.literal = toString k := Prod.mk.inj ht
  exact ⟨.int t.pos k, rfl, .int hint (hlit ▸ Number.integer?_toString h0 hk)⟩

theorem reads_true : Reads [Word.of .kwTrue] Level.call.rank (.bool pos true) :=
  reads_token fun t _ ht => ⟨.bool t.pos true, rfl, .yes (kind_of_word ht)⟩

theorem reads_false : Reads [Word.of .kwFalse] Level.call.rank (.bool pos false) :=
  reads_token fun t _ ht => ⟨.bool t.pos false, rfl, .no (kind_of_word ht)⟩

theorem BinaryOp.joins {op : BinaryOp} (h : ∀ s, op ≠ .unknown s) :
    op.kind.Joins ∧ op.kind ≠ .dots := by
  cases op with
  | unknown s => exact absurd rfl (h s)
  | _ => exact ⟨⟨by decide, by decide⟩, by decide⟩

theorem reads_binary {op : BinaryOp} (hop : ∀ s, op ≠ .unknown s) (hl : Reads ws op.kind.level.rank l)
    (hr : Reads vs (op.kind.level.rank + 1) r) :
    Reads (ws ++ (op.kind, op.symbol) :: vs) op.kind.level.rank (.binary pos op l r) := by
  intro inp out hs
  simp only [spelt_cons, spelt_append] at hs
  obtain ⟨_, hls, t, mid, rfl, ht, hrs⟩ := hs
  obtain ⟨hk, hlit⟩ : t.kind = op.kind ∧ t.literal = op.symbol := Prod.mk.inj ht
  obtain ⟨hj, hdots⟩ := BinaryOp.joins hop
  obtain ⟨l', hl', hdl⟩ := hl _ _ hls
  obtain ⟨r', hr', hdr⟩ := hr _ _ hrs
  rw [← hk] at hdl hdr hj hdots
  have hd := Derives.binary hj hdots hdl hdr
  rw [hk, hlit, BinaryOp.ofSymbol_symbol hop] at hd
  refine ⟨_, ?_, hd⟩
  change Expr.binary _ op (l'.move nowhere) (r'.move nowhere) = _
  rw [hl', hr']
  rfl

theorem reads_range (hl : Reads ws Level.range.rank l) (hr : Reads vs (Level.range.rank + 1) r) :
    Reads (ws ++ Word.of .dots :: vs) Level.range.rank (.range pos l r) := by
  intro inp out hs
  simp only [spelt_cons, spelt_append] at hs
  obtain ⟨_, hls, t, mid, rfl, ht, hrs⟩ := hs
  obtain ⟨l', hl', hdl⟩ := hl _ _ hls
  obtain ⟨r', hr', hdr⟩ := hr _ _ hrs
  refine ⟨_, ?_, .range (kind_of_word ht) hdl hdr⟩
  change Expr.range _ (l'.move nowhere) (r'.move nowhere) = _
  rw [hl', hr']
  rfl

theorem reads_unary {op : UnaryOp} (hop : ∀ s, op ≠ .unknown s) (he : Reads ws Level.unary.rank e) :
    Reads ((op.kind, op.symbol) :: ws) Level.unary.rank (.unary pos op e) := by
  intro inp out hs
  obtain ⟨t, mid, rfl, ht, hes⟩ := spelt_cons.mp hs
  obtain ⟨hk, hlit⟩ : t.kind = op.kind ∧ t.literal = op.symbol := Prod.mk.inj ht
  obtain ⟨e', he', hd⟩ := he _ _ hes
  have hsign : t.kind = .bang ∨ t.kind = .minus := by
    cases op with
    | not => exact .inl hk
    | neg => exact .inr hk
    | unknown s => exact absurd rfl (hop s)
  refine ⟨_, ?_, .unary hsign hd⟩
  rw [hlit, UnaryOp.ofSymbol_symbol hop]
  change Expr.unary _ op (e'.move nowhere) = _
  rw [he']
  rfl

theorem reads_index {c i : Expr} (hc : Reads ws Level.call.rank c) (hi : Reads vs Level.lowest.rank i) :
    Reads (ws ++ Word.of .lbracket :: (vs ++ [Word.of .rbracket])) Level.call.rank (.index pos c i) := by
  intro inp out hs
  simp only [spelt_cons, spelt_append, spelt_nil] at hs
  obtain ⟨_, hcs, t, mid, rfl, ht, _, his, u, _, rfl, hu, rfl⟩ := hs
  obtain ⟨c', hc', hdc⟩ := hc _ _ hcs
  obtain ⟨i', hi', hdi⟩ := hi _ _ his
  refine ⟨_, ?_, .index (kind_of_word ht) (kind_of_word hu) hdc hdi⟩
  change Expr.index _ (c'.move nowhere) (i'.move nowhere) = _
  rw [hc', hi']
  rfl

variable {wss : List (List Word)} {es : List Expr} {ps : List (Expr × Expr)}

def ReadsAll : List (List Word) → List Expr → Prop := List.Forall₂ fun ws e => Reads ws Level.lowest.rank e

theorem derives_exprs (h : ReadsAll wss es) (hs : Spelt (Word.commas wss) inp out) :
    ∃ es', Expr.moveAll nowhere es' = Expr.moveAll nowhere es ∧
      Derives careful (.exprs es') inp out := by
  induction h generalizing inp with
  | nil =>
      obtain rfl := spelt_nil.mp hs
      exact ⟨[], rfl, .exprsNil⟩
  | cons he hes ih =>
      cases hes with
      | nil =>
          obtain ⟨e', he', hd⟩ := he _ _ hs
          exact ⟨[e'], by rw [Expr.moveAll, he']; rfl, .exprsOne hd⟩
      | cons hf hes =>
          simp only [Word.commas, spelt_append, spelt_cons] at hs
          obtain ⟨_, hes, c, mid, rfl, hc, hrest⟩ := hs
          obtain ⟨e', he', hd⟩ := he _ _ hes
          obtain ⟨es', hes', hds⟩ := ih hrest
          cases es' with
          | nil => cases hes'
          | cons f' es' =>
              refine ⟨e' :: f' :: es', ?_, .exprsMore (kind_of_word hc) hd hds⟩
              rw [Expr.moveAll, he', hes']
              rfl

theorem reads_call {f : Expr} (hf : Reads ws Level.call.rank f) (hargs : ReadsAll wss es) :
    Reads (ws ++ Word.of .lparen :: (Word.commas wss ++ [Word.of .rparen])) Level.call.rank
      (.call pos f es) := by
  intro inp out hs
  simp only [spelt_cons, spelt_append, spelt_nil] at hs
  obtain ⟨_, hfs, t, mid, rfl, ht, _, has, u, _, rfl, hu, rfl⟩ := hs
  obtain ⟨f', hf', hdf⟩ := hf _ _ hfs
  obtain ⟨args', hargs', hda⟩ := derives_exprs hargs has
  refine ⟨_, ?_, .call (kind_of_word ht) (kind_of_word hu) hdf hda⟩
  change Expr.call _ (f'.move nowhere) (Expr.moveAll nowhere args') = _
  rw [hf', hargs']
  rfl

theorem reads_array (h : ReadsAll wss es) :
    Reads (Word.of .lbracket :: (Word.commas wss ++ [Word.of .rbracket])) Level.call.rank
      (.array pos es) := by
  intro inp out hs
  simp only [spelt_cons, spelt_append, spelt_nil] at hs
  obtain ⟨t, mid, rfl, ht, _, hes, u, _, rfl, hu, rfl⟩ := hs
  obtain ⟨es', hes', hd⟩ := derives_exprs h hes
  refine ⟨_, ?_, .array (kind_of_word ht) (kind_of_word hu) hd⟩
  change Expr.array _ (Expr.moveAll nowhere es') = _
  rw [hes']
  rfl

def ReadsPair (ws : List Word) (p : Expr × Expr) : Prop :=
  ∃ ks vs, ws = ks ++ Word.of .colon :: vs ∧ Reads ks Level.lowest.rank p.1 ∧ Reads vs Level.lowest.rank p.2

theorem derives_pairs (h : List.Forall₂ ReadsPair wss ps) (hs : Spelt (Word.commas wss) inp out) :
    ∃ ps', Expr.movePairs nowhere ps' = Expr.movePairs nowhere ps ∧
      Derives careful (.pairs ps') inp out := by
  induction h generalizing inp with
  | nil =>
      obtain rfl := spelt_nil.mp hs
      exact ⟨[], rfl, .pairsNil⟩
  | @cons ws p wss ps hp hps ih =>
      obtain ⟨k, v⟩ := p
      obtain ⟨ks, vs, rfl, hk, hv⟩ := hp
      cases hps with
      | nil =>
          simp only [Word.commas, spelt_append, spelt_cons] at hs
          obtain ⟨_, hks, c, mid, rfl, hc, hvs⟩ := hs
          obtain ⟨k', hk', hdk⟩ := hk _ _ hks
          obtain ⟨v', hv', hdv⟩ := hv _ _ hvs
          exact ⟨[(k', v')], by rw [Expr.movePairs, hk', hv']; rfl,
            .pairsOne (kind_of_word hc) hdk hdv⟩
      | cons hq hps =>
          simp only [Word.commas, spelt_append, spelt_cons] at hs
          obtain ⟨_, ⟨_, hks, c, mid, rfl, hc, hvs⟩, d, next, rfl, hcomma, hrest⟩ := hs
          obtain ⟨k', hk', hdk⟩ := hk _ _ hks
          obtain ⟨v', hv', hdv⟩ := hv _ _ hvs
          obtain ⟨ps', hps', hds⟩ := ih hrest
          cases ps' with
          | nil => cases hps'
          | cons q' ps' =>
              refine ⟨(k', v') :: q' :: ps', ?_,
                .pairsMore (kind_of_word hc) (kind_of_word hcomma) hdk hdv hds⟩
              rw [Expr.movePairs, hk', hv', hps']
              rfl

theorem reads_hash (h : List.Forall₂ ReadsPair wss ps) :
    Reads (Word.of .lbrace :: (Word.commas wss ++ [Word.of .rbrace])) Level.call.rank
      (.hash pos ps) := by
  intro inp out hs
  simp only [spelt_cons, spelt_append, spelt_nil] at hs
  obtain ⟨t, mid, rfl, ht, _, hps, u, _, rfl, hu, rfl⟩ := hs
  obtain ⟨ps', hps', hd⟩ := derives_pairs h hps
  refine ⟨_, ?_, .hash (kind_of_word ht) (kind_of_word hu) hd⟩
  change Expr.hash _ (Expr.movePairs nowhere ps') = _
  rw [hps']
  rfl

end Reads

section Derived

variable {spell : Float → String} {inp out : List Token} {pos : Pos} {e l r : Expr}

def ExprDerived (spell : Float → String) (e : Expr) : Prop := Reads (e.words spell) e.level.rank e

theorem ExprDerived.lowest (h : ExprDerived spell e) : Reads (e.words spell) Level.lowest.rank e :=
  h.lower (Nat.zero_le _)

theorem ExprDerived.enclosed {n : Nat} (h : ExprDerived spell e) (hn : n ≤ Level.call.rank) :
    Reads (e.enclosed n (e.words spell)) n e := by
  unfold Expr.enclosed
  split
  · exact h.group.lower hn
  · exact h.lower (Nat.le_of_not_lt ‹_›)

theorem derived_binary {op : BinaryOp} (hop : ∀ s, op ≠ .unknown s) (hl : ExprDerived spell l)
    (hr : ExprDerived spell r) : ExprDerived spell (.binary pos op l r) := by
  have hle : op.kind.level.rank + 1 ≤ Level.call.rank := Nat.le_succ_of_le (BinaryOp.joins hop).1.2
  exact reads_binary hop (hl.enclosed (Nat.le_of_succ_le hle)) (hr.enclosed hle)

theorem readsAll_words {es : List Expr} (h : ∀ e ∈ es, ExprDerived spell e) :
    ReadsAll (Expr.wordsEach spell es) es := by
  induction es with
  | nil => exact .nil
  | cons e es ih =>
      obtain ⟨he, hes⟩ := List.forall_mem_cons.mp h
      exact .cons he.lowest (ih hes)

theorem readsPair_words {ps : List (Expr × Expr)}
    (h : ∀ p ∈ ps, ExprDerived spell p.1 ∧ ExprDerived spell p.2) :
    List.Forall₂ ReadsPair (Expr.wordsPairs spell ps) ps := by
  induction ps with
  | nil => exact .nil
  | cons p ps ih =>
      obtain ⟨hp, hps⟩ := List.forall_mem_cons.mp h
      exact .cons ⟨_, _, rfl, hp.1.lowest, hp.2.lowest⟩ (ih hps)

theorem derived_params {ps : List Ident} (hs : Spelt (Word.commas (ps.map fun i => [i.word])) inp out) :
    ∃ ps', ps'.map (Ident.move nowhere) = ps.map (Ident.move nowhere) ∧
      Derives careful (.params ps') inp out := by
  induction ps generalizing inp with
  | nil =>
      obtain rfl := spelt_nil.mp hs
      exact ⟨[], rfl, .paramsNil⟩
  | cons p ps ih =>
      have same {t : Token} (ht : t.word = p.word) :
          t.kind = .ident ∧ (⟨t.pos, t.literal⟩ : Ident).move nowhere = p.move nowhere := by
        obtain ⟨hk, hname⟩ : t.kind = .ident ∧ t.literal = p.name := Prod.mk.inj ht
        exact ⟨hk, by rw [Ident.move, Ident.move, hname]; rfl⟩
      cases ps with
      | nil =>
          simp only [List.map, Word.commas, spelt_cons, spelt_nil] at hs
          obtain ⟨t, _, rfl, ht, rfl⟩ := hs
          exact ⟨[_], by simp only [List.map, (same ht).2], .paramsOne (same ht).1⟩
      | cons q ps =>
          simp only [List.map, Word.commas, spelt_append, spelt_cons, spelt_nil] at hs
          obtain ⟨_, ⟨t, _, rfl, ht, rfl⟩, c, mid, rfl, hc, hrest⟩ := hs
          obtain ⟨ps', hps', hds⟩ := ih hrest
          cases ps' with
          | nil => cases hps'
          | cons q' ps' =>
              refine ⟨_ :: q' :: ps', ?_, .paramsMore (same ht).1 (kind_of_word hc) hds⟩
              rw [List.map_cons, hps', (same ht).2]
              rfl

def StmtDerived (spell : Float → String) (s : Stmt) : Prop :=
  ∀ inp out, Spelt (s.words spell) inp out →
    ∃ s', s'.move nowhere = s.move nowhere ∧ Derives careful (.stmt s') inp out

def BlockDerived (spell : Float → String) (b : Block) : Prop :=
  ∀ inp out, Spelt (b.words spell) inp out →
    ∃ b', b'.move nowhere = b.move nowhere ∧ Derives careful (.block b') inp out

theorem derived_stmts {ss : List Stmt} (h : ∀ s ∈ ss, StmtDerived spell s)
    (hs : Spelt (Stmt.wordsAll spell ss) inp out) :
    ∃ ss', Stmt.moveAll nowhere ss' = Stmt.moveAll nowhere ss ∧
      Derives careful (.stmts ss') inp out := by
  induction ss generalizing inp with
  | nil =>
      obtain rfl := spelt_nil.mp hs
      exact ⟨[], rfl, .stmtsNil⟩
  | cons s ss ih =>
      obtain ⟨mid, hs, hss⟩ := spelt_append.mp hs
      obtain ⟨s', hs', hd⟩ := h s List.mem_cons_self _ _ hs
      obtain ⟨ss', hss', hds⟩ := ih (fun x hx => h x (List.mem_cons_of_mem s hx)) hss
      refine ⟨s' :: ss', ?_, .stmtsCons hd hds⟩
      rw [Stmt.moveAll, hs', hss']
      rfl

theorem derived_block {ss : List Stmt} (h : ∀ s ∈ ss, StmtDerived spell s) :
    BlockDerived spell (.mk pos ss) := by
  intro inp out hs
  change Spelt (Word.of .lbrace :: (Stmt.wordsAll spell ss ++ [Word.of .rbrace])) inp out at hs
  simp only [spelt_cons, spelt_append, spelt_nil] at hs
  obtain ⟨t, mid, rfl, ht, _, hss, u, _, rfl, hu, rfl⟩ := hs
  obtain ⟨ss', hss', hd⟩ := derived_stmts h hss
  refine ⟨_, ?_, .block (kind_of_word ht) (kind_of_word hu) hd⟩
  change Block.mk _ (Stmt.moveAll nowhere ss') = _
  rw [hss']
  rfl

theorem careful_semicolon {bare : Bool} {t : Token} (ht : t.word = Word.of .semicolon) :
    careful bare (t :: out) out :=
  .inr ⟨t, kind_of_word ht, rfl⟩

theorem derived_bind {i : Ident} (he : ExprDerived spell e) : StmtDerived spell (.bind pos i e) := by
  intro inp out hs
  change Spelt (Word.of .kwLet :: i.word :: Word.of .assign ::
    (e.words spell ++ [Word.of .semicolon])) inp out at hs
  simp only [spelt_cons, spelt_append, spelt_nil] at hs
  obtain ⟨t, _, rfl, ht, x, _, rfl, hx, a, mid, rfl, ha, _, hes, u, _, rfl, hu, rfl⟩ := hs
  obtain ⟨hk, hname⟩ : x.kind = .ident ∧ x.literal = i.name := Prod.mk.inj hx
  obtain ⟨e', he', hd⟩ := he.lowest _ _ hes
  refine ⟨_, ?_, .bind (kind_of_word ht) hk (kind_of_word ha) hd (careful_semicolon hu)⟩
  change Stmt.bind _ ⟨_, x.literal⟩ (e'.move nowhere) = _
  rw [he', hname]
  rfl

theorem derived_ret : StmtDerived spell (.ret pos none) := by
  intro inp out hs
  change Spelt [Word.of .kwReturn, Word.of .semicolon] inp out at hs
  simp only [spelt_cons, spelt_nil] at hs
  obtain ⟨t, _, rfl, ht, u, _, rfl, hu, rfl⟩ := hs
  exact ⟨.ret t.pos none, rfl, .ret (kind_of_word ht) (careful_semicolon hu)⟩

theorem derived_retValue (he : ExprDerived spell e) : StmtDerived spell (.ret pos (some e)) := by
  intro inp out hs
  change Spelt (Word.of .kwReturn :: (e.words spell ++ [Word.of .semicolon])) inp out at hs
  simp only [spelt_cons, spelt_append, spelt_nil] at hs
  obtain ⟨t, mid, rfl, ht, _, hes, u, _, rfl, hu, rfl⟩ := hs
  obtain ⟨e', he', hd⟩ := he.lowest _ _ hes
  refine ⟨_, ?_, .retValue (kind_of_word ht) hd (careful_semicolon hu)⟩
  change Stmt.ret _ (some (e'.move nowhere)) = _
  rw [he']
  rfl

theorem derived_expr (he : ExprDerived spell e) : StmtDerived spell (.expr pos e) := by
  intro inp out hs
  change Spelt (e.words spell ++ [Word.of .semicolon]) inp out at hs
  simp only [spelt_cons, spelt_append, spelt_nil] at hs
  obtain ⟨_, hes, u, _, rfl, hu, rfl⟩ := hs
  obtain ⟨e', he', hd⟩ := he.lowest _ _ hes
  obtain ⟨t, mid, rfl⟩ := List.exists_cons_of_ne_nil hd.ne_nil
  refine ⟨_, ?_, .expr hd (careful_semicolon hu)⟩
  change Stmt.expr _ (e'.move nowhere) = _
  rw [he']
  rfl

theorem derived_cond {t : Expr} {yes : Block} {no : Option Block} (ht : ExprDerived spell t)
    (hyes : BlockDerived spell yes) (hno : ∀ b ∈ no, BlockDerived spell b) :
    ExprDerived spell (.cond pos t yes no) := by
  intro inp out hs
  change Spelt (Word.of .kwIf :: Word.of .lparen :: (t.words spell ++ Word.of .rparen ::
    (yes.words spell ++ Block.wordsElse spell no))) inp out at hs
  simp only [spelt_cons, spelt_append] at hs
  obtain ⟨a, _, rfl, ha, b, mid, rfl, hb, _, hts, c, _, rfl, hc, last, hys, hns⟩ := hs
  obtain ⟨t', ht', hdt⟩ := ht.lowest _ _ hts
  obtain ⟨yes', hyes', hdy⟩ := hyes _ _ hys
  cases no with
  | none =>
      obtain rfl := spelt_nil.mp hns
      refine ⟨_, ?_, .cond (kind_of_word ha) (kind_of_word hb) (kind_of_word hc) hdt hdy⟩
      change Expr.cond _ (t'.move nowhere) (yes'.move nowhere) none = _
      rw [ht', hyes']
      rfl
  | some no =>
      obtain ⟨f, other, rfl, hf, hns⟩ := spelt_cons.mp hns
      obtain ⟨no', hno', hdn⟩ := hno no rfl _ _ hns
      refine ⟨_, ?_, .condElse (kind_of_word ha) (kind_of_word hb) (kind_of_word hc)
        (kind_of_word hf) hdt hdy hdn⟩
      change Expr.cond _ (t'.move nowhere) (yes'.move nowhere) (some (no'.move nowhere)) = _
      rw [ht', hyes', hno']
      rfl

theorem derived_loop {t : Expr} {b : Block} (ht : ExprDerived spell t) (hb : BlockDerived spell b) :
    ExprDerived spell (.loop pos t b) := by
  intro inp out hs
  change Spelt (Word.of .kwWhile :: Word.of .lparen ::
    (t.words spell ++ Word.of .rparen :: b.words spell)) inp out at hs
  simp only [spelt_cons, spelt_append] at hs
  obtain ⟨a, _, rfl, ha, l, mid, rfl, hl, _, hts, r, body, rfl, hr, hbs⟩ := hs
  obtain ⟨t', ht', hdt⟩ := ht.lowest _ _ hts
  obtain ⟨b', hb', hdb⟩ := hb _ _ hbs
  refine ⟨_, ?_, .loop (kind_of_word ha) (kind_of_word hl) (kind_of_word hr) hdt hdb⟩
  change Expr.loop _ (t'.move nowhere) (b'.move nowhere) = _
  rw [ht', hb']
  rfl

theorem derived_fn {ps : List Ident} {b : Block} (hb : BlockDerived spell b) :
    ExprDerived spell (.fn pos ps b) := by
  intro inp out hs
  change Spelt (Word.of .kwFn :: Word.of .lparen ::
    (Word.commas (ps.map fun i => [i.word]) ++ Word.of .rparen :: b.words spell)) inp out at hs
  simp only [spelt_cons, spelt_append] at hs
  obtain ⟨a, _, rfl, ha, l, mid, rfl, hl, _, hps, r, body, rfl, hr, hbs⟩ := hs
  obtain ⟨ps', hps', hdp⟩ := derived_params hps
  obtain ⟨b', hb', hdb⟩ := hb _ _ hbs
  refine ⟨_, ?_, .fn (kind_of_word ha) (kind_of_word hl) (kind_of_word hr) hdp hdb⟩
  change Expr.fn _ (ps'.map (Ident.move nowhere)) (b'.move nowhere) = _
  rw [hps', hb']
  rfl

def NodeDerived (spell : Float → String) : Node → Prop
  | .expr e => ExprDerived spell e
  | .stmt s => StmtDerived spell s
  | .block b => BlockDerived spell b

theorem node_derived {x : Node} (h : Node.Every (Node.Readable spell) x) : NodeDerived spell x := by
  induction h with
  | @mk x hx _ ih =>
      match x with
      | .expr (.ident i) => exact reads_ident i
      | .expr (.int _ n) => exact reads_int hx.1 hx.2
      | .expr (.double _ stamp v) =>
          refine reads_token fun t out ht => ?_
          obtain ⟨hk, hlit⟩ : t.kind = .double ∧ t.literal = spell v := Prod.mk.inj ht
          refine ⟨_, ?_, .double hk⟩
          rw [Expr.move, Expr.move, hlit, hx.1, hx.2]
          rfl
      | .expr (.string _ v) =>
          refine reads_token fun t out ht => ?_
          obtain ⟨hk, hlit⟩ : t.kind = .string ∧ t.literal = v := Prod.mk.inj ht
          refine ⟨_, ?_, .string hk⟩
          rw [Expr.move, Expr.move, hlit]
          rfl
      | .expr (.bool _ true) => exact reads_true
      | .expr (.bool _ false) => exact reads_false
      | .expr (.array _ es) =>
          exact reads_array (readsAll_words fun e he => ih (.expr e) (by simp [Node.children, he]))
      | .expr (.hash _ ps) =>
          refine reads_hash (readsPair_words fun p hp => ⟨ih (.expr p.1) ?_, ih (.expr p.2) ?_⟩) <;>
            exact List.mem_flatMap.mpr ⟨p, hp, by simp⟩
      | .expr (.range _ lo hi) =>
          have hlo : ExprDerived spell lo := ih (.expr lo) (by simp [Node.children])
          have hhi : ExprDerived spell hi := ih (.expr hi) (by simp [Node.children])
          exact reads_range (hlo.enclosed (by decide)) (hhi.enclosed (by decide))
      | .expr (.unary _ op e) =>
          have he : ExprDerived spell e := ih (.expr e) (by simp [Node.children])
          exact reads_unary hx (he.enclosed (by decide))
      | .expr (.binary _ op l r) =>
          exact derived_binary hx (ih (.expr l) (by simp [Node.children]))
            (ih (.expr r) (by simp [Node.children]))
      | .expr (.cond _ t yes no) =>
          exact derived_cond (ih (.expr t) (by simp [Node.children]))
            (ih (.block yes) (by simp [Node.children]))
            fun b hb => ih (.block b) (by simp [Node.children, Option.mem_def.mp hb])
      | .expr (.loop _ t b) =>
          exact derived_loop (ih (.expr t) (by simp [Node.children]))
            (ih (.block b) (by simp [Node.children]))
      | .expr (.fn _ ps b) => exact derived_fn (ih (.block b) (by simp [Node.children]))
      | .expr (.call _ f args) =>
          have hf : ExprDerived spell f := ih (.expr f) (by simp [Node.children])
          exact reads_call (hf.enclosed (Nat.le_refl _))
            (readsAll_words fun a ha => ih (.expr a) (by simp [Node.children, ha]))
      | .expr (.index _ c i) =>
          have hc : ExprDerived spell c := ih (.expr c) (by simp [Node.children])
          have hi : ExprDerived spell i := ih (.expr i) (by simp [Node.children])
          exact reads_index (hc.enclosed (Nat.le_refl _)) hi.lowest
      | .stmt (.bind _ i e) => exact derived_bind (ih (.expr e) (by simp [Node.children]))
      | .stmt (.ret _ none) => exact derived_ret
      | .stmt (.ret _ (some e)) => exact derived_retValue (ih (.expr e) (by simp [Node.children]))
      | .stmt (.expr _ e) => exact derived_expr (ih (.expr e) (by simp [Node.children]))
      | .block (.mk _ ss) =>
          exact derived_block fun s hs => ih (.stmt s) (List.mem_map.mpr ⟨s, hs, rfl⟩)

end Derived

theorem Derives.kind_ne_eof {φ : Phrase} {inp out : List Token} (h : Derives careful φ inp out) :
    ∀ t ∈ inp, t ∈ out ∨ t.kind ≠ .eof := by
  induction h with
  | bind _ _ _ _ hend | ret _ hend | retValue _ _ hend | expr _ hend =>
      rcases hend with ⟨rfl, -⟩ | ⟨u, hu, rfl⟩ <;> grind
  | binary hj => grind [Token.Kind.Joins, Token.Kind.level, Level.rank]
  | _ => grind

/-- Every program that can be written is read back from its words, wherever these stand, without a
mistake: the parentheses that are left out are not needed. -/
theorem words_read_back {spell : Float → String} {p : Program}
    (hp : p.Every (Node.Readable spell)) {tokens : List Token}
    (htokens : tokens.map Token.word = p.words spell ++ [Word.of .eof]) {depth : Nat}
    (hd : tokens.length ≤ depth) :
    ∃ d, Program.ofTokens? depth tokens = some d ∧ d.mistakes = [] ∧ d.program.Alike p := by
  obtain ⟨ts, last, rfl, hts, hlast⟩ := List.map_eq_append_iff.mp htokens
  obtain ⟨t, _, rfl, ht, hnil⟩ := List.map_eq_cons_iff.mp hlast
  obtain rfl := List.map_eq_nil_iff.mp hnil
  obtain ⟨ss, hss, hder⟩ := derived_stmts (fun s hs => node_derived (hp s hs))
    (⟨ts, hts, (List.append_nil ts).symm⟩ : Spelt (p.words spell) ts [])
  have hne : ∀ u ∈ ts, u.kind ≠ .eof := fun u hu => (hder.kind_ne_eof u hu).resolve_left (by simp)
  obtain ⟨hend, hlive⟩ := live_append hne (kind_of_word ht)
  rw [← hlive] at hder
  refine ⟨_, ofTokens_of_derives hend hder hd, rfl, ?_⟩
  rw [Stmt.moveAll_eq_map, Stmt.moveAll_eq_map] at hss
  exact congrArg Program.mk hss

theorem words_read_back_levels :
    let at' := Pos.start
    let name (s : String) : Expr := .ident ⟨at', s⟩
    let half := Number.double "0.5"
    let value : Expr := .binary at' .sub
      (.binary at' .mul (.unary at' .neg (.binary at' .add (name "a") (.double at' Stamp.shared half)))
        (.index at' (name "b") (.range at' (.int at' 0) (.int at' 2)))) (name "c")
    let p := Program.mk [.bind at' ⟨at', "x"⟩ value]
    let ws := [Word.of .kwLet, (.ident, "x"), Word.of .assign, Word.of .minus, Word.of .lparen,
      (.ident, "a"), Word.of .plus, (.double, "0.5"), Word.of .rparen, Word.of .star, (.ident, "b"),
      Word.of .lbracket, (.int, "0"), Word.of .dots, (.int, "2"), Word.of .rbracket, Word.of .minus,
      (.ident, "c"), Word.of .semicolon, Word.of .eof]
    let tokens := ws.map fun w => Token.mk w.1 w.2 at'
    p.words (fun _ => "0.5") ++ [Word.of .eof] = ws ∧
      ∃ d, Program.ofTokens? 20 tokens = some d ∧ d.mistakes = [] ∧ d.program.Alike p := by
  intro at' name half value p ws tokens
  have hwords : p.words (fun _ => "0.5") ++ [Word.of .eof] = ws := by decide
  have hp : p.Every (Node.Readable fun _ => "0.5") := by
    simp [p, value, name, half, Program.Every, Node.children, Node.Readable, Number.maxWord,
      Node.every_iff (x := .stmt (.bind _ _ _)), Node.every_iff (x := .expr (.binary _ _ _ _)),
      Node.every_iff (x := .expr (.unary _ _ _)), Node.every_iff (x := .expr (.index _ _ _)),
      Node.every_iff (x := .expr (.range _ _ _)), Node.every_iff (x := .expr (.ident _)),
      Node.every_iff (x := .expr (.int _ _)), Node.every_iff (x := .expr (.double _ _ _))]
  have htokens : tokens.map Token.word = p.words (fun _ => "0.5") ++ [Word.of .eof] := by
    rw [hwords]
    rfl
  exact ⟨hwords, words_read_back hp htokens (by decide)⟩

end Grammar

end Marmoset
