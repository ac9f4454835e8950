import Marmoset.Proofs.Token.Tiling
import Marmoset.Proofs.Tree.Depth
import Marmoset.Proofs.Tree.Layout
import Marmoset.Proofs.Tree.Words
import Marmoset.Tree.Text

/-!
The text of an expression is read back as the expression. Characters are read as words, with what comes
behind them as a parameter: names and numbers end where their text ends, because no letter, no digit and
no point with a digit can follow there. The words have all the brackets that the shape of the tree needs.
-/

namespace Marmoset

section Lexes

variable {c : Char} {cs ds rest : List Char} {w : Word} {ws vs : List Word} {k : Token.Kind}

def Lexes (cs : List Char) (ws : List Word) (rest : List Char) : Prop :=
  ∀ p, ∃ ts q, ts.map Token.word = ws ∧
    (⟨cs ++ rest, p⟩ : Cursor).tokens = ts ++ (⟨rest, q⟩ : Cursor).tokens

theorem Lexes.nil : Lexes [] [] rest := fun p => ⟨[], p, rfl, rfl⟩

theorem Lexes.append (h : Lexes cs ws (ds ++ rest)) (h' : Lexes ds vs rest) :
    Lexes (cs ++ ds) (ws ++ vs) rest := by
  intro p
  obtain ⟨ts, q, rfl, hts⟩ := h p
  obtain ⟨us, q', rfl, hus⟩ := h' q
  exact ⟨ts ++ us, q', List.map_append, by rw [List.append_assoc, hts, hus, List.append_assoc]⟩

theorem Lexes.space (h : Lexes cs ws rest) : Lexes (' ' :: cs) ws rest := by
  intro p
  have hskip := Cursor.skipSpaces_append [' '] (cs ++ rest) p (List.forall_mem_singleton.mpr rfl)
  obtain ⟨ts, q, hws, hts⟩ := h (p.after [' '])
  exact ⟨ts, q, hws, (Cursor.tokens_of_skipSpaces hskip).trans hts⟩

theorem lexes_of_read {lit : List Char} (hc : isSpace c = false)
    (hread : Lexeme.read c (cs ++ rest) = ⟨k, lit, c :: cs, rest⟩) :
    Lexes (c :: cs) [(k, String.ofList lit)] rest := by
  intro p
  have hskip : (⟨c :: cs ++ rest, p⟩ : Cursor).skipSpaces = ⟨c :: (cs ++ rest), p⟩ := by
    simp [Cursor.skipSpaces, hc]
  have hrest := congrArg Cursor.rest hskip
  refine ⟨[⟨k, String.ofList lit, p⟩], p.after (c :: cs), rfl, ?_⟩
  have hsome : (⟨c :: cs ++ rest, p⟩ : Cursor).skipSpaces.rest ≠ [] := hrest ▸ List.cons_ne_nil c _
  rw [Cursor.tokens.eq_def, if_neg hsome, Cursor.next_of_cons hrest, hskip, hread]
  rfl

theorem signKind_char (h : Lexeme.signKind c = some k) :
    Token.Family.ofChar c = .sign ∧ isSpace c = false := by
  revert h
  fun_cases Lexeme.signKind c <;> intro h <;> cases h <;> decide

theorem pairKind_char {pair : Char × Token.Kind × Token.Kind} (h : Lexeme.pairKind c = some pair) :
    Lexeme.signKind c = none ∧ Token.Family.ofChar c = .sign ∧ isSpace c = false := by
  revert h
  fun_cases Lexeme.pairKind c <;> intro h <;> cases h <;> decide

theorem Lexes.sign (hk : Lexeme.signKind c = some k) (h : Lexes cs ws rest) :
    Lexes (c :: cs) (Word.of k :: ws) rest := by
  obtain ⟨hfamily, hc⟩ := signKind_char hk
  have hread : Lexeme.read c ([] ++ (cs ++ rest)) = ⟨k, [c], [c], cs ++ rest⟩ := by
    simp [Lexeme.read_sign hfamily, Lexeme.sign, hk]
  have hword : (k, String.ofList [c]) = Word.of k := by
    revert hk
    fun_cases Lexeme.signKind c <;> intro hk <;> cases hk <;> rfl
  exact hword ▸ (lexes_of_read hc hread).append h

theorem Lexes.pair {d : Char} {alone : Token.Kind} (hk : Lexeme.pairKind c = some (d, k, alone))
    (h : Lexes cs ws rest) : Lexes (c :: d :: cs) ((k, String.ofList [c, d]) :: ws) rest := by
  obtain ⟨hsign, hfamily, hc⟩ := pairKind_char hk
  have hread : Lexeme.read c ([d] ++ (cs ++ rest)) = ⟨k, [c, d], [c, d], cs ++ rest⟩ := by
    simp [Lexeme.read_sign hfamily, Lexeme.sign, hsign, hk]
  exact (lexes_of_read hc hread).append h

theorem Lexes.alone {d x : Char} {both : Token.Kind} (hk : Lexeme.pairKind c = some (d, both, k))
    (hx : x ≠ d) (h : Lexes (x :: cs) ws rest) :
    Lexes (c :: x :: cs) ((k, String.ofList [c]) :: ws) rest := by
  obtain ⟨hsign, hfamily, hc⟩ := pairKind_char hk
  have hread : Lexeme.read c ([] ++ (x :: cs ++ rest)) = ⟨k, [c], [c], x :: cs ++ rest⟩ := by
    simp [Lexeme.read_sign hfamily, Lexeme.sign, hsign, hk, hx]
  exact (lexes_of_read hc hread).append h

structure Breaks (rest : List Char) : Prop where
  letter : Stops isLetter rest
  digit : Stops isDigit rest
  point {d : Char} {more : List Char} : rest = '.' :: d :: more → isDigit d = false

theorem breaks_nil : Breaks [] := by
  refine ⟨fun x hx => ?_, fun x hx => ?_, fun h => ?_⟩
  · cases hx
  · cases hx
  · cases h

theorem breaks_cons (hletter : isLetter c = false) (hdigit : isDigit c = false) (hpoint : c ≠ '.')
    (cs : List Char) : Breaks (c :: cs) :=
  ⟨by simpa [Stops] using hletter, by simpa [Stops] using hdigit, fun h => absurd (List.cons.inj h).1 hpoint⟩

theorem breaks_sign (h : Lexeme.signKind c = some k) (cs : List Char) : Breaks (c :: cs) := by
  have hspec := Token.Family.ofChar_spec c
  rw [(signKind_char h).1] at hspec
  refine breaks_cons hspec.1 hspec.2.1 ?_ cs
  rintro rfl
  cases h

theorem breaks_dots (cs : List Char) : Breaks ('.' :: '.' :: cs) := by
  refine ⟨fun x hx => ?_, fun x hx => ?_, fun h => ?_⟩
  · cases hx
    rfl
  · cases hx
    rfl
  · cases h
    rfl

theorem lexes_word (hsome : cs ≠ []) (hall : ∀ x ∈ cs, isLetter x = true) (hrest : Breaks rest) :
    Lexes cs [(Lexeme.wordKind cs, String.ofList cs)] rest := by
  obtain ⟨c, cs, rfl⟩ := List.exists_cons_of_ne_nil hsome
  have hc : isLetter c = true := hall c List.mem_cons_self
  refine lexes_of_read (Lexeme.clear_of_letters hall c List.mem_cons_self) ?_
  rw [Lexeme.read_letter hc, ← List.cons_append, Lexeme.word, takeWhile_run hall hrest.letter,
    dropWhile_run hall hrest.letter]

theorem lexes_int (hsome : cs ≠ []) (hall : ∀ x ∈ cs, isDigit x = true) (hrest : Breaks rest) :
    Lexes cs [(.int, String.ofList cs)] rest := by
  obtain ⟨c, cs, rfl⟩ := List.exists_cons_of_ne_nil hsome
  have hc : isDigit c = true := hall c List.mem_cons_self
  refine lexes_of_read (Lexeme.clear_of_digits hall c List.mem_cons_self) ?_
  rw [Lexeme.read_digit hc, ← List.cons_append, Lexeme.number_whole hall hrest.digit fun _ _ => hrest.point]

theorem lexes_op {op : BinaryOp} (hop : ∀ s, op ≠ .unknown s) (h : Lexes (' ' :: cs) ws rest) :
    Lexes (op.symbol.toList ++ ' ' :: cs) ((op.kind, op.symbol) :: ws) rest := by
  cases op with
  | add | sub | mul | div | mod => exact .sign rfl h
  | lt | gt => exact .alone rfl (by decide) h
  | le | ge | eq | ne | and | or => exact .pair rfl h
  | unknown s => exact absurd rfl (hop s)

theorem lexes_unaryOp {op : UnaryOp} (hop : ∀ s, op ≠ .unknown s) (hc : c ≠ '=')
    (h : Lexes (c :: cs) ws rest) :
    Lexes (op.symbol.toList ++ c :: cs) ((op.kind, op.symbol) :: ws) rest := by
  cases op with
  | not => exact .alone rfl hc h
  | neg => exact .sign rfl h
  | unknown s => exact absurd rfl (hop s)

end Lexes

section Printed

open Grammar

def Node.Plain : Node → Prop
  | .expr (.ident i) => i.name ≠ "" ∧ (∀ c ∈ i.name.toList, isLetter c = true) ∧
      i.name.toList ∉ Lexeme.keywords.map Prod.fst
  | .expr (.int _ n) => 0 ≤ n ∧ n ≤ Number.maxWord
  | .expr (.unary _ op _) => ∀ s, op ≠ .unknown s
  | .expr (.binary _ op _ _) => ∀ s, op ≠ .unknown s
  | .expr (.bool _ _) | .expr (.range _ _ _) | .expr (.call _ _ _) | .expr (.index _ _ _)
  | .expr (.array _ _) | .expr (.hash _ _) => True
  | _ => False

def Spells (cs : List Char) (ws : List Word) : Prop := ∀ rest, Breaks rest → Lexes cs ws rest

/-- The text is read as words of the expression. No equals sign comes first, so a sign may come before. -/
def Expr.Printed (e : Expr) : Prop :=
  ∃ c cs ws, e.text.toList = c :: cs ∧ c ≠ '=' ∧ Spells (c :: cs) ws ∧ Reads ws Level.call.rank e

theorem Spells.sign {c : Char} {cs ds rest : List Char} {ws vs : List Word} {k : Token.Kind}
    (h : Spells cs ws) (hk : Lexeme.signKind c = some k) (h' : Lexes ds vs rest) :
    Lexes (cs ++ c :: ds) (ws ++ Word.of k :: vs) rest :=
  (h _ (breaks_sign hk _)).append (h'.sign hk)

variable {e : Expr} {pos : Pos} {ss : List String} {wss : List (List Word)}

theorem spells_commas (h : List.Forall₂ (fun s ws => Spells s.toList ws) ss wss) :
    Spells (commaSeparated ss).toList (Word.commas wss) := by
  induction h with
  | nil => exact fun rest _ => .nil
  | @cons s ws ss wss hs hss ih =>
      cases hss with
      | nil => exact hs
      | @cons s' ws' ss wss hs' hss =>
          intro rest hrest
          have htext : (commaSeparated (s :: s' :: ss)).toList =
              s.toList ++ ',' :: ' ' :: (commaSeparated (s' :: ss)).toList := by
            simp [commaSeparated, String.intercalate_cons_cons]
          rw [htext]
          exact hs.sign rfl (ih rest hrest).space

theorem printed_ident {i : Ident} (h : Node.Plain (.expr (.ident i))) : (Expr.ident i).Printed := by
  obtain ⟨hsome, hall, hkey⟩ := h
  have hkind : Lexeme.wordKind i.name.toList = .ident := by
    cases hword : Lexeme.keywords.lookup i.name.toList with
    | none => simp [Lexeme.wordKind, hword]
    | some k =>
        obtain ⟨l, r, hl, -⟩ := List.lookup_eq_some_iff.mp hword
        exact absurd (List.mem_map.mpr ⟨(i.name.toList, k), by simp [hl], rfl⟩) hkey
  have hne : i.name.toList ≠ [] := by simpa using hsome
  have hspells : Spells i.name.toList [i.word] := by
    intro rest hrest
    have hlexes := lexes_word hne hall hrest
    rwa [hkind, String.ofList_toList] at hlexes
  obtain ⟨c, cs, hcs⟩ := List.exists_cons_of_ne_nil hne
  rw [hcs] at hspells hall
  refine ⟨c, cs, _, hcs, ?_, hspells, reads_ident i⟩
  rintro rfl
  cases hall '=' List.mem_cons_self

theorem isDigit_of_char {c : Char} (h : c.isDigit = true) : isDigit c = true := by
  simpa [Char.isDigit, isDigit, Char.le_def] using h

theorem printed_int {n : Int} (h0 : 0 ≤ n) (hn : n ≤ Number.maxWord) : (Expr.int pos n).Printed := by
  obtain ⟨m, rfl⟩ := Int.eq_ofNat_of_zero_le h0
  have hlist : (toString (m : Int)).toList = Nat.toDigits 10 m := Nat.toList_repr
  have hall : ∀ c ∈ (toString (m : Int)).toList, isDigit c = true := fun c hc =>
    isDigit_of_char (Nat.isDigit_of_mem_toDigits (by decide) (by decide) (hlist ▸ hc))
  have hne : (toString (m : Int)).toList ≠ [] := hlist ▸ Nat.toDigits_ne_nil
  have hspells : Spells (toString (m : Int)).toList [(.int, toString (m : Int))] := by
    intro rest hrest
    have hlexes := lexes_int hne hall hrest
    rwa [String.ofList_toList] at hlexes
  obtain ⟨c, cs, hcs⟩ := List.exists_cons_of_ne_nil hne
  rw [hcs] at hspells hall
  refine ⟨c, cs, _, hcs, ?_, hspells, reads_int h0 hn⟩
  rintro rfl
  cases hall '=' List.mem_cons_self

theorem printed_bool (b : Bool) : (Expr.bool pos b).Printed := by
  cases b with
  | true =>
      refine ⟨'t', ['r', 'u', 'e'], _, ?_, by decide, fun rest => ?_, reads_true⟩
      · change "true".toList = _
        simp
      · exact lexes_word (List.cons_ne_nil _ _) (List.all_eq_true.mp rfl)
  | false =>
      refine ⟨'f', ['a', 'l', 's', 'e'], _, ?_, by decide, fun rest => ?_, reads_false⟩
      · change "false".toList = _
        simp
      · exact lexes_word (List.cons_ne_nil _ _) (List.all_eq_true.mp rfl)

theorem printed_all {es : List Expr} (h : ∀ e ∈ es, e.Printed) :
    ∃ wss, List.Forall₂ (fun s ws => Spells s.toList ws) (Expr.texts es) wss ∧ ReadsAll wss es := by
  induction es with
  | nil => exact ⟨[], .nil, .nil⟩
  | cons e es ih =>
      obtain ⟨⟨c, cs, ws, hcs, -, hws, he⟩, hes⟩ := List.forall_mem_cons.mp h
      obtain ⟨wss, hwss, hall⟩ := ih hes
      rw [← hcs] at hws
      exact ⟨ws :: wss, .cons hws hwss, .cons (he.lower (Nat.zero_le _)) hall⟩

theorem printed_pairs {ps : List (Expr × Expr)} (h : ∀ p ∈ ps, p.1.Printed ∧ p.2.Printed) :
    ∃ wss, List.Forall₂ (fun s ws => Spells s.toList ws) (Expr.pairTexts ps) wss ∧
      List.Forall₂ ReadsPair wss ps := by
  induction ps with
  | nil => exact ⟨[], .nil, .nil⟩
  | cons p ps ih =>
      obtain ⟨k, v⟩ := p
      obtain ⟨⟨⟨c, cs, ks, hcs, -, hks, hk⟩, ⟨d, ds, vs, hds, -, hvs, hv⟩⟩, hps⟩ :=
        List.forall_mem_cons.mp h
      obtain ⟨wss, hwss, hall⟩ := ih hps
      have hspells : Spells (k.text ++ ":" ++ v.text).toList (ks ++ Word.of .colon :: vs) := by
        intro rest hrest
        have htext : (k.text ++ ":" ++ v.text).toList = (c :: cs) ++ ':' :: (d :: ds) := by
          simp [← hcs, ← hds]
        rw [htext]
        exact hks.sign rfl (hvs rest hrest)
      refine ⟨_ :: wss, .cons hspells hwss, .cons ⟨ks, vs, rfl, ?_, ?_⟩ hall⟩
      · exact hk.lower (Nat.zero_le _)
      · exact hv.lower (Nat.zero_le _)

theorem printed_array {es : List Expr} (h : ∀ e ∈ es, e.Printed) : (Expr.array pos es).Printed := by
  obtain ⟨wss, hwss, hall⟩ := printed_all h
  refine ⟨'[', (commaSeparated (Expr.texts es)).toList ++ [']'], _, ?_, by decide, fun rest _ => ?_,
    reads_array hall⟩
  · change ("[" ++ commaSeparated (Expr.texts es) ++ "]").toList = _
    simp
  · exact .sign rfl ((spells_commas hwss).sign rfl .nil)

theorem printed_hash {ps : List (Expr × Expr)} (h : ∀ p ∈ ps, p.1.Printed ∧ p.2.Printed) :
    (Expr.hash pos ps).Printed := by
  obtain ⟨wss, hwss, hall⟩ := printed_pairs h
  refine ⟨'\x7b', (commaSeparated (Expr.pairTexts ps)).toList ++ ['\x7d'], _, ?_, by decide,
    fun rest _ => ?_, reads_hash hall⟩
  · change ("\x7b" ++ commaSeparated (Expr.pairTexts ps) ++ "\x7d").toList = _
    simp
  · exact .sign rfl ((spells_commas hwss).sign rfl .nil)

theorem printed_call {f : Expr} {args : List Expr} (hf : f.Printed) (hargs : ∀ e ∈ args, e.Printed) :
    (Expr.call pos f args).Printed := by
  obtain ⟨c, cs, ws, hcs, hc, hws, hr⟩ := hf
  obtain ⟨wss, hwss, hall⟩ := printed_all hargs
  refine ⟨c, cs ++ '(' :: ((commaSeparated (Expr.texts args)).toList ++ [')']), _, ?_, hc, fun rest _ => ?_,
    reads_call hr hall⟩
  · change (f.text ++ "(" ++ commaSeparated (Expr.texts args) ++ ")").toList = _
    simp [hcs]
  · exact hws.sign rfl ((spells_commas hwss).sign rfl .nil)

theorem printed_index {c i : Expr} (hc : c.Printed) (hi : i.Printed) : (Expr.index pos c i).Printed := by
  obtain ⟨x, xs, ws, hxs, -, hws, hrc⟩ := hc
  obtain ⟨y, ys, vs, hys, -, hvs, hri⟩ := hi
  have hreads : Reads (Word.of .lparen ::
      (ws ++ Word.of .lbracket :: (vs ++ [Word.of .rbracket, Word.of .rparen]))) Level.call.rank
      (.index pos c i) := by
    simpa using (reads_index hrc (hri.lower (Nat.zero_le _))).group
  refine ⟨'(', x :: xs ++ '[' :: (y :: ys ++ [']', ')']), _, ?_, by decide, fun rest _ => ?_, hreads⟩
  · change ("(" ++ c.text ++ "[" ++ i.text ++ "])").toList = _
    simp [hxs, hys]
  · exact .sign rfl (hws.sign rfl (hvs.sign rfl (.sign rfl .nil)))

theorem printed_range {lo hi : Expr} (hlo : lo.Printed) (hhi : hi.Printed) :
    (Expr.range pos lo hi).Printed := by
  obtain ⟨x, xs, ws, hxs, -, hws, hrl⟩ := hlo
  obtain ⟨y, ys, vs, hys, -, hvs, hrh⟩ := hhi
  have hreads : Reads (Word.of .lparen :: (ws ++ Word.of .dots :: (vs ++ [Word.of .rparen])))
      Level.call.rank (.range pos lo hi) := by
    simpa using (reads_range (hrl.lower (by decide)) (hrh.lower (by decide))).group
  refine ⟨'(', x :: xs ++ '.' :: '.' :: (y :: ys ++ [')']), _, ?_, by decide, fun rest _ => ?_, hreads⟩
  · change ("(" ++ lo.text ++ ".." ++ hi.text ++ ")").toList = _
    simp [hxs, hys]
  -- the first point cannot start a fraction, since the second one follows and no digit
  · exact .sign rfl ((hws _ (breaks_dots _)).append (.pair rfl (hvs.sign rfl .nil)))

theorem printed_unary {op : UnaryOp} (hop : ∀ s, op ≠ .unknown s) (he : e.Printed) :
    (Expr.unary pos op e).Printed := by
  obtain ⟨c, cs, ws, hcs, hc, hws, hr⟩ := he
  refine ⟨'(', op.symbol.toList ++ c :: (cs ++ [')']), _, ?_, by decide, fun rest _ => ?_,
    (reads_unary hop (hr.lower (by decide))).group⟩
  · change ("(" ++ op.symbol ++ e.text ++ ")").toList = _
    simp [hcs]
  · exact .sign rfl (lexes_unaryOp hop hc (hws.sign rfl .nil))

theorem printed_binary {op : BinaryOp} {l r : Expr} (hop : ∀ s, op ≠ .unknown s) (hl : l.Printed)
    (hr : r.Printed) : (Expr.binary pos op l r).Printed := by
  obtain ⟨x, xs, ws, hxs, -, hws, hrl⟩ := hl
  obtain ⟨y, ys, vs, hys, -, hvs, hrr⟩ := hr
  have hrank : op.kind.level.rank + 1 ≤ Level.call.rank := Nat.le_succ_of_le (BinaryOp.joins hop).1.2
  have hreads : Reads (Word.of .lparen :: (ws ++ (op.kind, op.symbol) :: (vs ++ [Word.of .rparen])))
      Level.call.rank (.binary pos op l r) := by
    simpa using (reads_binary hop (hrl.lower (Nat.le_of_succ_le hrank)) (hrr.lower hrank)).group
  refine ⟨'(', x :: xs ++ ' ' :: (op.symbol.toList ++ ' ' :: (y :: ys ++ [')'])), _, ?_, by decide,
    fun rest _ => ?_, hreads⟩
  · change ("(" ++ l.text ++ " " ++ op.symbol ++ " " ++ r.text ++ ")").toList = _
    simp [hxs, hys]
  · have hspace : Breaks (' ' :: (op.symbol.toList ++ ' ' :: (y :: ys ++ [')'])) ++ rest) :=
      breaks_cons rfl rfl (by decide) _
    exact .sign rfl ((hws _ hspace).append (.space (lexes_op hop (.space (hvs.sign rfl .nil)))))

theorem printed_of_plain {x : Node} (h : Node.Every Node.Plain x) : ∀ e, x = .expr e → e.Printed := by
  induction h with
  | @mk x hx _ ih =>
      rintro e rfl
      have hchild {y : Expr} (hy : .expr y ∈ (Node.expr e).children) : y.Printed := ih _ hy y rfl
      cases e with
      | ident i => exact printed_ident hx
      | int pos n => exact printed_int hx.1 hx.2
      | bool pos b => exact printed_bool b
      | array pos es => exact printed_array fun e he => hchild (List.mem_map_of_mem he)
      | hash pos ps =>
          exact printed_hash fun p hp =>
            ⟨hchild (Node.mem_children_key hp), hchild (Node.mem_children_value hp)⟩
      | range pos lo hi =>
          exact printed_range (hchild (by simp [Node.children])) (hchild (by simp [Node.children]))
      | unary pos op e => exact printed_unary hx (hchild (by simp [Node.children]))
      | binary pos op l r =>
          exact printed_binary hx (hchild (by simp [Node.children])) (hchild (by simp [Node.children]))
      | call pos f args =>
          exact printed_call (hchild (by simp [Node.children]))
            fun e he => hchild (by simp [Node.children, he])
      | index pos c i =>
          exact printed_index (hchild (by simp [Node.children])) (hchild (by simp [Node.children]))
      | _ => exact hx.elim

theorem Cursor.tokens_of_end (p : Pos) : (⟨[], p⟩ : Cursor).tokens = [⟨.eof, "", p⟩] := by
  obtain ⟨hend, heof⟩ := Cursor.next_of_end (c := ⟨[], p⟩) rfl
  rw [Cursor.tokens.eq_def, if_pos hend, heof]

theorem Node.Plain.written {x : Node} (h : x.Plain) : x.Written := by
  unfold Node.Written
  split
  · exact h
  · exact h
  · exact h
  · exact h
  · exact h
  · exact h.elim
  · trivial

theorem Expr.text_of_move {e e' : Expr} (he : Node.Every Node.Written (.expr e))
    (he' : Node.Every Node.Written (.expr e')) (h : e'.move nowhere = e.move nowhere) : e'.text = e.text := by
  have hmove := Node.expr.inj (Node.relabel_unplaced he)
  have hmove' := Node.expr.inj (Node.relabel_unplaced he')
  rw [← Expr.text_relabel (r := .unplaced) e, ← Expr.text_relabel (r := .unplaced) e', hmove, hmove', h]

theorem Program.text_expr {e : Expr} (h : Node.Every Node.Written (.expr e)) (pos : Pos) :
    (Program.mk [.expr pos e]).text = e.text := by
  have hne : e ≠ .missing := by
    rintro rfl
    exact h.self
  change (Stmt.expr pos e).text ++ "" = _
  rw [String.append_empty, Stmt.text_expr hne]

theorem Expr.text_read {e : Expr} (he : Node.Every Node.Plain (.expr e)) :
    ∃ pos e', e'.move nowhere = e.move nowhere ∧ (Program.mk [.expr pos e']).text = e.text ∧
      Program.ofText? (Token.ofText e.text).length e.text = some ⟨⟨[.expr pos e']⟩, []⟩ := by
  obtain ⟨c, cs, ws, hcs, -, hws, hreads⟩ := printed_of_plain he e rfl
  obtain ⟨ts, q, hts, htokens⟩ := hws [] breaks_nil Pos.start
  have htext : Token.ofText e.text = ts ++ [⟨.eof, "", q⟩] := by
    rw [Token.ofText, Cursor.start, hcs, ← List.append_nil (c :: cs), htokens, Cursor.tokens_of_end]
  obtain ⟨e', hmove, hd⟩ := hreads ts [] ⟨ts, hts, (List.append_nil ts).symm⟩
  obtain ⟨t, mid, rfl⟩ := List.exists_cons_of_ne_nil hd.ne_nil
  have hstmt : Derives careful (.stmts [.expr t.pos e']) (t :: mid) [] :=
    .stmtsCons (.expr (hd.lower (Nat.zero_le _)) (.inl ⟨rfl, by decide, by decide⟩)) .stmtsNil
  have hne : ∀ u ∈ t :: mid, u.kind ≠ .eof := fun u hu => (hstmt.kind_ne_eof u hu).resolve_left (by simp)
  obtain ⟨hend, hlive⟩ := live_append (e := ⟨.eof, "", q⟩) hne rfl
  rw [← hlive, ← htext] at hstmt
  have hwritten := hd.written _ (List.mem_singleton_self _)
  refine ⟨t.pos, e', hmove, ?_, ofTokens_of_derives (htext ▸ hend) hstmt (Nat.le_refl _)⟩
  rw [Program.text_expr hwritten, Expr.text_of_move (he.mono fun _ => Node.Plain.written) hwritten hmove]

end Printed

/-- The text of an expression of names, integers, truth values, operators, ranges, calls, indexing, arrays
and hashes is read without a mistake as one statement, which is the expression at other places and has the
same text. With a level for each token the text does not nest too deeply. Expressions of the same text are
the same, up to their places. -/
theorem Expr.text_reads_back {e : Expr} (he : Node.Every Node.Plain (.expr e)) :
    (∃ pos e', e'.move nowhere = e.move nowhere ∧ (Program.mk [.expr pos e']).text = e.text ∧
      ∀ depth, Program.ofText? depth e.text = some ⟨⟨[.expr pos e']⟩, []⟩ ∨
        Program.ofText? depth e.text = none ∧ depth < (Token.ofText e.text).length) ∧
    ∀ f : Expr, Node.Every Node.Plain (.expr f) → f.text = e.text → f.move nowhere = e.move nowhere := by
  obtain ⟨pos, e', hmove, htext, hread⟩ := Expr.text_read he
  refine ⟨⟨pos, e', hmove, htext, fun depth => ?_⟩, fun f hf hsame => ?_⟩
  -- with other levels there is the same program or none, and none only if there are fewer of them
  · rcases Nat.lt_or_ge depth (Token.ofText e.text).length with hlt | hle
    · rcases Program.ofTokens?_deeper hlt.le (Token.ofText e.text) with hnone | heq
      · exact .inr ⟨hnone, hlt⟩
      · exact .inl (heq.trans hread)
    · rcases Program.ofTokens?_deeper hle (Token.ofText e.text) with hnone | heq
      · exact absurd (hnone.symm.trans hread) (by simp)
      · exact .inl (heq.symm.trans hread)
  · obtain ⟨pos', f', hmove', -, hread'⟩ := Expr.text_read hf
    rw [hsame, hread] at hread'
    cases hread'
    exact hmove'.symm.trans hmove

theorem Expr.text_reads_back_nested :
    let p := Pos.start
    let name (s : String) : Expr := .ident ⟨p, s⟩
    let range : Expr := .range p (.int p 0) (.unary p .neg (.unary p .not (.bool p true)))
    let table : Expr := .hash p [(name "k", .array p [name "a_b", range])]
    let e : Expr := .call p (.call p (.index p table (name "k")) []) [.binary p .le (.int p 9) (name "k")]
    let text := "(\x7bk:[a_b, (0..(-(!true)))]\x7d[k])()((9 <= k))"
    Node.Every Node.Plain (.expr e) ∧ e.text = text ∧
      ∃ pos e', e'.move nowhere = e.move nowhere ∧ Program.ofText? 34 text = some ⟨⟨[.expr pos e']⟩, []⟩ := by
  intro p name range table e text
  have hname {s : String} (h : Node.Plain (.expr (name s))) : Node.Every Node.Plain (.expr (name s)) :=
    ⟨h, List.forall_mem_nil _⟩
  have hk : Node.Every Node.Plain (.expr (name "k")) := hname ⟨by decide, by simp [isLetter], by decide⟩
  have ha : Node.Every Node.Plain (.expr (name "a_b")) := hname ⟨by decide, by simp [isLetter], by decide⟩
  have hplain : Node.Every Node.Plain (.expr e) := by
    simp [e, table, range, hk, ha, Node.children, Node.Plain, Number.maxWord,
      Node.every_iff (x := .expr (.call _ _ _)), Node.every_iff (x := .expr (.index _ _ _)),
      Node.every_iff (x := .expr (.hash _ _)), Node.every_iff (x := .expr (.array _ _)),
      Node.every_iff (x := .expr (.range _ _ _)), Node.every_iff (x := .expr (.unary _ _ _)),
      Node.every_iff (x := .expr (.binary _ _ _ _)), Node.every_iff (x := .expr (.int _ _)),
      Node.every_iff (x := .expr (.bool _ _))]
  have htext : e.text = text := by decide
  obtain ⟨pos, e', hmove, -, hread⟩ := (Expr.text_reads_back hplain).1
  have hlength : (Token.ofText text).length = 34 := by cbv
  rw [htext] at hread
  refine ⟨hplain, htext, pos, e', hmove, (hread 34).resolve_right fun h => ?_⟩
  omega

end Marmoset
