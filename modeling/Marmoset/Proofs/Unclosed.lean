import Mathlib.Algebra.BigOperators.Group.List.Basic
import Mathlib.Tactic.Ring
import Marmoset.Dialogue
import Marmoset.Proofs.Token.Spelling
import Marmoset.Proofs.Tree.Nesting

namespace Marmoset

section Weights

variable {α : Type} {c d : Char} {cs : List Char} {k : Token.Kind}

def bracketWeight (c : Char) : Int := (if opensBracket c then 1 else 0) - (if closesBracket c then 1 else 0)

theorem sum_weights {w : α → Int} {f g : α → Bool}
    (h : ∀ a, w a = (if f a then 1 else 0) - (if g a then 1 else 0)) (xs : List α) :
    (xs.map w).sum = xs.countP f - xs.countP g := by
  induction xs with
  | nil => rfl
  | cons x xs ih =>
      rw [List.map_cons, List.sum_cons, ih, h, List.countP_cons, List.countP_cons]
      push_cast
      ring

theorem needsMore_iff (text : String) : needsMore text = true ↔ 0 < (text.toList.map bracketWeight).sum := by
  have hsum : (text.toList.map bracketWeight).sum =
      text.toList.countP opensBracket - text.toList.countP closesBracket := sum_weights (fun _ => rfl) _
  rw [hsum, needsMore, decide_eq_true_iff]
  omega

def Token.Kind.closes (k : Token.Kind) : Bool := k.partner?.isSome

theorem Token.surplus_eq_sum (ts : List Token) : surplus ts = (ts.map (·.kind.weight)).sum := by
  induction ts with
  | nil => rfl
  | cons t ts ih => rw [surplus, ih, List.map_cons, List.sum_cons]

theorem Token.surplus_eq_count (ts : List Token) :
    surplus ts = ts.countP (·.kind.opens) - ts.countP (·.kind.closes) := by
  rw [surplus_eq_sum]
  refine sum_weights (fun t => ?_) ts
  cases t.kind <;> rfl

theorem bracket_cases (h : bracketWeight c ≠ 0) :
    c = '(' ∨ c = '[' ∨ c = '\x7b' ∨ c = ')' ∨ c = ']' ∨ c = '\x7d' := by
  by_contra hc
  simp only [not_or] at hc
  exact h (by simp [bracketWeight, opensBracket, closesBracket, hc])

theorem sum_of_sort {p : Char → Bool}
    (hp : p '(' = false ∧ p '[' = false ∧ p '\x7b' = false ∧ p ')' = false ∧ p ']' = false ∧
      p '\x7d' = false)
    (hcs : ∀ c ∈ cs, p c = true) : (cs.map bracketWeight).sum = 0 := by
  refine List.sum_eq_zero fun n hn => ?_
  obtain ⟨c, hc, rfl⟩ := List.mem_map.mp hn
  by_contra hw
  have hsort := hcs c hc
  rcases bracket_cases hw with rfl | rfl | rfl | rfl | rfl | rfl <;> simp [hp] at hsort

theorem sum_letters (hcs : ∀ c ∈ cs, isLetter c = true) : (cs.map bracketWeight).sum = 0 :=
  sum_of_sort ⟨rfl, rfl, rfl, rfl, rfl, rfl⟩ hcs

theorem sum_digits (hcs : ∀ c ∈ cs, isDigit c = true) : (cs.map bracketWeight).sum = 0 :=
  sum_of_sort ⟨rfl, rfl, rfl, rfl, rfl, rfl⟩ hcs

theorem sum_spaces (hcs : ∀ c ∈ cs, isSpace c = true) : (cs.map bracketWeight).sum = 0 :=
  sum_of_sort ⟨rfl, rfl, rfl, rfl, rfl, rfl⟩ hcs

theorem weight_of_word (h : k.family? = some .word) : k.weight = 0 := by
  cases k <;> first | rfl | cases h

theorem weight_of_signKind (h : Lexeme.signKind c = some k) : bracketWeight c = k.weight := by
  revert h
  fun_cases Lexeme.signKind c <;> intro h <;> cases h <;> rfl

theorem weight_of_pairKind {both alone : Token.Kind} (h : Lexeme.pairKind c = some (d, both, alone)) :
    bracketWeight c = 0 ∧ bracketWeight d = 0 ∧ both.weight = 0 ∧ alone.weight = 0 := by
  revert h
  fun_cases Lexeme.pairKind c <;> intro h <;> cases h <;> exact ⟨rfl, rfl, rfl, rfl⟩

theorem weight_of_sign {l : Lexeme} (h : Lexeme.sign c [] = l) : bracketWeight c = l.kind.weight := by
  subst h
  unfold Lexeme.sign
  cases hsign : Lexeme.signKind c with
  | some k => exact weight_of_signKind hsign
  | none =>
      have hc : bracketWeight c = 0 := by
        by_contra hw
        rcases bracket_cases hw with rfl | rfl | rfl | rfl | rfl | rfl <;> cases hsign
      cases hpair : Lexeme.pairKind c with
      | none => exact hc
      | some pair => exact hc.trans (weight_of_pairKind hpair).2.2.2.symm

theorem weight_of_pair (h : Lexeme.sign c [d] = ⟨k, [c, d], [c, d], []⟩) :
    bracketWeight c + bracketWeight d = k.weight := by
  obtain ⟨alone, hpair⟩ := Lexeme.sign_pair h
  obtain ⟨hc, hd, hboth, -⟩ := weight_of_pairKind hpair
  rw [hc, hd, hboth]
  rfl

theorem Lexeme.Form.weight {l : Lexeme} (h : Form c cs l) (hk : l.kind ≠ .string) :
    (l.literal.map bracketWeight).sum = l.kind.weight := by
  cases h with
  | word hc hw =>
      exact (sum_letters (List.forall_mem_cons.mpr ⟨hc, hw⟩)).trans
        (weight_of_word (wordKind_family _)).symm
  | int hc hwhole => exact sum_digits (List.forall_mem_cons.mpr ⟨hc, hwhole⟩)
  | @double whole fraction rest hc hwhole _ hfraction =>
      have hhead := sum_digits (List.forall_mem_cons.mpr ⟨hc, hwhole⟩)
      have htail := sum_digits hfraction
      rw [List.map_append, List.sum_append, hhead, List.map_cons, List.sum_cons, htail]
      rfl
  | string => exact absurd rfl hk
  | sign _ _ hsign => simpa using weight_of_sign hsign
  | pair _ _ _ hsign => simpa using weight_of_pair hsign

theorem Token.Stands.weight {t : Token} (h : t.Stands) (hk : t.kind ≠ .string) :
    (t.literal.toList.map bracketWeight).sum = t.kind.weight := by
  obtain ⟨x, xs, -, -, -, hread⟩ := h
  have hform := Lexeme.read_form x xs
  rw [hread] at hform
  exact hform.weight hk

end Weights

section Tiles

structure Tiles (text : String) (ps : List Tile) : Prop where
  laid : Laid [] ps
  chars : ps.flatMap Tile.chars = text.toList
  tokens : Token.ofText text = ps.filterMap Tile.token? ++ [⟨.eof, "", Pos.behind text.toList⟩]

def Tile.Bare : Tile → Prop
  | .spaces _ => True
  | .token t span => t.kind = .string → ∀ c ∈ span, ¬opensBracket c ∧ ¬closesBracket c

theorem tiles_of_text (text : String) : ∃ ps, Tiles text ps := by
  have hleft : (Cursor.start text).rest ≠ [] → Stops isSpace [].reverse := fun _ x hx => by cases hx
  obtain ⟨ps, hps, htext, htokens⟩ := (Cursor.start text).tokens_tile Pos.behind_nil.symm hleft
  exact ⟨ps, hps, htext, htokens⟩

theorem Laid.weights {before : List Char} {ps : List Tile} (h : Laid before ps)
    (hstand : ∀ t ∈ ps.filterMap Tile.token?, t.Stands) (hbare : ∀ q ∈ ps, q.Bare) :
    ((ps.flatMap Tile.chars).map bracketWeight).sum = Token.surplus (ps.filterMap Tile.token?) := by
  induction h with
  | nil => rfl
  | @spaces before cs ps hrun _ ih =>
      have hrest := ih hstand (List.forall_mem_cons.mp hbare).2
      rw [List.flatMap_cons, List.map_append, List.sum_append, hrest, Tile.chars, sum_spaces hrun.spaces,
        zero_add]
      rfl
  | @token before t span ps hat _ ih =>
      obtain ⟨ht, hts⟩ := List.forall_mem_cons.mp hstand
      obtain ⟨hspan, hps⟩ := List.forall_mem_cons.mp hbare
      have hrest := ih hts hps
      have hweight : (span.map bracketWeight).sum = t.kind.weight := by
        by_cases hk : t.kind = .string
        · refine (List.sum_eq_zero fun n hn => ?_).trans (by rw [hk]; rfl)
          obtain ⟨c, hc, rfl⟩ := List.mem_map.mp hn
          simp [bracketWeight, hspan hk c hc]
        -- all other tokens have their characters as literal
        · rw [← hat.literal hk]
          exact ht.weight hk
      rw [List.flatMap_cons, List.map_append, List.sum_append, hrest, Tile.chars, hweight]
      rfl

theorem Token.surplus_append (ts ts' : List Token) : surplus (ts ++ ts') = surplus ts + surplus ts' := by
  rw [surplus_eq_sum, surplus_eq_sum, surplus_eq_sum, List.map_append, List.sum_append]

theorem Tiles.needsMore_iff {text : String} {ps : List Tile} (h : Tiles text ps) (hbare : ∀ q ∈ ps, q.Bare) :
    needsMore text = true ↔ 0 < Token.surplus (Token.ofText text) := by
  have hstand (t : Token) (ht : t ∈ ps.filterMap Tile.token?) : t.Stands := by
    refine (Cursor.start text).tokens_stand t ?_ (h.laid.kind_ne_eof t ht)
    change t ∈ Token.ofText text
    rw [h.tokens]
    exact List.mem_append_left _ ht
  have hend (pos : Pos) : Token.surplus [⟨.eof, "", pos⟩] = 0 := rfl
  rw [Marmoset.needsMore_iff, ← h.chars, h.laid.weights hstand hbare, h.tokens, Token.surplus_append, hend,
    add_zero]

end Tiles

section Blocks

open Grammar

variable {u : Token} {b : Block}

theorem Grammar.EndsOpen.mem {inp us : List Token} (h : EndsOpen inp u b)
    (hscan : Token.scan [] inp = some us) : u ∈ us := by
  obtain ⟨hbrace, -, pre, post, rfl, hd⟩ := h
  obtain ⟨ts, us', rfl, hts, -, -⟩ :=
    hd.nested (P := fun _ => True) fun x _ => Node.every_of_forall (fun _ => trivial) x
  rw [Token.scan_append] at hscan
  obtain ⟨st, -, hrest⟩ := Option.bind_eq_some_iff.mp hscan
  rw [Token.scan_cons, Token.shift_open (by rw [hbrace]; rfl), Option.bind_some, List.append_nil,
    hts] at hrest
  cases hrest
  simp

theorem scan_of_text {depth : Nat} {text : String} {p : Program}
    (h : Program.ofText? depth text = some ⟨p, []⟩) :
    ∃ us, Token.scan [] (Token.ofText text) = some us ∧
      ∀ u, u ∈ us ↔ ∃ b, p.Has (.block b) ∧ EndsOpen (Token.ofText text).dropLast u b := by
  obtain ⟨ts, e, htext, he, hts⟩ := Token.ofText_ending text
  have hderives := derives_of_text h rfl
  rw [htext, List.dropLast_concat] at hderives
  obtain ⟨ts', us, hsplit, hscan, -, hus⟩ := hderives.nested p.has_stmts
  rw [List.append_nil] at hsplit
  subst hsplit
  have hscan := hscan []
  rw [List.append_nil] at hscan
  rw [htext, List.dropLast_concat]
  refine ⟨us, ?_, fun u => ⟨hus u, fun ⟨b, _, hopen⟩ => hopen.mem hscan⟩⟩
  rw [Token.scan_append, hscan, Option.bind_some, Token.scan_cons, Token.shift_other (by rw [he]; rfl)]
  rfl

end Blocks

/-- More lines are to come when more brackets are opened than closed. If no string has a bracket in it, that
is said of tokens as of characters. If the text has no mistakes, each closing bracket belongs to the
innermost bracket that is open, which is of its kind, and the brackets that stay open are those of the blocks
whose statements go on to the end of the text; so more lines are to come when there is such a block. -/
theorem needsMore_iff_block_open (text : String) :
    (∃ ps, Tiles text ps) ∧
    ∀ ps, Tiles text ps → (∀ q ∈ ps, q.Bare) →
      (needsMore text = true ↔ (Token.ofText text).countP (·.kind.closes) <
        (Token.ofText text).countP (·.kind.opens)) ∧
      ∀ depth p, Program.ofText? depth text = some ⟨p, []⟩ →
        (∃ us, Token.scan [] (Token.ofText text) = some us ∧
          ∀ u, u ∈ us ↔ ∃ b, p.Has (.block b) ∧ Grammar.EndsOpen (Token.ofText text).dropLast u b) ∧
        (needsMore text = true ↔
          ∃ b u, p.Has (.block b) ∧ Grammar.EndsOpen (Token.ofText text).dropLast u b) := by
  refine ⟨tiles_of_text text, fun ps hps hbare => ?_⟩
  have hmore := hps.needsMore_iff hbare
  refine ⟨?_, fun depth p hp => ?_⟩
  · rw [hmore, Token.surplus_eq_count]
    omega
  · obtain ⟨us, hscan, hus⟩ := scan_of_text hp
    have hlength := Token.scan_length hscan
    refine ⟨⟨us, hscan, hus⟩, ?_⟩
    have hopen : needsMore text = true ↔ us ≠ [] := by
      rw [hmore, ← List.length_pos_iff]
      simp only [List.length_nil, Nat.cast_zero, zero_add] at hlength
      omega
    rw [hopen]
    constructor
    · intro hne
      obtain ⟨u, hu⟩ := List.exists_mem_of_ne_nil us hne
      obtain ⟨b, hb⟩ := (hus u).mp hu
      exact ⟨b, u, hb⟩
    · rintro ⟨b, u, hb⟩
      exact List.ne_nil_of_mem ((hus u).mpr ⟨b, hb⟩)

theorem needsMore_iff_block_open_string :
    let text := "fn()\x7b[\"a\"]"
    let ps : List Tile := [.token ⟨.kwFn, "fn", ⟨1, 1⟩⟩ ['f', 'n'], .token ⟨.lparen, "(", ⟨1, 3⟩⟩ ['('],
      .token ⟨.rparen, ")", ⟨1, 4⟩⟩ [')'], .token ⟨.lbrace, "\x7b", ⟨1, 5⟩⟩ ['\x7b'],
      .token ⟨.lbracket, "[", ⟨1, 6⟩⟩ ['['], .token ⟨.string, "a", ⟨1, 7⟩⟩ ['"', 'a', '"'],
      .token ⟨.rbracket, "]", ⟨1, 10⟩⟩ [']']]
    let p := Program.mk [.expr ⟨1, 1⟩ (.fn ⟨1, 1⟩ []
      (.mk ⟨1, 5⟩ [.expr ⟨1, 6⟩ (.array ⟨1, 6⟩ [.string ⟨1, 7⟩ "a"])]))]
    Tiles text ps ∧ (∀ q ∈ ps, q.Bare) ∧ Program.ofText? 5 text = some ⟨p, []⟩ ∧ needsMore text = true ∧
      ∃ b u, p.Has (.block b) ∧ Grammar.EndsOpen (Token.ofText text).dropLast u b := by
  intro text ps p
  have hread : Program.ofText? 5 text = some ⟨p, []⟩ := by cbv
  have hmore : needsMore text = true := by cbv
  have htiles : Tiles text ps := by
    refine ⟨?_, by cbv, by cbv⟩
    refine .token ((Lexeme.read_form 'f' ['n', '(', ')', '\x7b', '[', '"', 'a', '"', ']']).isAt rfl []) ?_
    refine .token ((Lexeme.read_form '(' [')', '\x7b', '[', '"', 'a', '"', ']']).isAt rfl ['f', 'n']) ?_
    refine .token ((Lexeme.read_form ')' ['\x7b', '[', '"', 'a', '"', ']']).isAt rfl ['f', 'n', '(']) ?_
    refine .token ((Lexeme.read_form '\x7b' ['[', '"', 'a', '"', ']']).isAt rfl ['f', 'n', '(', ')']) ?_
    refine .token ((Lexeme.read_form '[' ['"', 'a', '"', ']']).isAt rfl ['f', 'n', '(', ')', '\x7b']) ?_
    refine .token ((Lexeme.read_form '"' ['a', '"', ']']).isAt rfl ['f', 'n', '(', ')', '\x7b', '[']) ?_
    exact .token ((Lexeme.read_form ']' []).isAt rfl ['f', 'n', '(', ')', '\x7b', '[', '"', 'a', '"']) .nil
  have hbare : ∀ q ∈ ps, q.Bare := by
    simp [ps, Tile.Bare, opensBracket, closesBracket]
  obtain ⟨-, hall⟩ := needsMore_iff_block_open text
  obtain ⟨-, hblocks⟩ := hall ps htiles hbare
  exact ⟨htiles, hbare, hread, hmore, (hblocks 5 p hread).2.mp hmore⟩

end Marmoset
