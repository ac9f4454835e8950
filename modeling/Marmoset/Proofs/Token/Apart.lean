import Mathlib.Data.List.Forall2
import Marmoset.Proofs.Token.Spelling

namespace Marmoset

section Quoting

inductive Quoting where
  | outside | inside | escaped
deriving DecidableEq, Repr

def Quoting.step : Quoting → Char → Quoting
  | .outside, c => if c = '"' then .inside else .outside
  | .inside, c => if c = '"' then .outside else if c = '\\' then .escaped else .inside
  | .escaped, _ => .inside

def Quoting.after (q : Quoting) (cs : List Char) : Quoting := cs.foldl step q

def EndsQuoted (text : String) : Prop := Quoting.outside.after text.toList ≠ .outside

instance : DecidablePred EndsQuoted := fun _ => inferInstanceAs (Decidable (_ ≠ _))

variable {cs : List Char}

theorem Quoting.after_cons (q : Quoting) (c : Char) (cs : List Char) :
    q.after (c :: cs) = (q.step c).after cs := rfl

theorem Quoting.after_append (q : Quoting) (cs ds : List Char) :
    q.after (cs ++ ds) = (q.after cs).after ds := List.foldl_append

theorem Quoting.after_plain (h : ∀ c ∈ cs, c ≠ '"') : outside.after cs = outside := by
  induction cs with
  | nil => rfl
  | cons c cs ih =>
      obtain ⟨hc, hcs⟩ := List.forall_mem_cons.mp h
      rw [after_cons, step, if_neg hc, ih hcs]

theorem Quoting.inside_step {c : Char} (hquote : c ≠ '"') (hslash : c ≠ '\\') :
    inside.step c = inside := by
  rw [step, if_neg hquote, if_neg hslash]

theorem Quoting.after_closed (h : Lexeme.closes cs = true) :
    inside.after (Lexeme.quotedRest cs).span = outside := by
  fun_induction Lexeme.closes cs with
  | case1 => cases h
  | case2 cs => rfl
  | case3 c cs ih => exact ih h
  | case4 c cs hquote hslash ih =>
      have hc := Lexeme.ne_slash_of_closes hslash h
      simp only [Lexeme.quotedRest, after_cons, inside_step hquote hc, ih h]

theorem Quoting.after_unclosed (h : Lexeme.closes cs = false) : inside.after cs ≠ outside := by
  fun_induction Lexeme.closes cs with
  | case1 => decide
  | case2 cs => cases h
  | case3 c cs ih => exact ih h
  | case4 c cs hquote hslash ih =>
      by_cases hc : c = '\\'
      · obtain rfl := Lexeme.nil_of_slash hslash hc
        rw [hc]
        decide
      · rw [after_cons, inside_step hquote hc]
        exact ih h

end Quoting

namespace Lexeme

variable {c : Char} {cs ds : List Char} {l : Lexeme}

theorem ne_quote_of_sort {p : Char → Bool} (hp : p '"' = false) (hcs : ∀ x ∈ cs, p x = true) :
    ∀ x ∈ cs, x ≠ '"' := by
  rintro x hx rfl
  exact Bool.false_ne_true (hp.symm.trans (hcs _ hx))

theorem after_spaces (hcs : ∀ x ∈ cs, isSpace x = true) : Quoting.outside.after cs = .outside :=
  Quoting.after_plain (ne_quote_of_sort rfl hcs)

theorem pairKind_ne_quote {second : Char} {both alone : Token.Kind}
    (h : pairKind c = some (second, both, alone)) : second ≠ '"' := by
  revert h
  fun_cases pairKind c <;> intro h <;> cases h <;> decide

theorem Form.ne_quote (h : Form c cs l) (hc : c ≠ '"') : ∀ x ∈ l.span, x ≠ '"' := by
  cases h with
  | word _ hw => exact List.forall_mem_cons.mpr ⟨hc, ne_quote_of_sort rfl hw⟩
  | int _ hwhole => exact List.forall_mem_cons.mpr ⟨hc, ne_quote_of_sort rfl hwhole⟩
  | double _ hwhole _ hfraction =>
      refine List.forall_mem_cons.mpr ⟨hc, List.forall_mem_append.mpr ⟨?_, ?_⟩⟩
      · exact ne_quote_of_sort rfl hwhole
      · exact List.forall_mem_cons.mpr ⟨by decide, ne_quote_of_sort rfl hfraction⟩
  | string hquote => exact absurd hquote hc
  | sign => exact List.forall_mem_singleton.mpr hc
  | pair _ _ _ hsign =>
      obtain ⟨alone, hpair⟩ := sign_pair hsign
      exact List.forall_mem_cons.mpr ⟨hc, List.forall_mem_singleton.mpr (pairKind_ne_quote hpair)⟩

theorem after_span (h : c = '"' → closes cs = true) :
    Quoting.outside.after (read c cs).span = .outside := by
  by_cases hc : c = '"'
  · subst hc
    rw [read_quote]
    exact Quoting.after_closed (h rfl)
  · exact Quoting.after_plain ((read_form c cs).ne_quote hc)

theorem quotedRest_blank (hds : ∀ x ∈ ds, isSpace x = true) : (quotedRest ds).literal = ds := by
  induction ds with
  | nil => rfl
  | cons d ds ih =>
      obtain ⟨hd, hmore⟩ := List.forall_mem_cons.mp hds
      rcases isSpace_cases hd with rfl | rfl | rfl | rfl <;> simp [quotedRest, ih hmore]

theorem quotedRest_slash (hds : ∀ x ∈ ds, isSpace x = true) :
    (quotedRest ('\\' :: ds)).literal = '\\' :: ds := by
  cases ds with
  | nil => rfl
  | cons d ds =>
      obtain ⟨hd, hmore⟩ := List.forall_mem_cons.mp hds
      rcases isSpace_cases hd with rfl | rfl | rfl | rfl <;>
        simp [quotedRest, unescape, quotedRest_blank hmore]

theorem quotedRest_spaces (hds : ∀ x ∈ ds, isSpace x = true) (h : closes cs = false) :
    (quotedRest (cs ++ ds)).literal = (quotedRest cs).literal ++ ds := by
  fun_induction closes cs with
  | case1 => exact quotedRest_blank hds
  | case2 cs => cases h
  | case3 c cs ih => simp [quotedRest, ih h]
  | case4 c cs hquote hslash ih =>
      by_cases hc : c = '\\'
      · obtain rfl := nil_of_slash hslash hc
        rw [hc]
        exact quotedRest_slash hds
      · simp [quotedRest, hc, ih h]

end Lexeme

namespace Cursor

variable {c : Cursor} {x : Char} {xs ws : List Char}

theorem closed_of_cons (h : c.skipSpaces.rest = x :: xs) :
    c.Closed ↔ (x = '"' → Lexeme.closes xs = true) ∧ c.next.2.Closed := by
  constructor
  · intro hclosed
    cases hclosed with
    | done hnil => cases hnil.symm.trans h
    | next hcons hx hnext =>
        obtain ⟨rfl, rfl⟩ := List.cons.inj (hcons.symm.trans h)
        exact ⟨hx, hnext⟩
  · exact fun hnext => .next h hnext.1 hnext.2

theorem closed_iff (c : Cursor) : c.Closed ↔ Quoting.outside.after c.rest = .outside := by
  fun_induction tokens c with
  | case1 c hrest =>
      exact iff_of_true (.done hrest) (Lexeme.after_spaces (List.dropWhile_eq_nil_iff.mp hrest))
  | case2 c hrest ih =>
      obtain ⟨x, xs, hx⟩ := List.exists_cons_of_ne_nil hrest
      rw [closed_of_cons hx, ih, (rest_of_cons hx).2, Quoting.after_append,
        Lexeme.after_spaces (all_takeWhile isSpace c.rest)]
      by_cases hcloses : x = '"' → Lexeme.closes xs = true
      · rw [← Lexeme.read_split x xs, Quoting.after_append, Lexeme.after_span hcloses, next_of_cons hx]
        exact and_iff_right hcloses
      · obtain ⟨rfl, hopen⟩ := Classical.not_imp.mp hcloses
        have hinside := Quoting.after_unclosed (Bool.not_eq_true _ ▸ hopen)
        exact iff_of_false (fun h => hcloses h.1) hinside

theorem Closed.tokens_apart (h : c.Closed) (hsome : ws ≠ []) (hws : ∀ x ∈ ws, isSpace x = true)
    (ds : List Char) :
    (⟨c.rest ++ ws ++ ds, c.pos⟩ : Cursor).tokens =
      c.tokens.dropLast ++ (⟨ds, c.pos.after (c.rest ++ ws)⟩ : Cursor).tokens := by
  obtain ⟨w, ws, rfl⟩ := List.exists_cons_of_ne_nil hsome
  obtain ⟨hw, hmore⟩ := List.forall_mem_cons.mp hws
  have hskip := tokens_of_skipSpaces (skipSpaces_append ws ds (c.pos.after (c.rest ++ [w])) hmore)
  rw [List.append_assoc, List.cons_append, h.tokens_append hw, hskip, ← Pos.after_append,
    List.append_assoc]
  rfl

theorem tokens_unclosed (h : ¬c.Closed) (hsome : ws ≠ []) (hws : ∀ x ∈ ws, isSpace x = true) :
    (⟨c.rest ++ ws, c.pos⟩ : Cursor).tokens.map Token.content ≠ c.tokens.map Token.content := by
  obtain ⟨w, more, rfl⟩ := List.exists_cons_of_ne_nil hsome
  have hw : isSpace w = true := (List.forall_mem_cons.mp hws).1
  fun_induction tokens c with
  | case1 c hrest => exact absurd (.done hrest) h
  | case2 c hrest ih =>
      obtain ⟨x, xs, hx⟩ := List.exists_cons_of_ne_nil hrest
      have hskip := skipSpaces_before hx (w :: more)
      have hrest' : (⟨c.rest ++ w :: more, c.pos⟩ : Cursor).skipSpaces.rest ≠ [] := by
        rw [hskip]
        exact List.cons_ne_nil x _
      rw [tokens.eq_def, if_neg hrest', List.map_cons, List.map_cons]
      intro heq
      obtain ⟨hhead, htail⟩ := List.cons.inj heq
      by_cases hcloses : x = '"' → Lexeme.closes xs = true
      · have hopen : ¬c.next.2.Closed := fun hnext => h ((closed_of_cons hx).mpr ⟨hcloses, hnext⟩)
        rw [next_append hw more hx hcloses] at htail
        exact ih hopen htail
      · -- the string that is not closed is the first token
        obtain ⟨rfl, hopen⟩ := Classical.not_imp.mp hcloses
        have hlonger := Lexeme.quotedRest_spaces hws (Bool.not_eq_true _ ▸ hopen)
        rw [next_of_cons (congrArg rest hskip), next_of_cons hx, Lexeme.read_quote,
          Lexeme.read_quote] at hhead
        have hliteral := String.ofList_injective (Prod.mk.inj hhead).2
        rw [hlonger, List.append_right_eq_self] at hliteral
        cases hliteral

end Cursor

section Places

structure Token.IsBehind (t : Token) (before text : List Char) : Prop where
  place : t.pos = Pos.behind before
  last : t.kind = .eof → text = before
  inner : t.kind ≠ .eof → ∃ span rest, text = before ++ (span ++ rest) ∧ t.IsAt before span rest

/-- What is in front of `t` in the text, with `ahead` in front of it, is in front of `u`. -/
def Token.Further (ahead text : List Char) (t u : Token) : Prop :=
  ∃ before, t.IsBehind before text ∧ u.IsBehind (ahead ++ before) (ahead ++ text)

namespace Cursor

variable {c d : Cursor} {ahead text before : List Char}

theorem next_of_rest (h : d.rest = c.rest) : d.skipSpaces.rest = c.skipSpaces.rest ∧
    d.next.1.content = c.next.1.content ∧ d.next.2.rest = c.next.2.rest := by
  have hskip : d.skipSpaces.rest = c.skipSpaces.rest := congrArg (List.dropWhile isSpace) h
  refine ⟨hskip, ?_⟩
  cases hrest : c.skipSpaces.rest with
  | nil =>
      rw [next_of_nil hrest, next_of_nil (hskip.trans hrest)]
      exact ⟨rfl, hskip⟩
  | cons x xs =>
      rw [next_of_cons hrest, next_of_cons (hskip.trans hrest)]
      exact ⟨rfl, rfl⟩

theorem content_of_rest (h : d.rest = c.rest) :
    d.tokens.map Token.content = c.tokens.map Token.content := by
  fun_induction tokens c generalizing d with
  | case1 c hrest =>
      obtain ⟨hskip, hcontent, -⟩ := next_of_rest h
      rw [tokens.eq_def, if_pos (hskip.trans hrest), List.map_singleton, List.map_singleton, hcontent]
  | case2 c hrest ih =>
      obtain ⟨hskip, hcontent, hmore⟩ := next_of_rest h
      rw [tokens.eq_def, if_neg (hskip ▸ hrest), List.map_cons, List.map_cons, hcontent, ih hmore]

theorem Follows.isBehind (h : c.Follows text before) :
    c.next.1.IsBehind (before ++ c.rest.takeWhile isSpace) text where
  place := h.token
  last hk := by
    have hspaces : ∀ x ∈ c.rest, isSpace x = true := List.dropWhile_eq_nil_iff.mp (c.next_kind.mp hk)
    rw [List.takeWhile_eq_self_iff.mpr hspaces, h.text]
  inner hk := by
    obtain ⟨x, xs, hx⟩ := List.exists_cons_of_ne_nil (mt c.next_kind.mpr hk)
    obtain ⟨hspace, hrest⟩ := rest_of_cons hx
    have hplace : c.skipSpaces.pos = Pos.behind (before ++ c.rest.takeWhile isSpace) := by
      rw [← h.token, next_of_cons hx]
    refine ⟨(Lexeme.read x xs).span, (Lexeme.read x xs).rest, ?_, ?_⟩
    · rw [Lexeme.read_split, List.append_assoc, ← hrest, h.text]
    · rw [next_of_cons hx, hplace]
      exact (Lexeme.read_form x xs).isAt hspace _

theorem Follows.rest_eq (h : c.Follows text before) (hd : d.Follows (ahead ++ text) (ahead ++ before)) :
    d.rest = c.rest := by
  have htext := hd.text
  rw [h.text, List.append_assoc] at htext
  exact (List.append_cancel_left (List.append_cancel_left htext)).symm

theorem Follows.next_further (h : c.Follows text before)
    (hd : d.Follows (ahead ++ text) (ahead ++ before)) :
    ∃ before', c.next.2.Follows text before' ∧ d.next.2.Follows (ahead ++ text) (ahead ++ before') := by
  obtain ⟨before', hc'⟩ := h.next
  obtain ⟨behind, hd'⟩ := hd.next
  obtain ⟨-, -, hrest⟩ := next_of_rest (h.rest_eq hd)
  have htext := hd'.text
  rw [hrest, hc'.text, ← List.append_assoc] at htext
  obtain rfl := List.append_cancel_right htext
  exact ⟨before', hc', hd'⟩

theorem Follows.token_further (h : c.Follows text before)
    (hd : d.Follows (ahead ++ text) (ahead ++ before)) : c.next.1.Further ahead text d.next.1 := by
  have hbehind := hd.isBehind
  rw [h.rest_eq hd, List.append_assoc] at hbehind
  exact ⟨_, h.isBehind, hbehind⟩

theorem Follows.tokens_further (h : c.Follows text before)
    (hd : d.Follows (ahead ++ text) (ahead ++ before)) :
    List.Forall₂ (Token.Further ahead text) c.tokens d.tokens := by
  obtain ⟨hskip, -, -⟩ := next_of_rest (h.rest_eq hd)
  fun_induction tokens c generalizing before d with
  | case1 c hrest =>
      rw [tokens.eq_def d, if_pos (hskip.trans hrest)]
      exact .cons (h.token_further hd) .nil
  | case2 c hrest ih =>
      obtain ⟨before', hc', hd'⟩ := h.next_further hd
      rw [tokens.eq_def d, if_neg (hskip ▸ hrest)]
      exact .cons (h.token_further hd) (ih hc' hd' (next_of_rest (hc'.rest_eq hd')).1)

end Cursor

end Places

section Texts

variable {a w : String}

theorem Cursor.closed_start (a : String) : (start a).Closed ↔ ¬EndsQuoted a := by
  rw [EndsQuoted, not_not, closed_iff]
  rfl

theorem Token.ofText_apart (h : ¬EndsQuoted a) (hsome : w.toList ≠ [])
    (hspaces : ∀ c ∈ w.toList, isSpace c = true) (b : String) :
    ofText (a ++ w ++ b) =
      (ofText a).dropLast ++ (⟨b.toList, Pos.behind (a ++ w).toList⟩ : Cursor).tokens := by
  have hapart := ((Cursor.closed_start a).mpr h).tokens_apart hsome hspaces b.toList
  have hplace : Pos.behind (a ++ w).toList = Pos.start.after (a.toList ++ w.toList) := by
    rw [String.toList_append, ← Pos.behind_nil, ← Pos.behind_append, List.nil_append]
  rw [hplace, ofText, Cursor.start, String.toList_append, String.toList_append]
  exact hapart

theorem Token.content_of_end (text : String) :
    ((ofText text).dropLast ++ ofText "").map content = (ofText text).map content := by
  obtain ⟨ps, -, -, htokens⟩ := (Cursor.start text).tokens_tile Pos.behind_nil.symm
    fun _ x hx => by cases hx
  obtain ⟨hskip, hend⟩ := Cursor.next_of_end (c := Cursor.start "") rfl
  rw [ofText, ofText, htokens, List.dropLast_concat, Cursor.tokens.eq_def, if_pos hskip, hend,
    List.map_append, List.map_append]
  rfl

theorem Token.ofText_unclosed (h : EndsQuoted a) (hsome : w.toList ≠ [])
    (hspaces : ∀ c ∈ w.toList, isSpace c = true) :
    (ofText (a ++ w)).map content ≠ (ofText a).map content := by
  have hopen : ¬(Cursor.start a).Closed := fun hclosed => (Cursor.closed_start a).mp hclosed h
  rw [ofText, Cursor.start, String.toList_append]
  exact Cursor.tokens_unclosed hopen hsome hspaces

end Texts

/-- A text that does not end in a string, spaces, and any other text: the tokens of the whole are those of
the first text, without its end and where they were, and then those of the second one, each with the first
text and the spaces in front of all that was in front of it. Behind a text that ends in a string this is
not so. -/
theorem Token.spaces_part_texts (a : String) {w : String} (hsome : w ≠ "")
    (hspaces : ∀ c ∈ w.toList, isSpace c = true) :
    ¬EndsQuoted a ↔ ∀ b : String,
      (ofText (a ++ w ++ b)).map content = ((ofText a).dropLast ++ ofText b).map content ∧
      ∃ us, ofText (a ++ w ++ b) = (ofText a).dropLast ++ us ∧
        List.Forall₂ (Further (a ++ w).toList b.toList) (ofText b) us := by
  have hchars : w.toList ≠ [] := by simpa using hsome
  constructor
  · intro h b
    have hapart := ofText_apart h hchars hspaces b
    have hstart : (Cursor.start b).Follows b.toList [] := ⟨rfl, rfl⟩
    refine ⟨?_, _, hapart, hstart.tokens_further ⟨?_, ?_⟩⟩
    · rw [hapart, List.map_append, List.map_append]
      exact congrArg _ (Cursor.content_of_rest rfl)
    · rw [List.append_nil]
    · rw [List.append_nil]
  · intro h hquoted
    obtain ⟨hsame, -⟩ := h ""
    rw [String.append_empty, content_of_end] at hsame
    exact ofText_unclosed hquoted hchars hspaces hsame

theorem Token.spaces_part_texts_point :
    let a := "\"\\\"\"1."
    let w := "\n\t"
    let b := "5\""
    w ≠ "" ∧ (∀ c ∈ w.toList, isSpace c = true) ∧ ¬EndsQuoted a ∧ EndsQuoted b ∧
    (ofText (a ++ w ++ b)).map content =
      [(.string, "\""), (.int, "1"), (.illegal, "."), (.int, "5"), (.string, ""), (.eof, "")] ∧
    ∃ us, ofText (a ++ w ++ b) =
        [⟨.string, "\"", ⟨1, 1⟩⟩, ⟨.int, "1", ⟨1, 5⟩⟩, ⟨.illegal, ".", ⟨1, 6⟩⟩] ++ us ∧
      List.Forall₂ (Further (a ++ w).toList b.toList)
        [⟨.int, "5", ⟨1, 1⟩⟩, ⟨.string, "", ⟨1, 2⟩⟩, ⟨.eof, "", ⟨1, 3⟩⟩] us := by
  intro a w b
  have hsome : w ≠ "" := by decide
  have hspaces : ∀ c ∈ w.toList, isSpace c = true := by simp [w, isSpace]
  have hclosed : ¬EndsQuoted a := by decide
  have hquoted : EndsQuoted b := by decide
  have ha : ofText a = [⟨.string, "\"", ⟨1, 1⟩⟩, ⟨.int, "1", ⟨1, 5⟩⟩, ⟨.illegal, ".", ⟨1, 6⟩⟩,
    ⟨.eof, "", ⟨1, 7⟩⟩] := by cbv
  have hb : ofText b = [⟨.int, "5", ⟨1, 1⟩⟩, ⟨.string, "", ⟨1, 2⟩⟩, ⟨.eof, "", ⟨1, 3⟩⟩] := by cbv
  obtain ⟨hcontent, hplaces⟩ := (spaces_part_texts a hsome hspaces).mp hclosed b
  rw [ha, hb] at hcontent hplaces
  exact ⟨hsome, hspaces, hclosed, hquoted, hcontent, hplaces⟩

end Marmoset
