import Marmoset.Proofs.Token.Tiling

namespace Marmoset

section Spelling

def Token.escaped : Char → List Char
  | '\\' => ['\\', '\\']
  | '"' => ['\\', '"']
  | c => [c]

def Token.inQuotes (s : String) : String :=
  "\"" ++ String.ofList (s.toList.flatMap escaped) ++ "\""

def Token.spelling (t : Token) : String :=
  if t.kind = .string then inQuotes t.literal else t.literal

def Token.content (t : Token) : Token.Kind × String := (t.kind, t.literal)

theorem Token.toList_inQuotes (s : String) :
    (inQuotes s).toList = '"' :: (s.toList.flatMap escaped ++ ['"']) := by
  simp [inQuotes]

end Spelling

namespace Lexeme

variable {c : Char} {cs : List Char} {l : Lexeme}

section Quotes

variable (s rest : List Char)

theorem quotedRest_escaped : quotedRest (s.flatMap Token.escaped ++ '"' :: rest) =
    ⟨.string, s, s.flatMap Token.escaped ++ ['"'], rest⟩ := by
  induction s with
  | nil => rfl
  | cons c s ih =>
      rw [List.flatMap_cons, List.append_assoc]
      by_cases hslash : c = '\\'
      · subst hslash
        simp [Token.escaped, quotedRest, unescape, ih]
      · by_cases hquote : c = '"'
        · subst hquote
          simp [Token.escaped, quotedRest, unescape, ih]
        · simp [Token.escaped, quotedRest, hslash, ih]

theorem closes_escaped : closes (s.flatMap Token.escaped ++ '"' :: rest) = true := by
  induction s with
  | nil => rfl
  | cons c s ih =>
      rw [List.flatMap_cons, List.append_assoc]
      by_cases hslash : c = '\\'
      · subst hslash
        simpa [Token.escaped, closes] using ih
      · by_cases hquote : c = '"'
        · subst hquote
          simpa [Token.escaped, closes] using ih
        · simpa [Token.escaped, closes, hslash, hquote] using ih

end Quotes

theorem Form.alone (h : Form c cs l) (hk : l.kind ≠ .string) :
    ∃ ds, l.span = c :: ds ∧ read c ds = ⟨l.kind, l.literal, l.span, []⟩ := by
  have hnone (p : Char → Bool) : Stops p [] := fun x hx => by cases hx
  cases h with
  | @word w rest hc hw =>
      have hall : ∀ x ∈ c :: w, isLetter x = true := List.forall_mem_cons.mpr ⟨hc, hw⟩
      have htake := takeWhile_run hall (hnone isLetter)
      have hdrop := dropWhile_run hall (hnone isLetter)
      rw [List.append_nil] at htake hdrop
      exact ⟨w, rfl, by rw [read_letter hc, Lexeme.word, htake, hdrop]⟩
  | @int whole rest hc hwhole =>
      have hall : ∀ x ∈ c :: whole, isDigit x = true := List.forall_mem_cons.mpr ⟨hc, hwhole⟩
      have hread := number_whole hall (hnone isDigit) fun d more h => by cases h
      rw [List.append_nil] at hread
      exact ⟨whole, rfl, by rw [read_digit hc, hread]⟩
  | @double whole fraction rest hc hwhole hsome hfraction =>
      have hall : ∀ x ∈ c :: whole, isDigit x = true := List.forall_mem_cons.mpr ⟨hc, hwhole⟩
      have hread := number_fraction hall hsome hfraction (hnone isDigit)
      rw [List.append_nil] at hread
      exact ⟨whole ++ '.' :: fraction, rfl, by rw [read_digit hc, ← List.cons_append, hread]⟩
  | string => exact absurd rfl hk
  | sign hc _ hsign => exact ⟨[], rfl, by rw [read_sign hc, hsign]⟩
  | @pair rest d k hc _ _ hsign => exact ⟨[d], rfl, by rw [read_sign hc, hsign]⟩

end Lexeme

section Stands

def Token.Stands (t : Token) : Prop :=
  ∃ x xs, t.spelling.toList = x :: xs ∧ isSpace x = false ∧ (x = '"' → Lexeme.closes xs = true) ∧
    Lexeme.read x xs = ⟨t.kind, t.literal.toList, x :: xs, []⟩

theorem Token.stands_of_string {t : Token} (h : t.kind = .string) : t.Stands := by
  refine ⟨'"', t.literal.toList.flatMap escaped ++ ['"'], ?_, rfl, fun _ => ?_, ?_⟩
  · rw [spelling, if_pos h, toList_inQuotes]
  · exact Lexeme.closes_escaped _ []
  · rw [Lexeme.read_quote, Lexeme.quotedRest_escaped, h]

theorem Token.Kind.eq_string {k : Token.Kind} (h : k.family? = some .string) : k = .string := by
  cases k <;> simp_all [Token.Kind.family?]

theorem Lexeme.Form.stands {c : Char} {cs : List Char} {l : Lexeme} (h : Form c cs l)
    (hc : isSpace c = false) (pos : Pos) : Token.Stands ⟨l.kind, String.ofList l.literal, pos⟩ := by
  by_cases hk : l.kind = .string
  · exact Token.stands_of_string hk
  · obtain ⟨ds, hspan, hread⟩ := h.alone hk
    have hliteral : (String.ofList l.literal).toList = c :: ds := by
      rw [String.toList_ofList, h.literal hk, hspan]
    refine ⟨c, ds, ?_, hc, ?_, ?_⟩
    · rw [Token.spelling, if_neg hk, hliteral]
    · rintro rfl
      exact absurd (Token.Kind.eq_string h.family) hk
    · rw [hread, hliteral, h.literal hk, hspan]

theorem Cursor.tokens_stand (c : Cursor) : ∀ t ∈ c.tokens, t.kind ≠ .eof → t.Stands := by
  fun_induction tokens c with
  | case1 c h =>
      intro t ht hk
      obtain rfl := List.mem_singleton.mp ht
      exact absurd (c.next_kind.mpr h) hk
  | case2 c h ih =>
      intro t ht hk
      rcases List.mem_cons.mp ht with rfl | ht
      · obtain ⟨x, xs, hx⟩ := List.exists_cons_of_ne_nil h
        rw [next_of_cons hx]
        exact (Lexeme.read_form x xs).stands (rest_of_cons hx).1 _
      · exact ih t ht hk

variable {t : Token}

theorem Token.Stands.closed (h : t.Stands) (p : Pos) : (⟨t.spelling.toList, p⟩ : Cursor).Closed ∧
    ∃ q, (⟨t.spelling.toList, p⟩ : Cursor).tokens = [⟨t.kind, t.literal, p⟩, ⟨.eof, "", q⟩] := by
  obtain ⟨x, xs, hspelling, hx, hcloses, hread⟩ := h
  have hskip : (⟨x :: xs, p⟩ : Cursor).skipSpaces = ⟨x :: xs, p⟩ := by
    simp [Cursor.skipSpaces, hx]
  have hnext := Cursor.next_of_cons (congrArg Cursor.rest hskip)
  rw [hread, hskip, String.ofList_toList] at hnext
  obtain ⟨hend, heof⟩ := Cursor.next_of_end (c := ⟨[], p.after (x :: xs)⟩) rfl
  rw [hspelling]
  constructor
  · refine .next (congrArg Cursor.rest hskip) hcloses ?_
    rw [hnext]
    exact .done hend
  · refine ⟨p.after (x :: xs), ?_⟩
    rw [Cursor.tokens.eq_def, if_neg (by simp [hskip]), hnext, Cursor.tokens.eq_def, if_pos hend, heof]

theorem Cursor.tokens_spelt {ts : List Token} (h : ∀ t ∈ ts, t.Stands) (p : Pos) :
    (⟨(" ".intercalate (ts.map Token.spelling)).toList, p⟩ : Cursor).tokens.map Token.content =
      ts.map Token.content ++ [(.eof, "")] := by
  induction ts generalizing p with
  | nil => simp [tokens.eq_def, (next_of_end (c := ⟨[], p⟩) rfl), Token.content]
  | cons t ts ih =>
      obtain ⟨ht, hts⟩ := List.forall_mem_cons.mp h
      obtain ⟨hclosed, q, htokens⟩ := ht.closed p
      cases ts with
      | nil =>
          rw [List.map_singleton, String.intercalate_singleton, htokens]
          rfl
      | cons u us =>
          have hsplit : (" ".intercalate ((t :: u :: us).map Token.spelling)).toList =
              t.spelling.toList ++ ' ' :: (" ".intercalate ((u :: us).map Token.spelling)).toList := by
            simp [String.intercalate_cons_cons]
          rw [hsplit, hclosed.tokens_append rfl, List.map_append, ih hts, htokens]
          rfl

theorem Token.Stands.alone (h : t.Stands) :
    (ofText t.spelling).map content = [t.content, (.eof, "")] := by
  obtain ⟨-, q, htokens⟩ := h.closed Pos.start
  rw [ofText, Cursor.start, htokens]
  rfl

end Stands

/-- Written down with single spaces between them, the tokens of a text are read again as they were,
up to their places. Each of them is read again on its own too, and every string, whatever is in it,
can be written as one token. -/
theorem Token.spelling_reads_back (text : String) :
    (ofText (" ".intercalate ((ofText text).dropLast.map spelling))).map content =
      (ofText text).map content ∧
    (∀ t ∈ (ofText text).dropLast, (ofText t.spelling).map content = [t.content, (.eof, "")]) ∧
    ∀ s : String, ∃ place, ofText (inQuotes s) = [⟨.string, s, Pos.start⟩, ⟨.eof, "", place⟩] := by
  obtain ⟨ps, hps, -, htokens⟩ := (Cursor.start text).tokens_tile Pos.behind_nil.symm
    fun _ x hx => by cases hx
  have hstand (t : Token) (ht : t ∈ ps.filterMap Tile.token?) : t.Stands := by
    refine (Cursor.start text).tokens_stand t ?_ (hps.kind_ne_eof t ht)
    rw [htokens]
    exact List.mem_append_left _ ht
  rw [ofText, ofText, htokens, List.dropLast_concat]
  refine ⟨?_, fun t ht => (hstand t ht).alone, fun s => ?_⟩
  · rw [Cursor.start, Cursor.tokens_spelt hstand, List.map_append]
    rfl
  · have hs : Token.Stands ⟨.string, s, Pos.start⟩ := stands_of_string rfl
    obtain ⟨-, q, hquoted⟩ := hs.closed Pos.start
    exact ⟨q, hquoted⟩

theorem Token.spelling_reads_back_illegal :
    let text := "&&& .\"\\q\"\"x\\"
    let contents : List (Kind × String) :=
      [(.and, "&&"), (.illegal, "&"), (.illegal, "."), (.string, "\\q"), (.string, "x\\"), (.eof, "")]
    (ofText text).map content = contents ∧
      (ofText "&& & . \"\\\\q\" \"x\\\\\"").map content = contents ∧
      (ofText "&").map content = [(.illegal, "&"), (.eof, "")] := by
  intro text contents
  have hread : ofText text = [⟨.and, "&&", ⟨1, 1⟩⟩, ⟨.illegal, "&", ⟨1, 3⟩⟩, ⟨.illegal, ".", ⟨1, 5⟩⟩,
    ⟨.string, "\\q", ⟨1, 6⟩⟩, ⟨.string, "x\\", ⟨1, 10⟩⟩, ⟨.eof, "", ⟨1, 13⟩⟩] := by cbv
  obtain ⟨hjoined, halone, -⟩ := spelling_reads_back text
  rw [hread] at hjoined halone
  refine ⟨by rw [hread]; rfl, hjoined, ?_⟩
  exact halone ⟨.illegal, "&", ⟨1, 3⟩⟩ (by decide)

end Marmoset
