import Mathlib
import Marmoset.Proofs.Token.Joined

namespace Marmoset

section Place

def Pos.behind (cs : List Char) : Pos :=
  ⟨1 + cs.count '\n', 1 + (cs.reverse.takeWhile (· != '\n')).length⟩

theorem Pos.behind_nil : Pos.behind [] = Pos.start := rfl

theorem Pos.behind_snoc (cs : List Char) (c : Char) :
    Pos.behind (cs ++ [c]) = (Pos.behind cs).step c := by
  by_cases hc : c = '\n'
  · subst hc
    simp [Pos.behind, Pos.step, Nat.add_assoc]
  · simp [Pos.behind, Pos.step, hc, Nat.add_assoc]

theorem Pos.behind_append (cs ds : List Char) : Pos.behind (cs ++ ds) = (Pos.behind cs).after ds := by
  induction ds generalizing cs with
  | nil => simp
  | cons d ds ih =>
      have hstep := ih (cs ++ [d])
      rwa [Pos.behind_snoc, List.append_assoc] at hstep

end Place

section Families

inductive Token.Family where
  | word | number | string | sign
deriving DecidableEq, Repr

def Token.Family.ofChar (c : Char) : Token.Family :=
  if isLetter c then .word else if isDigit c then .number else if c = '"' then .string else .sign

theorem Token.Family.ofChar_spec (c : Char) :
    match Token.Family.ofChar c with
    | .word => isLetter c = true
    | .number => isDigit c = true
    | .string => c = '"'
    | .sign => isLetter c = false ∧ isDigit c = false ∧ c ≠ '"' := by
  unfold Token.Family.ofChar
  split_ifs <;> simp_all

def Token.Kind.family? : Token.Kind → Option Token.Family
  | .eof => none
  | .ident | .kwFn | .kwLet | .kwTrue | .kwFalse | .kwIf | .kwElse | .kwWhile | .kwReturn => some .word
  | .int | .double => some .number
  | .string => some .string
  | _ => some .sign

end Families

section Tiles

def Stops (p : Char → Bool) (cs : List Char) : Prop := ∀ c ∈ cs.head?, p c = false

structure IsRun (before cs rest : List Char) : Prop where
  nonempty : cs ≠ []
  spaces : ∀ c ∈ cs, isSpace c = true
  left : Stops isSpace before.reverse
  right : Stops isSpace rest

structure Token.IsAt (t : Token) (before span rest : List Char) : Prop where
  place : t.pos = Pos.behind before
  family : ∃ c cs, span = c :: cs ∧ isSpace c = false ∧ t.kind.family? = some (Token.Family.ofChar c)
  literal : t.kind ≠ .string → t.literal.toList = span
  word : t.kind.family? = some .word → (∀ c ∈ span, isLetter c = true) ∧ Stops isLetter rest
  int : t.kind = .int → (∀ c ∈ span, isDigit c = true) ∧ Stops isDigit rest
  double : t.kind = .double → ∃ whole fraction, span = whole ++ '.' :: fraction ∧ whole ≠ [] ∧
    fraction ≠ [] ∧ (∀ c ∈ whole ++ fraction, isDigit c = true) ∧ Stops isDigit rest
  point {whole more : List Char} {d : Char} : whole ≠ [] → (∀ c ∈ whole, isDigit c = true) →
    isDigit d = true → span ++ rest = whole ++ '.' :: d :: more → t.kind = .double

inductive Tile where
  | spaces (cs : List Char)
  | token (t : Token) (span : List Char)

def Tile.chars : Tile → List Char
  | .spaces cs => cs
  | .token _ span => span

def Tile.token? : Tile → Option Token
  | .spaces _ => none
  | .token t _ => some t

inductive Laid : List Char → List Tile → Prop where
  | nil {before} : Laid before []
  | spaces {before cs ps} : IsRun before cs (ps.flatMap Tile.chars) → Laid (before ++ cs) ps →
      Laid before (.spaces cs :: ps)
  | token {before t span ps} : t.IsAt before span (ps.flatMap Tile.chars) → Laid (before ++ span) ps →
      Laid before (.token t span :: ps)

end Tiles

section Runs

variable {p : Char → Bool} {cs : List Char}

theorem stops_dropWhile (p : Char → Bool) (cs : List Char) : Stops p (cs.dropWhile p) := by
  intro c hc
  have hhead := List.head?_dropWhile_not p cs
  rw [Option.mem_def.mp hc] at hhead
  exact hhead

theorem all_takeWhile (p : Char → Bool) (cs : List Char) : ∀ c ∈ cs.takeWhile p, p c = true :=
  fun _ hc => List.mem_takeWhile_imp hc

theorem takeWhile_run {run rest : List Char} (hrun : ∀ c ∈ run, p c = true) (hrest : Stops p rest) :
    (run ++ rest).takeWhile p = run := by
  rw [List.takeWhile_append_of_pos hrun]
  cases rest with
  | nil => simp
  | cons c rest => simp [hrest c rfl]

theorem dropWhile_run {run rest : List Char} (hrun : ∀ c ∈ run, p c = true) (hrest : Stops p rest) :
    (run ++ rest).dropWhile p = rest := by
  rw [List.dropWhile_append_of_pos hrun]
  cases rest with
  | nil => rfl
  | cons c rest => simp [hrest c rfl]

theorem stops_reverse {x : Char} (hlast : p x = false) (cs : List Char) :
    Stops p (cs ++ [x]).reverse := by
  simpa [Stops] using hlast

theorem stops_append (hsome : cs ≠ []) (h : Stops p cs) (ds : List Char) : Stops p (cs ++ ds) := by
  obtain ⟨c, cs, rfl⟩ := List.exists_cons_of_ne_nil hsome
  exact h

theorem stops_of_all (hall : ∀ c ∈ cs, p c = false) : Stops p cs :=
  fun _ hc => hall _ (List.mem_of_head? hc)

end Runs

namespace Lexeme

variable {c : Char} {cs : List Char}

section Words

theorem keywords_family : ∀ p ∈ keywords, p.2.family? = some .word := by
  decide

theorem wordKind_family (w : List Char) : (wordKind w).family? = some .word := by
  cases hw : keywords.lookup w with
  | none => simp [wordKind, hw, Token.Kind.family?]
  | some k =>
      obtain ⟨l, r, hl, -⟩ := List.lookup_eq_some_iff.mp hw
      simpa [wordKind, hw] using keywords_family (w, k) (by simp [hl])

end Words

section Numbers

variable {whole fraction rest : List Char}

theorem isDigit_point : isDigit '.' = false := rfl

theorem number_whole (hwhole : ∀ c ∈ whole, isDigit c = true) (hrest : Stops isDigit rest)
    (hpoint : ∀ d more, rest = '.' :: d :: more → isDigit d = false) :
    number (whole ++ rest) = ⟨.int, whole, whole, rest⟩ := by
  have htake := takeWhile_run hwhole hrest
  have hdrop := dropWhile_run hwhole hrest
  simp only [number, htake, hdrop]
  split
  · rename_i d more
    simp [hpoint d more rfl]
  · rfl

theorem number_fraction (hwhole : ∀ c ∈ whole, isDigit c = true) (hsome : fraction ≠ [])
    (hfraction : ∀ c ∈ fraction, isDigit c = true) (hrest : Stops isDigit rest) :
    number (whole ++ '.' :: fraction ++ rest) =
      ⟨.double, whole ++ '.' :: fraction, whole ++ '.' :: fraction, rest⟩ := by
  obtain ⟨d, more, rfl⟩ := List.exists_cons_of_ne_nil hsome
  have hpoint : Stops isDigit ('.' :: (d :: more ++ rest)) := by simp [Stops, isDigit_point]
  have htake := takeWhile_run hwhole hpoint
  have hdrop := dropWhile_run hwhole hpoint
  have htake' := takeWhile_run hfraction hrest
  have hdrop' := dropWhile_run hfraction hrest
  have hd : isDigit d = true := hfraction d List.mem_cons_self
  rw [List.append_assoc, List.cons_append]
  simp only [number, htake, hdrop]
  simp only [List.cons_append] at htake' hdrop' ⊢
  simp only [hd, if_true, htake', hdrop']

end Numbers

section Signs

theorem signKind_family {k : Token.Kind} (h : signKind c = some k) : k.family? = some .sign := by
  revert h
  fun_cases signKind c <;> intro h <;> cases h <;> rfl

theorem pairKind_family {second : Char} {both alone : Token.Kind}
    (h : pairKind c = some (second, both, alone)) :
    both.family? = some .sign ∧ alone.family? = some .sign := by
  revert h
  fun_cases pairKind c <;> intro h <;> cases h <;> exact ⟨rfl, rfl⟩

theorem sign_cases (c : Char) (cs : List Char) :
    (∃ k, k.family? = some .sign ∧ sign c cs = ⟨k, [c], [c], cs⟩ ∧ sign c [] = ⟨k, [c], [c], []⟩) ∨
    ∃ d rest k, k.family? = some .sign ∧ cs = d :: rest ∧ isSpace d = false ∧
      sign c cs = ⟨k, [c, d], [c, d], rest⟩ ∧ sign c [d] = ⟨k, [c, d], [c, d], []⟩ := by
  cases hsign : signKind c with
  | some k => exact .inl ⟨k, signKind_family hsign, by simp [sign, hsign], by simp [sign, hsign]⟩
  | none =>
      cases hpair : pairKind c with
      | none => exact .inl ⟨.illegal, rfl, by simp [sign, hsign, hpair], by simp [sign, hsign, hpair]⟩
      | some pair =>
          obtain ⟨second, both, alone⟩ := pair
          obtain ⟨hboth, halone⟩ := pairKind_family hpair
          have hend : sign c [] = ⟨alone, [c], [c], []⟩ := by simp [sign, hsign, hpair]
          cases cs with
          | nil => exact .inl ⟨alone, halone, hend, hend⟩
          | cons d rest =>
              by_cases hd : d = second
              · subst hd
                have hspace := pairKind_second hpair
                refine .inr ⟨d, rest, both, hboth, rfl, hspace, ?_, ?_⟩ <;> simp [sign, hsign, hpair]
              · exact .inl ⟨alone, halone, by simp [sign, hsign, hpair, hd], hend⟩

theorem sign_pair {d : Char} {k : Token.Kind} (h : sign c [d] = ⟨k, [c, d], [c, d], []⟩) :
    ∃ alone, pairKind c = some (d, k, alone) := by
  unfold sign at h
  cases hsign : signKind c with
  | some kind => simp [hsign] at h
  | none =>
      cases hpair : pairKind c with
      | none => simp [hsign, hpair] at h
      | some pair =>
          obtain ⟨second, both, alone⟩ := pair
          simp only [hsign, hpair] at h
          split at h
          · cases h
            exact ⟨alone, by rw [‹d = second›]⟩
          · cases h

end Signs

section Form

/-- What may be read where a text goes on with `c` and `cs`. -/
inductive Form (c : Char) : List Char → Lexeme → Prop where
  | word {w rest : List Char} : isLetter c = true → (∀ x ∈ w, isLetter x = true) → Stops isLetter rest →
      Form c (w ++ rest) ⟨wordKind (c :: w), c :: w, c :: w, rest⟩
  | int {whole rest : List Char} : isDigit c = true → (∀ x ∈ whole, isDigit x = true) →
      Stops isDigit rest → (∀ d more, rest = '.' :: d :: more → isDigit d = false) →
      Form c (whole ++ rest) ⟨.int, c :: whole, c :: whole, rest⟩
  | double {whole fraction rest : List Char} : isDigit c = true → (∀ x ∈ whole, isDigit x = true) →
      fraction ≠ [] → (∀ x ∈ fraction, isDigit x = true) → Stops isDigit rest →
      Form c (whole ++ '.' :: fraction ++ rest)
        ⟨.double, c :: whole ++ '.' :: fraction, c :: whole ++ '.' :: fraction, rest⟩
  | string {cs : List Char} : c = '"' →
      Form c cs ⟨.string, (quotedRest cs).literal, c :: (quotedRest cs).span, (quotedRest cs).rest⟩
  | sign {cs : List Char} {k : Token.Kind} : Token.Family.ofChar c = .sign → k.family? = some .sign →
      sign c [] = ⟨k, [c], [c], []⟩ → Form c cs ⟨k, [c], [c], cs⟩
  | pair {rest : List Char} {d : Char} {k : Token.Kind} : Token.Family.ofChar c = .sign →
      k.family? = some .sign → isSpace d = false → sign c [d] = ⟨k, [c, d], [c, d], []⟩ →
      Form c (d :: rest) ⟨k, [c, d], [c, d], rest⟩

theorem isLetter_of_isDigit (h : isDigit c = true) : isLetter c = false := by
  have hline : c ≠ '_' := by
    rintro rfl
    cases h
  simp only [isDigit, isLetter, Bool.and_eq_true, decide_eq_true_eq, Char.le_def] at h ⊢
  grind

theorem word_form (h : isLetter c = true) (cs : List Char) : Form c cs (word (c :: cs)) := by
  have hform := Form.word h (all_takeWhile isLetter cs) (stops_dropWhile isLetter cs)
  rw [List.takeWhile_append_dropWhile] at hform
  simpa only [word, List.takeWhile_cons, List.dropWhile_cons, h, if_true] using hform

theorem number_form (h : isDigit c = true) (cs : List Char) : Form c cs (number (c :: cs)) := by
  have hcs : cs.takeWhile isDigit ++ cs.dropWhile isDigit = cs := List.takeWhile_append_dropWhile
  have hwhole := all_takeWhile isDigit cs
  have hrest := stops_dropWhile isDigit cs
  generalize cs.takeWhile isDigit = whole at hcs hwhole
  generalize cs.dropWhile isDigit = rest at hcs hrest
  subst hcs
  have hwhole' : ∀ x ∈ c :: whole, isDigit x = true := List.forall_mem_cons.mpr ⟨h, hwhole⟩
  by_cases hpoint : ∃ d more, rest = '.' :: d :: more ∧ isDigit d = true
  · obtain ⟨d, more, rfl, hd⟩ := hpoint
    have hmore : (d :: more).takeWhile isDigit ++ (d :: more).dropWhile isDigit = d :: more :=
      List.takeWhile_append_dropWhile
    have hsome : (d :: more).takeWhile isDigit ≠ [] := by simp [hd]
    have hfraction := all_takeWhile isDigit (d :: more)
    have hrest' := stops_dropWhile isDigit (d :: more)
    rw [← hmore, ← List.cons_append, ← List.append_assoc, ← List.cons_append, ← List.cons_append,
      number_fraction hwhole' hsome hfraction hrest']
    exact .double h hwhole hsome hfraction hrest'
  · have hnone (d : Char) (more : List Char) (heq : rest = '.' :: d :: more) : isDigit d = false := by
      by_contra hd
      exact hpoint ⟨d, more, heq, by simpa using hd⟩
    rw [← List.cons_append, number_whole hwhole' hrest hnone]
    exact .int h hwhole hrest hnone

theorem read_letter (h : isLetter c = true) (cs : List Char) : read c cs = word (c :: cs) := by
  rw [read, if_pos h]

theorem read_digit (h : isDigit c = true) (cs : List Char) : read c cs = number (c :: cs) := by
  rw [read, if_neg (by simp [isLetter_of_isDigit h]), if_pos h]

theorem read_quote (cs : List Char) : read '"' cs =
    ⟨.string, (quotedRest cs).literal, '"' :: (quotedRest cs).span, (quotedRest cs).rest⟩ := by
  rw [← quotedRest_kind cs]
  rfl

theorem read_sign (h : Token.Family.ofChar c = .sign) (cs : List Char) : read c cs = sign c cs := by
  have hspec := Token.Family.ofChar_spec c
  rw [h] at hspec
  simp [read, hspec]

theorem read_form (c : Char) (cs : List Char) : Form c cs (read c cs) := by
  have hspec := Token.Family.ofChar_spec c
  cases hfamily : Token.Family.ofChar c with
  | word =>
      rw [hfamily] at hspec
      rw [read_letter hspec]
      exact word_form hspec cs
  | number =>
      rw [hfamily] at hspec
      rw [read_digit hspec]
      exact number_form hspec cs
  | string =>
      rw [hfamily] at hspec
      rw [hspec, read_quote]
      exact .string rfl
  | sign =>
      rw [read_sign hfamily]
      rcases sign_cases c cs with ⟨k, hk, hsign, hend⟩ | ⟨d, rest, k, hk, rfl, hspace, hsign, hend⟩
      · rw [hsign]
        exact .sign hfamily hk hend
      · rw [hsign]
        exact .pair hfamily hk hspace hend

variable {l : Lexeme}

theorem Form.family (h : Form c cs l) : l.kind.family? = some (Token.Family.ofChar c) := by
  cases h with
  | word hc => simpa [Token.Family.ofChar, hc] using wordKind_family _
  | int hc => simp [Token.Family.ofChar, hc, isLetter_of_isDigit hc, Token.Kind.family?]
  | double hc => simp [Token.Family.ofChar, hc, isLetter_of_isDigit hc, Token.Kind.family?]
  | string hc => rw [hc]; rfl
  | sign hc hk => rw [hc, hk]
  | pair hc hk => rw [hc, hk]

theorem Form.span (h : Form c cs l) : ∃ ds, l.span = c :: ds := by
  cases h <;> exact ⟨_, rfl⟩

theorem Form.literal (h : Form c cs l) (hk : l.kind ≠ .string) : l.literal = l.span := by
  cases h with
  | string => exact absurd rfl hk
  | _ => rfl

theorem Form.word_run (h : Form c cs l) (hk : l.kind.family? = some .word) :
    (∀ x ∈ l.span, isLetter x = true) ∧ Stops isLetter l.rest := by
  cases h with
  | word hc hw hrest => exact ⟨List.forall_mem_cons.mpr ⟨hc, hw⟩, hrest⟩
  | sign _ hsign => cases hsign.symm.trans hk
  | pair _ hsign => cases hsign.symm.trans hk
  | _ => cases hk

theorem Form.int_run (h : Form c cs l) (hk : l.kind = .int) :
    (∀ x ∈ l.span, isDigit x = true) ∧ Stops isDigit l.rest ∧
      ∀ d more, l.rest = '.' :: d :: more → isDigit d = false := by
  have hfamily : l.kind.family? = some .number := congrArg Token.Kind.family? hk
  cases h with
  | int hc hwhole hrest hpoint => exact ⟨List.forall_mem_cons.mpr ⟨hc, hwhole⟩, hrest, hpoint⟩
  | word => cases (wordKind_family _).symm.trans hfamily
  | sign _ hsign => cases hsign.symm.trans hfamily
  | pair _ hsign => cases hsign.symm.trans hfamily
  | _ => cases hk

theorem Form.double_run (h : Form c cs l) (hk : l.kind = .double) :
    ∃ whole fraction, l.span = whole ++ '.' :: fraction ∧ whole ≠ [] ∧ fraction ≠ [] ∧
      (∀ x ∈ whole ++ fraction, isDigit x = true) ∧ Stops isDigit l.rest := by
  have hfamily : l.kind.family? = some .number := congrArg Token.Kind.family? hk
  cases h with
  | @double whole fraction rest hc hwhole hsome hfraction hrest =>
      refine ⟨c :: whole, fraction, rfl, List.cons_ne_nil c whole, hsome, ?_, hrest⟩
      exact List.forall_mem_append.mpr ⟨List.forall_mem_cons.mpr ⟨hc, hwhole⟩, hfraction⟩
  | word => cases (wordKind_family _).symm.trans hfamily
  | sign _ hsign => cases hsign.symm.trans hfamily
  | pair _ hsign => cases hsign.symm.trans hfamily
  | _ => cases hk

theorem Form.point (h : Form c cs l) {whole more : List Char} {d : Char} (hsome : whole ≠ [])
    (hwhole : ∀ x ∈ whole, isDigit x = true) (hd : isDigit d = true)
    (heq : l.span ++ l.rest = whole ++ '.' :: d :: more) : l.kind = .double := by
  have hc : isDigit c = true := by
    obtain ⟨ds, hspan⟩ := h.span
    obtain ⟨x, xs, rfl⟩ := List.exists_cons_of_ne_nil hsome
    rw [hspan] at heq
    injection heq with hx
    exact hx ▸ hwhole x List.mem_cons_self
  have hfamily := h.family
  simp only [Token.Family.ofChar, isLetter_of_isDigit hc, hc, Bool.false_eq_true, if_false,
    if_true] at hfamily
  cases hk : l.kind with
  | double => rfl
  | int =>
      -- both are the whole run of digits, so that the point and the digit come next
      obtain ⟨hspan, hrest, hpoint⟩ := h.int_run hk
      have hstop : Stops isDigit ('.' :: d :: more) := by simp [Stops, isDigit_point]
      have hdrop := dropWhile_run hwhole hstop
      rw [← heq, dropWhile_run hspan hrest] at hdrop
      rw [hpoint d more hdrop] at hd
      cases hd
  | _ =>
      rw [hk] at hfamily
      cases hfamily

theorem Form.isAt (h : Form c cs l) (hc : isSpace c = false) (before : List Char) :
    Token.IsAt ⟨l.kind, String.ofList l.literal, Pos.behind before⟩ before l.span l.rest where
  place := rfl
  family := by
    obtain ⟨ds, hspan⟩ := h.span
    exact ⟨c, ds, hspan, hc, h.family⟩
  literal hk := String.toList_ofList.trans (h.literal hk)
  word := h.word_run
  int hk := ⟨(h.int_run hk).1, (h.int_run hk).2.1⟩
  double := h.double_run
  point := h.point

theorem clear_of_sort {p : Char → Bool}
    (hp : p ' ' = false ∧ p '\t' = false ∧ p '\r' = false ∧ p '\n' = false)
    (hcs : ∀ x ∈ cs, p x = true) : ∀ x ∈ cs, isSpace x = false := by
  intro x hx
  by_contra hspace
  have hsort := hcs x hx
  rcases isSpace_cases (Bool.not_eq_false _ ▸ hspace) with rfl | rfl | rfl | rfl <;> simp [hp] at hsort

theorem clear_of_letters (hcs : ∀ x ∈ cs, isLetter x = true) : ∀ x ∈ cs, isSpace x = false :=
  clear_of_sort ⟨rfl, rfl, rfl, rfl⟩ hcs

theorem clear_of_digits (hcs : ∀ x ∈ cs, isDigit x = true) : ∀ x ∈ cs, isSpace x = false :=
  clear_of_sort ⟨rfl, rfl, rfl, rfl⟩ hcs

theorem quotedRest_last (h : closes cs = true) : ∃ ds, (quotedRest cs).span = ds ++ ['"'] := by
  fun_induction closes cs with
  | case1 => cases h
  | case2 cs => exact ⟨[], rfl⟩
  | case3 c cs ih =>
      obtain ⟨ds, hds⟩ := ih h
      exact ⟨'\\' :: c :: ds, by simp [quotedRest, hds]⟩
  | case4 c cs hquote hslash ih =>
      obtain ⟨ds, hds⟩ := ih h
      exact ⟨c :: ds, by simp [quotedRest, hds]⟩

theorem Form.edge (h : Form c cs l) (hc : isSpace c = false) (hrest : l.rest ≠ []) :
    Stops isSpace l.span.reverse := by
  have hclear (hspan : ∀ x ∈ l.span, isSpace x = false) : Stops isSpace l.span.reverse :=
    stops_of_all fun x hx => hspan x (List.mem_reverse.mp hx)
  cases h with
  | word hletter hw => exact hclear (List.forall_mem_cons.mpr ⟨hc, clear_of_letters hw⟩)
  | int hdigit hwhole =>
      exact hclear (List.forall_mem_cons.mpr ⟨hc, clear_of_digits hwhole⟩)
  | double hdigit hwhole hsome hfraction =>
      refine hclear (List.forall_mem_cons.mpr ⟨hc, List.forall_mem_append.mpr ⟨?_, ?_⟩⟩)
      · exact clear_of_digits hwhole
      · exact List.forall_mem_cons.mpr ⟨rfl, clear_of_digits hfraction⟩
  | string hquote =>
      obtain ⟨ds, hds⟩ := quotedRest_last (closes_of_rest hrest)
      rw [hds, ← List.cons_append]
      exact stops_reverse rfl _
  | sign => exact hclear (List.forall_mem_singleton.mpr hc)
  | pair _ _ hd => exact hclear (List.forall_mem_cons.mpr ⟨hc, List.forall_mem_singleton.mpr hd⟩)

end Form

end Lexeme

namespace Cursor

variable {c : Cursor} {before : List Char}

section Tiling

theorem spaces_tile {cs : List Char} {ps : List Tile} (hleft : cs ≠ [] → Stops isSpace before.reverse)
    (hspaces : ∀ x ∈ cs, isSpace x = true) (hright : Stops isSpace (ps.flatMap Tile.chars))
    (hps : Laid (before ++ cs) ps) :
    ∃ qs, Laid before qs ∧ qs.flatMap Tile.chars = cs ++ ps.flatMap Tile.chars ∧
      qs.filterMap Tile.token? = ps.filterMap Tile.token? := by
  by_cases hcs : cs = []
  · subst hcs
    rw [List.append_nil] at hps
    exact ⟨ps, hps, rfl, rfl⟩
  · exact ⟨.spaces cs :: ps, .spaces ⟨hcs, hspaces, hleft hcs, hright⟩ hps, rfl, rfl⟩

theorem next_tile (hpos : c.pos = Pos.behind before) (h : c.skipSpaces.rest ≠ []) :
    ∃ gap span, c.rest = gap ++ (span ++ c.next.2.rest) ∧ (∀ x ∈ gap, isSpace x = true) ∧
      c.next.1.IsAt (before ++ gap) span c.next.2.rest ∧
      c.next.2.pos = Pos.behind (before ++ gap ++ span) ∧
      (c.next.2.rest ≠ [] → Stops isSpace (before ++ gap ++ span).reverse) := by
  obtain ⟨x, xs, hx⟩ := List.exists_cons_of_ne_nil h
  obtain ⟨hspace, hrest⟩ := rest_of_cons hx
  have hform := Lexeme.read_form x xs
  have hskip : c.skipSpaces.pos = Pos.behind (before ++ c.rest.takeWhile isSpace) := by
    rw [Pos.behind_append, ← hpos, skipSpaces]
  refine ⟨c.rest.takeWhile isSpace, (Lexeme.read x xs).span, ?_, all_takeWhile isSpace c.rest, ?_⟩
  · rw [next_of_cons hx, Lexeme.read_split]
    exact hrest
  · rw [next_of_cons hx, hskip]
    refine ⟨hform.isAt hspace _, (Pos.behind_append _ _).symm, fun hmore => ?_⟩
    rw [List.reverse_append]
    have hsome : (Lexeme.read x xs).span.reverse ≠ [] := by
      simpa using Lexeme.read_span_ne_nil x xs
    exact stops_append hsome (hform.edge hspace hmore) _

theorem tokens_tile (hpos : c.pos = Pos.behind before)
    (hleft : c.rest ≠ [] → Stops isSpace before.reverse) :
    ∃ ps, Laid before ps ∧ ps.flatMap Tile.chars = c.rest ∧
      c.tokens = ps.filterMap Tile.token? ++ [⟨.eof, "", Pos.behind (before ++ c.rest)⟩] := by
  fun_induction tokens c generalizing before with
  | case1 c h =>
      have hspaces : ∀ x ∈ c.rest, isSpace x = true := List.dropWhile_eq_nil_iff.mp h
      have hnone : Stops isSpace ([].flatMap Tile.chars) := fun x hx => by cases hx
      obtain ⟨ps, hps, htext, htokens⟩ := spaces_tile hleft hspaces hnone .nil
      have hplace : c.skipSpaces.pos = Pos.behind (before ++ c.rest) := by
        rw [Pos.behind_append, ← hpos, skipSpaces, List.takeWhile_eq_self_iff.mpr hspaces]
      refine ⟨ps, hps, by simpa using htext, ?_⟩
      rw [htokens, next_of_nil h, hplace]
      rfl
  | case2 c h ih =>
      obtain ⟨gap, span, hrest, hspaces, hat, hpos', hleft'⟩ := next_tile hpos h
      obtain ⟨ps, hps, htext, htokens⟩ := ih hpos' hleft'
      obtain ⟨x, xs, rfl, hx, -⟩ := hat.family
      have hleft (hgap : gap ≠ []) : Stops isSpace before.reverse :=
        hleft (by simp [hrest])
      have hright : Stops isSpace ((Tile.token c.next.1 (x :: xs) :: ps).flatMap Tile.chars) := by
        simpa [Stops, Tile.chars] using hx
      obtain ⟨qs, hqs, htext', htokens'⟩ := spaces_tile hleft hspaces hright (.token (htext ▸ hat) hps)
      have hend : before ++ c.rest = before ++ gap ++ x :: xs ++ c.next.2.rest := by
        simp [hrest]
      refine ⟨qs, hqs, ?_, ?_⟩
      · rw [htext', hrest, List.flatMap_cons, htext]
        rfl
      · rw [htokens', htokens, hend]
        rfl

end Tiling

section Moves

inductive Move where
  | token
  | tokens
  | char
deriving DecidableEq, Repr

def move (c : Cursor) : Move → Cursor
  | .token => c.next.2
  | .tokens => c.finish
  | .char => match c.advance? with
      | some (_, d) => d
      | none => c

structure Follows (c : Cursor) (text before : List Char) : Prop where
  text : text = before ++ c.rest
  place : c.pos = Pos.behind before

variable {text : List Char}

theorem Follows.next (h : c.Follows text before) : ∃ before', c.next.2.Follows text before' := by
  by_cases hrest : c.skipSpaces.rest = []
  · have hspaces : ∀ x ∈ c.rest, isSpace x = true := List.dropWhile_eq_nil_iff.mp hrest
    refine ⟨text, ?_, ?_⟩
    · simp [next_of_nil hrest, hrest]
    · rw [next_of_nil hrest, h.text, Pos.behind_append, ← h.place, skipSpaces,
        List.takeWhile_eq_self_iff.mpr hspaces]
  · obtain ⟨gap, span, hsplit, -, -, hpos, -⟩ := next_tile h.place hrest
    refine ⟨before ++ gap ++ span, ?_, hpos⟩
    rw [h.text, hsplit]
    simp

theorem Follows.finish (h : c.Follows text before) : ∃ before', c.finish.Follows text before' := by
  fun_induction Cursor.finish c generalizing before with
  | case1 c hrest => exact h.next
  | case2 c hrest ih =>
      obtain ⟨before', h'⟩ := h.next
      exact ih h'

theorem Follows.move (h : c.Follows text before) (m : Move) :
    ∃ before', (c.move m).Follows text before' := by
  cases m with
  | token => exact h.next
  | tokens => exact h.finish
  | char =>
      obtain ⟨rest, pos⟩ := c
      cases rest with
      | nil => exact ⟨before, h⟩
      | cons x xs =>
          refine ⟨before ++ [x], ?_, ?_⟩
          · rw [List.append_assoc]
            exact h.text
          · rw [Pos.behind_snoc, ← h.place]
            rfl

theorem Follows.moves (h : c.Follows text before) (ms : List Move) :
    ∃ before', (ms.foldl Cursor.move c).Follows text before' := by
  induction ms generalizing c before with
  | nil => exact ⟨before, h⟩
  | cons m ms ih =>
      obtain ⟨before', h'⟩ := h.move m
      exact ih h'

theorem next_of_end (h : c.rest = []) : c.skipSpaces.rest = [] ∧ c.next = (⟨.eof, "", c.pos⟩, c) := by
  obtain ⟨rest, pos⟩ := c
  obtain rfl : rest = [] := h
  exact ⟨rfl, rfl⟩

theorem move_of_end (h : c.rest = []) (m : Move) : c.move m = c := by
  obtain ⟨hskip, hnext⟩ := next_of_end h
  cases m with
  | token => rw [move, hnext]
  | tokens => rw [move, Cursor.finish, if_pos hskip, hnext]
  | char => simp [move, advance?, h]

theorem moves_of_end (h : c.rest = []) (ms : List Move) : ms.foldl Cursor.move c = c := by
  induction ms with
  | nil => rfl
  | cons m ms ih => rw [List.foldl_cons, move_of_end h, ih]

theorem next_again (h : c.next.1.kind = .eof) (ms : List Move) :
    (ms.foldl Cursor.move c.next.2).next = c.next ∧
      (ms.foldl Cursor.move c.next.2).tokens = [c.next.1] := by
  have hrest := c.next_kind.mp h
  obtain ⟨hskip, hend⟩ := next_of_end hrest
  rw [next_of_nil hrest, moves_of_end hrest, tokens.eq_def, if_pos hskip, hend]
  exact ⟨rfl, rfl⟩

theorem Follows.advance (h : c.Follows text before) : c.advance? = none ↔ before = text := by
  rw [h.text, List.self_eq_append_right]
  cases hrest : c.rest with
  | nil => simp [advance?, hrest]
  | cons x xs => simp [advance?, hrest]

theorem Follows.token (h : c.Follows text before) :
    c.next.1.pos = Pos.behind (before ++ c.rest.takeWhile isSpace) := by
  have hskip : c.skipSpaces.pos = Pos.behind (before ++ c.rest.takeWhile isSpace) := by
    rw [Pos.behind_append, ← h.place, skipSpaces]
  rw [← hskip]
  cases hrest : c.skipSpaces.rest with
  | nil => rw [next_of_nil hrest]
  | cons x xs => rw [next_of_cons hrest]

end Moves

end Cursor

theorem Laid.kind_ne_eof {before : List Char} {ps : List Tile} (h : Laid before ps) :
    ∀ t ∈ ps.filterMap Tile.token?, t.kind ≠ .eof := by
  induction h with
  | nil => exact List.forall_mem_nil _
  | spaces _ _ ih => exact ih
  | @token before t span ps hat _ ih =>
      refine List.forall_mem_cons.mpr ⟨fun hk => ?_, ih⟩
      obtain ⟨c, cs, -, -, hfamily⟩ := hat.family
      rw [hk] at hfamily
      cases hfamily

/-- A text is cut, without a gap, into runs of spaces and the spans of tokens, each as long as can be
and each token with its place, and behind them is the end token and no other one. Whatever has been
asked of a cursor before, its place is the one behind all that it has read, a character is refused only
where the text has been read to its end, and the end token is given again and again. -/
theorem Token.tokens_tile_text (text : String) :
    (∃ ps, Laid [] ps ∧ ps.flatMap Tile.chars = text.toList ∧
      Token.ofText text = ps.filterMap Tile.token? ++ [⟨.eof, "", Pos.behind text.toList⟩] ∧
      ∀ t ∈ ps.filterMap Tile.token?, t.kind ≠ .eof) ∧
    ∀ moves : List Cursor.Move, ∃ before,
      let c := moves.foldl Cursor.move (Cursor.start text)
      text.toList = before ++ c.rest ∧ c.pos = Pos.behind before ∧
      c.next.1.pos = Pos.behind (before ++ c.rest.takeWhile isSpace) ∧
      (c.advance? = none ↔ before = text.toList) ∧
      (c.next.1.kind = .eof → ∀ more : List Cursor.Move,
        (more.foldl Cursor.move c.next.2).next = c.next ∧
        (more.foldl Cursor.move c.next.2).tokens = [c.next.1]) := by
  constructor
  · have hleft : (Cursor.start text).rest ≠ [] → Stops isSpace [].reverse := fun _ x hx => by cases hx
    obtain ⟨ps, hps, htext, htokens⟩ := (Cursor.start text).tokens_tile Pos.behind_nil.symm hleft
    exact ⟨ps, hps, htext, htokens, hps.kind_ne_eof⟩
  · intro moves
    have hstart : (Cursor.start text).Follows text.toList [] := ⟨rfl, Pos.behind_nil.symm⟩
    obtain ⟨before, h⟩ := hstart.moves moves
    exact ⟨before, h.text, h.place, h.token, h.advance, fun heof more => Cursor.next_again heof more⟩

theorem Token.tokens_tile_text_lines :
    let text := "\"\\\n\" 1.5."
    let c := [Cursor.Move.char, .tokens].foldl Cursor.move (Cursor.start text)
    (∃ ps, Laid [] ps ∧ ps.flatMap Tile.chars = text.toList ∧ ps.filterMap Tile.token? =
      [⟨.string, "\\\n", ⟨1, 1⟩⟩, ⟨.double, "1.5", ⟨2, 3⟩⟩, ⟨.illegal, ".", ⟨2, 6⟩⟩]) ∧
    c.pos = ⟨2, 7⟩ ∧
    ∀ more : List Cursor.Move, (more.foldl Cursor.move c).next = (⟨.eof, "", ⟨2, 7⟩⟩, c) := by
  intro text c
  obtain ⟨⟨ps, hps, htext, htokens, -⟩, hmoves⟩ := tokens_tile_text text
  obtain ⟨before, -, -, -, -, hagain⟩ := hmoves [.char, .tokens]
  have hread : ofText text =
      [⟨.string, "\\\n", ⟨1, 1⟩⟩, ⟨.double, "1.5", ⟨2, 3⟩⟩, ⟨.illegal, ".", ⟨2, 6⟩⟩] ++
        [⟨.eof, "", Pos.behind text.toList⟩] := by cbv
  have hc : [Cursor.Move.char, .tokens].foldl Cursor.move (Cursor.start text) = ⟨[], ⟨2, 7⟩⟩ := by cbv
  rw [hc] at hagain
  refine ⟨⟨ps, hps, htext, ?_⟩, congrArg Cursor.pos hc, fun more => ?_⟩
  · exact List.append_cancel_right (htokens.symm.trans hread)
  · rw [show c = ⟨[], ⟨2, 7⟩⟩ from hc]
    exact (hagain rfl more).1

end Marmoset
