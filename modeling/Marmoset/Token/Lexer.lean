import Marmoset.Token

namespace Marmoset

/-!
Reading tokens off a text. The text is cut into spaces and spans; each span is one token, and
`Lexeme.read_split` says that nothing is lost between a span and the rest. Reading never fails: a
character that starts no token is an illegal token of its own.
-/

def isSpace (c : Char) : Bool :=
  c == ' ' || c == '\t' || c == '\r' || c == '\n'

def isLetter (c : Char) : Bool :=
  ('a' ≤ c && c ≤ 'z') || ('A' ≤ c && c ≤ 'Z') || c == '_'

def isDigit (c : Char) : Bool :=
  '0' ≤ c && c ≤ '9'

/-- What a token says (`literal`), the characters it takes up (`span`), and those after it. -/
structure Lexeme where
  kind : Token.Kind
  literal : List Char
  span : List Char
  rest : List Char
deriving Repr

namespace Lexeme

def keywords : List (List Char × Token.Kind) :=
  [("else".toList, .kwElse), ("false".toList, .kwFalse), ("fn".toList, .kwFn),
    ("if".toList, .kwIf), ("let".toList, .kwLet), ("return".toList, .kwReturn),
    ("true".toList, .kwTrue), ("while".toList, .kwWhile)]

def wordKind (word : List Char) : Token.Kind :=
  (keywords.lookup word).getD .ident

def word (cs : List Char) : Lexeme :=
  let w := cs.takeWhile isLetter
  ⟨wordKind w, w, w, cs.dropWhile isLetter⟩

/-- A point belongs to a number only if a digit follows it, so a range may start with a number. -/
def number (cs : List Char) : Lexeme :=
  let whole := cs.takeWhile isDigit
  match cs.dropWhile isDigit with
  | '.' :: d :: rest =>
      if isDigit d then
        let span := whole ++ '.' :: (d :: rest).takeWhile isDigit
        ⟨.double, span, span, (d :: rest).dropWhile isDigit⟩
      else ⟨.int, whole, whole, '.' :: d :: rest⟩
  | rest => ⟨.int, whole, whole, rest⟩

def unescape : Char → List Char
  | '\\' => ['\\']
  | '"' => ['"']
  | 't' => ['\t']
  | 'n' => ['\n']
  | 'r' => ['\r']
  | c => ['\\', c]

def quotedRest : List Char → Lexeme
  | [] => ⟨.string, [], [], []⟩
  | '"' :: cs => ⟨.string, [], ['"'], cs⟩
  | '\\' :: c :: cs =>
      let l := quotedRest cs
      ⟨.string, unescape c ++ l.literal, '\\' :: c :: l.span, l.rest⟩
  | c :: cs =>
      let l := quotedRest cs
      ⟨.string, c :: l.literal, c :: l.span, l.rest⟩

def signKind : Char → Option Token.Kind
  | '+' => some .plus
  | '-' => some .minus
  | '*' => some .star
  | '/' => some .slash
  | '%' => some .percent
  | ',' => some .comma
  | ':' => some .colon
  | ';' => some .semicolon
  | '(' => some .lparen
  | ')' => some .rparen
  | '\x7b' => some .lbrace
  | '\x7d' => some .rbrace
  | '[' => some .lbracket
  | ']' => some .rbracket
  | _ => none

/-- Characters that may start a token of two: the second one, the kind of both, the kind of the
first one alone. -/
def pairKind : Char → Option (Char × Token.Kind × Token.Kind)
  | '=' => some ('=', .eq, .assign)
  | '!' => some ('=', .ne, .bang)
  | '<' => some ('=', .le, .lt)
  | '>' => some ('=', .ge, .gt)
  | '&' => some ('&', .and, .illegal)
  | '|' => some ('|', .or, .illegal)
  | '.' => some ('.', .dots, .illegal)
  | _ => none

def sign (c : Char) (cs : List Char) : Lexeme :=
  match signKind c with
  | some kind => ⟨kind, [c], [c], cs⟩
  | none =>
      match pairKind c, cs with
      | some (second, both, alone), d :: rest =>
          if d = second then ⟨both, [c, d], [c, d], rest⟩ else ⟨alone, [c], [c], d :: rest⟩
      | some (_, _, alone), [] => ⟨alone, [c], [c], []⟩
      | none, _ => ⟨.illegal, [c], [c], cs⟩

def read (c : Char) (cs : List Char) : Lexeme :=
  if isLetter c then word (c :: cs)
  else if isDigit c then number (c :: cs)
  else if c = '"' then
    let l := quotedRest cs
    { l with span := '"' :: l.span }
  else sign c cs

theorem word_split (cs : List Char) : (word cs).span ++ (word cs).rest = cs :=
  List.takeWhile_append_dropWhile

theorem number_split (cs : List Char) : (number cs).span ++ (number cs).rest = cs := by
  have whole : cs.takeWhile isDigit ++ cs.dropWhile isDigit = cs :=
    List.takeWhile_append_dropWhile
  unfold number
  split
  · rename_i d rest h
    split
    · have frac : (d :: rest).takeWhile isDigit ++ (d :: rest).dropWhile isDigit = d :: rest :=
        List.takeWhile_append_dropWhile
      rw [h, ← frac] at whole
      simpa using whole
    · simpa [h] using whole
  · exact whole

theorem quotedRest_split (cs : List Char) :
    (quotedRest cs).span ++ (quotedRest cs).rest = cs := by
  fun_induction quotedRest cs with
  | case1 => rfl
  | case2 => rfl
  | case3 c cs l ih => simpa using ih
  | case4 c cs l _ _ ih => simpa using ih

theorem sign_split (c : Char) (cs : List Char) :
    (sign c cs).span ++ (sign c cs).rest = c :: cs := by
  unfold sign
  split
  · rfl
  · split
    · split <;> simp
    · rfl
    · rfl

theorem read_split (c : Char) (cs : List Char) :
    (read c cs).span ++ (read c cs).rest = c :: cs := by
  unfold read
  split
  · exact word_split _
  · split
    · exact number_split _
    · split
      · rename_i h
        simp [h, quotedRest_split]
      · exact sign_split c cs

theorem read_span_ne_nil (c : Char) (cs : List Char) : (read c cs).span ≠ [] := by
  unfold read
  split
  · rename_i h
    simp [word, h]
  · split
    · rename_i h
      unfold number
      split
      · split <;> simp [h]
      · simp [h]
    · split
      · simp
      · unfold sign
        split
        · simp
        · split
          · split <;> simp
          · simp
          · simp

theorem read_rest_length (c : Char) (cs : List Char) :
    (read c cs).rest.length < (c :: cs).length := by
  have split := congrArg List.length (read_split c cs)
  have some := List.length_pos_iff.mpr (read_span_ne_nil c cs)
  rw [List.length_append] at split
  omega

end Lexeme

structure Cursor where
  rest : List Char
  pos : Pos
deriving Repr

namespace Cursor

def start (text : String) : Cursor := ⟨text.toList, Pos.start⟩

def advance? (c : Cursor) : Option (Char × Cursor) :=
  match c.rest with
  | [] => none
  | x :: xs => some (x, ⟨xs, c.pos.step x⟩)

def skipSpaces (c : Cursor) : Cursor :=
  ⟨c.rest.dropWhile isSpace, c.pos.after (c.rest.takeWhile isSpace)⟩

/-- Reads a token. At the end of the text that is the end token, time and again. -/
def next (c : Cursor) : Token × Cursor :=
  let d := c.skipSpaces
  match d.rest with
  | [] => (⟨.eof, "", d.pos⟩, d)
  | x :: xs =>
      let l := Lexeme.read x xs
      (⟨l.kind, String.ofList l.literal, d.pos⟩, ⟨l.rest, d.pos.after l.span⟩)

theorem next_rest_length {c : Cursor} (h : c.skipSpaces.rest ≠ []) :
    c.next.2.rest.length < c.rest.length := by
  have skipped : c.skipSpaces.rest.length ≤ c.rest.length :=
    (List.dropWhile_suffix isSpace).length_le
  unfold next
  cases hr : c.skipSpaces.rest with
  | nil => exact absurd hr h
  | cons x xs =>
      rw [hr] at skipped
      simp only [hr]
      exact Nat.lt_of_lt_of_le (Lexeme.read_rest_length x xs) skipped

def tokens (c : Cursor) : List Token :=
  if c.skipSpaces.rest = [] then [c.next.1]
  else c.next.1 :: tokens c.next.2
termination_by c.rest.length
decreasing_by exact next_rest_length ‹_›

def finish (c : Cursor) : Cursor :=
  if c.skipSpaces.rest = [] then c.next.2
  else finish c.next.2
termination_by c.rest.length
decreasing_by exact next_rest_length ‹_›

end Cursor

def Token.ofText (text : String) : List Token :=
  (Cursor.start text).tokens

end Marmoset
