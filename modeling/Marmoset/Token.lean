import Marmoset.Position
import Marmoset.Text.Quoted

namespace Marmoset

inductive Token.Kind where
  | illegal | eof | ident | int | double | string
  | assign | plus | minus | bang | star | slash | percent
  | lt | gt | le | ge | eq | ne | and | or | dots
  | comma | colon | semicolon | lparen | rparen | lbrace | rbrace | lbracket | rbracket
  | kwFn | kwLet | kwTrue | kwFalse | kwIf | kwElse | kwWhile | kwReturn
deriving DecidableEq, Repr, Inhabited

structure Token where
  kind : Token.Kind
  literal : String
  pos : Pos
deriving DecidableEq, Repr, Inhabited

namespace Token

def Kind.name : Kind → String
  | .illegal => "ILLEGAL"
  | .eof => "EOF"
  | .ident => "IDENT"
  | .int => "INT"
  | .double => "DOUBLE"
  | .string => "STRING"
  | .assign => "="
  | .plus => "+"
  | .minus => "-"
  | .bang => "!"
  | .star => "*"
  | .slash => "/"
  | .percent => "%"
  | .lt => "<"
  | .gt => ">"
  | .le => "<="
  | .ge => ">="
  | .eq => "=="
  | .ne => "!="
  | .and => "&&"
  | .or => "||"
  | .dots => ".."
  | .comma => ","
  | .colon => ":"
  | .semicolon => ";"
  | .lparen => "("
  | .rparen => ")"
  | .lbrace => "\x7b"
  | .rbrace => "\x7d"
  | .lbracket => "["
  | .rbracket => "]"
  | .kwFn => "FUNCTION"
  | .kwLet => "LET"
  | .kwTrue => "TRUE"
  | .kwFalse => "FALSE"
  | .kwIf => "IF"
  | .kwElse => "ELSE"
  | .kwWhile => "WHILE"
  | .kwReturn => "RETURN"

def same (s t : Token) : Bool :=
  s.kind == t.kind && s.literal == t.literal

def sameList : List Token → List Token → Bool
  | [], [] => true
  | s :: ss, t :: ts => s.same t && sameList ss ts
  | _, _ => false

def text (t : Token) : String :=
  "<" ++ t.kind.name ++ ": " ++ Text.quoted t.literal ++ " at " ++
    toString t.pos.line ++ ":" ++ toString t.pos.col ++ ">"

end Token

end Marmoset
