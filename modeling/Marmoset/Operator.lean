namespace Marmoset

/-- Operators before an operand. A tree may hold one that has no meaning. -/
inductive UnaryOp where
  | not
  | neg
  | unknown (symbol : String)
deriving DecidableEq, Repr, Inhabited

inductive BinaryOp where
  | add | sub | mul | div | mod
  | lt | gt | le | ge | eq | ne
  | and | or
  | unknown (symbol : String)
deriving DecidableEq, Repr, Inhabited

def UnaryOp.symbol : UnaryOp → String
  | .not => "!"
  | .neg => "-"
  | .unknown s => s

def UnaryOp.ofSymbol : String → UnaryOp
  | "!" => .not
  | "-" => .neg
  | s => .unknown s

def BinaryOp.symbol : BinaryOp → String
  | .add => "+"
  | .sub => "-"
  | .mul => "*"
  | .div => "/"
  | .mod => "%"
  | .lt => "<"
  | .gt => ">"
  | .le => "<="
  | .ge => ">="
  | .eq => "=="
  | .ne => "!="
  | .and => "&&"
  | .or => "||"
  | .unknown s => s

def BinaryOp.ofSymbol : String → BinaryOp
  | "+" => .add
  | "-" => .sub
  | "*" => .mul
  | "/" => .div
  | "%" => .mod
  | "<" => .lt
  | ">" => .gt
  | "<=" => .le
  | ">=" => .ge
  | "==" => .eq
  | "!=" => .ne
  | "&&" => .and
  | "||" => .or
  | s => .unknown s

theorem UnaryOp.ofSymbol_symbol {op : UnaryOp} (h : ∀ s, op ≠ .unknown s) :
    UnaryOp.ofSymbol op.symbol = op := by
  cases op with
  | unknown s => exact absurd rfl (h s)
  | _ => rfl

theorem BinaryOp.ofSymbol_symbol {op : BinaryOp} (h : ∀ s, op ≠ .unknown s) :
    BinaryOp.ofSymbol op.symbol = op := by
  cases op with
  | unknown s => exact absurd rfl (h s)
  | _ => rfl

end Marmoset
