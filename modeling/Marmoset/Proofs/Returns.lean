import Marmoset.Proofs.Eval.Passing
import Marmoset.Proofs.Session

namespace Marmoset

def Node.kept : Node → List Expr
  | .expr (.array _ es) => es
  | .expr (.hash _ ps) => ps.map Prod.snd
  | .expr (.call _ _ args) => args
  | .stmt (.bind _ _ e) | .stmt (.ret _ (some e)) => [e]
  | _ => []

namespace Eval

variable {s : Setting} {p q : Point} {Q : Node → Prop}

section Upright

end Upright

section Leaks

end Leaks

end Eval

end Marmoset
