import Marmoset.Proofs.Tree.Shape
import Marmoset.Proofs.Tree.Soundness

namespace Marmoset

def Node.Written : Node → Prop
  | .expr .missing | .expr (.foreign _ _) | .stmt (.block _) | .stmt (.foreign _ _) => False
  | .expr (.int _ n) => 0 ≤ n ∧ n ≤ Number.maxWord
  | .expr (.double _ stamp _) => stamp = Stamp.shared
  | _ => True

/-- A node that stands for something: a gap has no meaning, and neither has a node of another kind. -/
def Node.Whole : Node → Prop
  | .expr .missing | .expr (.foreign _ _) | .stmt (.foreign _ _) => False
  | _ => True

theorem Node.Written.whole {x : Node} (h : x.Written) : x.Whole := by
  unfold Node.Whole
  split
  · exact h
  · exact h
  · exact h
  · trivial

theorem Node.Every.mono {P Q : Node → Prop} (hPQ : ∀ x, P x → Q x) {x : Node}
    (h : Node.Every P x) : Node.Every Q x := by
  induction h with
  | mk hx _ ih => exact ⟨hPQ _ hx, ih⟩

theorem Number.integer?_bounds {literal : String} {n : Int} (h : Number.integer? literal = some n) :
    0 ≤ n ∧ n ≤ Number.maxWord := by
  simp only [Number.integer?, Option.ite_none_right_eq_some] at h
  obtain ⟨-, hn, h⟩ := h
  obtain rfl := Option.some.inj h
  exact ⟨Int.natCast_nonneg _, hn⟩

namespace Grammar

def Phrase.nodes : Phrase → List Node
  | .expr _ e => [.expr e]
  | .exprs es => es.map .expr
  | .params _ => []
  | .pairs ps => ps.flatMap fun p => [.expr p.1, .expr p.2]
  | .block b => [.block b]
  | .stmt s => [.stmt s]
  | .stmts ss => ss.map .stmt

theorem written_node {x : Node} (hx : x.Written) (h : ∀ y ∈ x.children, Node.Every Node.Written y) :
    ∀ y ∈ [x], Node.Every Node.Written y := by
  intro y hy
  obtain rfl := List.mem_singleton.mp hy
  exact ⟨hx, h⟩

theorem Derives.written {ends : Ending} {φ : Phrase} {inp out : List Token}
    (h : Derives ends φ inp out) : ∀ x ∈ φ.nodes, Node.Every Node.Written x := by
  induction h with
  | above _ ih => exact ih
  | binary _ _ _ _ ihl ihr => exact written_node trivial (List.forall_mem_append.mpr ⟨ihl, ihr⟩)
  | range _ _ _ ihl ihr => exact written_node trivial (List.forall_mem_append.mpr ⟨ihl, ihr⟩)
  | unary _ _ ih => exact written_node trivial ih
  | call _ _ _ _ ihf ihargs => exact written_node trivial (List.forall_mem_append.mpr ⟨ihf, ihargs⟩)
  | index _ _ _ _ ihc ihi => exact written_node trivial (List.forall_mem_append.mpr ⟨ihc, ihi⟩)
  | int _ hn => exact written_node (Number.integer?_bounds hn) (List.forall_mem_nil _)
  | double => exact written_node rfl (List.forall_mem_nil _)
  | ident | string | yes | no => exact written_node trivial (List.forall_mem_nil _)
  | group _ _ _ ih => exact ih
  | cond _ _ _ _ _ ihe ihy => exact written_node trivial (List.forall_mem_append.mpr ⟨ihe, ihy⟩)
  | condElse _ _ _ _ _ _ _ ihe ihy ihn =>
      exact written_node trivial
        (List.forall_mem_append.mpr ⟨ihe, List.forall_mem_append.mpr ⟨ihy, ihn⟩⟩)
  | loop _ _ _ _ _ ihe ihb => exact written_node trivial (List.forall_mem_append.mpr ⟨ihe, ihb⟩)
  | fn _ _ _ _ _ _ ihb => exact written_node trivial ihb
  | array _ _ _ ih => exact written_node trivial ih
  | hash _ _ _ ih => exact written_node trivial ih
  | hashComma _ _ _ _ ih => exact written_node trivial ih
  | exprsNil | paramsNil | paramsOne | paramsMore | pairsNil | stmtsNil =>
      exact List.forall_mem_nil _
  | exprsOne _ ih => exact ih
  | exprsMore _ _ _ ihe ihs => exact List.forall_mem_append.mpr ⟨ihe, ihs⟩
  | pairsOne _ _ _ ihk ihv =>
      have hpair := List.forall_mem_append.mpr ⟨ihk, ihv⟩
      exact hpair
  | pairsMore _ _ _ _ _ ihk ihv ihs =>
      have hpair := List.forall_mem_append.mpr ⟨ihk, ihv⟩
      exact List.forall_mem_append.mpr ⟨hpair, ihs⟩
  | block _ _ _ ih => exact written_node trivial ih
  | blockOpen _ _ ih => exact written_node trivial ih
  | bind _ _ _ _ _ ih => exact written_node trivial ih
  | ret => exact written_node trivial (List.forall_mem_nil _)
  | retValue _ _ _ ih => exact written_node trivial ih
  | expr _ _ ih => exact written_node trivial ih
  | stmtsCons _ _ ihs ihss => exact List.forall_mem_append.mpr ⟨ihs, ihss⟩

end Grammar

theorem Program.has_stmts (p : Program) : ∀ x ∈ (Grammar.Phrase.stmts p.stmts).nodes, Node.Every p.Has x := by
  intro x hx
  obtain ⟨s, hs, rfl⟩ := List.mem_map.mp hx
  exact Node.Below.self.every.mono fun y hy => ⟨s, hs, hy⟩

theorem Program.written_of_text {depth : Nat} {text : String} {d : Program.Draft}
    (h : Program.ofText? depth text = some d) (hm : d.mistakes = []) :
    d.program.Every Node.Written := by
  intro s hs
  exact (Grammar.derives_of_text h hm).written _ (List.mem_map_of_mem hs)

end Marmoset
