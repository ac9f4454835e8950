import Marmoset.Proofs.Token.Order
import Marmoset.Proofs.Tree.Tracks

namespace Marmoset

section Walk

def Node.pos? : Node → Option Pos
  | .expr .missing => none
  | .expr e => some e.pos
  | .stmt s => some s.pos
  | .block b => some b.pos

def Node.names : Node → List Ident
  | .expr (.fn _ ps _) => ps
  | .stmt (.bind _ name _) => [name]
  | _ => []

def Node.places (x : Node) : List Pos :=
  x.pos?.toList ++ x.names.map Ident.pos ++ x.children.attach.flatMap fun y => Node.places y.1
termination_by sizeOf x
decreasing_by exact Node.sizeOf_child y.2

def Program.places (p : Program) : List Pos := p.stmts.flatMap fun s => (Node.stmt s).places

inductive Part where
  | name (i : Ident)
  | node (x : Node)

def Part.places : Part → List Pos
  | .name i => [i.pos]
  | .node x => x.places

def Node.parts (x : Node) : List Part := x.names.map .name ++ x.children.map .node

theorem Node.places_eq (x : Node) : x.places = x.pos?.toList ++ x.parts.flatMap Part.places := by
  rw [Node.places, Node.parts, List.flatMap_append, List.flatMap_map, List.flatMap_map, List.append_assoc]
  simp [List.flatMap_subtype, Part.places, List.map_eq_flatMap]

theorem Expr.pos?_eq {e : Expr} (h : e ≠ .missing) : (Node.expr e).pos? = some e.pos := by
  cases e <;> first | rfl | exact absurd rfl h

end Walk

section Placed

variable (T : List Token)

def Ident.Placed (i : Ident) : Prop := ∃ t ∈ T, t.pos = i.pos ∧ t.kind = .ident ∧ t.literal = i.name

def Expr.Opens : Expr → Token → Prop
  | .ident i, t => t.kind = .ident ∧ t.literal = i.name
  | .int _ n, t => t.kind = .int ∧ Number.integer? t.literal = some n
  | .double _ _ x, t => t.kind = .double ∧ Number.double t.literal = x
  | .string _ s, t => t.kind = .string ∧ t.literal = s
  | .bool _ b, t => t.kind = if b then .kwTrue else .kwFalse
  | .array _ _, t => t.kind = .lbracket
  | .hash _ _, t => t.kind = .lbrace
  | .unary _ op _, t => (t.kind = .bang ∨ t.kind = .minus) ∧ UnaryOp.ofSymbol t.literal = op
  | .cond _ _ _ _, t => t.kind = .kwIf
  | .loop _ _ _, t => t.kind = .kwWhile
  | .fn _ _ _, t => t.kind = .kwFn
  | _, _ => False

def Stmt.Opens : Stmt → Token → Prop
  | .bind _ _ _, t => t.kind = .kwLet
  | .ret _ _, t => t.kind = .kwReturn
  | .expr _ _, t => t.kind ≠ .kwLet ∧ t.kind ≠ .kwReturn
  | _, _ => False

def Begins {α : Type} (p : Inside → Read α) (a : α) (pos : Pos) (P : Token → Prop) : Prop :=
  ∃ depth t ts m o, t :: ts <:+ T ∧ t.pos = pos ∧ P t ∧
    p ⟨T.length, Expr.read T.length depth⟩ ⟨t :: ts, m⟩ = .ok a o

/-- A node stands at the token that it is read from, or where its first part does if it begins with an expression. The
names that it gives stand at tokens with these names. -/
def Node.Placed (x : Node) : Prop :=
  (match x with
    | .expr .missing => True
    | .expr (.range p e _) | .expr (.binary p _ e _) | .expr (.call p e _) | .expr (.index p e _) =>
        p = e.pos ∧ ∃ t ∈ T, t.pos = p
    | .expr e => Begins T Grammar.operand e e.pos e.Opens
    | .stmt s => Begins T Grammar.stmt s s.pos s.Opens
    | .block b => Begins T Grammar.block b b.pos fun t => t.kind = .lbrace) ∧
  ∀ i ∈ x.names, i.Placed T

def Part.Placed : Part → Prop
  | .name i => i.Placed T
  | .node x => Node.Every (Node.Placed T) x

end Placed

section Spans

variable {T i m o : List Token} {p : Pos} {ps qs : List Pos} {xs ys : List Part} {t : Token} {ts : List Token}

structure Lies (T i o : List Token) (ps : List Pos) : Prop where
  start : i <:+ T
  stop : o <:+ i
  ordered : ps.Pairwise (· ≤ ·)
  within : ∀ p ∈ ps, ∃ t ts, t :: ts <:+ i ∧ o <:+ t :: ts ∧ t.pos = p

theorem Lies.again (h : Lies T i o (p :: ps)) : Lies T i o (p :: p :: ps) where
  start := h.start
  stop := h.stop
  ordered := by
    refine List.pairwise_cons.mpr ⟨fun q hq => ?_, h.ordered⟩
    rcases List.mem_cons.mp hq with rfl | hq
    · exact le_refl q
    · exact (List.pairwise_cons.mp h.ordered).1 q hq
  within q hq := by
    rcases List.mem_cons.mp hq with rfl | hq
    · exact h.within q List.mem_cons_self
    · exact h.within q hq

structure Spans (T i o : List Token) (xs : List Part) : Prop where
  placed : ∀ x ∈ xs, x.Placed T
  lies : Lies T i o (xs.flatMap Part.places)

theorem Spans.silent (hi : i <:+ T) (ho : o <:+ i) : Spans T i o [] :=
  ⟨List.forall_mem_nil _, hi, ho, .nil, List.forall_mem_nil _⟩

theorem Spans.rest (h : Spans T i o xs) : o <:+ T := h.lies.stop.trans h.lies.start

theorem Spans.every {x : Node} (hx : x.Placed T) (h : Spans T i o x.parts) : Node.Every (Node.Placed T) x :=
  ⟨hx, fun _ hy => h.placed _ (List.mem_append_right _ (List.mem_map_of_mem hy))⟩

theorem Spans.joined {x : Node} {e : Expr} (he : e ≠ .missing) (hpos : x.pos? = some e.pos)
    (hparts : x.parts = .node (.expr e) :: xs) (hx : (∃ t ∈ T, t.pos = e.pos) → x.Placed T)
    (h : Spans T i o x.parts) : Spans T i o [.node x] := by
  have hplaces : x.parts.flatMap Part.places = e.pos :: ((Node.expr e).parts ++ xs).flatMap Part.places := by
    rw [hparts, List.flatMap_cons, Part.places, Node.places_eq, Expr.pos?_eq he, List.flatMap_append]
    rfl
  have hlies := h.lies
  rw [hplaces] at hlies
  obtain ⟨t, ts, hts, -, ht⟩ := hlies.within e.pos List.mem_cons_self
  have hmem : t ∈ T := (hts.trans hlies.start).subset List.mem_cons_self
  refine ⟨List.forall_mem_singleton.mpr (h.every (hx ⟨t, hmem, ht⟩)), ?_⟩
  rw [List.flatMap_singleton, Part.places, Node.places_eq, hpos, hplaces]
  exact hlies.again

theorem spans_missing (hi : i <:+ T) (ho : o <:+ i) : Spans T i o [.node (.expr .missing)] := by
  refine ⟨List.forall_mem_singleton.mpr ⟨⟨trivial, List.forall_mem_nil _⟩, List.forall_mem_nil _⟩, ?_⟩
  rw [List.flatMap_singleton, Part.places, Node.places_eq]
  exact (Spans.silent hi ho).lies

theorem spans_ok {α : Type} {p : Read α} [Read.Grows p] {r r' : Reading} {a : α} (hr : r.tokens <:+ T)
    (h : p r = .ok a r') : Spans T r.tokens r'.tokens [] :=
  .silent hr (Grammar.suffix_of_ok h)

variable (hT : T.Pairwise (·.pos < ·.pos))

include hT

theorem pos_le_of_suffix {u : Token} {us : List Token} (ht : t :: ts <:+ T) (hu : u :: us <:+ t :: ts) :
    t.pos ≤ u.pos := by
  rcases List.suffix_cons_iff.mp hu with heq | hu
  · cases heq
    exact le_refl _
  · exact ((List.pairwise_cons.mp (hT.sublist ht.sublist)).1 u (hu.subset List.mem_cons_self)).le

theorem Lies.append (h : Lies T i m ps) (h' : Lies T m o qs) : Lies T i o (ps ++ qs) where
  start := h.start
  stop := h'.stop.trans h.stop
  ordered := by
    refine List.pairwise_append.mpr ⟨h.ordered, h'.ordered, fun p hp q hq => ?_⟩
    obtain ⟨t, ts, hts, hm, rfl⟩ := h.within p hp
    obtain ⟨u, us, hus, -, rfl⟩ := h'.within q hq
    exact pos_le_of_suffix hT (hts.trans h.start) (hus.trans hm)
  within p hp := by
    rcases List.mem_append.mp hp with hp | hp
    · obtain ⟨t, ts, hts, hm, ht⟩ := h.within p hp
      exact ⟨t, ts, hts, h'.stop.trans hm, ht⟩
    · obtain ⟨t, ts, hts, ho, ht⟩ := h'.within p hp
      exact ⟨t, ts, hts.trans h.stop, ho, ht⟩

theorem Lies.head (h : Lies T (t :: ts) o ps) : Lies T (t :: ts) o (t.pos :: ps) where
  start := h.start
  stop := h.stop
  ordered := by
    refine List.pairwise_cons.mpr ⟨fun p hp => ?_, h.ordered⟩
    obtain ⟨u, us, hus, -, rfl⟩ := h.within p hp
    exact pos_le_of_suffix hT h.start hus
  within p hp := by
    rcases List.mem_cons.mp hp with rfl | hp
    · exact ⟨t, ts, List.suffix_refl _, h.stop, rfl⟩
    · exact h.within p hp

theorem Spans.append (h : Spans T i m xs) (h' : Spans T m o ys) : Spans T i o (xs ++ ys) where
  placed := List.forall_mem_append.mpr ⟨h.placed, h'.placed⟩
  lies := by
    rw [List.flatMap_append]
    exact h.lies.append hT h'.lies

theorem Spans.step {α : Type} {p : Read α} [Read.Grows p] {r r' : Reading} {a : α} (h : Spans T i r.tokens xs)
    (hp : p r = .ok a r') : Spans T i r'.tokens xs := by
  have hstep := h.append hT (spans_ok h.rest hp)
  rwa [List.append_nil] at hstep

theorem Spans.node {x : Node} (hx : x.Placed T) (hpos : x.pos? = some t.pos) (h : Spans T (t :: ts) o x.parts) :
    Spans T (t :: ts) o [.node x] := by
  refine ⟨List.forall_mem_singleton.mpr (h.every hx), ?_⟩
  rw [List.flatMap_singleton, Part.places, Node.places_eq, hpos]
  exact h.lies.head hT

theorem spans_name {name : Ident} (hname : name.Placed T) (hpos : name.pos = t.pos) (hi : t :: ts <:+ T) :
    Spans T (t :: ts) (t :: ts) [.name name] := by
  refine ⟨List.forall_mem_singleton.mpr hname, ?_⟩
  rw [List.flatMap_singleton, Part.places, hpos]
  exact (Spans.silent hi (List.suffix_refl _)).lies.head hT

end Spans

end Marmoset
