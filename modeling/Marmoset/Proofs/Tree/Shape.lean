import Mathlib.Logic.Basic
import Marmoset.Tree

namespace Marmoset

section Every

inductive Node.Every (P : Node → Prop) : Node → Prop where
  | mk {x : Node} : P x → (∀ y ∈ x.children, Node.Every P y) → Node.Every P x

variable {P : Node → Prop}

theorem Node.every_iff {x : Node} :
    Node.Every P x ↔ P x ∧ ∀ y ∈ x.children, Node.Every P y :=
  ⟨fun ⟨h, hs⟩ => ⟨h, hs⟩, fun ⟨h, hs⟩ => ⟨h, hs⟩⟩

theorem Node.Every.self {x : Node} (h : Node.Every P x) : P x :=
  (Node.every_iff.mp h).1

theorem Node.Every.child {x y : Node} (h : Node.Every P x) (hy : y ∈ x.children) :
    Node.Every P y :=
  (Node.every_iff.mp h).2 y hy

theorem Node.sizeOf_child {x y : Node} (h : y ∈ x.children) : sizeOf y < sizeOf x := by
  have listed {α : Type} [SizeOf α] {f : α → Node} (hf : ∀ a, sizeOf (f a) = 1 + sizeOf a)
      {xs : List α} (hy : y ∈ xs.map f) : sizeOf y < 1 + sizeOf xs := by
    obtain ⟨a, ha, rfl⟩ := List.mem_map.mp hy
    have hlt := List.sizeOf_lt_of_mem ha
    rw [hf]
    omega
  cases x with
  | expr e =>
      cases e with
      | array pos es =>
          have hlt := listed (fun _ => rfl) h
          simp
          omega
      | hash pos ps =>
          obtain ⟨⟨k, v⟩, hp, hy⟩ := List.mem_flatMap.mp h
          have hlt := List.sizeOf_lt_of_mem hp
          simp only [List.mem_cons, List.not_mem_nil, or_false] at hy
          rcases hy with rfl | rfl <;> simp at hlt ⊢ <;> omega
      | call pos f args =>
          rcases List.mem_cons.mp h with rfl | h
          · simp
            omega
          · have hlt := listed (fun _ => rfl) h
            simp
            omega
      | cond pos t yes no =>
          cases no <;> simp [children] at h <;> rcases h with rfl | rfl | rfl <;> simp <;> omega
      | _ =>
          simp only [children] at h
          grind
  | stmt s =>
      cases s with
      | ret pos e =>
          cases e with
          | none => cases h
          | some e =>
              obtain rfl := List.mem_singleton.mp h
              simp
              omega
      | _ =>
          simp only [children] at h
          grind
  | block b =>
      obtain ⟨pos, ss⟩ := b
      have hlt := listed (fun _ => rfl) h
      simp [Block.stmts] at hlt ⊢
      omega

theorem Node.every_of_forall (h : ∀ x, P x) (x : Node) : Node.Every P x :=
  ⟨h x, fun y _ => Node.every_of_forall h y⟩
termination_by sizeOf x
decreasing_by exact Node.sizeOf_child ‹_›

theorem Node.mem_children_key {pos : Pos} {ps : List (Expr × Expr)} {p : Expr × Expr} (hp : p ∈ ps) :
    .expr p.1 ∈ (Node.expr (.hash pos ps)).children :=
  List.mem_flatMap.mpr ⟨p, hp, by simp⟩

theorem Node.mem_children_value {pos : Pos} {ps : List (Expr × Expr)} {p : Expr × Expr} (hp : p ∈ ps) :
    .expr p.2 ∈ (Node.expr (.hash pos ps)).children :=
  List.mem_flatMap.mpr ⟨p, hp, by simp⟩

def Program.Every (P : Node → Prop) (p : Program) : Prop :=
  ∀ s ∈ p.stmts, Node.Every P (.stmt s)

inductive Node.Below (x : Node) : Node → Prop where
  | self : Node.Below x x
  | child {y z : Node} : Node.Below x y → z ∈ y.children → Node.Below x z

theorem Node.Below.every {x y : Node} (h : Node.Below x y) : Node.Every (Node.Below x) y :=
  ⟨h, fun _ hz => (h.child hz).every⟩
termination_by sizeOf y
decreasing_by exact Node.sizeOf_child hz

def Program.Has (p : Program) (x : Node) : Prop := ∃ s ∈ p.stmts, Node.Below (.stmt s) x

end Every

section Move

def Ident.move (f : Pos → Pos) (i : Ident) : Ident := ⟨f i.pos, i.name⟩

mutual

def Expr.move (f : Pos → Pos) : Expr → Expr
  | .missing => .missing
  | .ident i => .ident (i.move f)
  | .int p n => .int (f p) n
  | .double p s x => .double (f p) s x
  | .string p s => .string (f p) s
  | .bool p b => .bool (f p) b
  | .array p es => .array (f p) (Expr.moveAll f es)
  | .hash p ps => .hash (f p) (Expr.movePairs f ps)
  | .range p lo hi => .range (f p) (lo.move f) (hi.move f)
  | .unary p op e => .unary (f p) op (e.move f)
  | .binary p op l r => .binary (f p) op (l.move f) (r.move f)
  | .cond p t yes no => .cond (f p) (t.move f) (yes.move f) (Block.move? f no)
  | .loop p t b => .loop (f p) (t.move f) (b.move f)
  | .fn p ps b => .fn (f p) (ps.map (Ident.move f)) (b.move f)
  | .call p g args => .call (f p) (g.move f) (Expr.moveAll f args)
  | .index p c i => .index (f p) (c.move f) (i.move f)
  | .foreign p name => .foreign (f p) name

def Expr.moveAll (f : Pos → Pos) : List Expr → List Expr
  | [] => []
  | e :: es => e.move f :: Expr.moveAll f es

def Expr.movePairs (f : Pos → Pos) : List (Expr × Expr) → List (Expr × Expr)
  | [] => []
  | (k, v) :: ps => (k.move f, v.move f) :: Expr.movePairs f ps

def Block.move? (f : Pos → Pos) : Option Block → Option Block
  | none => none
  | some b => some (b.move f)

def Block.move (f : Pos → Pos) : Block → Block
  | .mk p ss => .mk (f p) (Stmt.moveAll f ss)

def Stmt.move (f : Pos → Pos) : Stmt → Stmt
  | .bind p i e => .bind (f p) (i.move f) (e.move f)
  | .ret p none => .ret (f p) none
  | .ret p (some e) => .ret (f p) (some (e.move f))
  | .expr p e => .expr (f p) (e.move f)
  | .block b => .block (b.move f)
  | .foreign p name => .foreign (f p) name

def Stmt.moveAll (f : Pos → Pos) : List Stmt → List Stmt
  | [] => []
  | s :: ss => s.move f :: Stmt.moveAll f ss

end

theorem Stmt.moveAll_eq_map (f : Pos → Pos) (ss : List Stmt) :
    Stmt.moveAll f ss = ss.map (Stmt.move f) := by
  induction ss with
  | nil => rfl
  | cons s ss ih => rw [Stmt.moveAll, ih, List.map_cons]

theorem Expr.moveAll_eq_map (f : Pos → Pos) (es : List Expr) :
    Expr.moveAll f es = es.map (Expr.move f) := by
  induction es with
  | nil => rfl
  | cons e es ih => exact congrArg (e.move f :: ·) ih

theorem Expr.movePairs_eq_map (f : Pos → Pos) (ps : List (Expr × Expr)) :
    Expr.movePairs f ps = ps.map fun p => (p.1.move f, p.2.move f) := by
  induction ps with
  | nil => rfl
  | cons p ps ih => exact congrArg ((p.1.move f, p.2.move f) :: ·) ih

mutual

theorem Expr.move_id : (e : Expr) → e.move id = e
  | .missing | .ident _ | .int _ _ | .double _ _ _ | .string _ _ | .bool _ _ | .foreign _ _ => rfl
  | .array p es => congrArg (Expr.array p) (Expr.moveAll_id es)
  | .hash p ps => congrArg (Expr.hash p) (Expr.movePairs_id ps)
  | .range p lo hi => congrArg₂ (Expr.range p) (Expr.move_id lo) (Expr.move_id hi)
  | .unary p op e => congrArg (Expr.unary p op) (Expr.move_id e)
  | .binary p op a b => congrArg₂ (Expr.binary p op) (Expr.move_id a) (Expr.move_id b)
  | .cond p t yes no => by
      change Expr.cond p (t.move id) (yes.move id) (Block.move? id no) = _
      rw [Expr.move_id t, Block.move_id yes, Block.move?_id no]
  | .loop p t b => congrArg₂ (Expr.loop p) (Expr.move_id t) (Block.move_id b)
  | .fn p ps b => congrArg₂ (Expr.fn p) (List.map_id ps) (Block.move_id b)
  | .call p f args => congrArg₂ (Expr.call p) (Expr.move_id f) (Expr.moveAll_id args)
  | .index p c i => congrArg₂ (Expr.index p) (Expr.move_id c) (Expr.move_id i)

theorem Expr.moveAll_id : (es : List Expr) → Expr.moveAll id es = es
  | [] => rfl
  | e :: es => congrArg₂ List.cons (Expr.move_id e) (Expr.moveAll_id es)

theorem Expr.movePairs_id : (ps : List (Expr × Expr)) → Expr.movePairs id ps = ps
  | [] => rfl
  | (k, v) :: ps =>
      congrArg₂ List.cons (congrArg₂ Prod.mk (Expr.move_id k) (Expr.move_id v)) (Expr.movePairs_id ps)

theorem Block.move?_id : (b : Option Block) → Block.move? id b = b
  | none => rfl
  | some b => congrArg some (Block.move_id b)

theorem Block.move_id : (b : Block) → b.move id = b
  | .mk p ss => congrArg (Block.mk p) (Stmt.moveAll_id ss)

theorem Stmt.move_id : (s : Stmt) → s.move id = s
  | .bind p i e => congrArg (Stmt.bind p i) (Expr.move_id e)
  | .ret _ none => rfl
  | .ret p (some e) => congrArg (fun e => Stmt.ret p (some e)) (Expr.move_id e)
  | .expr p e => congrArg (Stmt.expr p) (Expr.move_id e)
  | .block b => congrArg Stmt.block (Block.move_id b)
  | .foreign _ _ => rfl

theorem Stmt.moveAll_id : (ss : List Stmt) → Stmt.moveAll id ss = ss
  | [] => rfl
  | s :: ss => congrArg₂ List.cons (Stmt.move_id s) (Stmt.moveAll_id ss)

end

def Node.move (f : Pos → Pos) : Node → Node
  | .expr e => .expr (e.move f)
  | .stmt s => .stmt (s.move f)
  | .block b => .block (b.move f)

theorem Node.move_id (x : Node) : x.move id = x := by
  cases x with
  | expr e => exact congrArg Node.expr e.move_id
  | stmt s => exact congrArg Node.stmt s.move_id
  | block b => exact congrArg Node.block b.move_id

def nowhere : Pos → Pos := fun _ => Pos.absent

def Program.move (f : Pos → Pos) (p : Program) : Program := ⟨p.stmts.map (Stmt.move f)⟩

def Program.Alike (p q : Program) : Prop := p.move nowhere = q.move nowhere

end Move

end Marmoset
