import Marmoset.Proofs.Tree.Shape
import Marmoset.Value

/-!
Labels that no run looks at: the places in trees, the stamps of values, as long as different ones stay
different, and the numbers of scopes. Trees with other labels have the same text.
-/

namespace Marmoset

structure Relabeling where
  pos : Pos → Pos
  stamp : Stamp → Stamp
  scope : ScopeId → ScopeId
  stamp_inj : ∀ {m n : Stamp}, stamp m = stamp n → m = n
  stamp_shared : stamp Stamp.shared = Stamp.shared

def Relabeling.unplaced : Relabeling where
  pos := nowhere
  stamp := id
  scope := id
  stamp_inj h := h
  stamp_shared := rfl

section Relabel

def Ident.relabel (r : Relabeling) (i : Ident) : Ident := ⟨r.pos i.pos, i.name⟩

mutual

/-- The same tree with other labels. A node of another tool shows its place in its text and keeps it. -/
def Expr.relabel (r : Relabeling) : Expr → Expr
  | .missing => .missing
  | .ident i => .ident (i.relabel r)
  | .int p n => .int (r.pos p) n
  | .double p s x => .double (r.pos p) (r.stamp s) x
  | .string p s => .string (r.pos p) s
  | .bool p b => .bool (r.pos p) b
  | .array p es => .array (r.pos p) (Expr.relabelAll r es)
  | .hash p ps => .hash (r.pos p) (Expr.relabelPairs r ps)
  | .range p lo hi => .range (r.pos p) (lo.relabel r) (hi.relabel r)
  | .unary p op e => .unary (r.pos p) op (e.relabel r)
  | .binary p op l x => .binary (r.pos p) op (l.relabel r) (x.relabel r)
  | .cond p t yes no => .cond (r.pos p) (t.relabel r) (yes.relabel r) (Block.relabel? r no)
  | .loop p t b => .loop (r.pos p) (t.relabel r) (b.relabel r)
  | .fn p ps b => .fn (r.pos p) (ps.map (Ident.relabel r)) (b.relabel r)
  | .call p f args => .call (r.pos p) (f.relabel r) (Expr.relabelAll r args)
  | .index p c i => .index (r.pos p) (c.relabel r) (i.relabel r)
  | .foreign p name => .foreign p name

def Expr.relabelAll (r : Relabeling) : List Expr → List Expr
  | [] => []
  | e :: es => e.relabel r :: Expr.relabelAll r es

def Expr.relabelPairs (r : Relabeling) : List (Expr × Expr) → List (Expr × Expr)
  | [] => []
  | (k, v) :: ps => (k.relabel r, v.relabel r) :: Expr.relabelPairs r ps

def Block.relabel? (r : Relabeling) : Option Block → Option Block
  | none => none
  | some b => some (b.relabel r)

def Block.relabel (r : Relabeling) : Block → Block
  | .mk p ss => .mk (r.pos p) (Stmt.relabelAll r ss)

def Stmt.relabel (r : Relabeling) : Stmt → Stmt
  | .bind p i e => .bind (r.pos p) (i.relabel r) (e.relabel r)
  | .ret p none => .ret (r.pos p) none
  | .ret p (some e) => .ret (r.pos p) (some (e.relabel r))
  | .expr p e => .expr (r.pos p) (e.relabel r)
  | .block b => .block (b.relabel r)
  | .foreign p name => .foreign p name

def Stmt.relabelAll (r : Relabeling) : List Stmt → List Stmt
  | [] => []
  | s :: ss => s.relabel r :: Stmt.relabelAll r ss

end

def Program.relabel (r : Relabeling) (p : Program) : Program := ⟨p.stmts.map (Stmt.relabel r)⟩

def Node.relabel (r : Relabeling) : Node → Node
  | .expr e => .expr (e.relabel r)
  | .stmt s => .stmt (s.relabel r)
  | .block b => .block (b.relabel r)

variable (r : Relabeling)

theorem Expr.relabelAll_eq_map (es : List Expr) : Expr.relabelAll r es = es.map (Expr.relabel r) := by
  induction es with
  | nil => rfl
  | cons e es ih => exact congrArg (e.relabel r :: ·) ih

theorem Expr.relabelPairs_eq_map (ps : List (Expr × Expr)) :
    Expr.relabelPairs r ps = ps.map fun p => (p.1.relabel r, p.2.relabel r) := by
  induction ps with
  | nil => rfl
  | cons p ps ih => exact congrArg ((p.1.relabel r, p.2.relabel r) :: ·) ih

theorem Stmt.relabelAll_eq_map (ss : List Stmt) : Stmt.relabelAll r ss = ss.map (Stmt.relabel r) := by
  induction ss with
  | nil => rfl
  | cons s ss ih => exact congrArg (s.relabel r :: ·) ih

theorem Block.stmts_relabel (b : Block) : (b.relabel r).stmts = b.stmts.map (Stmt.relabel r) := by
  cases b with
  | mk p ss => exact Stmt.relabelAll_eq_map r ss

theorem Node.children_relabel (x : Node) :
    (x.relabel r).children = x.children.map (Node.relabel r) := by
  cases x with
  | block b =>
      change (b.relabel r).stmts.map Node.stmt = (b.stmts.map Node.stmt).map (Node.relabel r)
      rw [Block.stmts_relabel, List.map_map, List.map_map]
      rfl
  | stmt s =>
      cases s with
      | ret p e => cases e <;> rfl
      | _ => rfl
  | expr e =>
      cases e with
      | array p es =>
          change (Expr.relabelAll r es).map Node.expr = (es.map Node.expr).map (Node.relabel r)
          rw [Expr.relabelAll_eq_map, List.map_map, List.map_map]
          rfl
      | hash p ps =>
          change (Expr.relabelPairs r ps).flatMap _ = (ps.flatMap _).map (Node.relabel r)
          rw [Expr.relabelPairs_eq_map, List.flatMap_map, List.map_flatMap]
          rfl
      | call p f args =>
          change Node.expr (f.relabel r) :: (Expr.relabelAll r args).map Node.expr =
            Node.expr (f.relabel r) :: (args.map Node.expr).map (Node.relabel r)
          rw [Expr.relabelAll_eq_map, List.map_map, List.map_map]
          rfl
      | cond p t yes no => cases no <;> rfl
      | _ => rfl

theorem Node.fits_relabel (n : Nat) (x : Node) : Node.fits n (x.relabel r) = Node.fits n x := by
  induction n generalizing x with
  | zero => rfl
  | succ n ih =>
      simp only [Node.fits, Node.children_relabel, List.all_map]
      congr 1
      funext y
      exact ih y

theorem Ident.names_relabel (ps : List Ident) :
    (ps.map (Ident.relabel r)).map Ident.name = ps.map Ident.name := by
  rw [List.map_map]
  rfl

theorem Stmt.text_expr {p : Pos} {e : Expr} (h : e ≠ .missing) : (Stmt.expr p e).text = e.text := by
  cases e with
  | missing => exact absurd rfl h
  | _ => rfl

mutual

theorem Expr.text_relabel : (e : Expr) → (e.relabel r).text = e.text
  | .missing | .ident _ | .int _ _ | .double _ _ _ | .string _ _ | .bool _ _ | .foreign _ _ => rfl
  | .array _ es => congrArg (fun ts => "[" ++ commaSeparated ts ++ "]") (Expr.texts_relabel es)
  | .hash _ ps =>
      congrArg (fun ts => "\x7b" ++ commaSeparated ts ++ "\x7d") (Expr.pairTexts_relabel ps)
  | .range _ lo hi => by
      change "(" ++ (lo.relabel r).text ++ ".." ++ (hi.relabel r).text ++ ")" = _
      rw [Expr.text_relabel lo, Expr.text_relabel hi]
      rfl
  | .unary _ op e => congrArg (fun t => "(" ++ op.symbol ++ t ++ ")") (Expr.text_relabel e)
  | .binary _ op a b => by
      change "(" ++ (a.relabel r).text ++ " " ++ op.symbol ++ " " ++ (b.relabel r).text ++ ")" = _
      rw [Expr.text_relabel a, Expr.text_relabel b]
      rfl
  | .cond _ t yes no => by
      change "if" ++ (t.relabel r).text ++ " " ++ (yes.relabel r).text ++
        Block.elseText (Block.relabel? r no) = _
      rw [Expr.text_relabel t, Block.text_relabel yes, Block.elseText_relabel no]
      rfl
  | .loop _ t b => by
      change "while" ++ (t.relabel r).text ++ " " ++ (b.relabel r).text = _
      rw [Expr.text_relabel t, Block.text_relabel b]
      rfl
  | .fn _ ps b => by
      change "fn(" ++ commaSeparated ((ps.map (Ident.relabel r)).map Ident.name) ++ ") " ++
        (b.relabel r).text = _
      rw [Ident.names_relabel, Block.text_relabel b]
      rfl
  | .call _ f args => by
      change (f.relabel r).text ++ "(" ++
        commaSeparated (Expr.texts (Expr.relabelAll r args)) ++ ")" = _
      rw [Expr.text_relabel f, Expr.texts_relabel args]
      rfl
  | .index _ c i => by
      change "(" ++ (c.relabel r).text ++ "[" ++ (i.relabel r).text ++ "])" = _
      rw [Expr.text_relabel c, Expr.text_relabel i]
      rfl

theorem Expr.texts_relabel : (es : List Expr) → Expr.texts (Expr.relabelAll r es) = Expr.texts es
  | [] => rfl
  | e :: es => by
      change (e.relabel r).text :: Expr.texts (Expr.relabelAll r es) = _
      rw [Expr.text_relabel e, Expr.texts_relabel es]
      rfl

theorem Expr.pairTexts_relabel :
    (ps : List (Expr × Expr)) → Expr.pairTexts (Expr.relabelPairs r ps) = Expr.pairTexts ps
  | [] => rfl
  | (k, v) :: ps => by
      change ((k.relabel r).text ++ ":" ++ (v.relabel r).text) ::
        Expr.pairTexts (Expr.relabelPairs r ps) = _
      rw [Expr.text_relabel k, Expr.text_relabel v, Expr.pairTexts_relabel ps]
      rfl

theorem Block.elseText_relabel :
    (b : Option Block) → Block.elseText (Block.relabel? r b) = Block.elseText b
  | none => rfl
  | some b => congrArg (" else " ++ ·) (Block.text_relabel b)

theorem Block.text_relabel : (b : Block) → (b.relabel r).text = b.text
  | .mk _ ss => Stmt.joined_relabel ss

theorem Stmt.text_relabel : (s : Stmt) → (s.relabel r).text = s.text
  | .bind _ i e => congrArg (fun t => "let " ++ i.name ++ " = " ++ t ++ ";") (Expr.text_relabel e)
  | .ret _ none => rfl
  | .ret _ (some e) => congrArg (fun t => "return " ++ t ++ ";") (Expr.text_relabel e)
  | .expr p e => by
      by_cases h : e = .missing
      · rw [h]
        rfl
      · have hr : e.relabel r ≠ .missing := by
          cases e with
          | missing => exact absurd rfl h
          | _ => exact Expr.noConfusion
        rw [Stmt.text_expr h, ← Expr.text_relabel e]
        exact Stmt.text_expr hr
  | .block b => Block.text_relabel b
  | .foreign _ _ => rfl

theorem Stmt.joined_relabel : (ss : List Stmt) → Stmt.joined (Stmt.relabelAll r ss) = Stmt.joined ss
  | [] => rfl
  | s :: ss => by
      change (s.relabel r).text ++ Stmt.joined (Stmt.relabelAll r ss) = _
      rw [Stmt.text_relabel s, Stmt.joined_relabel ss]
      rfl

end

def Node.Movable (r : Relabeling) : Node → Prop
  | .expr (.double _ s _) => r.stamp s = s
  | .expr (.foreign p _) | .stmt (.foreign p _) => r.pos p = p
  | _ => True

theorem Node.relabel_eq_move {r : Relabeling} {x : Node} (h : Node.Every (Node.Movable r) x) :
    x.relabel r = x.move r.pos := by
  induction h with
  | @mk x hx _ ih =>
      have hexpr (e : Expr) (he : .expr e ∈ x.children) :
          e.relabel r = e.move r.pos := Node.expr.inj (ih (.expr e) he)
      have hblock (b : Block) (hb : .block b ∈ x.children) :
          b.relabel r = b.move r.pos := Node.block.inj (ih (.block b) hb)
      cases x with
      | block b =>
          obtain ⟨pos, ss⟩ := b
          have hss := List.map_congr_left fun s hs => Node.stmt.inj (ih (.stmt s) (List.mem_map_of_mem hs))
          rw [← Stmt.relabelAll_eq_map, ← Stmt.moveAll_eq_map] at hss
          exact congrArg (fun ss => Node.block (.mk (r.pos pos) ss)) hss
      | stmt s =>
          cases s with
          | bind pos i e =>
              have he := hexpr e (by simp [children])
              exact congrArg (fun e => Node.stmt (.bind (r.pos pos) (i.move r.pos) e)) he
          | ret pos e =>
              cases e with
              | none => rfl
              | some e =>
                  have he := hexpr e (by simp [children])
                  exact congrArg (fun e => Node.stmt (.ret (r.pos pos) (some e))) he
          | expr pos e =>
              have he := hexpr e (by simp [children])
              exact congrArg (fun e => Node.stmt (.expr (r.pos pos) e)) he
          | block b => exact congrArg (fun b => Node.stmt (.block b)) (hblock b (by simp [children]))
          | foreign pos name => exact congrArg (fun p => Node.stmt (.foreign p name)) hx.symm
      | expr e =>
          cases e with
          | missing => rfl
          | foreign pos name => exact congrArg (fun p => Node.expr (.foreign p name)) hx.symm
          | ident i => rfl
          | int pos n => rfl
          | double pos stamp x => exact congrArg (fun s => Node.expr (.double (r.pos pos) s x)) hx
          | string pos s => rfl
          | bool pos b => rfl
          | array pos es =>
              have hes := List.map_congr_left fun e he => hexpr e (List.mem_map_of_mem he)
              rw [← Expr.relabelAll_eq_map, ← Expr.moveAll_eq_map] at hes
              exact congrArg (fun es => Node.expr (.array (r.pos pos) es)) hes
          | hash pos ps =>
              have hps : Expr.relabelPairs r ps = Expr.movePairs r.pos ps := by
                rw [Expr.relabelPairs_eq_map, Expr.movePairs_eq_map]
                refine List.map_congr_left fun p hp => ?_
                rw [hexpr p.1 (mem_children_key hp), hexpr p.2 (mem_children_value hp)]
              exact congrArg (fun ps => Node.expr (.hash (r.pos pos) ps)) hps
          | range pos lo hi =>
              have hlo := hexpr lo (by simp [children])
              have hhi := hexpr hi (by simp [children])
              exact congrArg₂ (fun lo hi => Node.expr (.range (r.pos pos) lo hi)) hlo hhi
          | unary pos op e =>
              have he := hexpr e (by simp [children])
              exact congrArg (fun e => Node.expr (.unary (r.pos pos) op e)) he
          | binary pos op a b =>
              have ha := hexpr a (by simp [children])
              have hb := hexpr b (by simp [children])
              exact congrArg₂ (fun a b => Node.expr (.binary (r.pos pos) op a b)) ha hb
          | cond pos t yes no =>
              have ht := hexpr t (by simp [children])
              have hyes := hblock yes (by simp [children])
              change Node.expr (.cond (r.pos pos) (t.relabel _) (yes.relabel _) _) = _
              rw [ht, hyes]
              cases no with
              | none => rfl
              | some b =>
                  have hb := hblock b (by simp [children])
                  exact congrArg (fun b => Node.expr (.cond (r.pos pos) _ _ (some b))) hb
          | loop pos t b =>
              have ht := hexpr t (by simp [children])
              have hb := hblock b (by simp [children])
              exact congrArg₂ (fun t b => Node.expr (.loop (r.pos pos) t b)) ht hb
          | fn pos ps b =>
              have hb := hblock b (by simp [children])
              exact congrArg (fun b => Node.expr (.fn (r.pos pos) (ps.map (Ident.move r.pos)) b)) hb
          | call pos f args =>
              have hf := hexpr f List.mem_cons_self
              have hargs := List.map_congr_left fun e he =>
                hexpr e (List.mem_cons_of_mem _ (List.mem_map_of_mem he))
              rw [← Expr.relabelAll_eq_map, ← Expr.moveAll_eq_map] at hargs
              exact congrArg₂ (fun f args => Node.expr (.call (r.pos pos) f args)) hf hargs
          | index pos c i =>
              have hc := hexpr c (by simp [children])
              have hi := hexpr i (by simp [children])
              exact congrArg₂ (fun c i => Node.expr (.index (r.pos pos) c i)) hc hi

end Relabel

def Relabeling.same : Relabeling where
  pos := id
  stamp := id
  scope := id
  stamp_inj h := h
  stamp_shared := rfl

theorem Node.relabel_same (x : Node) : x.relabel .same = x := by
  have hmovable : Node.Every (Node.Movable .same) x := Node.every_of_forall (fun y => by
    unfold Node.Movable
    split <;> first | rfl | trivial) x
  exact (Node.relabel_eq_move hmovable).trans x.move_id

end Marmoset
