import Marmoset.Proofs.Tree.Relabel
import Marmoset.Value.Builtin
import Marmoset.Value.Operation

namespace Marmoset

section Table

variable {α β : Type} (f : α → β)

def Entry.map (e : Entry α) : Entry β := ⟨e.id, f e.key, f e.value⟩

theorem Table.find?_map (t : Table α) (k : Key) :
    Table.find? (t.map (Entry.map f)) k = (t.find? k).map (Entry.map f) := by
  induction t with
  | nil => rfl
  | cons x t ih =>
      rw [List.map_cons, Table.find?_cons, Table.find?_cons, ih]
      by_cases h : x.id = k <;> simp [Entry.map, h]

theorem Table.insert_map (t : Table α) (e : Entry α) :
    Table.insert (t.map (Entry.map f)) (e.map f) = (t.insert e).map (Entry.map f) := by
  induction t with
  | nil => rfl
  | cons x t ih =>
      simp only [List.map_cons, Table.insert, ih]
      by_cases h : x.id = e.id <;> simp [Entry.map, h]

theorem Table.union_map (t u : Table α) :
    Table.union (t.map (Entry.map f)) (u.map (Entry.map f)) = (t.union u).map (Entry.map f) := by
  induction u generalizing t with
  | nil => rfl
  | cons e u ih =>
      have hstep := ih (t.insert e)
      rw [← Table.insert_map] at hstep
      exact hstep

theorem Table.minus_map (t u : Table α) :
    Table.minus (t.map (Entry.map f)) (u.map (Entry.map f)) = (t.minus u).map (Entry.map f) := by
  simp only [Table.minus, List.filter_map, Table.has, Table.find?_map, Option.isSome_map]
  rfl

end Table

namespace Value

mutual

def relabel (r : Relabeling) : Value → Value
  | .null => .null
  | .boolean b => .boolean b
  | .integer n => .integer n
  | .double s x => .double (r.stamp s) x
  | .string t => .string t
  | .array s es => .array (r.stamp s) (relabelAll r es)
  | .hash s t => .hash (r.stamp s) (relabelTable r t)
  | .range lo hi => .range lo hi
  | .function s ps b scope =>
      .function (r.stamp s) (ps.map (Ident.relabel r)) (b.relabel r) (r.scope scope)
  | .builtin f => .builtin f
  | .returned v => .returned (v.relabel r)
  | .error f => .error f

def relabelAll (r : Relabeling) : List Value → List Value
  | [] => []
  | v :: vs => v.relabel r :: relabelAll r vs

def relabelTable (r : Relabeling) : List (Entry Value) → List (Entry Value)
  | [] => []
  | ⟨id, k, v⟩ :: es => ⟨id, k.relabel r, v.relabel r⟩ :: relabelTable r es

end

variable (r : Relabeling)

theorem relabelAll_eq_map (vs : List Value) : relabelAll r vs = vs.map (relabel r) := by
  induction vs with
  | nil => rfl
  | cons v vs ih => exact congrArg (v.relabel r :: ·) ih

theorem relabelTable_eq_map (t : Table Value) : relabelTable r t = t.map (Entry.map (relabel r)) := by
  induction t with
  | nil => rfl
  | cons e t ih => exact congrArg (e.map (relabel r) :: ·) ih

theorem relabel_array (s : Stamp) (vs : List Value) :
    (Value.array s vs).relabel r = .array (r.stamp s) (vs.map (relabel r)) :=
  congrArg (Value.array (r.stamp s)) (relabelAll_eq_map r vs)

theorem relabel_hash (s : Stamp) (t : Table Value) :
    (Value.hash s t).relabel r = .hash (r.stamp s) (t.map (Entry.map (relabel r))) :=
  congrArg (Value.hash (r.stamp s)) (relabelTable_eq_map r t)

section Reading

variable (v : Value)

theorem kind_relabel : (v.relabel r).kind = v.kind := by cases v <;> rfl

theorem isError_relabel : (v.relabel r).isError = v.isError := by cases v <;> rfl

theorem leaves_relabel : (v.relabel r).leaves = v.leaves := by cases v <;> rfl

theorem truthy_relabel : (v.relabel r).truthy = v.truthy := by cases v <;> rfl

theorem settle_relabel : (v.relabel r).settle = v.settle.relabel r := by cases v <;> rfl

theorem key?_relabel : (v.relabel r).key? = v.key? := by cases v <;> rfl

theorem fits_relabel (n : Nat) : (v.relabel r).fits n = v.fits n := by
  induction n generalizing v with
  | zero => rfl
  | succ n ih =>
      cases v with
      | array s vs =>
          rw [relabel_array]
          simp [fits, List.all_map, Function.comp_def, ih]
      | hash s t =>
          rw [relabel_hash]
          simp [fits, List.all_map, Function.comp_def, Entry.map, ih]
      | function s ps b scope => exact Node.fits_relabel r n (.block b)
      | returned v => exact ih v
      | _ => rfl

mutual

theorem text_relabel : (v : Value) → (v.relabel r).text = v.text
  | .null | .boolean _ | .integer _ | .double _ _ | .string _ | .range _ _ | .builtin _ | .error _ => rfl
  | .array _ vs => congrArg (fun ts => "[" ++ commaSeparated ts ++ "]") (texts_relabel vs)
  | .hash _ t => congrArg (fun ts => "\x7b" ++ commaSeparated ts ++ "\x7d") (entryTexts_relabel t)
  | .function _ ps b _ => by
      change "fn(" ++ commaSeparated ((ps.map (Ident.relabel r)).map Ident.name) ++ ") \x7b\n" ++
        (b.relabel r).text ++ "\n\x7d" = _
      rw [Ident.names_relabel, Block.text_relabel]
      rfl
  | .returned v => text_relabel v

theorem texts_relabel : (vs : List Value) → texts (relabelAll r vs) = texts vs
  | [] => rfl
  | v :: vs => by
      change (v.relabel r).text :: texts (relabelAll r vs) = _
      rw [text_relabel v, texts_relabel vs]
      rfl

theorem entryTexts_relabel : (t : List (Entry Value)) → entryTexts (relabelTable r t) = entryTexts t
  | [] => rfl
  | ⟨_, k, v⟩ :: t => by
      change ((k.relabel r).text ++ ": " ++ (v.relabel r).text) :: entryTexts (relabelTable r t) = _
      rw [text_relabel k, text_relabel v, entryTexts_relabel t]
      rfl

end

theorem text?_relabel (depth : Nat) : (v.relabel r).text? depth = v.text? depth := by
  rw [text?, text?, fits_relabel, text_relabel]

end Reading

mutual

theorem relabel_same : (v : Value) → v.relabel .same = v
  | .null | .boolean _ | .integer _ | .double _ _ | .string _ | .range _ _ | .builtin _ | .error _ => rfl
  | .array s vs => congrArg (Value.array s) (relabelAll_same vs)
  | .hash s t => congrArg (Value.hash s) (relabelTable_same t)
  | .function s ps b scope => by
      have hb := Node.block.inj (Node.relabel_same (.block b))
      change Value.function s (ps.map id) (b.relabel .same) scope = _
      rw [hb, List.map_id]
  | .returned v => congrArg Value.returned (relabel_same v)

theorem relabelAll_same : (vs : List Value) → relabelAll .same vs = vs
  | [] => rfl
  | v :: vs => congrArg₂ List.cons (relabel_same v) (relabelAll_same vs)

theorem relabelTable_same : (t : List (Entry Value)) → relabelTable .same t = t
  | [] => rfl
  | ⟨id, k, v⟩ :: t =>
      congrArg₂ List.cons (congrArg₂ (Entry.mk id) (relabel_same k) (relabel_same v))
        (relabelTable_same t)

end

section Same

theorem stamp_eq_iff (m n : Stamp) : r.stamp m = r.stamp n ↔ m = n :=
  ⟨r.stamp_inj, congrArg r.stamp⟩

theorem stamp_beq (m n : Stamp) : (r.stamp m == r.stamp n) = (m == n) := by
  rw [Bool.eq_iff_iff, beq_iff_eq, beq_iff_eq, stamp_eq_iff]

theorem allSame_map {α β : Type} (f : α → β) {same : α → α → Option Bool}
    {same' : β → β → Option Bool} (h : ∀ x y, same' (f x) (f y) = same x y) (xs ys : List α) :
    allSame same' (xs.map f) (ys.map f) = allSame same xs ys := by
  induction xs generalizing ys with
  | nil => cases ys <;> rfl
  | cons x xs ih =>
      cases ys with
      | nil => rfl
      | cons y ys => simp only [List.map_cons, allSame, h, ih]

variable {same same' : Value → Value → Option Bool}
  (h : ∀ x y, same' (x.relabel r) (y.relabel r) = same x y)

include h

theorem sameEntries_relabel (u t : Table Value) :
    sameEntries same' (u.map (Entry.map (relabel r))) (t.map (Entry.map (relabel r))) =
      sameEntries same u t := by
  induction t with
  | nil => rfl
  | cons e t ih =>
      have hfound : Table.find? (u.map (Entry.map (relabel r))) (e.map (relabel r)).id =
          (u.find? e.id).map (Entry.map (relabel r)) := Table.find?_map _ u e.id
      simp only [List.map_cons, sameEntries, hfound, ih]
      cases u.find? e.id with
      | none => rfl
      | some f => simp only [Option.map_some, Entry.map, h]

theorem sameParts_relabel (a b : Value) :
    sameParts same' (a.relabel r) (b.relabel r) = sameParts same a b := by
  cases a with
  | array s vs =>
      cases b with
      | array t ws =>
          simp only [relabel_array, sameParts, sameList, stamp_eq_iff, List.length_map,
            allSame_map (relabel r) h]
      | _ => rfl
  | hash s t =>
      cases b with
      | hash s' u =>
          simp only [relabel_hash, sameParts, stamp_eq_iff, List.length_map, sameEntries_relabel r h]
      | _ => rfl
  | double s x =>
      cases b with
      | double t y => simp only [relabel, sameParts, sameDouble, stamp_beq]
      | _ => rfl
  | function s ps body scope =>
      cases b with
      | function t qs body' scope' => simp only [relabel, sameParts, stamp_beq]
      | _ => rfl
  | returned v =>
      cases b with
      | returned w => exact h v w
      | _ => rfl
  | _ => cases b <;> rfl

omit h in
theorem same?_relabel (depth : Nat) (a b : Value) :
    same? depth (a.relabel r) (b.relabel r) = same? depth a b := by
  induction depth generalizing a b with
  | zero => rfl
  | succ depth ih => exact sameParts_relabel r ih a b

omit h in
theorem without?_relabel (depth : Nat) (x : Value) (ys : List Value) :
    without? depth (x.relabel r) (ys.map (relabel r)) =
      (without? depth x ys).map (List.map (relabel r)) := by
  induction ys with
  | nil => rfl
  | cons y ys ih =>
      simp only [List.map_cons, without?, same?_relabel, ih]
      cases same? depth y x with
      | none => rfl
      | some b =>
          cases b with
          | true => rfl
          | false => simp [Option.map_map, Function.comp_def]

omit h in
theorem difference?_relabel (depth : Nat) (xs ys : List Value) :
    difference? depth (xs.map (relabel r)) (ys.map (relabel r)) =
      (difference? depth xs ys).map (List.map (relabel r)) := by
  induction ys generalizing xs with
  | nil => rfl
  | cons y ys ih =>
      change (without? depth (y.relabel r) (xs.map (relabel r))).bind _ =
        ((without? depth y xs).bind fun rest => difference? depth rest ys).map _
      rw [without?_relabel]
      cases without? depth y xs with
      | none => rfl
      | some rest => exact ih rest

end Same

section Operations

variable (stamp : Stamp) (op : BinaryOp) (a b : Value) (depth : Nat)

theorem invalid_relabel : invalid (a.relabel r) op (b.relabel r) = (invalid a op b).relabel r := by
  simp only [invalid, kind_relabel]
  split <;> rfl

theorem unary_relabel (op : UnaryOp) :
    unary (r.stamp stamp) op (a.relabel r) = (unary stamp op a).relabel r := by
  cases op with
  | not =>
      simp only [unary, truthy_relabel]
      rfl
  | _ => cases a <;> rfl

theorem integers_relabel (m n : Int) : (integers op m n).relabel r = integers op m n := by
  unfold integers
  split
  case h_4 | h_5 | h_6 => split <;> rfl
  all_goals rfl

theorem doubles_relabel (x y : Float) :
    doubles (r.stamp stamp) op x y (a.relabel r) (b.relabel r) =
      (doubles stamp op x y a b).relabel r := by
  unfold doubles
  split
  case h_4 => split <;> rfl
  case h_5 =>
    split
    · rfl
    · split
      · simp only [relabel, r.stamp_shared]
      · rfl
  case h_6 =>
    split
    · rfl
    · exact invalid_relabel r _ a b
  all_goals rfl

theorem strings_relabel (x y : String) : (strings op x y).relabel r = strings op x y := by
  unfold strings
  split
  · rfl
  · split <;> rfl

theorem repeated_relabel (x : String) (n : Int) : (repeated x n).relabel r = repeated x n := by
  unfold repeated
  split
  · rfl
  · split <;> rfl

theorem compared_relabel :
    compared depth op (a.relabel r) (b.relabel r) = (compared depth op a b).map (relabel r) := by
  have hboolean (o : Option Bool) (f : Bool → Bool) :
      o.map (fun x => Value.boolean (f x)) = (o.map fun x => Value.boolean (f x)).map (relabel r) := by
    cases o <;> rfl
  cases op with
  | eq =>
      simp only [compared, same?_relabel]
      exact hboolean _ id
  | ne =>
      simp only [compared, same?_relabel]
      exact hboolean _ not
  | _ => simp only [compared, invalid_relabel, Option.map_some]

theorem arrays_relabel (xs ys : List Value) :
    arrays depth (r.stamp stamp) op (xs.map (relabel r)) (ys.map (relabel r)) (a.relabel r)
      (b.relabel r) = (arrays depth stamp op xs ys a b).map (relabel r) := by
  cases op with
  | add => simp [arrays, relabel_array]
  | sub =>
      simp only [arrays, difference?_relabel, Option.map_map]
      congr 1
      funext zs
      exact (relabel_array r stamp zs).symm
  | _ => simp only [arrays, compared_relabel]

theorem hashes_relabel (t u : Table Value) :
    hashes depth (r.stamp stamp) op (t.map (Entry.map (relabel r))) (u.map (Entry.map (relabel r)))
      (a.relabel r) (b.relabel r) = (hashes depth stamp op t u a b).map (relabel r) := by
  cases op with
  | add => simp [hashes, relabel_hash, Table.union_map]
  | sub => simp [hashes, relabel_hash, Table.minus_map]
  | _ => simp only [hashes, compared_relabel]

theorem binary_relabel :
    binary depth (r.stamp stamp) op (a.relabel r) (b.relabel r) =
      (binary depth stamp op a b).map (relabel r) := by
  cases a with
  | integer m =>
      cases b with
      | integer n => exact congrArg some (integers_relabel r op m n).symm
      | double s y => exact congrArg some (doubles_relabel r stamp op (.integer m) (.double s y) _ y)
      | _ => exact compared_relabel r op (.integer m) _ depth
  | double s x =>
      cases b with
      | integer n => exact congrArg some (doubles_relabel r stamp op (.double s x) (.integer n) x _)
      | double t y => exact congrArg some (doubles_relabel r stamp op (.double s x) (.double t y) x y)
      | _ => exact compared_relabel r op (.double s x) _ depth
  | string x =>
      cases b with
      | integer n =>
          have h := compared_relabel r op (.string x) (.integer n) depth
          cases op with
          | add => rfl
          | mul => exact congrArg some (repeated_relabel r x n).symm
          | _ => exact h
      | string y => exact congrArg some (strings_relabel r op x y).symm
      | _ => exact compared_relabel r op (.string x) _ depth
  | array s xs =>
      cases b with
      | array t ys =>
          have h := arrays_relabel r stamp op (.array s xs) (.array t ys) depth xs ys
          rw [relabel_array, relabel_array] at h ⊢
          exact h
      | _ => exact compared_relabel r op (.array s xs) _ depth
  | hash s t =>
      cases b with
      | hash s' u =>
          have h := hashes_relabel r stamp op (.hash s t) (.hash s' u) depth t u
          rw [relabel_hash, relabel_hash] at h ⊢
          exact h
      | _ => exact compared_relabel r op (.hash s t) _ depth
  | _ => exact compared_relabel r op _ b depth

theorem rangeOf_relabel : rangeOf (a.relabel r) (b.relabel r) = (rangeOf a b).relabel r := by
  cases a with
  | integer m =>
      cases b with
      | integer n => rfl
      | _ => exact invalid_relabel r _ (.integer m) _
  | _ => exact invalid_relabel r _ _ b

theorem getD_relabel (o : Option Value) :
    (o.map (relabel r)).getD .null = (o.getD .null).relabel r := by
  cases o <;> rfl

theorem elementAt?_relabel (xs : List Value) (i : Int) :
    elementAt? (xs.map (relabel r)) i = (elementAt? xs i).map (relabel r) := by
  simp only [elementAt?, List.length_map, List.getElem?_map]
  generalize (if i < 0 then i + ↑xs.length else i) = j
  split <;> rfl

theorem slice?_relabel (xs : List Value) (lo hi : Int) :
    slice? (xs.map (relabel r)) lo hi = (slice? xs lo hi).map (List.map (relabel r)) := by
  simp only [slice?, List.length_map, ← List.map_drop, ← List.map_take]
  split <;> rfl

theorem index_relabel :
    index (r.stamp stamp) (a.relabel r) (b.relabel r) = (index stamp a b).relabel r := by
  cases a with
  | array s xs =>
      rw [relabel_array]
      cases b with
      | integer n =>
          simp only [relabel, index, elementAt?_relabel]
          exact getD_relabel r _
      | range lo hi =>
          simp only [relabel, index, slice?_relabel, Option.map_map, ← getD_relabel]
          congr 2
          funext ys
          exact (relabel_array r stamp ys).symm
      | _ => rfl
  | hash s t =>
      rw [relabel_hash]
      simp only [index, key?_relabel, kind_relabel, Table.find?_map, Option.map_map]
      cases b.key? with
      | none => rfl
      | some k =>
          rw [← getD_relabel, Option.map_map]
          rfl
  | _ => rfl

end Operations

end Value

theorem Builtin.value_relabel (r : Relabeling) (f : Builtin) (stamp : Stamp) (args : List Value) :
    f.value (r.stamp stamp) (args.map (Value.relabel r)) = (f.value stamp args).relabel r := by
  have hchar (o : Option Char) : (o.map fun c => Value.string c.toString).getD .null =
      ((o.map fun c => Value.string c.toString).getD .null).relabel r := by
    cases o <;> rfl
  rcases args with _ | ⟨v, _ | ⟨w, _ | ⟨u, rest⟩⟩⟩
  · cases f <;> rfl
  · cases v with
    | array s xs =>
        rw [List.map_cons, Value.relabel_array, List.map_nil]
        cases f with
        | len => simp [Builtin.value, Value.relabel]
        | first => simp only [Builtin.value, List.head?_map, Value.getD_relabel]
        | last => simp only [Builtin.value, List.getLast?_map, Value.getD_relabel]
        | rest =>
            cases xs with
            | nil => rfl
            | cons x xs => exact (Value.relabel_array r stamp xs).symm
        | _ => rfl
    | string t =>
        cases f with
        | first => exact hchar _
        | last => exact hchar _
        | _ => rfl
    | _ => cases f <;> rfl
  · cases f with
    | push =>
        cases v with
        | array s xs =>
            rw [List.map_cons, Value.relabel_array]
            simp [Builtin.value, Value.relabel_array]
        | _ => rfl
    | _ => simp [Builtin.value, Value.relabel]
  · cases f <;> simp [Builtin.value, Value.relabel]

end Marmoset
