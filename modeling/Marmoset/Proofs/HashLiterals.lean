import Mathlib.Data.List.Induction
import Mathlib.Order.Bounds.Basic
import Marmoset.Proofs.Eval.Stopping
import Marmoset.Proofs.Value.Union

namespace Marmoset

namespace Table

variable {α : Type} {es : List (Entry α)} {e : Entry α} {k : Key}

theorem ofEntries_snoc (es : List (Entry α)) (e : Entry α) :
    ofEntries (es ++ [e]) = (ofEntries es).insert e :=
  List.foldl_concat insert [] e es

theorem distinct_ofEntries (es : List (Entry α)) : (ofEntries es).Distinct :=
  Distinct.union (t := []) List.nodup_nil es

theorem ids_ofEntries (es : List (Entry α)) :
    (ofEntries es).map Entry.id = (es.map Entry.id).eraseDups := by
  induction es using List.reverseRecOn with
  | nil => rfl
  | append_singleton es e ih =>
      rw [ofEntries_snoc, ids_insert, ih, List.map_append, List.map_singleton, List.eraseDups_append]
      by_cases he : e.id ∈ es.map Entry.id
      · have hnone : [e.id].removeAll (es.map Entry.id) = [] := by simpa [List.removeAll] using he
        rw [if_pos (List.mem_eraseDups.mpr he), hnone]
        simp
      · have hone : [e.id].removeAll (es.map Entry.id) = [e.id] := by simpa [List.removeAll] using he
        rw [if_neg (mt List.mem_eraseDups.mp he), hone]
        rfl

theorem find?_ofEntries : (ofEntries es).find? k = some e ↔
    ∃ j : Nat, es[j]? = some e ∧ IsGreatest {i | (es.map Entry.id)[i]? = some k} j := by
  induction es using List.reverseRecOn with
  | nil => simp [ofEntries, find?]
  | append_singleton es x ih =>
      rw [ofEntries_snoc, find?_insert]
      split
      · rename_i hx
        have hlast : IsGreatest {i | ((es ++ [x]).map Entry.id)[i]? = some k} es.length := by
          refine ⟨by simp [hx], fun i hi => ?_⟩
          obtain ⟨hlt, -⟩ := List.getElem?_eq_some_iff.mp hi
          simpa [Nat.lt_succ_iff] using hlt
        constructor
        · rintro ⟨⟩
          exact ⟨es.length, by simp, hlast⟩
        · rintro ⟨j, hj, hgreatest⟩
          obtain rfl := hgreatest.unique hlast
          simpa using hj
      · rename_i hx
        -- the last entry has another key, so that the greatest place is that among the others
        have hsame (i : Nat) : ((es ++ [x]).map Entry.id)[i]? = some k ↔ (es.map Entry.id)[i]? = some k := by
          rw [List.map_append, List.map_singleton]
          grind
        simp only [ih, hsame]
        refine exists_congr fun j => and_congr_left fun hgreatest => ?_
        obtain ⟨hlt, -⟩ := List.getElem?_eq_some_iff.mp hgreatest.1
        rw [List.length_map] at hlt
        rw [List.getElem?_append_left hlt]

theorem mem_ofEntries : e ∈ ofEntries es ↔
    ∃ j : Nat, es[j]? = some e ∧ IsGreatest {i | (es.map Entry.id)[i]? = some e.id} j := by
  rw [← find?_ofEntries]
  exact ⟨(distinct_ofEntries es).find?, fun h => (of_find? h).1⟩

end Table

theorem Value.kind_of_same_key {v w : Value} {id : Key} (hv : v.key? = some id) (hw : w.key? = some id) :
    v.kind = w.kind := by
  cases v <;> cases w <;> grind [Value.key?, Value.kind]

namespace Eval

variable {s : Setting} {run : Runner} {scope : ScopeId} {st mid st' : Store} {x y : Expr}
  {ps : List (Expr × Expr)} {es : List (Entry Value)} {k : Value}

inductive PairsDone (run : Runner) (scope : ScopeId) :
    List (Expr × Expr) → Store → List (Entry Value) → Store → Prop where
  | nil {st : Store} : PairsDone run scope [] st [] st
  | cons {x y : Expr} {ps : List (Expr × Expr)} {k v : Value} {id : Key} {es : List (Entry Value)}
      {st mid mid' st' : Store} :
      run (.expr x) scope st = .ok k mid → k.key? = some id →
      run (.expr y) scope mid = .ok v mid' → v.isError = false →
      PairsDone run scope ps mid' es st' →
      PairsDone run scope ((x, y) :: ps) st (⟨id, k, v⟩ :: es) st'

theorem PairsDone.keyed (h : PairsDone run scope ps st es st') : ∀ e ∈ es, e.key.key? = some e.id := by
  induction h with
  | nil => exact List.forall_mem_nil _
  | cons _ hid _ _ _ ih => exact List.forall_mem_cons.mpr ⟨hid, ih⟩

theorem PairsDone.entries_append (h : PairsDone run scope ps st es st') (t : Table Value)
    (rest : List (Expr × Expr)) :
    entries run scope t (ps ++ rest) st = entries run scope (es.foldl Table.insert t) rest st' := by
  induction h generalizing t with
  | nil => rfl
  | cons hk hid hv hok _ ih =>
      rw [List.cons_append, entries_pair hk hid hv hok, ih]
      rfl

theorem PairsDone.literal {d : Nat} (h : PairsDone (Eval.run s d) scope ps st es st') (pos : Pos) :
    Eval.run s (d + 1) (.expr (.hash pos ps)) scope st =
      .ok (.hash st'.stamp (Table.ofEntries es)) { st' with stamp := st'.stamp + 1 } := by
  have hentries := h.entries_append [] []
  rw [List.append_nil] at hentries
  exact bind_ok (hentries.trans rfl)

theorem PairsDone.unusable {d : Nat} (h : PairsDone (Eval.run s d) scope ps st es mid)
    (hk : Eval.run s d (.expr x) scope mid = .ok k st') (hok : k.isError = false) (hid : k.key? = none)
    (pos : Pos) (y : Expr) (rest : List (Expr × Expr)) :
    Eval.run s (d + 1) (.expr (.hash pos (ps ++ (x, y) :: rest))) scope st =
      .ok (.error (.unusableKey k.kind)) st' :=
  bind_ok ((h.entries_append [] ((x, y) :: rest)).trans (entries_unusable hk hok hid _ y rest))

/-- If all pairs of a literal can be evaluated, its hash has each key once, in the order in which the keys
came first, with the key and the value that were written last, and these are found under the key; keys of
different kinds are different keys. The first key that cannot be used ends the literal with an error,
before its value and the pairs after it, whatever they are, are looked at. -/
theorem hash_literals_keep_last (s : Setting) (d : Nat) (scope : ScopeId) (st : Store) (pos : Pos)
    (pairs : List (Expr × Expr)) :
    (∀ es st', PairsDone (Eval.run s d) scope pairs st es st' → ∃ m t,
      Eval.run s (d + 1) (.expr (.hash pos pairs)) scope st = .ok (.hash m t) { st' with stamp := m + 1 } ∧
      t.map Entry.id = (es.map Entry.id).eraseDups ∧
      (∀ e, e ∈ t ↔
        ∃ j : Nat, es[j]? = some e ∧ IsGreatest {i | (es.map Entry.id)[i]? = some e.id} j) ∧
      (∀ e ∈ es, e.key.key? = some e.id) ∧
      ∀ k id, k.key? = some id → ∀ n,
        (∀ (j : Nat) e, es[j]? = some e → IsGreatest {i | (es.map Entry.id)[i]? = some id} j →
          Value.index n (.hash m t) k = e.value) ∧
        (id ∉ es.map Entry.id → Value.index n (.hash m t) k = .null)) ∧
    (∀ k k' : Value, k.key?.isSome → k.kind ≠ k'.kind → k.key? ≠ k'.key?) ∧
    ∀ before x y after es mid k st', pairs = before ++ (x, y) :: after →
      PairsDone (Eval.run s d) scope before st es mid → Eval.run s d (.expr x) scope mid = .ok k st' →
      k.isError = false → k.key? = none →
      Eval.run s (d + 1) (.expr (.hash pos pairs)) scope st = .ok (.error (.unusableKey k.kind)) st' ∧
      (Failure.unusableKey k.kind).message = "unusable as hash key: " ++ k.kind.name := by
  refine ⟨fun es st' h => ?_, fun k k' hkey hkind hsame => ?_, ?_⟩
  · refine ⟨st'.stamp, Table.ofEntries es, h.literal pos, Table.ids_ofEntries es,
      fun e => Table.mem_ofEntries, h.keyed, fun k id hk n => ⟨fun j e hj hlast => ?_, fun hid => ?_⟩⟩
    · rw [Value.index_by_key hk, Table.find?_ofEntries.mpr ⟨j, hj, hlast⟩]
      rfl
    · have hnone : id ∉ (Table.ofEntries es).map Entry.id := by
        rwa [Table.ids_ofEntries, List.mem_eraseDups]
      rw [Value.index_by_key hk, Table.find?_eq_none hnone]
      rfl
  · obtain ⟨id, hid⟩ := Option.isSome_iff_exists.mp hkey
    exact hkind (Value.kind_of_same_key hid (hsame ▸ hid))
  · rintro before x y after es mid k st' rfl hdone hk hok hid
    exact ⟨hdone.unusable hk hok hid pos y after, rfl⟩

theorem hash_literals_keep_last_repeated :
    let s : Setting := ⟨[], 9, 9⟩
    let pos := Pos.start
    let int (n : Int) : Expr := .int pos n
    let st := Store.empty
    let pairs := [(int 1, int 10), (.bool pos true, int 20), (int 1, int 30)]
    let es : List (Entry Value) := [⟨.integer 1, .integer 1, .integer 10⟩,
      ⟨.boolean true, .boolean true, .integer 20⟩, ⟨.integer 1, .integer 1, .integer 30⟩]
    PairsDone (Eval.run s 1) 0 pairs st es st ∧
      (∃ m t, Eval.run s 2 (.expr (.hash pos pairs)) 0 st = .ok (.hash m t) { st with stamp := m + 1 } ∧
        t.map Entry.id = [.integer 1, .boolean true] ∧
        Value.index 5 (.hash m t) (.integer 1) = .integer 30) ∧
      Eval.run s 2 (.expr (.hash pos [(int 1, int 10), (.array pos [], .missing), (.missing, int 20)])) 0 st =
        .ok (.error (.unusableKey .array)) { st with stamp := 2 } := by
  intro s pos int st pairs es
  have hdone : PairsDone (Eval.run s 1) 0 pairs st es st :=
    .cons rfl rfl rfl rfl (.cons rfl rfl rfl rfl (.cons rfl rfl rfl rfl .nil))
  obtain ⟨hall, -, -⟩ := hash_literals_keep_last s 1 0 st pos pairs
  obtain ⟨m, t, hrun, hids, -, -, hindex⟩ := hall es st hdone
  have hlast : IsGreatest {i | (es.map Entry.id)[i]? = some (.integer 1)} 2 := by
    refine ⟨rfl, fun i hi => ?_⟩
    obtain ⟨hlt, -⟩ := List.getElem?_eq_some_iff.mp hi
    exact Nat.le_of_lt_succ hlt
  obtain ⟨-, -, hbad⟩ := hash_literals_keep_last s 1 0 st pos
    [(int 1, int 10), (.array pos [], .missing), (.missing, int 20)]
  refine ⟨hdone, ⟨m, t, hrun, hids.trans (by decide), (hindex (.integer 1) _ rfl 5).1 2 _ rfl hlast⟩, ?_⟩
  exact (hbad [(int 1, int 10)] (.array pos []) .missing [(.missing, int 20)]
    [⟨.integer 1, .integer 1, .integer 10⟩] st (.array 1 []) _ rfl (.cons rfl rfl rfl rfl .nil) rfl rfl rfl).1

end Eval

end Marmoset
