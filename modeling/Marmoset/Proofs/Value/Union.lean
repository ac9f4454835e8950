import Mathlib.Data.List.Nodup
import Marmoset.Proofs.Value.Table
import Marmoset.Value.Operation

/-!
Union and difference of tables. A table is known by its keys in their order and by what is found under
each of them, so that laws of tables come down to laws of lists of keys and of single lookups.
-/

namespace Marmoset

namespace Table

variable {α : Type} {t u v : Table α} {e : Entry α} {k : Key}

section Keys

theorem of_find? (h : t.find? k = some e) : e ∈ t ∧ e.id = k :=
  ⟨List.mem_of_find?_eq_some h, by simpa using List.find?_some h⟩

theorem has_iff : t.has k = true ↔ k ∈ t.map Entry.id := by
  simp [has, find?, List.find?_isSome]

theorem has_eq_decide (t : Table α) (k : Key) : t.has k = decide (k ∈ t.map Entry.id) := by
  rw [Bool.eq_iff_iff, has_iff, decide_eq_true_iff]

theorem find?_eq_none (h : k ∉ t.map Entry.id) : t.find? k = none :=
  Option.not_isSome_iff_eq_none.mp fun hfound => h (has_iff.mp hfound)

theorem ids_union (hu : u.Distinct) (t : Table α) : (t.union u).map Entry.id =
    t.map Entry.id ++ (u.map Entry.id).filter (· ∉ t.map Entry.id) := by
  induction u generalizing t with
  | nil => simp [union]
  | cons e u ih =>
      obtain ⟨hfresh, hu⟩ := List.nodup_cons.mp hu
      rw [union, List.foldl_cons, ← union, ih hu, ids_insert, List.map_cons, List.filter_cons]
      split
      · rename_i he
        rw [if_neg (by simpa using he)]
      · rename_i he
        rw [if_pos (by simpa using he), List.append_assoc, List.singleton_append]
        refine congrArg (fun ks => t.map Entry.id ++ e.id :: ks) (List.filter_congr fun k hk => ?_)
        have hne : k ≠ e.id := fun h => hfresh (h ▸ hk)
        simp [hne]

theorem mem_ids_union (hu : u.Distinct) :
    k ∈ (t.union u).map Entry.id ↔ k ∈ t.map Entry.id ∨ k ∈ u.map Entry.id := by
  rw [ids_union hu, List.mem_append, List.mem_filter, decide_eq_true_iff]
  tauto

theorem ids_minus (t u : Table α) :
    (t.minus u).map Entry.id = (t.map Entry.id).filter (· ∉ u.map Entry.id) := by
  simp only [minus, List.filter_map, has_eq_decide, Function.comp_def, decide_not]

end Keys

section Lookup

theorem find?_union (hu : u.Distinct) (t : Table α) (k : Key) :
    (t.union u).find? k = (u.find? k).or (t.find? k) := by
  induction u generalizing t with
  | nil => rfl
  | cons e u ih =>
      obtain ⟨hfresh, hu⟩ := List.nodup_cons.mp hu
      rw [union, List.foldl_cons, ← union, ih hu, find?_insert, find?_cons]
      by_cases hk : e.id = k
      · subst hk
        rw [if_pos rfl, if_pos rfl, find?_eq_none hfresh]
        rfl
      · rw [if_neg hk, if_neg hk]

theorem find?_minus (t u : Table α) (k : Key) :
    (t.minus u).find? k = if k ∈ u.map Entry.id then none else t.find? k := by
  rw [minus, find?, List.find?_filter]
  split
  · rename_i hk
    refine List.find?_eq_none.mpr fun e _ he => ?_
    obtain ⟨hfresh, hid⟩ : u.has e.id = false ∧ e.id = k := by simpa using he
    rw [hid, has_iff.mpr hk] at hfresh
    cases hfresh
  · rename_i hk
    refine congrArg (List.find? · t) (funext fun e => ?_)
    by_cases hid : e.id = k
    · simp [hid, has_eq_decide, hk]
    · simp [hid]

end Lookup

theorem Distinct.ext (ht : t.Distinct) (hids : t.map Entry.id = u.map Entry.id)
    (hfind : ∀ k, t.find? k = u.find? k) : t = u := by
  have hu : u.Distinct := by
    rw [Distinct, ← hids]
    exact ht
  refine List.ext_getElem (by simpa using congrArg List.length hids) fun i hi hi' => ?_
  have hid : t[i].id = u[i].id := by simpa [hi, hi'] using congrArg (fun ks => ks[i]?) hids
  have hsame := hfind t[i].id
  rw [ht.find? (List.getElem_mem hi), hid, hu.find? (List.getElem_mem hi')] at hsame
  exact Option.some.inj hsame

section Laws

theorem union_assoc (ht : t.Distinct) (hu : u.Distinct) (hv : v.Distinct) :
    (t.union u).union v = t.union (u.union v) := by
  refine ((ht.union u).union v).ext ?_ fun k => ?_
  · rw [ids_union hv]
    simp only [mem_ids_union hu, not_or, Bool.decide_and]
    rw [ids_union hu, ids_union (hu.union v), ids_union hv, List.filter_append, List.filter_filter,
      List.append_assoc]
  · rw [find?_union hv, find?_union hu, find?_union (hu.union v), find?_union hv, Option.or_assoc]

theorem nil_union (hu : u.Distinct) : union [] u = u := by
  have hnil : Distinct ([] : Table α) := List.nodup_nil
  refine (hnil.union u).ext ?_ fun k => ?_
  · rw [ids_union hu]
    simp
  · rw [find?_union hu]
    exact Option.or_none

theorem union_minus (ht : t.Distinct) (hu : u.Distinct) : (t.union u).minus u = t.minus u := by
  refine ((ht.union u).minus u).ext ?_ fun k => ?_
  · have hnone : (u.map Entry.id).filter (fun k => decide (k ∉ u.map Entry.id) &&
        decide (k ∉ t.map Entry.id)) = [] :=
      List.filter_eq_nil_iff.mpr fun k hk => by simp [hk]
    rw [ids_minus, ids_minus, ids_union hu, List.filter_append, List.filter_filter, hnone,
      List.append_nil]
  · rw [find?_minus, find?_minus, find?_union hu]
    split
    · rfl
    · rename_i hk
      rw [find?_eq_none hk, Option.none_or]

theorem minus_minus (t u : Table α) (hv : v.Distinct) :
    (t.minus u).minus v = t.minus (u.union v) := by
  simp only [minus, List.filter_filter, has_eq_decide, mem_ids_union hv, Bool.decide_or, Bool.not_or,
    Bool.and_comm]

end Laws

end Table

namespace Value

variable {a b c : Table Value}

theorem index_by_key {k : Value} {id : Key} (hk : k.key? = some id) (m s : Stamp) (t : Table Value) :
    index m (.hash s t) k = ((t.find? id).map Entry.value).getD .null := by
  simp [index, hk]

theorem index_union (hb : b.Distinct) {k : Value} {id : Key} (hk : k.key? = some id) (m s t u : Stamp) :
    index m (.hash u (a.union b)) k =
      if id ∈ b.map Entry.id then index m (.hash t b) k else index m (.hash s a) k := by
  rw [index_by_key hk, index_by_key hk, index_by_key hk, Table.find?_union hb]
  split
  · rename_i hid
    obtain ⟨e, he⟩ := Option.isSome_iff_exists.mp (Table.has_iff.mpr hid)
    rw [he, Option.some_or]
  · rename_i hid
    rw [Table.find?_eq_none hid, Option.none_or]

theorem index_minus {k : Value} {id : Key} (hk : k.key? = some id) (m s u : Stamp) :
    index m (.hash u (a.minus b)) k = if id ∈ b.map Entry.id then .null else index m (.hash s a) k := by
  rw [index_by_key hk, index_by_key hk, Table.find?_minus]
  split <;> rfl

/-- Sums and differences of hashes. Under a key the sum has what the second hash has, else what the first
one has, and the difference what the first one has unless the second one has the key. The keys of a sum
are those of the first hash and then the new ones of the second, those of a difference the ones that
stay, all in their order. The laws that follow hold of all entries and their order. -/
theorem hashes_are_ordered_maps (ha : Table.Sound a) (hb : Table.Sound b) (hc : Table.Sound c)
    (depth : Nat) (s t u m n : Stamp) :
    (∃ sum diff : Table Value,
      binary depth m .add (.hash s a) (.hash t b) = some (.hash m sum) ∧
      binary depth m .sub (.hash s a) (.hash t b) = some (.hash m diff) ∧
      (∀ k id, k.key? = some id → ∀ i,
        index i (.hash m sum) k =
          (if id ∈ b.map Entry.id then index i (.hash t b) k else index i (.hash s a) k) ∧
        index i (.hash m diff) k =
          if id ∈ b.map Entry.id then .null else index i (.hash s a) k) ∧
      sum.map Entry.id = a.map Entry.id ++ (b.map Entry.id).filter (· ∉ a.map Entry.id) ∧
      diff.map Entry.id = (a.map Entry.id).filter (· ∉ b.map Entry.id)) ∧
    (∃ r, (binary depth m .add (.hash s a) (.hash t b)).bind (binary depth n .add · (.hash u c)) =
        some (.hash n r) ∧
      (binary depth m .add (.hash t b) (.hash u c)).bind (binary depth n .add (.hash s a) ·) =
        some (.hash n r)) ∧
    binary depth n .add (.hash s a) (.hash m []) = some (.hash n a) ∧
    binary depth n .add (.hash m []) (.hash s a) = some (.hash n a) ∧
    (∃ r, (binary depth m .add (.hash s a) (.hash t b)).bind (binary depth n .sub · (.hash t b)) =
        some (.hash n r) ∧
      binary depth n .sub (.hash s a) (.hash t b) = some (.hash n r)) ∧
    ∃ r, (binary depth m .sub (.hash s a) (.hash t b)).bind (binary depth n .sub · (.hash u c)) =
        some (.hash n r) ∧
      (binary depth m .add (.hash t b) (.hash u c)).bind (binary depth n .sub (.hash s a) ·) =
        some (.hash n r) := by
  have hash_eq {t u : Table Value} (h : t = u) : some (hash n t) = some (hash n u) :=
    congrArg (fun t => some (hash n t)) h
  refine ⟨⟨a.union b, a.minus b, rfl, rfl, fun k id hk i => ?_, ?_, ?_⟩, ?_, rfl, ?_, ?_, ?_⟩
  · exact ⟨index_union hb.distinct hk i s t m, index_minus hk i s m⟩
  · exact Table.ids_union hb.distinct a
  · exact Table.ids_minus a b
  · exact ⟨_, rfl, hash_eq (Table.union_assoc ha.distinct hb.distinct hc.distinct).symm⟩
  · exact hash_eq (Table.nil_union ha.distinct)
  · exact ⟨_, rfl, hash_eq (Table.union_minus ha.distinct hb.distinct).symm⟩
  · exact ⟨_, rfl, hash_eq (Table.minus_minus a b hc.distinct).symm⟩

theorem hashes_are_ordered_maps_overlapping :
    let entry (k : Int) (v : Int) : Entry Value := ⟨.integer k, .integer k, .integer v⟩
    let yes (v : Int) : Entry Value := ⟨.boolean true, .boolean true, .integer v⟩
    let a : Table Value := [entry 1 10, yes 20, entry 3 30]
    let b : Table Value := [entry 2 40, yes 50]
    let c : Table Value := [entry 3 60, entry 2 70]
    Table.Sound a ∧ Table.Sound b ∧ Table.Sound c ∧
      (∃ sum, binary 1 4 .add (.hash 1 a) (.hash 2 b) = some (.hash 4 sum) ∧
        index 9 (.hash 4 sum) (.boolean true) = .integer 50 ∧
        sum.map Entry.id = [.integer 1, .boolean true, .integer 3, .integer 2]) ∧
      ∃ r, (binary 1 4 .add (.hash 1 a) (.hash 2 b)).bind (binary 1 5 .add · (.hash 3 c)) =
          some (.hash 5 r) ∧
        (binary 1 4 .add (.hash 2 b) (.hash 3 c)).bind (binary 1 5 .add (.hash 1 a) ·) =
          some (.hash 5 r) := by
  intro entry yes a b c
  have ha : Table.Sound a := ⟨by decide, by simp [a, entry, yes, key?]⟩
  have hb : Table.Sound b := ⟨by decide, by simp [b, entry, yes, key?]⟩
  have hc : Table.Sound c := ⟨by decide, by simp [c, entry, key?]⟩
  obtain ⟨⟨sum, diff, hsum, -, hindex, hids, -⟩, hassoc, -⟩ := hashes_are_ordered_maps ha hb hc 1 1 2 3 4 5
  refine ⟨ha, hb, hc, ⟨sum, hsum, ?_, hids⟩, hassoc⟩
  exact (hindex (.boolean true) (.boolean true) rfl 9).1

end Value

end Marmoset
