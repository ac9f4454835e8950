import Mathlib.Data.List.Nodup
import Marmoset.Proofs.Value.Parts

namespace Marmoset

namespace Table

variable {α : Type} {t u : Table α} {e : Entry α}

def Distinct (t : Table α) : Prop := (t.map Entry.id).Nodup

instance (t : Table α) : Decidable t.Distinct :=
  inferInstanceAs (Decidable (t.map Entry.id).Nodup)

theorem ids_insert (t : Table α) (e : Entry α) : (t.insert e).map Entry.id =
    if e.id ∈ t.map Entry.id then t.map Entry.id else t.map Entry.id ++ [e.id] := by
  induction t with
  | nil => rfl
  | cons x t ih =>
      by_cases hx : x.id = e.id
      · simp [insert, hx]
      · simp only [insert, if_neg hx, List.map_cons, ih, List.mem_cons, Ne.symm hx, false_or]
        split <;> rfl

theorem Distinct.insert (h : t.Distinct) (e : Entry α) : (t.insert e).Distinct := by
  rw [Distinct, ids_insert]
  split
  · exact h
  · rename_i hfresh
    exact List.nodup_append.mpr ⟨h, List.nodup_singleton _, fun k hk l hl hkl =>
      hfresh (List.mem_singleton.mp hl ▸ hkl ▸ hk)⟩

theorem Distinct.union (h : t.Distinct) (u : Table α) : (t.union u).Distinct := by
  induction u generalizing t with
  | nil => exact h
  | cons e u ih => exact ih (h.insert e)

theorem Distinct.minus (h : t.Distinct) (u : Table α) : (t.minus u).Distinct :=
  List.Nodup.sublist (List.filter_sublist.map Entry.id) h

theorem Distinct.head_ne {x : Entry α} (h : Distinct (x :: t)) (he : e ∈ t) : x.id ≠ e.id := by
  intro hid
  refine (List.nodup_cons.mp h).1 ?_
  rw [hid]
  exact List.mem_map_of_mem he

theorem Distinct.find? (h : t.Distinct) (he : e ∈ t) : t.find? e.id = some e := by
  induction t with
  | nil => cases he
  | cons x t ih =>
      rw [find?_cons]
      rcases List.mem_cons.mp he with rfl | he
      · rw [if_pos rfl]
      · rw [if_neg (h.head_ne he), ih (List.nodup_cons.mp h).2 he]

theorem Distinct.insert_mem (h : t.Distinct) (he : e ∈ t) : t.insert e = t := by
  induction t with
  | nil => cases he
  | cons x t ih =>
      rw [Table.insert]
      rcases List.mem_cons.mp he with rfl | he
      · rw [if_pos rfl]
      · rw [if_neg (h.head_ne he), ih (List.nodup_cons.mp h).2 he]

theorem Distinct.union_of_subset (h : t.Distinct) (hu : ∀ e ∈ u, e ∈ t) : t.union u = t := by
  induction u with
  | nil => rfl
  | cons e u ih =>
      obtain ⟨he, hu⟩ := List.forall_mem_cons.mp hu
      rw [Table.union, List.foldl_cons, h.insert_mem he]
      exact ih hu

theorem minus_self (t : Table α) : t.minus t = [] := by
  refine List.filter_eq_nil_iff.mpr fun e he => ?_
  have hfound : (t.find? e.id).isSome = true := List.find?_isSome.mpr ⟨e, he, by simp⟩
  simp [has, hfound]

structure Sound (t : Table Value) : Prop where
  distinct : t.Distinct
  keyed : ∀ e ∈ t, e.key.key? = some e.id

variable {r r' : Table Value}

theorem sound_nil : Sound [] := ⟨List.nodup_nil, List.forall_mem_nil _⟩

theorem Sound.insert (h : Sound r) {id : Key} {k : Value} (hk : k.key? = some id) (v : Value) :
    Sound (r.insert ⟨id, k, v⟩) where
  distinct := h.distinct.insert _
  keyed e he := by
    rcases Table.mem_insert he with rfl | he
    · exact hk
    · exact h.keyed e he

theorem Sound.union (h : Sound r) (h' : Sound r') : Sound (r.union r') where
  distinct := h.distinct.union r'
  keyed e he := (Table.mem_union he).elim (h.keyed e) (h'.keyed e)

theorem Sound.minus (h : Sound r) (r' : Table Value) : Sound (r.minus r') where
  distinct := h.distinct.minus r'
  keyed e he := h.keyed e (List.mem_filter.mp he).1

end Table

namespace Value

variable {v : Value} {t : Table Value} {e : Entry Value}

theorem kind_of_key {k : Key} (h : v.key? = some k) : v.kind ∈ [Kind.integer, .boolean, .string] := by
  cases v with
  | integer n => simp [kind]
  | boolean b => simp [kind]
  | string s => simp [kind]
  | _ => cases h

theorem index_own_key (h : Table.Sound t) (he : e ∈ t) (m stamp : Stamp) :
    index m (.hash stamp t) e.key = e.value := by
  simp [index, h.keyed e he, h.distinct.find? he]

end Value

end Marmoset
