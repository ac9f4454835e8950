import Marmoset.Proofs.Session
import Marmoset.Proofs.Value.Table

namespace Marmoset

namespace Value

def Keyed : Value → Prop
  | .hash _ t => Table.Sound t
  | _ => True

def Sound : Value → Prop := Every Keyed

theorem keyed_of_kind {v : Value} (h : v.kind ≠ .hash) : v.Keyed := by
  cases v with
  | hash stamp t => exact absurd rfl h
  | _ => trivial

theorem lawful_sound : Lawful (fun _ => True) (fun t => Table.Sound t ∧ EachEntry Sound t) Sound where
  toStable := stable_every (fun _ hv _ => keyed_of_kind hv) Iff.rfl Table.sound_nil
    (fun ht hid => ht.insert hid _) Table.Sound.union fun ht => ht.minus _
  function := (every_atom rfl).trans (iff_of_true trivial (Node.every_of_forall (fun _ => trivial) _))

end Value

theorem Eval.lawful_sound (s : Setting) : Eval.Lawful s (fun _ => True)
    (fun t => Table.Sound t ∧ Value.EachEntry Value.Sound t) Value.Sound where
  toLawful := Value.lawful_sound
  literal _ := (Value.every_atom rfl).mpr trivial
  builtin _ := (Value.every_atom rfl).mpr trivial
  length _ _ := (Value.every_atom rfl).mpr trivial

namespace Session

/-- Once the texts have been run the value is there: it is in the value of one of them, or in a value
that is bound, in whatever scope. -/
def Reaches (s : Session) (texts : List String) (v : Value) : Prop :=
  ∃ w, v.Inside w ∧ (.value w ∈ (s.runAll texts).1 ∨
    ∃ sc ∈ (s.runAll texts).2.store.scopes, ∃ name, (name, w) ∈ sc.bindings)

theorem Reaches.every {s : Session} {texts : List String} {p : Value → Prop} {v : Value}
    (h : s.Reaches texts v) (hvalues : ∀ w, .value w ∈ (s.runAll texts).1 → Value.Every p w)
    (hstore : (s.runAll texts).2.store.Holds (Value.Every p)) : Value.Every p v := by
  obtain ⟨w, hinside, hw | ⟨sc, hsc, name, hb⟩⟩ := h
  · exact (hvalues w hw).every_inside hinside
  · exact (hstore sc hsc (name, w) hb).every_inside hinside

theorem reached_sound {setting : Setting} {texts : List String} {v : Value}
    (h : (start setting).Reaches texts v) : v.Sound := by
  obtain ⟨hverdicts, hstore⟩ := runAll_keeps (Eval.lawful_sound (start setting).setting)
    (fun _ _ => trivial) (fun _ hv => Value.every_returned.mpr ⟨trivial, hv⟩) (start_holds setting) texts
  refine h.every (fun w hw => ?_) hstore
  rcases hverdicts _ hw with hmade | ⟨f, rfl⟩
  · exact hmade
  · exact (Value.every_atom rfl).mpr trivial

theorem Reaches.sound {setting : Setting} {texts : List String} {stamp : Stamp} {t : Table Value}
    (h : (start setting).Reaches texts (.hash stamp t)) : Table.Sound t :=
  (Value.every_iff.mp (reached_sound h)).1

/-- A hash that texts make, wherever it is kept: its entries have different keys, and each has the key
of the number, truth value or text in it. So each entry is what its own key leads to, the hash without
itself is empty, and the hash with itself added has the same entries in the same order. -/
theorem hashes_hold_own_keys {setting : Setting} {texts : List String} {stamp : Stamp} {t : Table Value}
    (h : (start setting).Reaches texts (.hash stamp t)) :
    (t.map Entry.id).Nodup ∧
    (∀ e ∈ t, e.key.key? = some e.id ∧ e.key.kind ∈ [Value.Kind.integer, .boolean, .string] ∧
      ∀ m, Value.index m (.hash stamp t) e.key = e.value) ∧
    ∀ depth m, Value.binary depth m .sub (.hash stamp t) (.hash stamp t) = some (.hash m []) ∧
      Value.binary depth m .add (.hash stamp t) (.hash stamp t) = some (.hash m t) := by
  have hsound := h.sound
  refine ⟨hsound.distinct, fun e he => ?_, fun depth m => ⟨?_, ?_⟩⟩
  · have hkey := hsound.keyed e he
    exact ⟨hkey, Value.kind_of_key hkey, fun m => Value.index_own_key hsound he m stamp⟩
  · exact congrArg (fun t => some (Value.hash m t)) (Table.minus_self t)
  · exact congrArg (fun t => some (Value.hash m t)) (hsound.distinct.union_of_subset fun _ he => he)

theorem hashes_hold_own_keys_overwritten :
    let setting : Setting := ⟨[], 9, 9⟩
    let texts := ["let a = [\x7b1: 2, true: 3, 1: 4\x7d + \x7b1: 5\x7d]"]
    let t : Table Value :=
      [⟨.integer 1, .integer 1, .integer 5⟩, ⟨.boolean true, .boolean true, .integer 3⟩]
    (start setting).Reaches texts (.hash 3 t) ∧
      Value.index 7 (.hash 3 t) (.integer 1) = .integer 5 ∧
      Value.binary 9 7 .add (.hash 3 t) (.hash 3 t) = some (.hash 7 t) := by
  intro setting texts t
  have hverdicts : ((start setting).runAll texts).1 = [.value (.array 4 [.hash 3 t])] := by cbv
  have hreached : (start setting).Reaches texts (.hash 3 t) := by
    refine ⟨.array 4 [.hash 3 t], .part .self (List.mem_singleton_self _), .inl ?_⟩
    rw [hverdicts]
    exact List.mem_singleton_self _
  obtain ⟨-, hentries, hself⟩ := hashes_hold_own_keys hreached
  obtain ⟨-, -, hindex⟩ := hentries ⟨.integer 1, .integer 1, .integer 5⟩ List.mem_cons_self
  exact ⟨hreached, hindex 7, (hself 9 7).2⟩

end Session

end Marmoset
