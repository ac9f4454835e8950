import Mathlib.Data.List.Basic
import Mathlib.Data.List.Induction
import Marmoset.Proofs.Store

namespace Marmoset.Store

inductive Act where
  | root
  | child (i : ScopeId)
  | bind (i : ScopeId) (name : String) (v : Value)
  | lookup (i : ScopeId) (name : String)

inductive Reply where
  | scope (i : ScopeId)
  | value (v : Option Value)

def perform (s : Store) : Act → Reply × Store
  | .root => (.scope s.root.1, s.root.2)
  | .child i => (.scope (s.child i).1, (s.child i).2)
  | .bind i name v => (.value (some v), s.bind i name v)
  | .lookup i name => (.value (s.find? i name), s)

def performed (s : Store) : List Act → Store
  | [] => s
  | a :: acts => (s.perform a).2.performed acts

def replies (s : Store) : List Act → List Reply
  | [] => []
  | a :: acts => (s.perform a).1 :: (s.perform a).2.replies acts

section Run

variable (s : Store) (as bs : List Act)

theorem performed_append : s.performed (as ++ bs) = (s.performed as).performed bs := by
  induction as generalizing s with
  | nil => rfl
  | cons a as ih => exact ih _

theorem length_replies : (s.replies as).length = as.length := by
  induction as generalizing s with
  | nil => rfl
  | cons a as ih => exact congrArg Nat.succ (ih _)

theorem replies_append : s.replies (as ++ bs) = s.replies as ++ (s.performed as).replies bs := by
  induction as generalizing s with
  | nil => rfl
  | cons a as ih => exact congrArg (_ :: ·) (ih _)

end Run

section History

def Act.outer? : Act → Option (Option ScopeId)
  | .root => some none
  | .child i => some (some i)
  | _ => none

def outers (acts : List Act) : List (Option ScopeId) := acts.filterMap Act.outer?

def Act.scopes : Act → List ScopeId
  | .root => []
  | .child i | .bind i _ _ | .lookup i _ => [i]

/-- Every act is about scopes that were made before it; there are `n` of them at the start. -/
def Known (n : Nat) : List Act → Prop
  | [] => True
  | a :: acts => (∀ i ∈ a.scopes, i < n) ∧ Known (n + (outers [a]).length) acts

def Act.bound? (i : ScopeId) (name : String) : Act → Option Value
  | .bind j x v => if j = i ∧ x = name then some v else none
  | _ => none

def latest (acts : List Act) (i : ScopeId) (name : String) : Option Value :=
  acts.reverse.findSome? (Act.bound? i name)

def Unbound (acts : List Act) (i : ScopeId) (name : String) : Prop := ∀ v, .bind i name v ∉ acts

def Latest (acts : List Act) (i : ScopeId) (name : String) (v : Value) : Prop :=
  ∃ before after, acts = before ++ .bind i name v :: after ∧ Unbound after i name

inductive Outwards (acts : List Act) : ScopeId → List ScopeId → Prop where
  | last {i : ScopeId} : (outers acts)[i]? = some none → Outwards acts i [i]
  | further {i j : ScopeId} {js : List ScopeId} :
      (outers acts)[i]? = some (some j) → Outwards acts j js → Outwards acts i (i :: js)

instance decidableKnown : (n : Nat) → (acts : List Act) → Decidable (Known n acts)
  | _, [] => .isTrue trivial
  | _, a :: acts => @instDecidableAnd _ _ (List.decidableBAll _ a.scopes) (decidableKnown _ acts)

variable {acts before after : List Act} {i j : ScopeId} {name : String} {v : Value}

theorem bound?_eq_some {a : Act} : a.bound? i name = some v ↔ a = .bind i name v := by
  cases a with
  | bind j x w => simp [Act.bound?, and_assoc]
  | root | child _ | lookup _ _ => simp [Act.bound?]

theorem bound?_eq_none {a : Act} : a.bound? i name = none ↔ ∀ v, a ≠ .bind i name v := by
  simp only [Option.eq_none_iff_forall_ne_some, ne_eq, bound?_eq_some]

theorem latest_append : latest (before ++ after) i name = (latest after i name).or (latest before i name) := by
  rw [latest, List.reverse_append, List.findSome?_append]
  rfl

theorem latest_singleton (a : Act) : latest [a] i name = a.bound? i name := by
  rw [latest, List.reverse_singleton, List.findSome?_singleton]

theorem latest_eq_none : latest acts i name = none ↔ Unbound acts i name := by
  simp only [latest, List.findSome?_eq_none_iff, List.mem_reverse, bound?_eq_none, Unbound]
  constructor
  · intro h v hv
    exact h _ hv v rfl
  · rintro h a ha v rfl
    exact h v ha

theorem latest_eq_some : latest acts i name = some v ↔ Latest acts i name v := by
  simp only [latest, List.findSome?_eq_some_iff, bound?_eq_some, bound?_eq_none]
  constructor
  · rintro ⟨after, a, before, hacts, rfl, hafter⟩
    refine ⟨before.reverse, after.reverse, ?_, ?_⟩
    · rw [← List.reverse_reverse acts, hacts, List.reverse_append, List.reverse_cons, List.append_assoc,
        List.singleton_append]
    · intro w hw
      exact hafter _ (List.mem_reverse.mp hw) w rfl
  · rintro ⟨before, after, rfl, hafter⟩
    refine ⟨after.reverse, _, before.reverse, ?_, rfl, ?_⟩
    · rw [List.reverse_append, List.reverse_cons, List.append_assoc, List.singleton_append]
    · rintro a ha w rfl
      exact hafter w (List.mem_reverse.mp ha)

theorem outers_append : outers (before ++ after) = outers before ++ outers after := List.filterMap_append ..

theorem known_append {n : Nat} :
    Known n (before ++ after) ↔ Known n before ∧ Known (n + (outers before).length) after := by
  induction before generalizing n with
  | nil => simp [Known, outers]
  | cons a before ih =>
      have houters : (outers (a :: before)).length = (outers [a]).length + (outers before).length := by
        rw [← List.length_append, ← outers_append, List.singleton_append]
      rw [List.cons_append, Known, Known, ih, houters, Nat.add_assoc, and_assoc]

theorem Known.left (h : Known 0 (before ++ after)) : Known 0 before := (known_append.mp h).1

theorem Known.next {a : Act} (h : Known 0 (before ++ a :: after)) (hi : i ∈ a.scopes) :
    i < (outers before).length := by
  have hi := (known_append.mp h).2.1 i hi
  rwa [Nat.zero_add] at hi

theorem Known.unmade (h : Known 0 acts) (hi : (outers acts).length ≤ i) (name : String) : Unbound acts i name := by
  intro v hv
  obtain ⟨before, after, rfl⟩ := List.append_of_mem hv
  have hlt : i < (outers before).length := h.next List.mem_cons_self
  rw [outers_append, List.length_append] at hi
  exact Nat.not_lt_of_le ((Nat.le_add_right _ _).trans hi) hlt

theorem outer?_eq_some {a : Act} : a.outer? = some (some j) ↔ a = .child j := by
  cases a <;> simp [Act.outer?]

/-- A scope lies inside an older one, so that the way outwards comes to an end. -/
theorem Known.older (h : Known 0 acts) (hi : (outers acts)[i]? = some (some j)) : j < i := by
  induction acts using List.reverseRecOn with
  | nil => simp [outers] at hi
  | append_singleton acts a ih =>
      rw [outers_append] at hi
      by_cases hlt : i < (outers acts).length
      · rw [List.getElem?_append_left hlt] at hi
        exact ih h.left hi
      · rw [List.getElem?_append_right (Nat.le_of_not_lt hlt)] at hi
        obtain ⟨b, hb, hout⟩ := List.mem_filterMap.mp (List.mem_of_getElem? hi)
        obtain rfl := List.mem_singleton.mp hb
        obtain rfl := outer?_eq_some.mp hout
        exact Nat.lt_of_lt_of_le (h.next List.mem_cons_self) (Nat.le_of_not_lt hlt)

theorem Known.outwards (h : Known 0 acts) (hi : i < (outers acts).length) : ∃ js, Outwards acts i js := by
  induction i using Nat.strongRecOn with
  | _ i ih =>
      cases hout : (outers acts)[i] with
      | none => exact ⟨[i], .last (List.getElem?_eq_some_iff.mpr ⟨hi, hout⟩)⟩
      | some j =>
          have hget : (outers acts)[i]? = some (some j) := List.getElem?_eq_some_iff.mpr ⟨hi, hout⟩
          have hj := h.older hget
          obtain ⟨js, hjs⟩ := ih j hj (hj.trans hi)
          exact ⟨i :: js, .further hget hjs⟩

end History

section Records

/-- The store has the scopes that were made, each with the latest values that it was given. -/
structure Records (acts : List Act) (s : Store) : Prop where
  outers_eq : outers acts = s.scopes.toList.map Scope.outer
  found {i : ScopeId} {sc : Scope} : s.scopes[i]? = some sc → ∀ name, sc.find? name = latest acts i name

variable {acts : List Act} {s : Store} {i : ScopeId} {name : String}

theorem Records.length_eq (h : Records acts s) : (outers acts).length = s.scopes.size := by
  rw [h.outers_eq, List.length_map, Array.length_toList]

theorem Records.push (h : Records acts s) (hk : Known 0 acts) {a : Act} {outer : Option ScopeId}
    (ha : a.outer? = some outer) : Records (acts ++ [a]) (s.push outer).2 where
  outers_eq := by
    have hone : outers [a] = [outer] := by simp [outers, ha]
    rw [outers_append, hone, h.outers_eq]
    simp [Store.push]
  found {i sc} hsc name := by
    have hnew (i : ScopeId) : latest [a] i name = none := by
      rw [latest_singleton, bound?_eq_none]
      rintro v rfl
      cases ha
    rw [latest_append, hnew, Option.none_or]
    rw [Store.push, Array.getElem?_push] at hsc
    split at hsc
    · cases hsc
      exact (latest_eq_none.mpr (hk.unmade (h.length_eq.trans ‹i = _›.symm).le name)).symm
    · exact h.found hsc name

theorem Records.bind (h : Records acts s) (i : ScopeId) (name : String) (v : Value) :
    Records (acts ++ [.bind i name v]) (s.bind i name v) where
  outers_eq := by
    have hnone : outers [.bind i name v] = [] := rfl
    rw [outers_append, hnone, List.append_nil, h.outers_eq]
    apply List.ext_getElem?
    intro j
    simp only [List.getElem?_map, Array.getElem?_toList, Store.bind, Array.getElem?_modify]
    split
    · rw [Option.map_map]
      rfl
    · rfl
  found {j sc} hsc x := by
    rw [latest_append, latest_singleton, Act.bound?]
    rw [Store.bind, Array.getElem?_modify] at hsc
    split at hsc
    · rename_i hij
      obtain ⟨old, hold, rfl⟩ := Option.map_eq_some_iff.mp hsc
      rw [Scope.find?_bind, h.found hold]
      by_cases hx : x = name
      · rw [if_pos hx, if_pos ⟨hij, hx.symm⟩, Option.some_or]
      · rw [if_neg hx, if_neg fun hb => hx hb.2.symm, Option.none_or]
    · rename_i hij
      rw [if_neg fun hb => hij hb.1, Option.none_or, h.found hsc]

theorem Records.step (h : Records acts s) {a : Act} (hk : Known 0 (acts ++ [a])) :
    Records (acts ++ [a]) (s.perform a).2 := by
  cases a with
  | root => exact h.push hk.left rfl
  | child i => exact h.push hk.left rfl
  | bind i name v => exact h.bind i name v
  | lookup i name =>
      have hnone : outers [.lookup i name] = [] := rfl
      refine ⟨?_, fun hsc x => ?_⟩
      · rw [outers_append, hnone, List.append_nil]
        exact h.outers_eq
      · rw [latest_append, latest_singleton]
        exact h.found hsc x

theorem records_performed (hk : Known 0 acts) : Records acts (empty.performed acts) := by
  induction acts using List.reverseRecOn with
  | nil =>
      refine ⟨rfl, fun hsc => ?_⟩
      cases hsc
  | append_singleton acts a ih =>
      rw [performed_append]
      exact (ih hk.left).step hk

theorem Records.outer (h : Records acts s) {outer : Option ScopeId} (hi : (outers acts)[i]? = some outer) :
    ∃ sc, s.scopes[i]? = some sc ∧ sc.outer = outer := by
  rwa [h.outers_eq, List.getElem?_map, Array.getElem?_toList, Option.map_eq_some_iff] at hi

/-- The way outwards in a loop that stops only where it finds the name or where no scope is left. -/
inductive Walks (s : Store) (name : String) : ScopeId → Option Value → Prop where
  | found {i : ScopeId} {sc : Scope} {v : Value} :
      s.scopes[i]? = some sc → sc.find? name = some v → Walks s name i (some v)
  | last {i : ScopeId} {sc : Scope} :
      s.scopes[i]? = some sc → sc.find? name = none → sc.outer = none → Walks s name i none
  | further {i j : ScopeId} {sc : Scope} {r : Option Value} :
      s.scopes[i]? = some sc → sc.find? name = none → sc.outer = some j → Walks s name j r → Walks s name i r

theorem Records.find? (h : Records acts s) (hk : Known 0 acts) {js : List ScopeId} (hjs : Outwards acts i js)
    (name : String) : s.find? i name = js.findSome? (latest acts · name) := by
  induction hjs with
  | last hi =>
      obtain ⟨sc, hsc, hout⟩ := h.outer hi
      rw [find?_eq, hsc, Option.bind_some, hout, Option.bind_none, Option.or_none, h.found hsc,
        List.findSome?_singleton]
  | @further i j js hi _ ih =>
      obtain ⟨sc, hsc, hout⟩ := h.outer hi
      rw [find?_eq, hsc, Option.bind_some, hout, Option.bind_some, if_pos (hk.older hi), h.found hsc, ih,
        List.findSome?_cons]
      cases latest acts i name <;> rfl

theorem Records.walks (h : Records acts s) {js : List ScopeId} (hjs : Outwards acts i js) (name : String) :
    Walks s name i (js.findSome? (latest acts · name)) := by
  induction hjs with
  | @last i hi =>
      obtain ⟨sc, hsc, hout⟩ := h.outer hi
      have hfound := h.found hsc name
      rw [List.findSome?_singleton]
      cases hv : latest acts i name with
      | some v => exact .found hsc (hfound.trans hv)
      | none => exact .last hsc (hfound.trans hv) hout
  | @further i j js hi _ ih =>
      obtain ⟨sc, hsc, hout⟩ := h.outer hi
      have hfound := h.found hsc name
      rw [List.findSome?_cons]
      cases hv : latest acts i name with
      | some v => exact .found hsc (hfound.trans hv)
      | none => exact .further hsc (hfound.trans hv) hout ih

theorem find?_performed (hk : Known 0 acts) {js : List ScopeId} (hjs : Outwards acts i js) (name : String) :
    (empty.performed acts).find? i name = js.findSome? (latest acts · name) :=
  (records_performed hk).find? hk hjs name

end Records

section Shows

variable {before later : List Act} {i j : ScopeId} {js : List ScopeId} {name : String} {v : Value}

def Shows (acts later : List Act) (js : List ScopeId) (j : ScopeId) (name : String) : Prop :=
  Unbound later j name ∧ ∃ inner outer, js = inner ++ j :: outer ∧ ∀ k ∈ inner, Unbound acts k name

theorem Shows.findSome? (h : Shows (before ++ .bind j name v :: later) later js j name) :
    js.findSome? (latest (before ++ .bind j name v :: later) · name) = some v := by
  obtain ⟨hlater, inner, outer, rfl, hinner⟩ := h
  rw [List.findSome?_eq_some_iff]
  exact ⟨inner, j, outer, rfl, latest_eq_some.mpr ⟨before, later, rfl, hlater⟩,
    fun k hk => latest_eq_none.mpr (hinner k hk)⟩

theorem latest_without {k : ScopeId} (h : k ≠ j ∨ ¬Unbound later k name) :
    latest (before ++ .bind j name v :: later) k name = latest (before ++ later) k name := by
  rw [← List.singleton_append, latest_append, latest_append, latest_append, latest_singleton]
  rcases h with hk | hbound
  · have hnone : (Act.bind j name v).bound? k name = none := if_neg fun hb => hk hb.1.symm
    rw [hnone, Option.or_none]
  · obtain ⟨w, hw⟩ := Option.ne_none_iff_exists'.mp fun hnone => hbound (latest_eq_none.mp hnone)
    rw [hw, Option.some_or]

theorem findSome?_without (h : ¬Shows (before ++ .bind j name v :: later) later js j name) :
    js.findSome? (latest (before ++ .bind j name v :: later) · name) =
      js.findSome? (latest (before ++ later) · name) := by
  by_cases hlater : Unbound later j name
  · -- the way comes to another value before it comes to `j`, or not to `j` at all
    induction js with
    | nil => rfl
    | cons k js ih =>
        have hk : k ≠ j := by
          rintro rfl
          exact h ⟨hlater, [], js, rfl, List.forall_mem_nil _⟩
        rw [List.findSome?_cons, List.findSome?_cons, latest_without (.inl hk)]
        cases hnear : latest (before ++ later) k name with
        | some w => rfl
        | none =>
            refine ih fun hshows => h ⟨hlater, ?_⟩
            obtain ⟨-, inner, outer, rfl, hinner⟩ := hshows
            have hnone := (latest_without (v := v) (.inl hk)).trans hnear
            exact ⟨k :: inner, outer, rfl, List.forall_mem_cons.mpr ⟨latest_eq_none.mp hnone, hinner⟩⟩
  · congr 1
    funext k
    apply latest_without
    by_cases hk : k = j
    · exact .inr (hk ▸ hlater)
    · exact .inl hk

theorem Known.without (h : Known 0 (before ++ .bind j name v :: later)) : Known 0 (before ++ later) := by
  obtain ⟨hbefore, -, hlater⟩ := known_append.mp h
  exact known_append.mpr ⟨hbefore, hlater⟩

theorem outers_without : outers (before ++ .bind j name v :: later) = outers (before ++ later) := by
  rw [← List.singleton_append, outers_append, outers_append, outers_append]
  rfl

theorem Outwards.congr {acts acts' : List Act} (houters : outers acts = outers acts') (h : Outwards acts i js) :
    Outwards acts' i js := by
  induction h with
  | last hi => exact .last (houters ▸ hi)
  | further hi _ ih => exact .further (houters ▸ hi) ih

def Act.bindsIn (js : List ScopeId) : Act → Bool
  | .bind j _ _ => j ∈ js
  | _ => false

theorem latest_filter (hj : j ∈ js) (acts : List Act) (name : String) :
    latest (acts.filter (Act.bindsIn js)) j name = latest acts j name := by
  have hrest (a : Act) : (if a.bindsIn js = true then a.bound? j name else none) = a.bound? j name := by
    rw [ite_eq_left_iff]
    intro hout
    rw [eq_comm, bound?_eq_none]
    rintro v rfl
    exact hout (decide_eq_true hj)
  rw [latest, ← List.filter_reverse, ← List.head?_filterMap, List.filterMap_filter, funext hrest, List.head?_filterMap]
  rfl

theorem findSome?_of_filter {acts acts' : List Act}
    (h : acts.filter (Act.bindsIn js) = acts'.filter (Act.bindsIn js)) (name : String) :
    js.findSome? (latest acts · name) = js.findSome? (latest acts' · name) := by
  rw [← List.head?_filterMap, ← List.head?_filterMap]
  refine congrArg List.head? (List.filterMap_congr fun j hj => ?_)
  rw [← latest_filter hj acts, h, latest_filter hj]

end Shows

/-- Scopes over time. In whatever order scopes are made, names are bound and looked up: a lookup comes to its end, on the
way from its scope outwards, and gives the latest value for the name in the nearest scope that was given one, or none if
no scope on the way was. So a value shows to just those scopes that have its scope on their way and no value nearer by,
however old they are; and what is done in scopes off the way makes no difference. -/
theorem lookups_see_latest_nearest {acts : List Act} (hacts : Known 0 acts) :
    (∀ before i name after, acts = before ++ .lookup i name :: after →
      ∃ js r, Outwards before i js ∧ (empty.replies acts)[before.length]? = some (.value r) ∧
        Walks (empty.performed before) name i r ∧
        (∀ v, r = some v ↔ ∃ inner j outer, js = inner ++ j :: outer ∧ (∀ k ∈ inner, Unbound before k name) ∧
          Latest before j name v) ∧
        (r = none ↔ ∀ j ∈ js, Unbound before j name)) ∧
    (∀ before j name v later, acts = before ++ .bind j name v :: later → ∀ i js, Outwards acts i js →
      (Shows acts later js j name → (empty.performed acts).find? i name = some v) ∧
      (¬Shows acts later js j name →
        (empty.performed acts).find? i name = (empty.performed (before ++ later)).find? i name)) ∧
    ∀ acts' i js, Known 0 acts' → Outwards acts i js → Outwards acts' i js →
      acts.filter (Act.bindsIn js) = acts'.filter (Act.bindsIn js) →
      ∀ name, (empty.performed acts).find? i name = (empty.performed acts').find? i name := by
  refine ⟨?_, ?_, ?_⟩
  · rintro before i name after rfl
    have hbefore := hacts.left
    obtain ⟨js, hjs⟩ := hbefore.outwards (hacts.next List.mem_cons_self)
    have hfind := find?_performed hbefore hjs name
    refine ⟨js, js.findSome? (latest before · name), hjs, ?_, (records_performed hbefore).walks hjs name, ?_, ?_⟩
    · rw [replies_append, List.getElem?_append_right (length_replies ..).le, length_replies, Nat.sub_self, ← hfind]
      rfl
    · intro v
      simp only [List.findSome?_eq_some_iff, latest_eq_none, latest_eq_some]
      simp only [and_comm (b := Latest _ _ _ _)]
    · simp only [List.findSome?_eq_none_iff, latest_eq_none]
  · rintro before j name v later rfl i js hjs
    rw [find?_performed hacts hjs, find?_performed hacts.without (hjs.congr outers_without)]
    exact ⟨fun hshows => hshows.findSome?, findSome?_without⟩
  · intro acts' i js hacts' hjs hjs' hsame name
    rw [find?_performed hacts hjs, find?_performed hacts' hjs']
    exact findSome?_of_filter hsame name

theorem lookups_see_latest_nearest_older :
    let before : List Act := [.root, .child 0, .child 0, .bind 2 "x" (.integer 2)]
    let later : List Act := [.lookup 1 "x", .lookup 2 "x"]
    let acts := before ++ .bind 0 "x" (.integer 1) :: later
    Known 0 acts ∧ Shows acts later [1, 0] 0 "x" ∧ ¬Shows acts later [2, 0] 0 "x" ∧
      (empty.performed acts).find? 1 "x" = some (.integer 1) ∧
      (empty.performed acts).find? 2 "x" = (empty.performed (before ++ later)).find? 2 "x" := by
  intro before later acts
  have hknown : Known 0 acts := by decide
  have hfirst : Outwards acts 1 [1, 0] := .further rfl (.last rfl)
  have hsecond : Outwards acts 2 [2, 0] := .further rfl (.last rfl)
  have hshows : Shows acts later [1, 0] 0 "x" := by
    refine ⟨?_, [1], [], rfl, ?_⟩
    · simp [Unbound, later]
    · simp [Unbound, acts, before, later]
  have hhidden : ¬Shows acts later [2, 0] 0 "x" := by
    rintro ⟨-, inner, outer, hway, hinner⟩
    cases inner with
    | nil => cases hway
    | cons k inner =>
        obtain ⟨rfl, -⟩ := List.cons.inj hway
        exact hinner 2 List.mem_cons_self (.integer 2) (by simp [acts, before])
  obtain ⟨-, hbind, -⟩ := lookups_see_latest_nearest hknown
  exact ⟨hknown, hshows, hhidden, (hbind before 0 "x" _ later rfl 1 _ hfirst).1 hshows,
    (hbind before 0 "x" _ later rfl 2 _ hsecond).2 hhidden⟩

end Marmoset.Store
