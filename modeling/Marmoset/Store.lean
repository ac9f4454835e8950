import Marmoset.Value.Operation

namespace Marmoset

structure Scope where
  bindings : List (String × Value)
  outer : Option ScopeId

namespace Scope

def put : List (String × Value) → String → Value → List (String × Value)
  | [], name, v => [(name, v)]
  | (x, w) :: rest, name, v => if x = name then (name, v) :: rest else (x, w) :: put rest name v

def bind (s : Scope) (name : String) (v : Value) : Scope :=
  { s with bindings := put s.bindings name v }

def find? (s : Scope) (name : String) : Option Value :=
  s.bindings.lookup name

theorem lookup_cons (y x : String) (w : Value) (bs : List (String × Value)) :
    ((y, w) :: bs).lookup x = if x = y then some w else bs.lookup x := by
  rw [List.lookup_cons]
  by_cases h : x = y
  · rw [if_pos h, beq_iff_eq.mpr h]
  · rw [if_neg h, beq_eq_false_iff_ne.mpr h]

theorem lookup_put (bs : List (String × Value)) (name x : String) (v : Value) :
    (put bs name v).lookup x = if x = name then some v else bs.lookup x := by
  induction bs with
  | nil => exact lookup_cons name x v []
  | cons b bs ih =>
      obtain ⟨y, w⟩ := b
      rw [put]
      split
      · rename_i hy
        rw [lookup_cons, lookup_cons, hy]
        split <;> rfl
      · rename_i hy
        rw [lookup_cons, lookup_cons, ih]
        by_cases h : x = y
        · rw [if_pos h, if_pos h, if_neg (fun hn => hy (h.symm.trans hn))]
        · rw [if_neg h, if_neg h]

theorem find?_bind (s : Scope) (name x : String) (v : Value) :
    (s.bind name v).find? x = if x = name then some v else s.find? x :=
  lookup_put s.bindings name x v

end Scope

/-- All that a program changes: its scopes, what it has printed, and the stamp of the next value. -/
structure Store where
  scopes : Array Scope
  printed : String
  stamp : Stamp

namespace Store

def empty : Store := ⟨#[], "", Stamp.first⟩

instance : Inhabited Store := ⟨empty⟩

def push (s : Store) (outer : Option ScopeId) : ScopeId × Store :=
  (s.scopes.size, { s with scopes := s.scopes.push ⟨[], outer⟩ })

def root (s : Store) : ScopeId × Store := s.push none

def child (s : Store) (i : ScopeId) : ScopeId × Store := s.push (some i)

def bind (s : Store) (i : ScopeId) (name : String) (v : Value) : Store :=
  { s with scopes := s.scopes.modify i fun sc => sc.bind name v }

def findWithin (s : Store) (name : String) : Nat → ScopeId → Option Value
  | 0, _ => none
  | steps + 1, i =>
      match s.scopes[i]? with
      | none => none
      | some sc =>
          match sc.find? name with
          | some v => some v
          | none => sc.outer.bind fun j => if j < i then findWithin s name steps j else none

/-- The value of a name in the nearest scope, from `i` outwards, that has it. A scope lies inside an
older one, so there are no more than `i` steps outwards. -/
def find? (s : Store) (i : ScopeId) (name : String) : Option Value :=
  s.findWithin name (i + 1) i

end Store

end Marmoset
