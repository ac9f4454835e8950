namespace Marmoset

/-- What tells two keys of a table apart: the number or truth value itself, and the digest of a text. -/
inductive Key where
  | integer (n : Int)
  | boolean (b : Bool)
  | string (digest : Nat)
deriving DecidableEq, Repr, Inhabited

structure Entry (α : Type) where
  id : Key
  key : α
  value : α

/-- Entries in the order in which their keys first came in. -/
abbrev Table (α : Type) := List (Entry α)

namespace Table

variable {α : Type}

def find? (t : Table α) (k : Key) : Option (Entry α) :=
  List.find? (fun e => e.id = k) t

def has (t : Table α) (k : Key) : Bool :=
  (t.find? k).isSome

/-- An entry takes the place of the one with the same key, or comes last. -/
def insert : Table α → Entry α → Table α
  | [], e => [e]
  | x :: t, e => if x.id = e.id then e :: t else x :: insert t e

theorem find?_cons (x : Entry α) (t : Table α) (k : Key) :
    find? (x :: t) k = if x.id = k then some x else find? t k := by
  by_cases h : x.id = k <;> simp [find?, h]

theorem find?_insert (t : Table α) (e : Entry α) (k : Key) :
    (t.insert e).find? k = if e.id = k then some e else t.find? k := by
  induction t with
  | nil => exact find?_cons e [] k
  | cons x t ih =>
      rw [insert]
      split
      · rename_i hx
        rw [find?_cons, find?_cons, hx]
        split <;> rfl
      · rename_i hx
        rw [find?_cons, find?_cons, ih]
        by_cases h : x.id = k
        · rw [if_pos h, if_pos h, if_neg (fun he => hx (h.trans he.symm))]
        · rw [if_neg h, if_neg h]

def ofEntries (es : List (Entry α)) : Table α :=
  es.foldl insert []

def union (t u : Table α) : Table α :=
  u.foldl insert t

def minus (t u : Table α) : Table α :=
  t.filter fun e => !u.has e.id

end Table

end Marmoset
