import Mathlib.Data.List.Forall2
import Mathlib.Data.List.Perm.Subperm
import Marmoset.Proofs.Hashes
import Marmoset.Proofs.Value.Equal
import Marmoset.Proofs.Value.Union

/-!
Equality is an equivalence. Arrays and hashes with one stamp count as equal at once, which is right
as long as a stamp stands for one value only; a ledger says for which.
-/

namespace Marmoset

abbrev Ledger := Stamp → Option Value

namespace Value

def stamp? : Value → Option Stamp
  | .array m _ | .hash m _ => some m
  | _ => none

def Listed (L : Ledger) : Value → Prop := Every fun v => ∀ m, v.stamp? = some m → L m = some v

def DoubleFree : Value → Prop := Every fun v => v.kind ≠ .double

variable {L : Ledger} {u v w : Value}

theorem Listed.eq {m : Stamp} (hv : v.Listed L) (hw : w.Listed L) (hvm : v.stamp? = some m)
    (hwm : w.stamp? = some m) : v = w := by
  have hlisted := (every_iff.mp hv).1 m hvm
  rw [(every_iff.mp hw).1 m hwm] at hlisted
  exact (Option.some.inj hlisted).symm

section Parts

variable {R : Value → Value → Prop} {xs ys zs : List Value} {r s t : Table Value}

theorem forall₂_symm (h : List.Forall₂ R xs ys) (hsymm : ∀ x ∈ xs, ∀ y, R x y → R y x) :
    List.Forall₂ R ys xs := by
  induction h with
  | nil => exact .nil
  | cons hxy _ ih =>
      obtain ⟨hx, hxs⟩ := List.forall_mem_cons.mp hsymm
      exact .cons (hx _ hxy) (ih hxs)

theorem forall₂_trans (h : List.Forall₂ R xs ys) (h' : List.Forall₂ R ys zs)
    (htrans : ∀ x ∈ xs, ∀ y ∈ ys, ∀ z ∈ zs, R x y → R y z → R x z) : List.Forall₂ R xs zs := by
  induction h generalizing zs with
  | nil => exact h'
  | cons hxy _ ih =>
      cases h' with
      | cons hyz hrest =>
          refine .cons (htrans _ (by simp) _ (by simp) _ (by simp) hxy hyz) (ih hrest ?_)
          intro x hx y hy z hz
          exact htrans x (.tail _ hx) y (.tail _ hy) z (.tail _ hz)

theorem under_symm (hs : s.Distinct) (hlen : s.length = t.length) (h : Under R s t)
    (hsymm : ∀ e ∈ s, ∀ w, (R e.key w → R w e.key) ∧ (R e.value w → R w e.value)) : Under R t s := by
  have hsub : s.map Entry.id ⊆ t.map Entry.id := by
    intro k hk
    obtain ⟨e, he, rfl⟩ := List.mem_map.mp hk
    obtain ⟨f, hf, -⟩ := h e he
    exact Table.has_iff.mp (Option.isSome_of_eq_some hf)
  have hperm : (s.map Entry.id).Perm (t.map Entry.id) :=
    (hs.subperm hsub).perm_of_length_le (by simp [hlen])
  have ht : t.Distinct := hperm.nodup hs
  intro f hf
  obtain ⟨e, he, hid⟩ := List.mem_map.mp (hperm.mem_iff.mpr (List.mem_map_of_mem hf))
  obtain ⟨f', hf', hkey, hvalue⟩ := h e he
  rw [hid, ht.find? hf] at hf'
  obtain rfl := Option.some.inj hf'
  exact ⟨e, hid ▸ hs.find? he, (hsymm e he f.key).1 hkey, (hsymm e he f.value).2 hvalue⟩

theorem under_trans (h : Under R r s) (h' : Under R s t)
    (htrans : ∀ e ∈ r, ∀ f ∈ s, ∀ g ∈ t, (R e.key f.key → R f.key g.key → R e.key g.key) ∧
      (R e.value f.value → R f.value g.value → R e.value g.value)) : Under R r t := by
  intro e he
  obtain ⟨f, hf, hkey, hvalue⟩ := h e he
  obtain ⟨hfs, hid⟩ := Table.of_find? hf
  obtain ⟨g, hg, hkey', hvalue'⟩ := h' f hfs
  obtain ⟨hkeys, hvalues⟩ := htrans e he f hfs g (Table.of_find? hg).1
  exact ⟨g, hid ▸ hg, hkeys hkey hkey', hvalues hvalue hvalue'⟩

end Parts

section Equivalence

theorem equal_refl (h : v.DoubleFree) : Equal v v := by
  induction h with
  | @mk v hv _ ih =>
      apply equal_iff.mpr
      cases v with
      | double s x => exact absurd rfl hv
      | array s xs => exact .oneArray s
      | hash s t => exact .oneHash s
      | returned v => exact .returned (ih v (List.mem_singleton_self v))
      | error f => exact .error rfl
      | _ => constructor

theorem equal_symm (hd : v.DoubleFree) (hs : v.Sound) (h : Equal v w) : Equal w v := by
  induction hd generalizing w with
  | @mk v hv _ ih =>
      have hparts (x : Value) (hx : x ∈ v.parts) (y : Value) (hxy : Equal x y) : Equal y x :=
        ih x hx (hs.part hx) hxy
      apply equal_iff.mpr
      cases equal_iff.mp h with
      | double hxy => exact absurd rfl hv
      | array hxs => exact .array (forall₂_symm hxs hparts)
      | @hash s s' t u hlen ht =>
          have hdistinct : t.Distinct := (every_iff.mp hs).1.distinct
          refine .hash hlen.symm (under_symm hdistinct hlen ht fun e he w => ?_)
          exact ⟨hparts _ (mem_parts_hash he s).1 w, hparts _ (mem_parts_hash he s).2 w⟩
      | returned hvw => exact .returned (hparts _ (List.mem_singleton_self _) _ hvw)
      | error hfg => exact .error hfg.symm
      | _ => constructor

theorem equal_trans (hd : u.DoubleFree) (hu : u.Listed L) (hv : v.Listed L) (hw : w.Listed L)
    (huv : Equal u v) (hvw : Equal v w) : Equal u w := by
  induction hd generalizing v w with
  | @mk u hdouble _ ih =>
      have hparts (x : Value) (hx : x ∈ u.parts) (y : Value) (hy : y ∈ v.parts) (z : Value)
          (hz : z ∈ w.parts) (hxy : Equal x y) (hyz : Equal y z) : Equal x z :=
        ih x hx (hu.part hx) (hv.part hy) (hw.part hz) hxy hyz
      have hone {m : Stamp} (hm : u.stamp? = some m) (hm' : v.stamp? = some m) : Equal u w :=
        hu.eq hv hm hm' ▸ hvw
      have hone' {m : Stamp} (hm : v.stamp? = some m) (hm' : w.stamp? = some m) : Equal u w :=
        hv.eq hw hm hm' ▸ huv
      cases equal_iff.mp huv with
      | double hxy => exact absurd rfl hdouble
      | oneArray s => exact hone rfl rfl
      | oneHash s => exact hone rfl rfl
      | array hxs =>
          cases equal_iff.mp hvw with
          | oneArray s => exact hone' rfl rfl
          | array hys => exact equal_iff.mpr (.array (forall₂_trans hxs hys hparts))
      | @hash s s' r t hlen hr =>
          cases equal_iff.mp hvw with
          | oneHash s => exact hone' rfl rfl
          | @hash s' s'' t t' hlen' ht =>
              refine equal_iff.mpr (.hash (hlen.trans hlen') (under_trans hr ht fun e he f hf g hg => ?_))
              exact ⟨hparts _ (mem_parts_hash he s).1 _ (mem_parts_hash hf s').1 _ (mem_parts_hash hg s'').1,
                hparts _ (mem_parts_hash he s).2 _ (mem_parts_hash hf s').2 _ (mem_parts_hash hg s'').2⟩
      | returned hxy =>
          cases equal_iff.mp hvw with
          | returned hyz =>
              refine equal_iff.mpr (.returned (hparts _ ?_ _ ?_ _ ?_ hxy hyz)) <;>
                exact List.mem_singleton_self _
      | error hfg =>
          cases equal_iff.mp hvw with
          | error hgh => exact equal_iff.mpr (.error (hfg.trans hgh))
      | function s =>
          cases equal_iff.mp hvw with
          | function s => exact equal_iff.mpr (.function s)
      | _ => exact hvw

end Equivalence

end Value

end Marmoset
