import CcRpc.LinkList
import CcRpc.Lib.Rings

/-!
# Lists that share a memory (`link_list.c`)

Each function of `link_list.c` on one of many rings: it does to the ring what it does to a ring alone,
and the others stay.
-/

namespace CcRpc

open Chain

variable {ι : Type}

/-- A family of rings of nodes that are in memory. -/
structure Links.Family (l : Links) (head : ι → Nat) (I : Set ι) (lists : ι → List Nat) : Prop where
  rings : Rings l.next l.prev head I lists
  valid : ∀ i ∈ I, ∀ x ∈ head i :: lists i, l.valid x = true

variable {l l' : Links} {head : ι → Nat} {I J : Set ι} {lists : ι → List Nat} {i : ι} {n p x : Nat}
  {ns qs : List Nat}

theorem listNodeInit_frame (h : listNodeInit n l = some l') (hx : x ≠ n) :
    l'.next x = l.next x ∧ l'.prev x = l.prev x := by
  by_cases hn : l.valid n <;> simp [listNodeInit, Links.setNext, Links.setPrev, hn] at h
  subst h
  simp [Function.update_of_ne hx]

theorem listAddNext_frame (h : listAddNext p n l = some l') (hpn : p ≠ n) (hxn : x ≠ n) (hxp : x ≠ p)
    (hnext : x ≠ l.next p) : l'.next x = l.next x ∧ l'.prev x = l.prev x := by
  simp only [listAddNext, Links.setPrev, Links.setNext, Links.getNext, Option.bind_eq_bind,
    Option.bind_eq_some_iff, Option.ite_none_right_eq_some, Option.some.injEq] at h
  obtain ⟨_, ⟨-, rfl⟩, _, ⟨-, rfl⟩, _, ⟨-, rfl⟩, _, ⟨-, rfl⟩, _, ⟨-, rfl⟩, -, rfl⟩ := h
  simp [Function.update_of_ne, hpn, hxn, hxp, hnext]

theorem listAddPrev_frame (h : listAddPrev p n l = some l') (hpn : p ≠ n) (hxn : x ≠ n) (hxp : x ≠ p)
    (hprev : x ≠ l.prev p) : l'.next x = l.next x ∧ l'.prev x = l.prev x := by
  simp only [listAddPrev, Links.setPrev, Links.setNext, Links.getPrev, Option.bind_eq_bind,
    Option.bind_eq_some_iff, Option.ite_none_right_eq_some, Option.some.injEq] at h
  obtain ⟨_, ⟨-, rfl⟩, _, ⟨-, rfl⟩, _, ⟨-, rfl⟩, _, ⟨-, rfl⟩, _, ⟨-, rfl⟩, -, rfl⟩ := h
  simp [Function.update_of_ne, hpn, hxn, hxp, hprev]

theorem listRemove_frame (h : listRemove n l = some l') (hn : l.prev n ≠ n) (hnext : x ≠ l.next n)
    (hprev : x ≠ l.prev n) : l'.next x = l.next x ∧ l'.prev x = l.prev x := by
  simp only [listRemove, Links.setPrev, Links.setNext, Links.getPrev, Links.getNext,
    Option.bind_eq_bind, Option.bind_eq_some_iff, Option.ite_none_right_eq_some, Option.some.injEq] at h
  obtain ⟨_, ⟨-, rfl⟩, _, ⟨-, rfl⟩, _, ⟨-, rfl⟩, _, ⟨-, rfl⟩, _, ⟨-, rfl⟩, -, rfl⟩ := h
  simp [Function.update_of_ne, hn.symm, hnext, hprev]

theorem Links.Family.holds (h : l.Family head I lists) (hi : i ∈ I) : l.Holds (head i) (lists i) :=
  ⟨h.rings.ring i hi, h.valid i hi⟩

theorem Links.Family.subset (h : l.Family head I lists) (hJ : J ⊆ I) : l.Family head J lists :=
  ⟨h.rings.subset hJ, fun i hi => h.valid i (hJ hi)⟩

theorem Links.Family.nodeInit (h : l.Family head I lists) (hn : l.valid n = true)
    (hnew : ∀ j ∈ I, n ∉ head j :: lists j) :
    ∃ l', listNodeInit n l = some l' ∧ l'.valid = l.valid ∧ l'.Family head I lists := by
  obtain ⟨l', hinit, hvalid, -⟩ := listNodeInit_holds hn
  have hsame : ∀ j ∈ I, ∀ x ∈ head j :: lists j, l'.next x = l.next x ∧ l'.prev x = l.prev x := by
    intro j hj x hx
    apply listNodeInit_frame hinit
    rintro rfl
    exact hnew j hj hx
  refine ⟨l', hinit, hvalid, ⟨fun j hj => ?_, h.rings.apart⟩, ?_⟩
  · exact (h.rings.ring j hj).congr (fun x hx => (hsame j hj x hx).1) fun x hx => (hsame j hj x hx).2
  · rw [hvalid]
    exact h.valid

variable [DecidableEq ι]

private theorem Links.Family.valid_update (h : l.Family head I lists)
    (hns : ∀ x ∈ head i :: ns, l.valid x = true) :
    ∀ j ∈ insert i I, ∀ x ∈ head j :: Function.update lists i ns j, l.valid x = true := by
  intro j hj x hx
  by_cases hji : j = i
  · subst hji
    rw [Function.update_self] at hx
    exact hns x hx
  · rw [Function.update_of_ne hji] at hx
    exact h.valid j (hj.resolve_left hji) x hx

theorem Links.Family.newHead (h : l.Family head I lists) (hn : l.valid (head i) = true)
    (hnew : ∀ j ∈ I, j ≠ i → head i ∉ head j :: lists j) :
    ∃ l', listNodeInit (head i) l = some l' ∧ l'.valid = l.valid ∧
      l'.Family head (insert i I) (Function.update lists i []) := by
  obtain ⟨l', hinit, hvalid, hring⟩ := listNodeInit_holds hn
  refine ⟨l', hinit, hvalid, ?_, ?_⟩
  · apply h.rings.update hring.ring
    · intro j hj hji x hx
      apply listNodeInit_frame hinit
      rintro rfl
      exact hnew j hj hji hx
    · intro j hj hji
      simpa using hnew j hj hji
  · rw [hvalid]
    apply h.valid_update
    rw [← hvalid]
    exact hring.valid

section Change

variable (h : l.Family head I lists) (hi : i ∈ I)
include h hi

/-- A function that does its work on the ring `i` does it in the family. -/
private theorem Links.Family.change (hholds : l'.Holds (head i) ns) (hvalid : l'.valid = l.valid)
    (hframe : ∀ j ∈ I, j ≠ i → ∀ x ∈ head j :: lists j, l'.next x = l.next x ∧ l'.prev x = l.prev x)
    (hnew : ∀ x ∈ ns, x ∈ lists i ∨ ∀ j ∈ I, x ∉ head j :: lists j) :
    l'.Family head I (Function.update lists i ns) := by
  refine ⟨h.rings.change hi hholds.ring hframe hnew, ?_⟩
  rw [hvalid, ← Set.insert_eq_of_mem hi]
  apply h.valid_update
  rw [← hvalid]
  exact hholds.valid

omit [DecidableEq ι] in
private theorem Links.Family.ne_ends (hlist : lists i = ns ++ qs) {j : ι} (hj : j ∈ I) (hji : j ≠ i)
    (hx : x ∈ head j :: lists j) : x ≠ ns.getLastD (head i) ∧ x ≠ qs.headD (head i) := by
  have hends := ends_mem (head i) ns qs
  rw [← hlist] at hends
  constructor <;> rintro rfl
  · exact hji (h.rings.eq_of_mem hj hi hx hends.1)
  · exact hji (h.rings.eq_of_mem hj hi hx hends.2)

theorem Links.Family.addNext (hlist : lists i = ns ++ qs) (hn : l.valid n = true)
    (hnew : ∀ j ∈ I, n ∉ head j :: lists j) :
    ∃ l', listAddNext (ns.getLastD (head i)) n l = some l' ∧ l'.valid = l.valid ∧
      l'.Family head I (Function.update lists i (ns ++ n :: qs)) := by
  have hring := h.holds hi
  have hni := hnew i hi
  rw [hlist] at hring hni
  obtain ⟨l', hadd, hvalid, hholds⟩ := listAddNext_holds hring hn hni
  refine ⟨l', hadd, hvalid, h.change hi hholds hvalid ?_ ?_⟩
  · intro j hj hji x hx
    obtain ⟨hlast, hhead⟩ := h.ne_ends hi hlist hj hji hx
    apply listAddNext_frame hadd _ _ hlast
    · rwa [hring.ring.next_getLastD]
    · intro heq
      exact hni (heq ▸ (ends_mem (head i) ns qs).1)
    · rintro rfl
      exact hnew j hj hx
  · intro x hx
    by_cases hxn : x = n
    · subst hxn
      exact .inr hnew
    · left
      rw [hlist]
      simpa [hxn] using hx

theorem Links.Family.addPrev (hlist : lists i = ns ++ qs) (hn : l.valid n = true)
    (hnew : ∀ j ∈ I, n ∉ head j :: lists j) :
    ∃ l', listAddPrev (qs.headD (head i)) n l = some l' ∧ l'.valid = l.valid ∧
      l'.Family head I (Function.update lists i (ns ++ n :: qs)) := by
  have hring := h.holds hi
  have hni := hnew i hi
  rw [hlist] at hring hni
  obtain ⟨l', hadd, hvalid, hholds⟩ := listAddPrev_holds hring hn hni
  refine ⟨l', hadd, hvalid, h.change hi hholds hvalid ?_ ?_⟩
  · intro j hj hji x hx
    obtain ⟨hlast, hhead⟩ := h.ne_ends hi hlist hj hji hx
    apply listAddPrev_frame hadd _ _ hhead
    · rwa [hring.ring.prev_headD]
    · intro heq
      exact hni (heq ▸ (ends_mem (head i) ns qs).2)
    · rintro rfl
      exact hnew j hj hx
  · intro x hx
    by_cases hxn : x = n
    · subst hxn
      exact .inr hnew
    · left
      rw [hlist]
      simpa [hxn] using hx

theorem Links.Family.remove (hlist : lists i = ns ++ n :: qs) :
    ∃ l', listRemove n l = some l' ∧ l'.valid = l.valid ∧
      l'.Family head I (Function.update lists i (ns ++ qs)) := by
  have hring := h.holds hi
  rw [hlist] at hring
  obtain ⟨l', hremove, hvalid, hholds⟩ := listRemove_holds hring
  have hprev := hring.ring.prev_eq
  have hmem : ∀ x ∈ head i :: (ns ++ qs), x ∈ head i :: lists i := by
    intro x hx
    rw [hlist]
    simp only [List.mem_cons, List.mem_append] at hx ⊢
    tauto
  have hends := ends_mem (head i) ns qs
  refine ⟨l', hremove, hvalid, h.change hi hholds hvalid ?_ ?_⟩
  · intro j hj hji x hx
    have hne : ∀ y ∈ head i :: (ns ++ qs), x ≠ y := by
      rintro y hy rfl
      exact hji (h.rings.eq_of_mem hj hi hx (hmem x hy))
    apply listRemove_frame hremove
    · rw [hprev]
      intro heq
      have hnodup : (head i :: ns ++ n :: qs).Nodup := hring.ring.nodup
      apply (List.nodup_cons.mp (List.nodup_middle.mp hnodup)).1
      exact heq ▸ hends.1
    · rw [hring.ring.next_eq]
      exact hne _ hends.2
    · rw [hprev]
      exact hne _ hends.1
  · intro x hx
    left
    rw [hlist]
    simp only [List.mem_cons, List.mem_append] at hx ⊢
    tauto

end Change

end CcRpc
