import CcRpc.Lib.Chain

/-!
# Doubly linked rings

A ring is a chain along `next` from a node back to itself that a walk along `prev` visits the other
way round. Stores at the two neighbours insert a node or cut one out.
-/

namespace Chain

variable {α : Type}

/-- From `a` a walk along `next` visits `ns` and comes back, and so does one along `prev` in the
opposite order. -/
structure Ring (next prev : α → α) (a : α) (ns : List α) : Prop where
  nodup : (a :: ns).Nodup
  forth : Linked next a ns a
  back : Linked prev a ns.reverse a

variable {next prev next' prev' : α → α} {a n u : α} {ns qs : List α}

theorem getLastD_reverse (qs : List α) (a : α) : qs.reverse.getLastD a = qs.headD a := by
  rw [List.getLastD_eq_getLast?, List.getLast?_reverse, List.headD_eq_head?_getD]

theorem headD_reverse (ns : List α) (a : α) : ns.reverse.headD a = ns.getLastD a := by
  rw [List.headD_eq_head?_getD, List.head?_reverse, List.getLastD_eq_getLast?]

theorem nodup_cons_reverse (h : (a :: ns).Nodup) : (a :: ns.reverse).Nodup := by
  simpa using h

theorem headD_mem (a : α) (qs : List α) : qs.headD a ∈ a :: qs := by
  cases qs with
  | nil => simp
  | cons q qs => simp

private theorem mem_of_mem_reverse {x : α} (hx : x ∈ a :: (qs.reverse ++ ns.reverse)) :
    x ∈ a :: (ns ++ qs) := by
  simp only [List.mem_cons, List.mem_append, List.mem_reverse] at hx ⊢
  tauto

theorem Ring.congr (h : Ring next prev a ns) (hnext : ∀ x ∈ a :: ns, next' x = next x)
    (hprev : ∀ x ∈ a :: ns, prev' x = prev x) : Ring next' prev' a ns := by
  refine ⟨h.nodup, h.forth.congr hnext, h.back.congr ?_⟩
  intro x hx
  apply hprev
  simpa using hx

theorem Ring.unique (h : Ring next prev a ns) (h' : Ring next prev a qs) : ns = qs :=
  h.forth.unique h'.forth (List.nodup_cons.mp h.nodup).1 (List.nodup_cons.mp h'.nodup).1

theorem Ring.next_getLastD (h : Ring next prev a (ns ++ qs)) : next (ns.getLastD a) = qs.headD a :=
  (linked_append.mp h.forth).2.first

theorem Ring.prev_headD (h : Ring next prev a (ns ++ qs)) : prev (qs.headD a) = ns.getLastD a := by
  have hback := h.back
  rw [List.reverse_append] at hback
  have hfirst := (linked_append.mp hback).2.first
  rwa [getLastD_reverse, headD_reverse] at hfirst

theorem Ring.next_eq (h : Ring next prev a (ns ++ u :: qs)) : next u = qs.headD a :=
  (linked_append.mp h.forth).2.2.first

theorem Ring.prev_eq (h : Ring next prev a (ns ++ u :: qs)) : prev u = ns.getLastD a := by
  have hback := h.back
  rw [List.reverse_append, List.reverse_cons, List.append_assoc, List.singleton_append] at hback
  rw [← headD_reverse]
  exact (linked_append.mp hback).2.2.first

theorem Ring.single (hnext : next a = a) (hprev : prev a = a) : Ring next prev a [] :=
  ⟨List.nodup_singleton a, hnext, hprev⟩

/-- Four stores put the node `n` between two neighbours. -/
theorem Ring.insert (h : Ring next prev a (ns ++ qs)) (hn : n ∉ a :: (ns ++ qs))
    (hnext : next' n = qs.headD a) (hprev : prev' n = ns.getLastD a)
    (hleft : next' (ns.getLastD a) = n) (hright : prev' (qs.headD a) = n)
    (hnext' : ∀ x ∈ a :: (ns ++ qs), x ≠ ns.getLastD a → next' x = next x)
    (hprev' : ∀ x ∈ a :: (ns ++ qs), x ≠ qs.headD a → prev' x = prev x) :
    Ring next' prev' a (ns ++ n :: qs) := by
  have hfront := linked_append.mp h.forth
  have hforth : Linked next' a (ns ++ n :: qs) a :=
    hfront.1.splice hfront.2 h.nodup (hnext.trans hfront.2.first.symm) hleft hnext'
  have hback := h.back
  rw [List.reverse_append] at hback
  have hnodup : (a :: (qs.reverse ++ ns.reverse)).Nodup := by
    rw [← List.reverse_append]
    exact nodup_cons_reverse h.nodup
  have hrear := linked_append.mp hback
  have hprev' : ∀ x ∈ a :: (qs.reverse ++ ns.reverse), x ≠ qs.reverse.getLastD a →
      prev' x = prev x := by
    intro x hx hne
    rw [getLastD_reverse] at hne
    exact hprev' x (mem_of_mem_reverse hx) hne
  have hwalk : Linked prev' a (qs.reverse ++ n :: ns.reverse) a := by
    refine hrear.1.splice hrear.2 hnodup ?_ ?_ hprev'
    · rw [hprev, hrear.2.first, headD_reverse]
    · rw [getLastD_reverse]
      exact hright
  refine ⟨?_, hforth, ?_⟩
  · have hmid : (n :: (a :: ns ++ qs)).Nodup := List.nodup_cons.mpr ⟨hn, h.nodup⟩
    exact List.nodup_middle.mpr hmid
  · rw [List.reverse_append, List.reverse_cons, List.append_assoc, List.singleton_append]
    exact hwalk

theorem Ring.remove (h : Ring next prev a (ns ++ u :: qs))
    (hleft : next' (ns.getLastD a) = next u) (hright : prev' (qs.headD a) = prev u)
    (hnext' : ∀ x ∈ a :: (ns ++ qs), x ≠ ns.getLastD a → next' x = next x)
    (hprev' : ∀ x ∈ a :: (ns ++ qs), x ≠ qs.headD a → prev' x = prev x) :
    Ring next' prev' a (ns ++ qs) := by
  have hnodup : (a :: (ns ++ qs)).Nodup :=
    (List.nodup_cons.mp (List.nodup_middle.mp (show (a :: ns ++ u :: qs).Nodup from h.nodup))).2
  have hback := h.back
  rw [List.reverse_append, List.reverse_cons, List.append_assoc, List.singleton_append] at hback
  have hrear : (a :: (qs.reverse ++ ns.reverse)).Nodup := by
    rw [← List.reverse_append]
    exact nodup_cons_reverse hnodup
  refine ⟨hnodup, h.forth.remove hnodup hleft hnext', ?_⟩
  rw [List.reverse_append]
  refine hback.remove hrear ?_ ?_
  · rw [getLastD_reverse]
    exact hright
  · intro x hx hne
    rw [getLastD_reverse] at hne
    exact hprev' x (mem_of_mem_reverse hx) hne

theorem ends_mem (a : α) (ns qs : List α) :
    ns.getLastD a ∈ a :: (ns ++ qs) ∧ qs.headD a ∈ a :: (ns ++ qs) := by
  have hlast := getLastD_mem a ns
  have hhead := headD_mem a qs
  simp only [List.mem_cons, List.mem_append] at hlast hhead ⊢
  tauto

variable [DecidableEq α]

theorem Ring.insert_update (h : Ring next prev a (ns ++ qs)) (hn : n ∉ a :: (ns ++ qs)) :
    Ring (Function.update (Function.update next n (qs.headD a)) (ns.getLastD a) n)
      (Function.update (Function.update prev n (ns.getLastD a)) (qs.headD a) n) a
      (ns ++ n :: qs) := by
  obtain ⟨hlast, hhead⟩ := ends_mem a ns qs
  have hne : ∀ x ∈ a :: (ns ++ qs), x ≠ n := fun x hx heq => hn (heq ▸ hx)
  apply h.insert hn
  · rw [Function.update_of_ne (hne _ hlast).symm, Function.update_self]
  · rw [Function.update_of_ne (hne _ hhead).symm, Function.update_self]
  · rw [Function.update_self]
  · rw [Function.update_self]
  · intro x hx hxlast
    rw [Function.update_of_ne hxlast, Function.update_of_ne (hne x hx)]
  · intro x hx hxhead
    rw [Function.update_of_ne hxhead, Function.update_of_ne (hne x hx)]

theorem Ring.remove_update (h : Ring next prev a (ns ++ u :: qs)) :
    Ring (Function.update next (ns.getLastD a) (qs.headD a))
      (Function.update prev (qs.headD a) (ns.getLastD a)) a (ns ++ qs) := by
  apply h.remove
  · rw [Function.update_self, h.next_eq]
  · rw [Function.update_self, h.prev_eq]
  · intro x _ hxlast
    rw [Function.update_of_ne hxlast]
  · intro x _ hxhead
    rw [Function.update_of_ne hxhead]

end Chain
