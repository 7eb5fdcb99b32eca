import Mathlib

/-!
# Singly linked chains

A chain is what a walk along a `next` map visits between two nodes. Updates of the map at one node
insert into the chain or cut something out of it.
-/

namespace Chain

variable {α : Type}

/-- Following `next` from `a` visits `ns` in order and then reaches `z`. -/
def Linked (next : α → α) : α → List α → α → Prop
  | a, [], z => next a = z
  | a, n :: ns, z => next a = n ∧ Linked next n ns z

variable {next next' : α → α} {a u v z : α} {ns qs : List α}

theorem linked_append : Linked next a (ns ++ qs) z ↔
    Linked next a ns (qs.headD z) ∧ Linked next (ns.getLastD a) qs z := by
  induction ns generalizing a with
  | nil =>
    cases qs with
    | nil => simp [Linked]
    | cons q qs => simp [Linked]
  | cons n ns ih => simp only [List.cons_append, Linked, List.getLastD_cons, ih, and_assoc]

theorem Linked.last (h : Linked next a ns z) : next (ns.getLastD a) = z := by
  induction ns generalizing a with
  | nil => exact h
  | cons n ns ih =>
    rw [List.getLastD_cons]
    exact ih h.2

theorem Linked.first (h : Linked next a ns z) : next a = ns.headD z := by
  cases ns with
  | nil => exact h
  | cons n ns => exact h.1

/-- A walk that ends where it first meets `z` is the only one. -/
theorem Linked.unique (h : Linked next a ns z) (h' : Linked next a qs z) (hns : z ∉ ns)
    (hqs : z ∉ qs) : ns = qs := by
  induction ns generalizing a qs with
  | nil =>
    cases qs with
    | nil => rfl
    | cons q qs =>
      have heq : z = q := Eq.trans (Eq.symm h) h'.1
      exact absurd (heq ▸ List.mem_cons_self) hqs
  | cons n ns ih =>
    cases qs with
    | nil =>
      have heq : z = n := Eq.trans (Eq.symm h') h.1
      exact absurd (heq ▸ List.mem_cons_self) hns
    | cons q qs =>
      obtain rfl : n = q := h.1.symm.trans h'.1
      rw [ih h.2 h'.2 (fun hz => hns (List.mem_cons_of_mem _ hz))
        (fun hz => hqs (List.mem_cons_of_mem _ hz))]

theorem Linked.congr (h : Linked next a ns z) (hnext : ∀ x ∈ a :: ns, next' x = next x) :
    Linked next' a ns z := by
  induction ns generalizing a with
  | nil => exact (hnext a (by simp)).trans h
  | cons n ns ih =>
    refine ⟨(hnext a (by simp)).trans h.1, ih h.2 ?_⟩
    intro x hx
    exact hnext x (List.mem_cons_of_mem _ hx)

theorem getLastD_mem (a : α) (ns : List α) : ns.getLastD a ∈ a :: ns := by
  induction ns generalizing a with
  | nil => simp
  | cons n ns ih =>
    rw [List.getLastD_cons]
    exact List.mem_cons_of_mem _ (ih n)

theorem Linked.retarget (h : Linked next a ns z) (hnodup : (a :: ns).Nodup)
    (hother : ∀ x ∈ a :: ns, x ≠ ns.getLastD a → next' x = next x)
    (hlast : next' (ns.getLastD a) = v) : Linked next' a ns v := by
  induction ns generalizing a with
  | nil => exact hlast
  | cons n ns ih =>
    rw [List.getLastD_cons] at hother hlast
    have hmem := getLastD_mem n ns
    have hne : a ≠ ns.getLastD n := by
      intro heq
      rw [← heq] at hmem
      exact (List.nodup_cons.mp hnodup).1 hmem
    refine ⟨(hother a (by simp) hne).trans h.1, ih h.2 (List.nodup_cons.mp hnodup).2 ?_ hlast⟩
    intro x hx
    exact hother x (List.mem_cons_of_mem _ hx)

theorem Linked.replace (hu : Linked next u qs z) (hv : next' v = next u)
    (hother : ∀ x ∈ qs, next' x = next x) : Linked next' v qs z := by
  cases qs with
  | nil => exact hv.trans hu
  | cons q qs => exact ⟨hv.trans hu.1, hu.2.congr hother⟩

private theorem ne_getLastD (hnodup : (a :: (ns ++ qs)).Nodup) {x : α} (hx : x ∈ qs) :
    x ≠ ns.getLastD a := by
  intro heq
  have hmem := getLastD_mem a ns
  rw [← heq] at hmem
  rw [← List.cons_append] at hnodup
  exact (List.disjoint_of_nodup_append hnodup) hmem hx

private theorem retarget_front (h : Linked next a ns z) (hnodup : (a :: (ns ++ qs)).Nodup)
    (hlast : next' (ns.getLastD a) = v)
    (hother : ∀ x ∈ a :: (ns ++ qs), x ≠ ns.getLastD a → next' x = next x) :
    Linked next' a ns v := by
  rw [← List.cons_append] at hnodup hother
  refine h.retarget hnodup.of_append_left ?_ hlast
  intro x hx
  exact hother x (List.mem_append_left _ hx)

/-- Two stores put the node `n` between a chain and what follows `u`. -/
theorem Linked.splice {n w : α} (hfront : Linked next a ns w) (hback : Linked next u qs z)
    (hnodup : (a :: (ns ++ qs)).Nodup) (hn : next' n = next u)
    (hlast : next' (ns.getLastD a) = n)
    (hother : ∀ x ∈ a :: (ns ++ qs), x ≠ ns.getLastD a → next' x = next x) :
    Linked next' a (ns ++ n :: qs) z := by
  refine linked_append.mpr ⟨retarget_front hfront hnodup hlast hother, hlast, hback.replace hn ?_⟩
  intro x hx
  exact hother x (by simp [hx]) (ne_getLastD hnodup hx)

theorem Linked.remove (h : Linked next a (ns ++ u :: qs) z) (hnodup : (a :: (ns ++ qs)).Nodup)
    (hlast : next' (ns.getLastD a) = next u)
    (hother : ∀ x ∈ a :: (ns ++ qs), x ≠ ns.getLastD a → next' x = next x) :
    Linked next' a (ns ++ qs) z := by
  obtain ⟨hfront, hback⟩ := linked_append.mp h
  have hu : next u = qs.headD z := hback.2.first
  refine linked_append.mpr ⟨retarget_front hfront hnodup (hlast.trans hu) hother,
    hback.2.replace hlast ?_⟩
  intro x hx
  exact hother x (by simp [hx]) (ne_getLastD hnodup hx)

end Chain
