import CcRpc.Lib.Ring

/-!
# Families of rings

Many rings share one memory, each with its own head. Two rings of a family have no node in common, so
stores at the nodes of one ring leave the others as they are.
-/

namespace Chain

variable {α ι : Type}

/-- For each `i` in `I` the ring of `head i` has the nodes `lists i`, and no two rings meet. -/
structure Rings (next prev : α → α) (head : ι → α) (I : Set ι) (lists : ι → List α) : Prop where
  ring : ∀ i ∈ I, Ring next prev (head i) (lists i)
  apart : ∀ i ∈ I, ∀ j ∈ I, i ≠ j → (head i :: lists i).Disjoint (head j :: lists j)

variable {next prev next' prev' : α → α} {head : ι → α} {I J : Set ι} {lists : ι → List α} {i : ι}
  {ns : List α} {n : α}

theorem Rings.none : Rings next prev head ∅ lists :=
  ⟨fun _ hi => hi.elim, fun _ hi => hi.elim⟩

theorem Rings.subset (h : Rings next prev head I lists) (hJ : J ⊆ I) : Rings next prev head J lists :=
  ⟨fun i hi => h.ring i (hJ hi), fun i hi j hj => h.apart i (hJ hi) j (hJ hj)⟩

theorem Rings.eq_of_mem (h : Rings next prev head I lists) {j : ι} (hi : i ∈ I) (hj : j ∈ I)
    (hni : n ∈ head i :: lists i) (hnj : n ∈ head j :: lists j) : i = j := by
  by_contra hij
  exact h.apart i hi j hj hij hni hnj

variable [DecidableEq ι]

theorem Rings.update (h : Rings next prev head I lists) (hring : Ring next' prev' (head i) ns)
    (hframe : ∀ j ∈ I, j ≠ i → ∀ x ∈ head j :: lists j, next' x = next x ∧ prev' x = prev x)
    (hapart : ∀ j ∈ I, j ≠ i → (head i :: ns).Disjoint (head j :: lists j)) :
    Rings next' prev' head (insert i I) (Function.update lists i ns) := by
  have hold : ∀ j ∈ insert i I, j ≠ i → j ∈ I := fun j hj hne => hj.resolve_left hne
  constructor
  · intro j hj
    by_cases hji : j = i
    · subst hji
      simpa using hring
    · rw [Function.update_of_ne hji]
      have hsame := hframe j (hold j hj hji) hji
      exact (h.ring j (hold j hj hji)).congr (fun x hx => (hsame x hx).1) fun x hx => (hsame x hx).2
  · intro j hj k hk hjk
    by_cases hji : j = i
    · subst hji
      have hkj : k ≠ j := fun heq => hjk heq.symm
      rw [Function.update_self, Function.update_of_ne hkj]
      exact hapart k (hold k hk hkj) hkj
    · by_cases hki : k = i
      · subst hki
        rw [Function.update_self, Function.update_of_ne hji]
        exact (hapart j (hold j hj hji) hji).symm
      · rw [Function.update_of_ne hji, Function.update_of_ne hki]
        exact h.apart j (hold j hj hji) k (hold k hk hki) hjk

/-- A ring of the family loses nodes, or gets one that is on none. -/
theorem Rings.change (h : Rings next prev head I lists) (hi : i ∈ I)
    (hring : Ring next' prev' (head i) ns)
    (hframe : ∀ j ∈ I, j ≠ i → ∀ x ∈ head j :: lists j, next' x = next x ∧ prev' x = prev x)
    (hnew : ∀ x ∈ ns, x ∈ lists i ∨ ∀ j ∈ I, x ∉ head j :: lists j) :
    Rings next' prev' head I (Function.update lists i ns) := by
  rw [← Set.insert_eq_of_mem hi]
  apply h.update hring hframe
  intro j hj hji x hx hxj
  have hout : x ∈ head i :: lists i → False := fun hxi => hji (h.eq_of_mem hj hi hxj hxi)
  rcases List.mem_cons.mp hx with rfl | hx
  · exact hout List.mem_cons_self
  · rcases hnew x hx with hold | hfresh
    · exact hout (List.mem_cons_of_mem _ hold)
    · exact hfresh j hj hxj

theorem flatMap_update_perm {is : List ι} (his : is.Nodup) (hi : i ∈ is) (ns : List α) :
    (is.flatMap (Function.update lists i ns)).Perm (ns ++ is.flatMap (Function.update lists i [])) := by
  have hsame : ∀ js : List ι, i ∉ js → ∀ qs, js.flatMap (Function.update lists i qs) = js.flatMap lists := by
    intro js hjs qs
    apply List.flatMap_congr
    intro j hj
    apply Function.update_of_ne
    rintro rfl
    exact hjs hj
  obtain ⟨as, bs, rfl⟩ := List.append_of_mem hi
  obtain ⟨hout, -⟩ := List.nodup_cons.mp (List.nodup_middle.mp his)
  rw [List.mem_append, not_or] at hout
  simp only [List.flatMap_append, List.flatMap_cons, Function.update_self, hsame as hout.1, hsame bs hout.2,
    List.nil_append]
  rw [← List.append_assoc, ← List.append_assoc]
  exact List.perm_append_comm.append_right _

end Chain
