import Mathlib

/-!
# Lists of keyed entries

Entries are pairs of a key and a value, compared by a Boolean test on keys. Finding, setting and
removing the entry of a key look at the first entry whose key passes the test.
-/

namespace Assoc

variable {κ ν : Type} (eq : κ → κ → Bool)

/-- The test is an equivalence. -/
structure IsEquiv : Prop where
  refl : ∀ a, eq a a = true
  symm : ∀ {a b}, eq a b = true → eq b a = true
  trans : ∀ {a b c}, eq a b = true → eq b c = true → eq a c = true

def find (k : κ) : List (κ × ν) → Option ν
  | [] => none
  | e :: es => if eq e.1 k then some e.2 else find k es

/-- The entry of `k` with its value replaced; `none` if there is no such entry. -/
def set (k : κ) (v : ν) : List (κ × ν) → Option (List (κ × ν))
  | [] => none
  | e :: es => if eq e.1 k then some ((e.1, v) :: es) else (set k v es).map (e :: ·)

/-- The list without the entry of `k`; `none` if there is no such entry. -/
def remove (k : κ) : List (κ × ν) → Option (List (κ × ν))
  | [] => none
  | e :: es => if eq e.1 k then some es else (remove k es).map (e :: ·)

/-- No two entries have the same key. -/
def Distinct (l : List (κ × ν)) : Prop := l.Pairwise fun a b => eq a.1 b.1 = false

variable {eq} {k k' : κ} {v : ν} {l l' : List (κ × ν)}

theorem IsEquiv.congr_left (h : IsEquiv eq) {a b c : κ} (hab : eq a b = true) :
    eq a c = eq b c := by
  cases hbc : eq b c with
  | true => exact h.trans hab hbc
  | false =>
    cases hac : eq a c with
    | false => rfl
    | true =>
      rw [h.trans (h.symm hab) hac] at hbc
      cases hbc

theorem IsEquiv.congr_right (h : IsEquiv eq) {a b c : κ} (hab : eq a b = true) :
    eq c a = eq c b := by
  cases hcb : eq c b with
  | true => exact h.trans hcb (h.symm hab)
  | false =>
    cases hca : eq c a with
    | false => rfl
    | true =>
      rw [h.trans hca hab] at hcb
      cases hcb

theorem find_congr (h : IsEquiv eq) (hk : eq k k' = true) : find eq k l = find eq k' l := by
  induction l with
  | nil => rfl
  | cons e es ih => rw [find, find, ih, h.congr_right hk]

theorem set_eq_none_iff : set eq k v l = none ↔ find eq k l = none := by
  induction l with
  | nil => simp [set, find]
  | cons e es ih =>
    rw [set, find]
    split
    · simp
    · simp [ih]

theorem remove_eq_none_iff : remove eq k l = none ↔ find eq k l = none := by
  induction l with
  | nil => simp [remove, find]
  | cons e es ih =>
    rw [remove, find]
    split
    · simp
    · simp [ih]

theorem keys_set (h : set eq k v l = some l') : l'.map Prod.fst = l.map Prod.fst := by
  induction l generalizing l' with
  | nil => cases h
  | cons e es ih =>
    rw [set] at h
    split at h
    · cases h
      rfl
    · obtain ⟨m, hm, rfl⟩ := Option.map_eq_some_iff.mp h
      rw [List.map_cons, List.map_cons, ih hm]

theorem sublist_remove (h : remove eq k l = some l') : l'.Sublist l := by
  induction l generalizing l' with
  | nil => cases h
  | cons e es ih =>
    rw [remove] at h
    split at h
    · cases h
      exact List.sublist_cons_self _ _
    · obtain ⟨m, hm, rfl⟩ := Option.map_eq_some_iff.mp h
      exact (ih hm).cons_cons e

theorem find_set (he : IsEquiv eq) (h : set eq k v l = some l') :
    find eq k' l' = if eq k k' then some v else find eq k' l := by
  induction l generalizing l' with
  | nil => cases h
  | cons e es ih =>
    rw [set] at h
    split at h
    · next hk =>
      cases h
      rw [find, find, he.congr_left hk]
      split <;> rfl
    · next hk =>
      obtain ⟨m, hm, rfl⟩ := Option.map_eq_some_iff.mp h
      rw [find, ih hm, find]
      split
      · next hek =>
        rw [if_neg]
        intro hkk
        exact hk (he.trans hek (he.symm hkk))
      · rfl

theorem Distinct.find_eq_none (he : IsEquiv eq) {e : κ × ν} (h : Distinct eq (e :: l))
    (hk : eq e.1 k = true) : find eq k l = none := by
  have hfirst := (List.pairwise_cons.mp h).1
  induction l with
  | nil => rfl
  | cons d ds ih =>
    have hd : eq d.1 k ≠ true := by
      intro hdk
      have hne := hfirst d (by simp)
      rw [he.trans hk (he.symm hdk)] at hne
      cases hne
    rw [find, if_neg hd]
    have hsub : (e :: ds).Sublist (e :: d :: ds) := (List.sublist_cons_self d ds).cons_cons e
    exact ih (List.Pairwise.sublist hsub h) fun x hx => hfirst x (by simp [hx])

theorem find_remove (he : IsEquiv eq) (hd : Distinct eq l) (h : remove eq k l = some l') :
    find eq k' l' = if eq k k' then none else find eq k' l := by
  induction l generalizing l' with
  | nil => cases h
  | cons e es ih =>
    rw [remove] at h
    split at h
    · next hk =>
      cases h
      rw [find]
      split
      · next hkk => exact hd.find_eq_none he (he.trans hk hkk)
      · next hkk =>
        rw [if_neg]
        intro hek
        exact hkk (he.trans (he.symm hk) hek)
    · next hk =>
      obtain ⟨m, hm, rfl⟩ := Option.map_eq_some_iff.mp h
      rw [find, ih (List.pairwise_cons.mp hd).2 hm, find]
      split
      · next hek =>
        rw [if_neg]
        intro hkk
        exact hk (he.trans hek (he.symm hkk))
      · rfl

theorem Distinct.set (hd : Distinct eq l) (h : set eq k v l = some l') : Distinct eq l' := by
  have hkeys := keys_set h
  unfold Distinct at hd ⊢
  rw [← List.pairwise_map (f := Prod.fst) (R := fun a b => eq a b = false)] at hd ⊢
  rw [hkeys]
  exact hd

theorem Distinct.remove (hd : Distinct eq l) (h : remove eq k l = some l') : Distinct eq l' :=
  List.Pairwise.sublist (sublist_remove h) hd

theorem Distinct.cons (he : IsEquiv eq) (hd : Distinct eq l) (hk : find eq k l = none) :
    Distinct eq ((k, v) :: l) := by
  refine List.pairwise_cons.mpr ⟨?_, hd⟩
  intro e hmem
  induction l with
  | nil => cases hmem
  | cons d ds ih =>
    rw [find] at hk
    split at hk
    · cases hk
    · next hdk =>
      rcases List.mem_cons.mp hmem with rfl | hmem
      · cases hke : eq k e.1 with
        | false => rfl
        | true => exact absurd (he.symm hke) hdk
      · exact ih (List.pairwise_cons.mp hd).2 hk hmem

theorem mem_of_find (h : find eq k l = some v) : ∃ k', eq k' k = true ∧ (k', v) ∈ l := by
  induction l with
  | nil => cases h
  | cons e es ih =>
    rw [find] at h
    split at h
    · next hk =>
      cases h
      exact ⟨e.1, hk, List.mem_cons_self⟩
    · obtain ⟨k', hk', hmem⟩ := ih h
      exact ⟨k', hk', List.mem_cons_of_mem _ hmem⟩

theorem find_of_mem (he : IsEquiv eq) (hd : Distinct eq l) (h : (k, v) ∈ l) :
    find eq k l = some v := by
  induction l with
  | nil => cases h
  | cons e es ih =>
    obtain ⟨hfirst, hrest⟩ := List.pairwise_cons.mp hd
    rw [find]
    rcases List.mem_cons.mp h with rfl | h
    · rw [if_pos (he.refl k)]
    · rw [if_neg (by rw [hfirst _ h]; exact Bool.false_ne_true), ih hrest h]

/-- `e` is the first entry of `l` with the key, behind `es₁`. -/
structure First (eq : κ → κ → Bool) (k : κ) (l es₁ : List (κ × ν)) (e : κ × ν) (es₂ : List (κ × ν)) : Prop where
  split : l = es₁ ++ e :: es₂
  equal : eq e.1 k = true
  before : ∀ x ∈ es₁, eq x.1 k = false

variable {es₁ es₂ : List (κ × ν)} {d e : κ × ν}

theorem First.head (h : eq e.1 k = true) : First eq k (e :: es₂) [] e es₂ :=
  ⟨rfl, h, by simp⟩

theorem First.cons (h : First eq k l es₁ e es₂) (hd : eq d.1 k = false) :
    First eq k (d :: l) (d :: es₁) e es₂ :=
  ⟨by rw [h.split, List.cons_append], h.equal, List.forall_mem_cons.mpr ⟨hd, h.before⟩⟩

theorem First.find (h : First eq k l es₁ e es₂) : find eq k l = some e.2 := by
  obtain ⟨rfl, hequal, hbefore⟩ := h
  induction es₁ with
  | nil => simp [Assoc.find, hequal]
  | cons d ds ih =>
    obtain ⟨hd, hds⟩ := List.forall_mem_cons.mp hbefore
    simpa [Assoc.find, hd] using ih hds

theorem First.set (h : First eq k l es₁ e es₂) (v : ν) :
    set eq k v l = some (es₁ ++ (e.1, v) :: es₂) := by
  obtain ⟨rfl, hequal, hbefore⟩ := h
  induction es₁ with
  | nil => simp [Assoc.set, hequal]
  | cons d ds ih =>
    obtain ⟨hd, hds⟩ := List.forall_mem_cons.mp hbefore
    simpa [Assoc.set, hd] using ih hds

theorem First.remove (h : First eq k l es₁ e es₂) : remove eq k l = some (es₁ ++ es₂) := by
  obtain ⟨rfl, hequal, hbefore⟩ := h
  induction es₁ with
  | nil => simp [Assoc.remove, hequal]
  | cons d ds ih =>
    obtain ⟨hd, hds⟩ := List.forall_mem_cons.mp hbefore
    simpa [Assoc.remove, hd] using ih hds

end Assoc
