import CcRpc.RbtreeOrder

/-!
# Queries of the tree

The traversals and the searches against the nodes in order, in every tree that calls leave.
-/

namespace CcRpc

open RedBlack RedBlack.ColorTree

variable {S : Rb} {T t : ColorTree Nat} {l : List Nat} {fuel : Nat}

/-- The nodes from the given one on, each found by `step` from the one before, up to NULL. -/
def rbTraverse (step : Nat → Option (Option Nat)) : Nat → Option Nat → Option (List Nat)
  | _, none => some []
  | 0, some _ => none
  | n + 1, some a => do
    let next ← step a
    let rest ← rbTraverse step n next
    return a :: rest

/-- Where each node of a list leads to the one behind it, the traversal visits the list. -/
theorem rbTraverse_eq {step : Nat → Option (Option Nat)} {n : Nat}
    (hstep : ∀ pre a post, l = pre ++ a :: post → step a = some post.head?) (hn : l.length ≤ n) :
    rbTraverse step n l.head? = some l := by
  induction l generalizing n with
  | nil => rw [List.head?_nil, rbTraverse]
  | cons a l ih =>
    cases n with
    | zero => cases hn
    | succ n =>
      have hrest : rbTraverse step n l.head? = some l := by
        apply ih
        · intro pre b post hl
          apply hstep (a :: pre)
          rw [hl, List.cons_append]
        · simpa using hn
      rw [List.head?_cons, rbTraverse, hstep [] a l rfl]
      dsimp only [bind, Option.bind]
      rw [hrest]
      rfl

theorem rbOutermost_spec {s : Side} (h : S.Holds T) (hfuel : T.toList.length ≤ fuel) :
    rbOutermost s fuel S = some (T.endOf s) := by
  unfold rbOutermost
  rw [h.root]
  cases hroot : T.root? with
  | none =>
    rw [root?_eq_none.mp hroot]
    rfl
  | some x =>
    obtain ⟨q, d, m, far, hend, rfl, hq⟩ := rbEnd_spec (s := s) (p := []) h hroot hfuel
    rw [endOf_plug hq]
    dsimp only
    rw [hend]
    rfl

theorem rbFirst_spec (h : S.Holds T) (hfuel : T.toList.length ≤ fuel) :
    rbFirst fuel S = some T.toList.head? := by
  rw [← endOf_left]
  exact rbOutermost_spec h hfuel

theorem rbLast_spec (h : S.Holds T) (hfuel : T.toList.length ≤ fuel) :
    rbLast fuel S = some T.toList.getLast? := by
  rw [← endOf_right]
  exact rbOutermost_spec h hfuel

theorem rbNeighbours_spec (h : S.Holds T) (hfuel : T.toList.length < fuel) {pre post : List Nat}
    {a : Nat} (hl : T.toList = pre ++ a :: post) :
    rbNext fuel a S = some post.head? ∧ rbPrev fuel a S = some pre.getLast? := by
  have hmem : a ∈ T.toList := by simp [hl]
  obtain ⟨p, c, left, right, rfl⟩ := exists_plug_of_mem hmem
  have hlist : (plug p (.node c left a right)).toList =
      (p.before ++ left.toList) ++ a :: (right.toList ++ p.after) := by
    rw [toList_plug]
    simp [toList]
  have hnodup := h.nodup
  rw [hl, List.nodup_middle, List.nodup_cons, List.mem_append, not_or] at hnodup
  obtain ⟨⟨hpre, hpost⟩, -⟩ := hnodup
  obtain ⟨hbefore, -, hafter⟩ :=
    (List.append_cons_inj_of_notMem hpre hpost).mp (hl.symm.trans hlist)
  constructor
  · rw [rbNext_spec h hfuel, ← hafter]
  · rw [rbPrev_spec h hfuel, ← hbefore]

theorem rbNext_traverses (h : S.Holds T) (hfuel : T.toList.length < fuel) :
    rbTraverse (rbNext fuel · S) T.toList.length T.toList.head? = some T.toList := by
  apply rbTraverse_eq ?_ (Nat.le_refl _)
  intro pre a post hl
  exact (rbNeighbours_spec h hfuel hl).1

theorem rbPrev_traverses (h : S.Holds T) (hfuel : T.toList.length < fuel) :
    rbTraverse (rbPrev fuel · S) T.toList.length T.toList.getLast? = some T.toList.reverse := by
  rw [← List.head?_reverse]
  apply rbTraverse_eq ?_ (by simp)
  intro pre a post hl
  have hl' : T.toList = post.reverse ++ a :: pre.reverse := by
    rw [← List.reverse_reverse T.toList, hl]
    simp
  rw [(rbNeighbours_spec h hfuel hl').2, List.getLast?_reverse]

/-- Below a node of a sorted tree the search ends at a node with the key, or there is none. -/
theorem searchNodeFrom_spec {key : UInt32} {par : Option Nat} (hshows : S.Shows t par)
    (hsorted : S.Sorted t.toList) (hfuel : t.toList.length < fuel) :
    ∃ r, searchNodeFrom S key fuel t.root? = some r ∧
      (∀ a, r = some a → a ∈ t.toList ∧ S.value a = key) ∧
      (r = none → ∀ a ∈ t.toList, S.value a ≠ key) := by
  induction t generalizing fuel par with
  | leaf =>
    cases fuel with
    | zero => cases hfuel
    | succ fuel =>
      refine ⟨none, rfl, fun a h => ?_, fun _ a ha => ?_⟩
      · cases h
      · cases ha
  | node c left a right ihl ihr =>
    cases fuel with
    | zero => cases hfuel
    | succ fuel =>
      obtain ⟨-, -, hleft, hright, hl, hr⟩ := hshows
      rw [ColorTree.toList] at hsorted hfuel ⊢
      rw [List.length_append, List.length_cons] at hfuel
      obtain ⟨hlsorted, hasorted, hla⟩ := List.pairwise_append.mp hsorted
      obtain ⟨har, hrsorted⟩ := List.pairwise_cons.mp hasorted
      dsimp only [ColorTree.root?]
      rw [searchNodeFrom]
      by_cases hless : key < S.value a
      · obtain ⟨r, hrun, hfound, hnone⟩ := ihl hl hlsorted
          (by omega : left.toList.length < fuel)
        refine ⟨r, ?_, fun b hb => ?_, fun hr b hb => ?_⟩
        · rw [if_pos hless, hleft, hrun]
        · obtain ⟨hmem, hvalue⟩ := hfound b hb
          exact ⟨List.mem_append_left _ hmem, hvalue⟩
        · rcases List.mem_append.mp hb with hb | hb
          · exact hnone hr b hb
          · -- the node and all right of it have greater values
            have hle : S.value a ≤ S.value b := by
              rcases List.mem_cons.mp hb with rfl | hb
              · exact UInt32.le_refl _
              · exact har b hb
            intro heq
            rw [heq] at hle
            exact UInt32.lt_irrefl _ (UInt32.lt_of_lt_of_le hless hle)
      · by_cases hgreater : key > S.value a
        · obtain ⟨r, hrun, hfound, hnone⟩ := ihr hr hrsorted
            (by omega : right.toList.length < fuel)
          refine ⟨r, ?_, fun b hb => ?_, fun hr b hb => ?_⟩
          · rw [if_neg hless, if_pos hgreater, hright, hrun]
          · obtain ⟨hmem, hvalue⟩ := hfound b hb
            exact ⟨List.mem_append_right _ (List.mem_cons_of_mem _ hmem), hvalue⟩
          · rcases List.mem_append.mp hb with hb | hb
            · have hle : S.value b ≤ S.value a := hla b hb a List.mem_cons_self
              intro heq
              rw [heq] at hle
              exact UInt32.lt_irrefl _ (UInt32.lt_of_lt_of_le hgreater hle)
            · rcases List.mem_cons.mp hb with rfl | hb
              · intro heq
                rw [heq] at hgreater
                exact UInt32.lt_irrefl _ hgreater
              · exact hnone hr b hb
        · refine ⟨some a, ?_, fun b hb => ?_, fun h => ?_⟩
          · rw [if_neg hless, if_neg hgreater]
          · obtain rfl := Option.some.inj hb
            have hle : S.value a ≤ key := UInt32.not_lt.mp hless
            have hge : key ≤ S.value a := UInt32.not_lt.mp hgreater
            exact ⟨by simp, UInt32.le_antisymm hle hge⟩
          · cases h

/-- In every tree that a sequence of calls leaves, with its nodes in order: the traversals visit each
node once, in order and in reverse, and end with NULL; `rb_first_greater` finds the first node with a
greater value than the key and NULL if there is none; `search_node` finds a node with the key if
there is one. -/
theorem rbTree_queries (S : Rb) (calls : List RbCall) (hallowed : AllAllowed [] calls) {fuel : Nat}
    (hfuel : calls.length < fuel) {S' : Rb}
    (hrun : Runs.run (RbCall.run fuel) (rbRootInit S) calls = some S') :
    ∃ T, S'.Holds T ∧ T.toList.Perm (nodesAfter [] calls) ∧ S'.Sorted T.toList ∧
      (rbFirst fuel S').bind (rbTraverse (rbNext fuel · S') T.toList.length) = some T.toList ∧
      (rbLast fuel S').bind (rbTraverse (rbPrev fuel · S') T.toList.length) =
        some T.toList.reverse ∧
      (∀ key : Nat, rbFirstGreater fuel key S' =
        some (T.toList.find? fun x => key < (S'.value x).toNat)) ∧
      ∀ key : UInt32, ∃ r, searchNode fuel key S' = some r ∧
        (∀ a, r = some a → a ∈ T.toList ∧ S'.value a = key) ∧
        (r = none → ∀ a ∈ T.toList, S'.value a ≠ key) := by
  obtain ⟨T, h⟩ := reached_orders hallowed hfuel.le hrun
  have hlen := nodesAfter_length_le calls []
  rw [← h.perm.length_eq, List.length_nil, Nat.zero_add] at hlen
  have hshort : T.toList.length < fuel := by omega
  have hholds := h.carries.holds
  refine ⟨T, hholds, h.perm, h.sorted, ?_, ?_, ?_, ?_⟩
  · rw [rbFirst_spec hholds hshort.le]
    exact rbNext_traverses hholds hshort
  · rw [rbLast_spec hholds hshort.le]
    exact rbPrev_traverses hholds hshort
  · intro key
    exact rbFirstGreater_spec hholds h.sorted hshort
  · intro key
    rw [searchNode, hholds.root]
    exact searchNodeFrom_spec hholds.shows h.sorted hshort

/-- Equal values in both subtrees of the root. -/
theorem rbTree_queries_three : ∃ S' T,
    Runs.run (RbCall.run 4) (rbRootInit Rb.initial) [.insert 8 5, .insert 16 5, .insert 24 5] =
      some S' ∧ S'.Holds T ∧ T.toList.Perm [24, 16, 8] ∧
      (rbFirst 4 S').bind (rbTraverse (rbNext 4 · S') T.toList.length) = some T.toList := by
  have hallowed : AllAllowed [] [.insert 8 5, .insert 16 5, .insert 24 5] := by
    simp [AllAllowed, RbCall.Allowed, RbCall.nodes]
  obtain ⟨S', -, hrun, -⟩ := run_keeping (keeping_leaf (rfl : (rbRootInit Rb.initial).root = _))
    _ hallowed (fun _ => nodesAfter_few (by decide)) (Nat.le_succ 3)
  obtain ⟨T, hholds, hperm, -, hvisits, -⟩ := rbTree_queries Rb.initial _ hallowed (by decide) hrun
  exact ⟨S', T, hrun, hholds, hperm, hvisits⟩

end CcRpc
