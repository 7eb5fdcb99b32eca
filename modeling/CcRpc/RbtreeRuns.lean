import CcRpc.Lib.Runs
import CcRpc.RbtreeInsert
import CcRpc.RbtreeRemove

/-!
# Runs of the red-black tree

From `rb_root_init` on, every sequence of insertions of nodes outside the tree and removals of nodes
in it keeps the tree valid, as long as `count` can tell the number of nodes.
-/

namespace CcRpc

open RedBlack

/-- A call. The caller has stored the value in a node before it is inserted. -/
inductive RbCall
  | insert (node : Nat) (value : UInt32)
  | remove (node : Nat)

namespace RbCall

def run (fuel : Nat) (S : Rb) : RbCall → Option Rb
  | insert node value => rbInsertNode fuel node (S.setValue node value)
  | remove node => rbRemoveNode fuel node S

/-- The nodes in the tree after the call. -/
def nodes (l : List Nat) : RbCall → List Nat
  | insert node _ => node :: l
  | remove node => l.erase node

/-- Nodes outside the tree are inserted, and nodes in it removed. -/
def Allowed (l : List Nat) : RbCall → Prop
  | insert node _ => node ∉ l
  | remove node => node ∈ l

end RbCall

def nodesAfter (l : List Nat) (calls : List RbCall) : List Nat := calls.foldl RbCall.nodes l

def AllAllowed : List Nat → List RbCall → Prop
  | _, [] => True
  | l, call :: calls => call.Allowed l ∧ AllAllowed (call.nodes l) calls

/-- The tree in memory is valid. That its nodes are linked, parents included, is `Holds`. -/
structure Rb.Sound (S : Rb) (T : ColorTree Nat) : Prop where
  holds : S.Holds T
  rootBlack : T.color = .black
  redsApart : T.RedsApart
  balanced : ∃ n, ∀ k ∈ T.blackCounts, k = n
  first : S.root.firstNode = T.endOf .left
  last : S.root.lastNode = T.endOf .right
  count : S.root.count.toNat = T.toList.length

variable {S : Rb} {T : ColorTree Nat} {fuel : Nat}

theorem Rb.Shelters.sound (h : S.Shelters T) : S.Sound T := by
  obtain ⟨k, hvalid⟩ := h.valid
  exact ⟨h.holds, hvalid.color, hvalid.redsApart, ⟨k, hvalid.blackCounts⟩,
    h.first.trans T.endOf_left.symm, h.last.trans T.endOf_right.symm, h.count⟩

/-- What the calls keep. -/
structure Rb.Keeping (S : Rb) (T : ColorTree Nat) (l : List Nat) : Prop where
  shelters : S.Shelters T
  sorted : S.Sorted T.toList
  perm : T.toList.Perm l

theorem keeping_leaf (hroot : S.root = ⟨none, none, none, 0⟩) : S.Keeping .leaf [] := by
  refine ⟨⟨⟨List.nodup_nil, ?_, trivial⟩, ⟨0, .leaf⟩, ?_, ?_, ?_⟩, List.Pairwise.nil, .nil⟩
  all_goals
    rw [hroot]
    rfl

theorem Rb.Shelters.setValue (h : S.Shelters T) (a : Nat) (v : UInt32) :
    (S.setValue a v).Shelters T :=
  ⟨⟨h.holds.nodup, h.holds.root, h.holds.shows.setValue⟩, h.valid, h.first, h.last, h.count⟩

theorem Rb.Sorted.setValue {l : List Nat} (h : S.Sorted l) {a : Nat} (ha : a ∉ l) (v : UInt32) :
    (S.setValue a v).Sorted l := by
  apply h.congr
  intro x hx
  have hne : x ≠ a := fun heq => ha (heq ▸ hx)
  rw [Rb.value_setValue, if_neg hne]

theorem Rb.Keeping.setValue {l : List Nat} (h : S.Keeping T l) {a : Nat} (ha : a ∉ l)
    (v : UInt32) : (S.setValue a v).Keeping T l := by
  have hout : a ∉ T.toList := fun hmem => ha (h.perm.mem_iff.mp hmem)
  exact ⟨h.shelters.setValue a v, h.sorted.setValue hout v, h.perm⟩

theorem Rb.Keeping.insert {l : List Nat} (h : S.Keeping T l) {a : Nat} (ha : a ∉ l)
    (hroom : l.length + 1 < 2 ^ 32) (hfuel : l.length < fuel) :
    ∃ S' T', rbInsertNode fuel a S = some S' ∧ S'.Keeping T' (a :: l) ∧
      ∀ x, S'.value x = S.value x := by
  have hout : a ∉ T.toList := fun hmem => ha (h.perm.mem_iff.mp hmem)
  rw [← h.perm.length_eq] at hroom hfuel
  obtain ⟨S', T', xs, ys, hrun, hshelters, hold, hnew, hxs, hys, hvalue, -⟩ :=
    rbInsertNode_spec h.shelters h.sorted hout hroom hfuel
  refine ⟨S', T', hrun, ⟨hshelters, ?_, ?_⟩, hvalue⟩
  · have hsorted := h.sorted
    rw [hold] at hsorted
    rw [hnew]
    exact (hsorted.insert hxs hys).congr (fun x _ => hvalue x)
  · rw [hnew]
    apply List.perm_middle.trans
    rw [← hold]
    exact h.perm.cons a

theorem Rb.Keeping.of_perm {l l' : List Nat} (h : S.Keeping T l) (hperm : l.Perm l') :
    S.Keeping T l' :=
  ⟨h.shelters, h.sorted, h.perm.trans hperm⟩

theorem Rb.Keeping.congr {S' : Rb} {l : List Nat} (h : S.Keeping T l) (hroot : S'.root = S.root)
    (hnode : ∀ x ∈ l, S'.node x = S.node x) : S'.Keeping T l := by
  have hnode : ∀ x ∈ T.toList, S'.node x = S.node x := fun x hx => hnode x (h.perm.mem_iff.mp hx)
  obtain ⟨⟨⟨hnodup, hrbNode, hshows⟩, hvalid, hfirst, hlast, hcount⟩, hsorted, hperm⟩ := h
  rw [← hroot] at hrbNode hfirst hlast hcount
  exact ⟨⟨⟨hnodup, hrbNode, hshows.congr hnode⟩, hvalid, hfirst, hlast, hcount⟩,
    hsorted.congr fun x hx => congrArg RbNode.value (hnode x hx), hperm⟩

theorem Rb.Keeping.nodup {l : List Nat} (h : S.Keeping T l) : l.Nodup :=
  h.perm.nodup_iff.mp h.shelters.holds.nodup

/-- A removal compares no values: what is stored just before it may put the removed node out of
order. -/
theorem Rb.Keeping.remove {l : List Nat} (h : S.Keeping T l) {a u : Nat} (ha : a ∈ l)
    (hu : u ∉ l.erase a) (v : UInt32) (hfuel : l.length < fuel) :
    ∃ S' T', rbRemoveNode fuel a (S.setValue u v) = some S' ∧ S'.Keeping T' (l.erase a) ∧
      ∀ x, S'.value x = if x = u then v else S.value x := by
  have hin : a ∈ T.toList := h.perm.mem_iff.mpr ha
  have hperm := h.perm.erase a
  have hout : u ∉ T.toList.erase a := fun hmem => hu (hperm.mem_iff.mp hmem)
  rw [← h.perm.length_eq] at hfuel
  obtain ⟨S', T', hrun, hshelters, hnew, hvalue, -⟩ :=
    rbRemoveNode_spec (h.shelters.setValue u v) hin hfuel
  have hsorted : (S.setValue u v).Sorted (T.toList.erase a) :=
    Rb.Sorted.setValue (h.sorted.sublist List.erase_sublist) hout v
  refine ⟨S', T', hrun, ⟨hshelters, ?_, ?_⟩, ?_⟩
  · rw [hnew]
    exact hsorted.congr (fun x _ => hvalue x)
  · rw [hnew]
    exact hperm
  · intro x
    rw [hvalue, Rb.value_setValue]

theorem RbCall.run_keeping {l : List Nat} (h : S.Keeping T l) (call : RbCall)
    (hallowed : call.Allowed l) (hroom : (call.nodes l).length < 2 ^ 32) (hfuel : l.length < fuel) :
    ∃ S' T', call.run fuel S = some S' ∧ S'.Keeping T' (call.nodes l) := by
  cases call with
  | insert node v =>
    obtain ⟨S', T', hrun, h', -⟩ := (h.setValue hallowed v).insert hallowed hroom hfuel
    exact ⟨S', T', hrun, h'⟩
  | remove node =>
    have hout : node ∉ l.erase node := h.nodup.not_mem_erase
    obtain ⟨S', T', hrun, h', -⟩ := h.remove hallowed hout (S.value node) hfuel
    rw [Rb.setValue_self] at hrun
    exact ⟨S', T', hrun, h'⟩

theorem RbCall.nodes_length_le (call : RbCall) (l : List Nat) :
    (call.nodes l).length ≤ l.length + 1 := by
  cases call with
  | insert node v => exact Nat.le_refl _
  | remove node => exact Nat.le_succ_of_le List.erase_sublist.length_le

theorem foldl_length_le {α : Type} {f : List Nat → α → List Nat}
    (hf : ∀ l a, (f l a).length ≤ l.length + 1) (as : List α) (l : List Nat) :
    (as.foldl f l).length ≤ l.length + as.length := by
  induction as generalizing l with
  | nil => exact Nat.le_refl _
  | cons a as ih =>
    have hstep := hf l a
    have hrest := ih (f l a)
    rw [List.length_cons, List.foldl_cons]
    omega

theorem nodesAfter_length_le (calls : List RbCall) (l : List Nat) :
    (nodesAfter l calls).length ≤ l.length + calls.length :=
  foldl_length_le (fun l call => call.nodes_length_le l) calls l

theorem nodesAfter_few {calls calls' : List RbCall} (hfew : calls.length < 2 ^ 32)
    (hpre : calls' <+: calls) : (nodesAfter [] calls').length < 2 ^ 32 := by
  have hle := nodesAfter_length_le calls' []
  have hlen := hpre.length_le
  rw [List.length_nil] at hle
  omega

theorem run_keeping {l : List Nat} (h : S.Keeping T l) (calls : List RbCall)
    (hallowed : AllAllowed l calls)
    (hroom : ∀ calls', calls' <+: calls → (nodesAfter l calls').length < 2 ^ 32)
    (hfuel : l.length + calls.length ≤ fuel) :
    ∃ S' T', Runs.run (RbCall.run fuel) S calls = some S' ∧
      S'.Keeping T' (nodesAfter l calls) := by
  induction calls generalizing S T l with
  | nil => exact ⟨S, T, rfl, h⟩
  | cons call calls ih =>
    rw [List.length_cons] at hfuel
    have hcall := call.nodes_length_le l
    have hshort : l.length < fuel := by omega
    obtain ⟨S₁, T₁, hrun, h₁⟩ := call.run_keeping h hallowed.1
      (hroom [call] (List.prefix_append [call] calls)) hshort
    have hroom₁ : ∀ calls', calls' <+: calls →
        (nodesAfter (call.nodes l) calls').length < 2 ^ 32 :=
      fun calls' hpre => hroom (call :: calls') ((List.prefix_cons_inj call).mpr hpre)
    obtain ⟨S', T', hrest, h'⟩ := ih h₁ hallowed.2 hroom₁ (by omega)
    exact ⟨S', T', Runs.run_cons.mpr ⟨S₁, hrun, hrest⟩, h'⟩

/-- From `rb_root_init` on every sequence of calls that inserts nodes outside the tree and removes
nodes in it goes through, with no NULL dereferenced, and leaves a valid tree of these nodes, as
long as fewer than `2 ^ 32` nodes are in the tree at a time. No loop takes more iterations than there
are calls. -/
theorem rbTree_staysValid (S : Rb) (calls : List RbCall) (hallowed : AllAllowed [] calls)
    (hroom : ∀ calls', calls' <+: calls → (nodesAfter [] calls').length < 2 ^ 32) {fuel : Nat}
    (hfuel : calls.length ≤ fuel) :
    ∃ S' T, Runs.run (RbCall.run fuel) (rbRootInit S) calls = some S' ∧ S'.Sound T ∧
      T.toList.Perm (nodesAfter [] calls) := by
  have hlen : ([] : List Nat).length + calls.length ≤ fuel := by simpa using hfuel
  obtain ⟨S', T, hrun, h⟩ := run_keeping (keeping_leaf (rfl : (rbRootInit S).root = _)) calls
    hallowed hroom hlen
  exact ⟨S', T, hrun, h.shelters.sound, h.perm⟩

/-- Three insertions, two of them of the same value, and a removal. -/
theorem rbTree_staysValid_four : ∃ S' T,
    Runs.run (RbCall.run 4) (rbRootInit Rb.initial)
        [.insert 8 5, .insert 16 5, .insert 24 1, .remove 16] = some S' ∧
      S'.Sound T ∧ T.toList.Perm [24, 8] := by
  have hallowed : AllAllowed [] [.insert 8 5, .insert 16 5, .insert 24 1, .remove 16] := by
    simp [AllAllowed, RbCall.Allowed, RbCall.nodes]
  exact rbTree_staysValid Rb.initial _ hallowed (fun _ => nodesAfter_few (by decide))
    (Nat.le_refl _)

/-- Insertions of the nodes `0` to `n - 1`, all with the value 0. -/
def insertMany : Nat → List RbCall
  | 0 => []
  | n + 1 => insertMany n ++ [.insert n 0]

theorem nodesAfter_append (l : List Nat) (calls calls' : List RbCall) :
    nodesAfter l (calls ++ calls') = nodesAfter (nodesAfter l calls) calls' :=
  List.foldl_append

theorem allAllowed_append {l : List Nat} {calls calls' : List RbCall} (h : AllAllowed l calls)
    (h' : AllAllowed (nodesAfter l calls) calls') : AllAllowed l (calls ++ calls') := by
  induction calls generalizing l with
  | nil => exact h'
  | cons call calls ih => exact ⟨h.1, ih h.2 h'⟩

theorem insertMany_spec (n : Nat) : AllAllowed [] (insertMany n) ∧
    (nodesAfter [] (insertMany n)).length = n ∧ ∀ a ∈ nodesAfter [] (insertMany n), a < n := by
  induction n with
  | zero => exact ⟨trivial, rfl, fun a ha => by cases ha⟩
  | succ n ih =>
    obtain ⟨hallowed, hlength, hlt⟩ := ih
    have hafter : nodesAfter [] (insertMany (n + 1)) = n :: nodesAfter [] (insertMany n) := by
      rw [insertMany, nodesAfter_append]
      rfl
    rw [hafter]
    refine ⟨allAllowed_append hallowed ⟨fun hmem => ?_, trivial⟩, by simp [hlength], ?_⟩
    · exact Nat.lt_irrefl n (hlt n hmem)
    · intro a ha
      rcases List.mem_cons.mp ha with rfl | ha
      · exact Nat.lt_succ_self a
      · exact Nat.lt_succ_of_lt (hlt a ha)

/-- With `2 ^ 32` nodes in the tree `count` does not tell their number. -/
theorem rbTree_count_wraps : ¬ ∀ (S : Rb) (calls : List RbCall), AllAllowed [] calls →
    ∀ fuel, calls.length ≤ fuel →
      ∃ S' T, Runs.run (RbCall.run fuel) (rbRootInit S) calls = some S' ∧ S'.Sound T ∧
        T.toList.Perm (nodesAfter [] calls) := by
  intro hclaim
  have hfew : ∀ n, n < 2 ^ 32 := by
    intro n
    obtain ⟨hallowed, hlength, -⟩ := insertMany_spec n
    obtain ⟨S', T, -, hsound, hperm⟩ := hclaim Rb.initial _ hallowed _ (Nat.le_refl _)
    have hcount := hsound.count
    rw [hperm.length_eq, hlength] at hcount
    rw [← hcount]
    exact S'.root.count.toNat_lt
  exact Nat.lt_irrefl _ (hfew (2 ^ 32))

end CcRpc
