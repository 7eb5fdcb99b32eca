import CcRpc.RbtreeRuns

/-!
# The order of the nodes

Where an insertion puts its node among the others, what a removal takes out, what a traversal visits
and what the searches find. This depends on the links and the values alone, and holds also where so
many nodes are in the tree that the root is wrong about its ends and its size.
-/

namespace CcRpc

open RedBlack

variable {S S' : Rb} {T : ColorTree Nat} {l : List Nat} {fuel : Nat}

/-- What the calls keep in every tree. -/
structure Rb.Orders (S : Rb) (T : ColorTree Nat) (l : List Nat) : Prop where
  carries : S.Carries T
  sorted : S.Sorted T.toList
  perm : T.toList.Perm l

theorem Rb.Keeping.orders (h : S.Keeping T l) : S.Orders T l :=
  ⟨h.shelters.carries, h.sorted, h.perm⟩

/-- What a call does to the nodes in order. The place of a new node is after those with values up to
its own. -/
def RbCall.Places (S : Rb) (old new : List Nat) : RbCall → Prop
  | insert node value => ∃ xs ys, old = xs ++ ys ∧ new = xs ++ node :: ys ∧
      (∀ x ∈ xs, S.value x ≤ value) ∧ ∀ y ∈ ys, value < S.value y
  | remove node => new = old.erase node

theorem Rb.Orders.insert (h : S.Orders T l) {a : Nat} {v : UInt32} (ha : a ∉ l)
    (hfuel : l.length < fuel) (hrun : rbInsertNode fuel a (S.setValue a v) = some S') :
    ∃ T', S'.Orders T' (a :: l) ∧ (RbCall.insert a v).Places S T.toList T'.toList ∧
      ∀ x ∈ T.toList, S'.value x = S.value x := by
  have hout : a ∉ T.toList := fun hmem => ha (h.perm.mem_iff.mp hmem)
  have hkept : ∀ x ∈ T.toList, (S.setValue a v).value x = S.value x := by
    intro x hx
    have hne : x ≠ a := fun heq => hout (heq ▸ hx)
    rw [Rb.value_setValue, if_neg hne]
  have hcarries : (S.setValue a v).Carries T :=
    ⟨⟨h.carries.holds.nodup, h.carries.holds.root, h.carries.holds.shows.setValue⟩, h.carries.valid⟩
  have hsorted := h.sorted.setValue hout v
  rw [← h.perm.length_eq] at hfuel
  obtain ⟨T', xs, ys, hcarries', hold, hnew, hxs, hys, hvalue, -⟩ :=
    hcarries.insert hsorted hout hfuel hrun
  have hself : (S.setValue a v).value a = v := by rw [Rb.value_setValue, if_pos rfl]
  refine ⟨T', ⟨hcarries', ?_, ?_⟩, ⟨xs, ys, hold, hnew, ?_, ?_⟩, ?_⟩
  · rw [hold] at hsorted
    rw [hnew]
    exact (hsorted.insert hxs hys).congr (fun x _ => hvalue x)
  · rw [hnew]
    apply List.perm_middle.trans
    rw [← hold]
    exact h.perm.cons a
  · intro x hx
    rw [← hself, ← hkept x (by simp [hold, hx])]
    exact hxs x hx
  · intro y hy
    rw [← hself, ← hkept y (by simp [hold, hy])]
    exact hys y hy
  · intro x hx
    rw [hvalue, hkept x hx]

theorem Rb.Orders.remove (h : S.Orders T l) {a : Nat} (ha : a ∈ l) (hfuel : l.length < fuel)
    (hrun : rbRemoveNode fuel a S = some S') :
    ∃ T', S'.Orders T' (l.erase a) ∧ (RbCall.remove a).Places S T.toList T'.toList ∧
      ∀ x ∈ T.toList, S'.value x = S.value x := by
  rw [← h.perm.length_eq] at hfuel
  obtain ⟨S₁, T', hrun₁, hcarries, herase, hvalue, -⟩ :=
    h.carries.remove (h.perm.mem_iff.mpr ha) hfuel
  obtain rfl := Option.some.inj (hrun.symm.trans hrun₁)
  have hsorted : S.Sorted (T.toList.erase a) := h.sorted.sublist List.erase_sublist
  refine ⟨T', ⟨hcarries, ?_, ?_⟩, herase, fun x _ => hvalue x⟩
  · rw [herase]
    exact hsorted.congr (fun x _ => hvalue x)
  · rw [herase]
    exact h.perm.erase a

theorem RbCall.run_orders (h : S.Orders T l) (call : RbCall) (hallowed : call.Allowed l)
    (hfuel : l.length < fuel) (hrun : call.run fuel S = some S') :
    ∃ T', S'.Orders T' (call.nodes l) ∧ call.Places S T.toList T'.toList ∧
      ∀ x ∈ T.toList, S'.value x = S.value x := by
  cases call with
  | insert node v => exact h.insert hallowed hfuel hrun
  | remove node => exact h.remove hallowed hfuel hrun

theorem run_orders (h : S.Orders T l) (calls : List RbCall) (hallowed : AllAllowed l calls)
    (hfuel : l.length + calls.length ≤ fuel) (hrun : Runs.run (RbCall.run fuel) S calls = some S') :
    ∃ T', S'.Orders T' (nodesAfter l calls) := by
  induction calls generalizing S T l with
  | nil =>
    obtain rfl := Option.some.inj hrun
    exact ⟨T, h⟩
  | cons call calls ih =>
    rw [List.length_cons] at hfuel
    have hcall := call.nodes_length_le l
    obtain ⟨S₁, hrun₁, hrest⟩ := Runs.run_cons.mp hrun
    obtain ⟨T₁, h₁, -⟩ := call.run_orders h hallowed.1 (by omega) hrun₁
    exact ih h₁ hallowed.2 (by omega) hrest

theorem reached_orders {calls : List RbCall} (hallowed : AllAllowed [] calls)
    (hfuel : calls.length ≤ fuel)
    (hrun : Runs.run (RbCall.run fuel) (rbRootInit S) calls = some S') :
    ∃ T, S'.Orders T (nodesAfter [] calls) := by
  apply run_orders (keeping_leaf rfl).orders calls hallowed ?_ hrun
  simpa using hfuel

theorem allAllowed_last {l : List Nat} {calls : List RbCall} {call : RbCall}
    (h : AllAllowed l (calls ++ [call])) :
    AllAllowed l calls ∧ call.Allowed (nodesAfter l calls) := by
  induction calls generalizing l with
  | nil => exact ⟨trivial, h.1⟩
  | cons first calls ih => exact ⟨⟨h.1, (ih h.2).1⟩, (ih h.2).2⟩

/-- In every tree that a sequence of calls leaves, the next call that goes through puts its node
after all with values up to its own and before all others, or takes out its node, and keeps the
order and the values of the rest. As long as fewer than `2 ^ 32` nodes are in the tree at a time it
goes through. -/
theorem rbTree_order (S : Rb) (calls : List RbCall) (call : RbCall)
    (hallowed : AllAllowed [] (calls ++ [call])) {fuel : Nat} (hfuel : calls.length < fuel)
    {S₁ : Rb} (hrun : Runs.run (RbCall.run fuel) (rbRootInit S) calls = some S₁) :
    ∃ T₁, S₁.Holds T₁ ∧ T₁.toList.Perm (nodesAfter [] calls) ∧ S₁.Sorted T₁.toList ∧
      (∀ S₂, call.run fuel S₁ = some S₂ → ∃ T₂, S₂.Holds T₂ ∧
        call.Places S₁ T₁.toList T₂.toList ∧ ∀ x ∈ T₁.toList, S₂.value x = S₁.value x) ∧
      ((∀ calls', calls' <+: calls ++ [call] → (nodesAfter [] calls').length < 2 ^ 32) →
        ∃ S₂, call.run fuel S₁ = some S₂) := by
  obtain ⟨hbefore, hlast⟩ := allAllowed_last hallowed
  obtain ⟨T₁, h₁⟩ := reached_orders hbefore hfuel.le hrun
  refine ⟨T₁, h₁.carries.holds, h₁.perm, h₁.sorted, ?_, ?_⟩
  · intro S₂ hcall
    have hlen := nodesAfter_length_le calls []
    rw [List.length_nil, Nat.zero_add] at hlen
    obtain ⟨T₂, h₂, hplaces, hvalue⟩ := call.run_orders h₁ hlast (by omega) hcall
    exact ⟨T₂, h₂.carries.holds, hplaces, hvalue⟩
  · intro hroom
    have hlen : ([] : List Nat).length + (calls ++ [call]).length ≤ fuel := by simpa using hfuel
    obtain ⟨S₂, T₂, hrun₂, -⟩ := run_keeping (keeping_leaf (rfl : (rbRootInit S).root = _))
      (calls ++ [call]) hallowed hroom hlen
    obtain ⟨S₁', hrun', hcall⟩ := Runs.run_append.mp hrun₂
    obtain rfl := Option.some.inj (hrun.symm.trans hrun')
    obtain ⟨S₂', hcall, -⟩ := Runs.run_cons.mp hcall
    exact ⟨S₂', hcall⟩

/-- A node between two with its own value and a greater one. -/
theorem rbTree_order_three : ∃ S₁ T₁,
    Runs.run (RbCall.run 3) (rbRootInit Rb.initial) [.insert 8 5, .insert 16 9] = some S₁ ∧
      S₁.Holds T₁ ∧ T₁.toList.Perm [16, 8] ∧
      ∀ S₂, (RbCall.insert 24 5).run 3 S₁ = some S₂ → ∃ T₂, S₂.Holds T₂ ∧
        (RbCall.insert 24 5).Places S₁ T₁.toList T₂.toList := by
  have hallowed : AllAllowed [] ([.insert 8 5, .insert 16 9] ++ [.insert 24 5]) := by
    simp [AllAllowed, RbCall.Allowed, RbCall.nodes]
  obtain ⟨S₁, -, hrun, -⟩ := run_keeping (keeping_leaf (rfl : (rbRootInit Rb.initial).root = _))
    [.insert 8 5, .insert 16 9] (allAllowed_last hallowed).1 (fun _ => nodesAfter_few (by decide))
    (Nat.le_succ 2)
  obtain ⟨T₁, hholds, hperm, -, hcall, -⟩ :=
    rbTree_order Rb.initial _ (.insert 24 5) hallowed (by decide) hrun
  refine ⟨S₁, T₁, hrun, hholds, hperm, fun S₂ hrun₂ => ?_⟩
  obtain ⟨T₂, hholds₂, hplaces, -⟩ := hcall S₂ hrun₂
  exact ⟨T₂, hholds₂, hplaces⟩

/-- In a tree that is not empty by its count the insertion reads the value of the last node. -/
theorem rbInsertNode_null {a : Nat} (hcount : S.root.count ≠ 0) (hlast : S.root.lastNode = none) :
    rbInsertNode fuel a S = none := by
  have hends : rbInsertEnds a S = none := by
    unfold rbInsertEnds
    rw [if_pos hcount, hlast]
    rfl
  unfold rbInsertNode
  cases rbInsertLink S (S.value a) fuel .root none with
  | none => rfl
  | some link =>
    dsimp only [bind, Option.bind]
    rw [hends]

theorem insertMany_length (n : Nat) : (insertMany n).length = n := by
  induction n with
  | zero => rfl
  | succ n ih => simp [insertMany, ih]

/-- With `n + 1 = 2 ^ 32` nodes in the tree `count` is 0. A removal then makes the cached nodes NULL,
with all the other nodes still in the tree. -/
theorem insertMany_null {n : Nat} (hn : n + 1 = 2 ^ 32) (hfuel : n + 3 ≤ fuel) :
    ∃ S', Runs.run (RbCall.run fuel) (rbRootInit S) (insertMany (n + 1) ++ [.remove n]) = some S' ∧
      S'.root.count ≠ 0 ∧ S'.root.lastNode = none := by
  obtain ⟨hallowed, hlength, hlt⟩ := insertMany_spec n
  have hlen : ([] : List Nat).length + (insertMany n).length ≤ fuel := by
    rw [insertMany_length, List.length_nil]
    omega
  obtain ⟨S₁, T₁, hrun₁, h₁⟩ := run_keeping (keeping_leaf (rfl : (rbRootInit S).root = _))
    (insertMany n) hallowed (fun _ => nodesAfter_few (by rw [insertMany_length]; omega)) hlen
  have hn₁ : n ∉ nodesAfter [] (insertMany n) := fun hmem => Nat.lt_irrefl n (hlt n hmem)
  have h₁' := h₁.setValue hn₁ 0
  have hlen₁ : T₁.toList.length = n := by rw [h₁.perm.length_eq, hlength]
  -- the last insertion
  obtain ⟨S₂, T₂, xs, ys, hrun₂, hcarries₂, hold, hnew, -, -, -, -, -, -, hcount₂⟩ :=
    rbInsertNode_run h₁'.shelters h₁'.sorted (fun hmem => hn₁ (h₁.perm.mem_iff.mp hmem))
      (by omega : T₁.toList.length < fuel)
  have hzero : S₂.root.count = 0 := by
    have hcount₁ := h₁'.shelters.count
    rw [← UInt32.toNat_inj, hcount₂, UInt32.toNat_add, hcount₁, hlen₁]
    change (n + 1) % 2 ^ 32 = 0
    rw [hn, Nat.mod_self]
  have hlen₂ : T₂.toList.length = n + 1 := by
    rw [hold, List.length_append] at hlen₁
    rw [hnew, List.length_append, List.length_cons]
    omega
  -- the removal
  have hmem : n ∈ T₂.toList := by simp [hnew]
  obtain ⟨S₃, -, hrun₃, -, -, -, hcount₃, hlast₃⟩ :=
    hcarries₂.remove hmem (by omega : T₂.toList.length < fuel)
  rw [hzero] at hcount₃ hlast₃
  refine ⟨S₃, ?_, ?_, hlast₃ (by decide)⟩
  · rw [insertMany]
    apply Runs.run_append.mpr
    exact ⟨S₂, Runs.run_append.mpr ⟨S₁, hrun₁, Runs.run_cons.mpr ⟨S₂, hrun₂, rfl⟩⟩,
      Runs.run_cons.mpr ⟨S₃, hrun₃, rfl⟩⟩
  · rw [hcount₃]
    decide

/-- After `2 ^ 32` insertions and a removal the next insertion dereferences NULL. -/
theorem rbTree_order_wraps : ¬ ∀ (S : Rb) (calls : List RbCall) (call : RbCall),
    AllAllowed [] (calls ++ [call]) → ∀ fuel, calls.length < fuel → ∀ S₁,
      Runs.run (RbCall.run fuel) (rbRootInit S) calls = some S₁ →
      ∃ T₁ S₂ T₂, S₁.Holds T₁ ∧ call.run fuel S₁ = some S₂ ∧ S₂.Holds T₂ ∧
        call.Places S₁ T₁.toList T₂.toList := by
  intro hclaim
  obtain ⟨n, hn⟩ : ∃ n, n + 1 = 2 ^ 32 := ⟨2 ^ 32 - 1, by norm_num⟩
  obtain ⟨S₁, hrun, hcount, hlast⟩ :=
    insertMany_null (S := Rb.initial) hn (Nat.le_refl (n + 3))
  obtain ⟨hallowed, -, hlt⟩ := insertMany_spec (n + 1)
  have hafter : nodesAfter [] (insertMany (n + 1)) = n :: nodesAfter [] (insertMany n) := by
    rw [insertMany, nodesAfter_append]
    rfl
  have hallowed₂ : AllAllowed [] (insertMany (n + 1) ++ [.remove n] ++ [.insert n 0]) := by
    rw [List.append_assoc]
    apply allAllowed_append hallowed
    rw [hafter]
    refine ⟨List.mem_cons_self, ?_, trivial⟩
    change n ∉ (n :: nodesAfter [] (insertMany n)).erase n
    rw [List.erase_cons_head]
    exact fun hmem => Nat.lt_irrefl n ((insertMany_spec n).2.2 n hmem)
  obtain ⟨-, S₂, -, -, hcall, -⟩ := hclaim Rb.initial _ _ hallowed₂ (n + 3)
    (by simp [insertMany_length]) S₁ hrun
  have hnull : (RbCall.insert n 0).run (n + 3) S₁ = none :=
    rbInsertNode_null (S := S₁.setValue n 0) hcount hlast
  rw [hnull] at hcall
  cases hcall

end CcRpc
