import CcRpc.HeapRuns
import CcRpc.Lib.Runs
import CcRpc.RadixDelete
import CcRpc.RadixInsert

/-!
# Runs of the radix tree

The calls of a run are insertions and deletions. What `heap_malloc` grants to an insertion is part of
the call. As long as it refuses nothing the tree is a map from indexes to items, and every node is
where its parent says.
-/

namespace CcRpc

open Prefixes

variable {A : Arena} {α : Type} [DecidableEq α]

/-- A call, with the addresses that `heap_malloc` grants during it. -/
inductive RadixOp (α : Type)
  | insert (index : Nat) (item : α) (grants : List Nat)
  | delete (index : Nat)

/-- The heap is going to grant these addresses and no more. -/
def Radix.given (t : Radix α) (grants : List Nat) : Radix α := { t with heap := ⟨grants, false⟩ }

def radixStep (t : Radix α) : RadixOp α → Option (Radix α)
  | .insert index item grants =>
    (radixTreeInsert (t.given grants) index item).map fun result => result.2.given []
  | .delete index => (radixTreeDelete t index).map fun result => result.2

/-- The index is a `size_t`, the addresses granted are free ones of the heap, and they are enough. -/
def RadixGranted (A : Arena) (t : Radix α) : RadixOp α → Prop
  | .insert index item grants => index < 2 ^ A.word.bits ∧ t.Fresh A grants ∧
    ∀ r t', radixTreeInsert (t.given grants) index item = some (r, t') → t'.heap.refused = false
  | .delete index => index < 2 ^ A.word.bits

/-- A call on a map: an index that is taken keeps its item. -/
def radixContents (m : Nat → Option α) : RadixOp α → Nat → Option α
  | .insert index item _ => if m index = none then Function.update m index (some item) else m
  | .delete index => Function.update m index none

/-- The items stored after a run. -/
def radixStored (ops : List (RadixOp α)) : Nat → Option α :=
  ops.foldl radixContents fun _ => none

/-- The tree between two calls. -/
structure RadixInv (A : Arena) (t : Radix α) (m : Nat → Option α) (S : RadixShape α) : Prop where
  holds : t.Holds S
  counted : t.Counted A
  idle : t.heap = ⟨[], false⟩
  tight : Tight 16 S.full
  items : ∀ i, S.cell 0 i = .ofItem (m i)
  sized : ∀ i, m i ≠ none → i < 2 ^ A.word.bits

variable {t t' : Radix α} {S S' : RadixShape α} {m : Nat → Option α} {i : Nat} {v : α}
  {gs : List Nat}

theorem word_bits_le (A : Arena) (hi : i < 2 ^ A.word.bits) : i < 2 ^ 64 :=
  hi.trans_le (Nat.pow_le_pow_right (by decide) (by cases A.word <;> decide))

theorem RadixInv.full_iff (hI : RadixInv A t m S) : S.full 0 i ↔ m i ≠ none := by
  rw [RadixShape.full, hI.items, ne_eq, RadixPtr.ofItem_eq_null]

theorem RadixInv.given (hI : RadixInv A t m S) (gs : List Nat) : (t.given gs).Holds S :=
  hI.holds.congr rfl rfl rfl

theorem RadixInv.stocked (hI : RadixInv A t m S) (hgs : t.Fresh A gs) : (t.given gs).Stocked A :=
  ⟨hI.counted, hgs⟩

theorem RadixInv.given_nil (hI : RadixInv A t m S) : t.given [] = t := by
  rw [Radix.given, ← hI.idle]

theorem radixInv_init : RadixInv A radixTreeInit (fun _ => (none : Option α)) RadixShape.none where
  holds := Radix.holds_none (fun _ => rfl) rfl rfl
  counted := ⟨∅, by simp [radixTreeInit], by simp, rfl⟩
  idle := rfl
  tight := fun _ _ hr => absurd rfl hr
  items := fun _ => rfl
  sized := fun _ hne => absurd rfl hne

theorem RadixInv.insert (hI : RadixInv A t m S) (hi : i < 2 ^ A.word.bits) (hgs : t.Fresh A gs)
    (hgranted : ∀ r t', radixTreeInsert (t.given gs) i v = some (r, t') →
      t'.heap.refused = false) :
    ∃ t', radixTreeInsert (t.given gs) i v = some (if m i = none then 0 else -1, t') ∧
      (m i ≠ none → t' = t.given gs) ∧
      ∃ S', RadixInv A (t'.given []) (radixContents m (.insert i v gs)) S' := by
  by_cases hfree : m i = none
  · have hnull : S.cell 0 i = .null := by rw [hI.items, hfree, RadixPtr.ofItem]
    obtain ⟨r, t', hcall, hout⟩ := (hI.given gs).insert (v := v) (hI.stocked hgs)
      (word_bits_le A hi) hnull
    rcases hout with ⟨S', rfl, -, hH', hS', hitems, htight⟩ | ⟨-, hheap, -⟩
    · refine ⟨t', by rw [hcall, if_pos hfree], fun hne => absurd hfree hne, S',
        hH'.congr rfl rfl rfl, hS'.counted, rfl, htight hI.tight, fun j => ?_, fun j hj => ?_⟩
      · rw [hitems, radixContents, if_pos hfree]
        by_cases hj : j = i
        · rw [hj, Function.update_self, Function.update_self, RadixPtr.ofItem]
        · rw [Function.update_of_ne hj, Function.update_of_ne hj, hI.items]
      · rw [radixContents, if_pos hfree] at hj
        by_cases hji : j = i
        · rwa [hji]
        · rw [Function.update_of_ne hji] at hj
          exact hI.sized j hj
    · have hrefused := hgranted _ _ hcall
      rw [hheap] at hrefused
      cases hrefused
  · have hfull := hI.full_iff.mpr hfree
    refine ⟨t.given gs, by rw [(hI.given gs).insert_full hfull, if_neg hfree], fun _ => rfl, S, ?_⟩
    have hgiven : (t.given gs).given [] = t := hI.given_nil
    rw [hgiven, radixContents, if_neg hfree]
    exact hI

theorem RadixInv.delete (hI : RadixInv A t m S) (i : Nat) :
    ∃ t', radixTreeDelete t i = some (.ofItem (m i), t') ∧ (m i = none → t' = t) ∧
      ∃ S', RadixInv A t' (radixContents m (.delete i)) S' := by
  by_cases hfree : m i = none
  · have hnull : S.cell 0 i = .null := by rw [hI.items, hfree, RadixPtr.ofItem]
    have hsame : radixContents m (.delete i) = m := by
      rw [radixContents, ← hfree, Function.update_eq_self]
    rw [hsame, hI.holds.delete_absent hnull, hfree]
    exact ⟨t, rfl, fun _ => rfl, S, hI⟩
  · obtain ⟨t', S', hcall, hH', hC', hheap, hitems, htight, -⟩ :=
      hI.holds.delete hI.counted (hI.full_iff.mpr hfree)
    refine ⟨t', by rw [hcall, hI.items], fun hne => absurd hne hfree, S', hH', hC',
      hheap.trans hI.idle, htight hI.tight, fun j => ?_, fun j hj => hI.sized j fun hnone => ?_⟩
    · rw [hitems, radixContents]
      by_cases hj : j = i
      · rw [hj, Function.update_self, Function.update_self, RadixPtr.ofItem]
      · rw [Function.update_of_ne hj, Function.update_of_ne hj, hI.items]
    · apply hj
      rw [radixContents]
      by_cases hji : j = i
      · rw [hji, Function.update_self]
      · rw [Function.update_of_ne hji, hnone]

theorem RadixInv.step (hI : RadixInv A t m S) {op : RadixOp α} (hop : RadixGranted A t op) :
    ∃ t' S', radixStep t op = some t' ∧ RadixInv A t' (radixContents m op) S' := by
  cases op with
  | insert i v gs =>
    obtain ⟨t', hcall, -, S', hI'⟩ := hI.insert hop.1 hop.2.1 hop.2.2
    exact ⟨t'.given [], S', by rw [radixStep, hcall]; rfl, hI'⟩
  | delete i =>
    obtain ⟨t', hcall, -, S', hI'⟩ := hI.delete i
    exact ⟨t', S', by rw [radixStep, hcall]; rfl, hI'⟩

theorem RadixInv.run (hI : RadixInv A t m S) {ops : List (RadixOp α)}
    (hops : Runs.Along radixStep (RadixGranted A) t ops) :
    ∃ t' S', Runs.run radixStep t ops = some t' ∧ RadixInv A t' (ops.foldl radixContents m) S' := by
  induction ops generalizing t m S with
  | nil => exact ⟨t, S, rfl, hI⟩
  | cons op ops ih =>
    obtain ⟨t₁, S₁, hstep, hI₁⟩ := hI.step hops.1
    obtain ⟨t', S', hrun, hI'⟩ := ih hI₁ (hops.2 t₁ hstep)
    exact ⟨t', S', Runs.run_cons.mpr ⟨t₁, hstep, hrun⟩, hI'⟩

/-- No call of a run in which the heap grants what it is asked for reads or writes where it must
not. -/
theorem radix_run {ops : List (RadixOp α)}
    (hops : Runs.Along radixStep (RadixGranted A) radixTreeInit ops) :
    ∃ t S, Runs.run radixStep radixTreeInit ops = some t ∧ RadixInv A t (radixStored ops) S :=
  radixInv_init.run hops

theorem RadixInv.fits (hI : RadixInv A t m S) (hi : m i ≠ none) :
    radixTreeHeight i ≤ t.height := by
  have hfull := hI.full_iff.mpr hi
  rw [hI.holds.height]
  exact (radixTreeHeight_le (hI.holds.tree.height_pos hfull)).mpr
    (hI.holds.tree.lt_pow (by decide) hfull)

theorem RadixInv.lookup (hI : RadixInv A t m S) (i : Nat) :
    radixTreeLookup t i = some (.ofItem (m (i % 16 ^ t.height))) := by
  rw [hI.holds.lookup, hI.items, hI.holds.height]

/-- `radix_tree_lookup` returns what is stored at the index exactly for an index that needs no more
levels than the tree has, and otherwise when nothing is stored at what is left of it. -/
theorem radixTreeLookup_exact_iff {ops : List (RadixOp α)}
    (hops : Runs.Along radixStep (RadixGranted A) radixTreeInit ops) :
    ∃ t, Runs.run radixStep radixTreeInit ops = some t ∧ ∀ i < 2 ^ A.word.bits,
      (radixTreeLookup t i = some (.ofItem (radixStored ops i)) ↔
        radixTreeHeight i ≤ t.height ∨ radixStored ops (i % 16 ^ t.height) = none) := by
  obtain ⟨t, S, hrun, hI⟩ := radix_run hops
  refine ⟨t, hrun, fun i _ => ?_⟩
  rw [hI.lookup]
  by_cases hfits : radixTreeHeight i ≤ t.height
  · rw [mod_of_height_le hfits]
    exact ⟨fun _ => Or.inl hfits, fun _ => rfl⟩
  · have hnone : radixStored ops i = none := by
      by_contra hsome
      exact hfits (hI.fits hsome)
    rw [hnone, Option.some_inj, RadixPtr.ofItem, RadixPtr.ofItem_eq_null]
    exact ⟨Or.inr, fun h => h.resolve_left hfits⟩

theorem radixGranted_insert (hi : i < 2 ^ A.word.bits) (hgs : t.Fresh A gs)
    (hcall : (radixTreeInsert (t.given gs) i v).map (fun result => result.2.heap.refused) =
      some false) : RadixGranted A t (.insert i v gs) := by
  refine ⟨hi, hgs, fun r t' ht' => ?_⟩
  rw [ht'] at hcall
  exact Option.some.inj hcall

/-- Two items, in trees of height 1 and 2. -/
def radixTwo : List (RadixOp Nat) :=
  [.insert 0 7 [0x100010], .insert 0x23 9 [0x100100, 0x100200]]

theorem radixTwo_granted :
    Runs.Along radixStep (RadixGranted Arena.low) radixTreeInit radixTwo := by
  refine ⟨radixGranted_insert (by decide) ⟨by decide, ?_⟩ rfl, fun t ht => ?_⟩
  · intro a ha
    rw [List.mem_singleton] at ha
    rw [ha]
    exact ⟨⟨by decide, by decide⟩, rfl⟩
  · obtain rfl := Option.some.inj ht
    refine ⟨radixGranted_insert (by decide) ⟨by decide, ?_⟩ rfl, fun _ _ => trivial⟩
    intro a ha
    rcases List.mem_cons.mp ha with rfl | ha
    · exact ⟨⟨by decide, by decide⟩, rfl⟩
    · rw [List.mem_singleton] at ha
      rw [ha]
      exact ⟨⟨by decide, by decide⟩, rfl⟩

/-- After two insertions. -/
theorem radixTreeLookup_exact_two : ∃ t, Runs.run radixStep radixTreeInit radixTwo = some t ∧
    ∀ i < 2 ^ 64, (radixTreeLookup t i = some (.ofItem (radixStored radixTwo i)) ↔
      radixTreeHeight i ≤ t.height ∨ radixStored radixTwo (i % 16 ^ t.height) = none) :=
  radixTreeLookup_exact_iff radixTwo_granted

/-- Index 0x100 is taken for index 0 in a tree of height 2. -/
theorem radixTreeLookup_truncates :
    ¬ ∀ ops : List (RadixOp Nat),
      Runs.Along radixStep (RadixGranted Arena.low) radixTreeInit ops →
        ∃ t, Runs.run radixStep radixTreeInit ops = some t ∧
          ∀ i < 2 ^ 64, radixTreeLookup t i = some (.ofItem (radixStored ops i)) := by
  intro hclaim
  obtain ⟨t, hrun, hlookup⟩ := hclaim radixTwo radixTwo_granted
  obtain rfl := Option.some.inj hrun
  have hfound := hlookup 0x100 (by decide)
  exact absurd hfound (by decide)

end CcRpc
