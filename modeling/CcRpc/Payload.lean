import CcRpc.HeapRuns

/-!
# What `heap_malloc` grants

The allocators on top of the heap see no more of it than this: a request is refused or gets an
aligned payload of its size inside `all_heap`, and payloads that are live do not overlap.
-/

namespace CcRpc

/-- `n` bytes at `p` that `heap_malloc` can grant. -/
structure Arena.Payload (A : Arena) (n p : Nat) : Prop where
  aligned : p % 8 = 0
  behind : A.allHeap + A.word.heapStructSize ≤ p
  inside : p + n ≤ A.allHeap + configHeap

/-- `n` bytes at `a` and `m` bytes at `c` have no byte in common. -/
def Apart (a n c m : Nat) : Prop := a + n ≤ c ∨ c + m ≤ a

instance (a n c m : Nat) : Decidable (Apart a n c m) := inferInstanceAs (Decidable (_ ∨ _))

variable {A : Arena} {a c k l m n p : Nat}

theorem Apart.symm (h : Apart a n c m) : Apart c m a n := Or.symm h

theorem Apart.within {a' c' : Nat} (h : Apart a n c m) (ha : a ≤ a') (hn : a' + k ≤ a + n)
    (hc : c ≤ c') (hm : c' + l ≤ c + m) : Apart a' k c' l := by
  apply h.imp
  · intro hle
    omega
  · intro hle
    omega

theorem Arena.Payload.pos (h : A.Payload n p) : 0 < p := by
  have hbehind := h.behind
  have hw := headerSize_pos A.word
  omega

theorem Arena.Payload.fits (h : A.Payload n p) : p + n < 2 ^ A.word.bits :=
  h.inside.trans_lt A.allHeap_fits

theorem Arena.Payload.le (h : A.Payload n p) : n ≤ configHeap := by
  have hbehind := h.behind
  have hinside := h.inside
  omega

theorem apart_blocks {base bs i j : Nat} (hne : i ≠ j) :
    Apart (base + bs * i) bs (base + bs * j) bs := by
  rcases Nat.lt_or_gt_of_ne hne with hlt | hlt
  · apply Or.inl
    have hle := Nat.mul_le_mul_left bs (Nat.succ_le_of_lt hlt)
    rw [Nat.mul_succ] at hle
    omega
  · apply Or.inr
    have hle := Nat.mul_le_mul_left bs (Nat.succ_le_of_lt hlt)
    rw [Nat.mul_succ] at hle
    omega

theorem block_le {bs i n : Nat} (hi : i < n) : bs * i + bs ≤ bs * n := by
  have hle := Nat.mul_le_mul_left bs (Nat.succ_le_of_lt hi)
  rwa [Nat.mul_succ] at hle

theorem range_split {i n : Nat} (hi : i < n) :
    List.range n = List.range i ++ i :: List.range' (i + 1) (n - (i + 1)) := by
  have hlen : n = i + (1 + (n - (i + 1))) := by omega
  conv_lhs => rw [hlen]
  rw [List.range_eq_range', List.range_eq_range', ← List.range'_append_1, Nat.zero_add, Nat.add_comm 1,
    List.range'_succ]

theorem sum_le_of_apart {N : Nat} {l : List (Nat × Nat)} (hN : ∀ e ∈ l, e.1 + e.2 ≤ N)
    (hl : l.Pairwise fun e f => Apart e.1 e.2 f.1 f.2) : (l.map Prod.snd).sum ≤ N := by
  -- the bytes of the ranges, counted one by one
  suffices h : (l.map Prod.snd).sum ≤
      {x ∈ Finset.range N | ∃ e ∈ l, e.1 ≤ x ∧ x < e.1 + e.2}.card by
    exact h.trans ((Finset.card_filter_le _ _).trans_eq (Finset.card_range N))
  induction l with
  | nil => simp
  | cons e l ih =>
    have hrest := ih (fun f hf => hN f (List.mem_cons_of_mem e hf)) (List.pairwise_cons.mp hl).2
    have hdisjoint : Disjoint (Finset.Ico e.1 (e.1 + e.2))
        {x ∈ Finset.range N | ∃ f ∈ l, f.1 ≤ x ∧ x < f.1 + f.2} := by
      rw [Finset.disjoint_left]
      intro x hx hmem
      obtain ⟨-, f, hf, hle, hlt⟩ := Finset.mem_filter.mp hmem
      have hapart := (List.pairwise_cons.mp hl).1 f hf
      rw [Finset.mem_Ico] at hx
      unfold Apart at hapart
      omega
    have hsub : Finset.Ico e.1 (e.1 + e.2) ∪
        {x ∈ Finset.range N | ∃ f ∈ l, f.1 ≤ x ∧ x < f.1 + f.2} ⊆
        {x ∈ Finset.range N | ∃ f ∈ e :: l, f.1 ≤ x ∧ x < f.1 + f.2} := by
      intro x hx
      have hend := hN e List.mem_cons_self
      simp only [Finset.mem_union, Finset.mem_Ico, Finset.mem_filter, Finset.mem_range] at hx ⊢
      rcases hx with hx | ⟨hlt, f, hf, hin⟩
      · exact ⟨by omega, e, List.mem_cons_self, hx⟩
      · exact ⟨hlt, f, List.mem_cons_of_mem e hf, hin⟩
    have hcard := Finset.card_le_card hsub
    rw [Finset.card_union_of_disjoint hdisjoint, Nat.card_Ico] at hcard
    rw [List.map_cons, List.sum_cons]
    omega

/-- The heap keeps its word: what it grants in a run is a payload of the size that was asked for. -/
theorem HeapInv.payload {s : HeapSys} {bs : List Block} {h : Heap} (hI : HeapInv A s bs)
    (hn : Unwrapped A n) (hcall : realHeapMalloc A s.heap n = some (h, p)) (hp : p ≠ 0) :
    A.Payload n p := by
  obtain ⟨h', ptr, hcall', -, hsome⟩ := hI.malloc_spec hn
  rw [hcall] at hcall'
  cases hcall'
  obtain ⟨haligned, hbehind, hinside, hsize⟩ := hsome hp
  exact ⟨haligned, hbehind, by omega⟩

end CcRpc
