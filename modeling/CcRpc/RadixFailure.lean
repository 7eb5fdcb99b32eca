import CcRpc.RadixBound

/-!
# Insertions that run out of memory

`radix_tree_insert` allocates nodes while it changes the tree. When `heap_malloc` returns NULL for the
first node of the call and the height has not been touched, the tree is as before. In all other cases
later calls can tell: the height is one too large, or an empty node stays in the tree, or an index that
was taken for a shorter one is not any more.
-/

namespace CcRpc

open Prefixes

variable {A : Arena} {α : Type} [DecidableEq α] {t t' : Radix α} {S S' : RadixShape α}
  {m : Nat → Option α} {i k q : Nat} {v : α} {gs : List Nat}

inductive RadixCall (α : Type)
  | lookup (index : Nat)
  | rootLeft
  | insert (index : Nat) (item : α) (grants : List Nat)
  | delete (index : Nat)

inductive RadixResult (α : Type)
  | ptr (p : RadixPtr α)
  | code (r : Int)
  deriving DecidableEq

def RadixCall.run (t : Radix α) : RadixCall α → Option (RadixResult α × Radix α)
  | .lookup index => (radixTreeLookup t index).map fun p => (.ptr p, t)
  | .rootLeft => (radixTreeRootLeft t).map fun p => (.ptr p, t)
  | .insert index item grants => (radixTreeInsert (t.given grants) index item).map fun result =>
      (.code result.1, result.2.given [])
  | .delete index => (radixTreeDelete t index).map fun result => (.ptr result.1, result.2)

/-- The results of a list of calls, if all of them return. -/
def radixResults (t : Radix α) : List (RadixCall α) → Option (List (RadixResult α))
  | [] => some []
  | c :: cs => (c.run t).bind fun result => (radixResults result.2 cs).map (result.1 :: ·)

/-- The index is a `size_t`. -/
def RadixCall.InRange (A : Arena) : RadixCall α → Prop
  | .lookup index => index < 2 ^ A.word.bits
  | .rootLeft => True
  | .insert index _ _ => index < 2 ^ A.word.bits
  | .delete index => index < 2 ^ A.word.bits

/-- `heap_malloc` returns NULL during the call. -/
def InsertFails (t : Radix α) (i : Nat) (v : α) (gs : List Nat) : Prop :=
  ∃ r t', radixTreeInsert (t.given gs) i v = some (r, t') ∧ t'.heap.refused = true

/-- The call returns a negative value, and no later calls return anything else than without it. -/
def InsertUnnoticed (A : Arena) (t : Radix α) (i : Nat) (v : α) (gs : List Nat) : Prop :=
  ∃ r t', radixTreeInsert (t.given gs) i v = some (r, t') ∧ r < 0 ∧
    ∀ calls : List (RadixCall α), (∀ c ∈ calls, c.InRange A) →
      radixResults (t'.given []) calls = radixResults t calls

/-- The first node of the call is refused, in an empty tree or one that is high enough. -/
def FailsFirst (t : Radix α) (i : Nat) (gs : List Nat) : Prop :=
  gs = [] ∧ (t.rnode = .null ∨ radixTreeHeight i ≤ t.height)

/-- As `RadixGranted`, but an insertion may also fail in that way. -/
def RadixHarmless (A : Arena) (t : Radix α) : RadixOp α → Prop
  | .insert index item grants => index < 2 ^ A.word.bits ∧ t.Fresh A grants ∧
    (InsertFails t index item grants → FailsFirst t index grants)
  | .delete index => index < 2 ^ A.word.bits

theorem Radix.Holds.delete_all (hH : t.Holds S) (hC : t.Counted A) (l : List Nat) :
    ∃ t' S' rs, t'.Holds S' ∧ (∀ i, S'.full 0 i ↔ i ∉ l ∧ S.full 0 i) ∧
      (Tight 16 S'.full ↔ Tight 16 S.full) ∧ ∀ calls,
        radixResults t (l.map .delete ++ calls) = (radixResults t' calls).map (rs ++ ·) := by
  induction l generalizing t S with
  | nil =>
    refine ⟨t, S, [], hH, by simp, Iff.rfl, fun calls => ?_⟩
    simp
  | cons i l ih =>
    obtain ⟨t₁, S₁, hcall, hH₁, hC₁, hitems, htight⟩ : ∃ t₁ S₁,
        radixTreeDelete t i = some (S.cell 0 i, t₁) ∧ t₁.Holds S₁ ∧ t₁.Counted A ∧
          (∀ j, S₁.full 0 j ↔ j ≠ i ∧ S.full 0 j) ∧ (Tight 16 S₁.full ↔ Tight 16 S.full) := by
      by_cases hnull : S.cell 0 i = .null
      · refine ⟨t, S, by rw [hH.delete_absent hnull, hnull], hH, hC, fun j => ?_, Iff.rfl⟩
        refine ⟨fun hj => ⟨?_, hj⟩, And.right⟩
        rintro rfl
        exact hj hnull
      · obtain ⟨t₁, S₁, hcall, hH₁, hC₁, -, hitems, htight, hhollow⟩ := hH.delete hC hnull
        refine ⟨t₁, S₁, hcall, hH₁, hC₁, fun j => ?_, not_imp_not.mp hhollow, htight⟩
        rw [RadixShape.full, hitems]
        by_cases hj : j = i
        · simp [hj]
        · simp [hj, RadixShape.full]
    obtain ⟨t', S', rs, hH', hitems', htight', hresults⟩ := ih hH₁ hC₁
    refine ⟨t', S', .ptr (S.cell 0 i) :: rs, hH', fun j => ?_, htight'.trans htight,
      fun calls => ?_⟩
    · rw [hitems', hitems, List.mem_cons]
      tauto
    · rw [List.map_cons, List.cons_append, radixResults, RadixCall.run, hcall]
      simp only [Option.map_some, Option.bind_some, hresults, Option.map_map]
      rfl

theorem Radix.Holds.rootLeft_hollow (hH : t.Holds S) (hempty : ∀ i, ¬ S.full 0 i)
    (hS : ¬ Tight 16 S.full) : radixTreeRootLeft t = none := by
  have hpos : 0 < S.height := by
    by_contra hzero
    apply hS
    intro k q hfull
    have hle := hH.tree.le_height hfull
    omega
  obtain ⟨h, hh⟩ := Nat.exists_eq_succ_of_ne_zero hpos.ne'
  have hroot := hH.tree.root hpos
  rw [hh] at hroot
  rw [radixTreeRootLeft, hH.rnode, hh]
  rcases hH.nodeLeft_or hroot with ⟨hnone, -⟩ | ⟨i, hi, -⟩
  · exact hnone
  · exact absurd hi.1.1 (hempty i)

theorem digit_mul_16 (k i : Nat) : digit 16 (k + 1) (16 * i) = digit 16 k i := by
  rw [digit, digit, pow_succ', Nat.mul_div_mul_left _ _ (by decide)]

/-- From a node down with one level more than it has, an item is read as a node. -/
theorem Radix.Holds.lookupLoop_deep {h : Nat} (hH : Radix.Holds { t with height := h } S)
    (hk : k ≤ 15) (hi : S.full 0 i) (hitem : ∃ v, S.cell 0 i = .item v)
    (hle : k ≤ S.height) :
    CcRpc.lookupLoop t (16 * i) (k + 1) (S.cell k (i / 16 ^ k)) (4 * k) = none := by
  induction k with
  | zero =>
    obtain ⟨v, hv⟩ := hitem
    rw [pow_zero, Nat.div_one, hv]
    rfl
  | succ k ih =>
    have hq : S.full (k + 1) (i / 16 ^ (k + 1)) := hH.tree.prefixes hi hle
    have hload : t.load (S.cell (k + 1) (i / 16 ^ (k + 1))) =
        some (S.record k (i / 16 ^ (k + 1))) := hH.load hq
    have hslot := RadixShape.slot_record (S := S) (k := k) (q := i / 16 ^ (k + 1))
      (digit_lt (b := 16) (k := k) (i := i) (by decide))
    rw [child_digit] at hslot
    have hfull : S.cell k (i / 16 ^ k) ≠ .null := hH.tree.prefixes hi (by omega)
    have hshift : nextShift 32 (4 * (k + 1)) = 4 * k := nextShift_eq (by decide) (by omega)
    rw [CcRpc.lookupLoop]
    simp only [hload, slotOffset_eq, digit_mul_16, hslot, Option.bind_eq_bind, Option.bind_some,
      if_neg hfull, hshift]
    exact ih (by omega) (by omega)

/-- With the height one too large an index 16 times a stored one leads past its item. -/
theorem HeightTorn.lookup (hH : HeightTorn t S S') (hlt : S'.height < 16) (hi : S'.full 0 i)
    (hitem : ∃ v, S'.cell 0 i = .item v) : radixTreeLookup t (16 * i) = none := by
  have hpos := hH.holds.tree.height_pos hi
  have hne : t.rnode ≠ .null := hH.holds.rnode_ne_null hpos
  have hzero : i / 16 ^ S'.height = 0 :=
    Nat.div_eq_of_lt (hH.holds.tree.lt_pow (by decide) hi)
  have hroot : t.rnode = S'.cell S'.height (i / 16 ^ S'.height) := by
    rw [hzero]
    exact hH.holds.rnode
  rw [radixTreeLookup, if_neg hne, hH.height, hroot, firstShift_eq (by decide) (by omega)]
  exact hH.holds.lookupLoop_deep (by omega) hi hitem (Nat.le_refl _)

theorem RadixInv.harmless (hI : RadixInv A t m S) (hi : i < 2 ^ A.word.bits)
    (hgs : t.Fresh A gs) (hfails : InsertFails t i v gs) (hfirst : FailsFirst t i gs) :
    ∃ t', radixTreeInsert (t.given gs) i v = some (-1, t') ∧ t'.given [] = t := by
  obtain ⟨r, t', hcall, href⟩ := hfails
  by_cases hfree : S.cell 0 i = .null
  · obtain ⟨r', t'', hcall', hout⟩ := (hI.given gs).insert (v := v) (hI.stocked hgs)
      (word_bits_le A hi) hfree
    rw [hcall, Option.some_inj, Prod.mk.injEq] at hcall'
    obtain ⟨rfl, rfl⟩ := hcall'
    rcases hout with ⟨-, -, hsame, -⟩ | ⟨rfl, -, hrefused⟩
    · rw [href] at hsame
      cases hsame
    · refine ⟨t', hcall, ?_⟩
      cases hrefused with
      | unchanged hgrants hlow heq =>
        rw [heq]
        exact hI.given_nil
      | hollow S' hgrants => exact absurd hfirst.1 hgrants
      | raised S' hroot hhigh =>
        rcases hfirst.2 with hnull | hle
        · exact absurd hnull hroot
        · exact absurd hhigh (Nat.not_lt.mpr hle)
      | torn S' hroot hhigh =>
        rcases hfirst.2 with hnull | hle
        · exact absurd hnull hroot
        · exact absurd hhigh (Nat.not_lt.mpr hle)
  · rw [(hI.given gs).insert_full hfree, Option.some_inj, Prod.mk.injEq] at hcall
    obtain ⟨-, rfl⟩ := hcall
    cases href

theorem RadixInv.step_harmless (hI : RadixInv A t m S) {op : RadixOp α}
    (hop : RadixHarmless A t op) :
    ∃ t' m' S', radixStep t op = some t' ∧ RadixInv A t' m' S' := by
  cases op with
  | insert i v gs =>
    obtain ⟨hi, hgs, hfirst⟩ := hop
    by_cases hfails : InsertFails t i v gs
    · obtain ⟨t', hcall, hsame⟩ := hI.harmless hi hgs hfails (hfirst hfails)
      refine ⟨t, m, S, ?_, hI⟩
      rw [radixStep, hcall, Option.map_some, hsame]
    · have hgranted : RadixGranted A t (.insert i v gs) := by
        refine ⟨hi, hgs, fun r t' hcall => ?_⟩
        by_contra href
        exact hfails ⟨r, t', hcall, eq_true_of_ne_false href⟩
      obtain ⟨t', S', hstep, hI'⟩ := hI.step hgranted
      exact ⟨t', _, S', hstep, hI'⟩
  | delete i =>
    have hgranted : RadixGranted A t (.delete i) := hop
    obtain ⟨t', S', hstep, hI'⟩ := hI.step hgranted
    exact ⟨t', _, S', hstep, hI'⟩

theorem radix_run_harmless {ops : List (RadixOp α)}
    (hops : Runs.Along radixStep (RadixHarmless A) radixTreeInit ops) :
    ∃ t, Runs.run radixStep radixTreeInit ops = some t ∧ ∃ m S, RadixInv A t m S := by
  refine Runs.run_total (P := fun t => ∃ m S, RadixInv A t m S) ?_
    ⟨_, _, radixInv_init (α := α)⟩ hops
  rintro t op ⟨m, S, hI⟩ hop
  obtain ⟨t', m', S', hstep, hI'⟩ := hI.step_harmless hop
  exact ⟨t', hstep, m', S', hI'⟩

theorem pow_radixTreeHeight_le (A : Arena) (hi : i < 2 ^ A.word.bits) :
    16 ^ radixTreeHeight i ≤ 2 ^ A.word.bits := by
  have hword : 16 ^ (A.word.bits / 4) = 2 ^ A.word.bits := by
    cases A.word <;> rfl
  rw [← hword] at hi ⊢
  have hpos : 0 < A.word.bits / 4 := by
    cases A.word <;> decide
  exact Nat.pow_le_pow_right (by decide) ((radixTreeHeight_le hpos).mpr hi)

theorem RadixInv.exists_item (hI : RadixInv A t m S) (hne : t.rnode ≠ .null) :
    ∃ i, S.full 0 i ∧ ∃ v, S.cell 0 i = .item v := by
  have hroot := hI.holds.tree.root (hI.holds.height_pos hne)
  obtain ⟨i, hi, -⟩ := hI.tight.exists_number hroot
  obtain ⟨v, hv⟩ := Option.ne_none_iff_exists'.mp (hI.full_iff.mp hi)
  exact ⟨i, hi, v, by rw [hI.items, hv, RadixPtr.ofItem]⟩

theorem radixResults_lookup (t : Radix α) (i : Nat) :
    radixResults t [.lookup i] = (radixTreeLookup t i).map fun p => [.ptr p] := by
  rw [radixResults, RadixCall.run]
  cases radixTreeLookup t i <;> rfl

theorem radixResults_rootLeft (t : Radix α) :
    radixResults t [.rootLeft] = (radixTreeRootLeft t).map fun p => [.ptr p] := by
  rw [radixResults, RadixCall.run]
  cases radixTreeRootLeft t <;> rfl

/-- An empty node is found when everything else has been deleted. -/
theorem RadixInv.hollow_noticed (hI : RadixInv A t m S) (hH : t'.Holds S') (hC : t'.Counted A)
    (hhollow : ¬ Tight 16 S'.full) (hitems : S'.cell 0 = S.cell 0)
    (hsame : ∀ calls : List (RadixCall α), (∀ c ∈ calls, c.InRange A) →
      radixResults t' calls = radixResults t calls) : False := by
  let l := List.range (2 ^ A.word.bits)
  have hall : ∀ i, ¬ (i ∉ l ∧ S.full 0 i) := by
    rintro i ⟨hi, hfull⟩
    exact hi (List.mem_range.mpr (hI.sized i (hI.full_iff.mp hfull)))
  have hrange : ∀ c ∈ l.map RadixCall.delete ++ [(.rootLeft : RadixCall α)], c.InRange A := by
    intro c hc
    rcases List.mem_append.mp hc with hc | hc
    · obtain ⟨i, hi, rfl⟩ := List.mem_map.mp hc
      exact List.mem_range.mp hi
    · rw [List.mem_singleton.mp hc]
      trivial
  obtain ⟨t₁, S₁, rs, hH₁, hitems₁, htight₁, hresults⟩ := hI.holds.delete_all hI.counted l
  obtain ⟨t₂, S₂, rs', hH₂, hitems₂, htight₂, hresults'⟩ := hH.delete_all hC l
  have hleft : radixTreeRootLeft t₂ = none := by
    apply hH₂.rootLeft_hollow
    · intro i hi
      have hi' := (hitems₂ i).mp hi
      rw [RadixShape.full, hitems] at hi'
      exact hall i hi'
    · rwa [htight₂]
  have hcalls := hsame _ hrange
  rw [hresults, hresults', radixResults_rootLeft, radixResults_rootLeft, hleft] at hcalls
  rcases hH₁.rootLeft (htight₁.mpr hI.tight) with ⟨hsome, -⟩ | ⟨i, -, hsome⟩
  · rw [hsome] at hcalls
    cases hcalls
  · rw [hsome] at hcalls
    cases hcalls

theorem RadixInv.raised_noticed (hI : RadixInv A t m S) (hne : t.rnode ≠ .null)
    (hi : i < 2 ^ A.word.bits) (hhigh : t.height < radixTreeHeight i) (hH : t'.Holds S')
    (hheight : S'.height = radixTreeHeight i) (hitems : S'.cell 0 = S.cell 0)
    (hsame : ∀ calls : List (RadixCall α), (∀ c ∈ calls, c.InRange A) →
      radixResults t' calls = radixResults t calls) : False := by
  obtain ⟨j, hj, v, hv⟩ := hI.exists_item hne
  have hlt := hI.holds.tree.lt_pow (by decide) hj
  rw [hI.holds.height] at hhigh
  have hpow : 16 ^ (S.height + 1) ≤ 16 ^ radixTreeHeight i :=
    Nat.pow_le_pow_right (by decide) hhigh
  rw [pow_succ] at hpow
  have hword := pow_radixTreeHeight_le A hi
  have hcalls := hsame [.lookup (16 ^ S.height + j)] (by
    intro c hc
    rw [List.mem_singleton.mp hc]
    change 16 ^ S.height + j < 2 ^ A.word.bits
    omega)
  rw [radixResults_lookup, radixResults_lookup, hI.holds.lookup, hH.lookup_fits (by rw [hheight]; omega),
    hitems, Nat.add_mod_left, Nat.mod_eq_of_lt hlt, hv, hI.holds.beyond (Nat.le_add_right _ _)] at hcalls
  cases hcalls

theorem RadixInv.torn_noticed (hI : RadixInv A t m S) (hne : t.rnode ≠ .null)
    (hi : i < 2 ^ A.word.bits) (hH : HeightTorn t' S S')
    (hlt : S'.height < radixTreeHeight i)
    (hsame : ∀ calls : List (RadixCall α), (∀ c ∈ calls, c.InRange A) →
      radixResults t' calls = radixResults t calls) : False := by
  obtain ⟨j, hj, v, hv⟩ := hI.exists_item hne
  have h16 := radixTreeHeight_le_16 (word_bits_le A hi)
  have hj' : S'.full 0 j := by
    rw [RadixShape.full, hH.items]
    exact hj
  have hpow : 16 ^ (S'.height + 1) ≤ 16 ^ radixTreeHeight i :=
    Nat.pow_le_pow_right (by decide) hlt
  rw [pow_succ] at hpow
  have hword := pow_radixTreeHeight_le A hi
  have hjlt := hH.holds.tree.lt_pow (by decide) hj'
  have hcalls := hsame [.lookup (16 * j)] (by
    intro c hc
    rw [List.mem_singleton.mp hc]
    change 16 * j < 2 ^ A.word.bits
    omega)
  rw [radixResults_lookup, radixResults_lookup, hI.holds.lookup,
    hH.lookup (by omega) hj' ⟨v, by rw [hH.items, hv]⟩] at hcalls
  cases hcalls

theorem RadixInv.unnoticed_iff (hI : RadixInv A t m S) (hi : i < 2 ^ A.word.bits)
    (hgs : t.Fresh A gs) (hfails : InsertFails t i v gs) :
    InsertUnnoticed A t i v gs ↔ FailsFirst t i gs := by
  constructor
  · rintro ⟨r, t', hcall, -, hsame⟩
    obtain ⟨r', t'', hcall', href⟩ := hfails
    rw [hcall, Option.some_inj, Prod.mk.injEq] at hcall'
    obtain ⟨rfl, rfl⟩ := hcall'
    by_cases hfree : S.cell 0 i = .null
    · obtain ⟨r', t'', hcall', hout⟩ := (hI.given gs).insert (v := v) (hI.stocked hgs)
        (word_bits_le A hi) hfree
      rw [hcall, Option.some_inj, Prod.mk.injEq] at hcall'
      obtain ⟨rfl, rfl⟩ := hcall'
      rcases hout with ⟨-, -, hkept, -⟩ | ⟨-, -, hrefused⟩
      · rw [href] at hkept
        cases hkept
      · cases hrefused with
        | unchanged hgrants hlow => exact ⟨hgrants, hlow⟩
        | hollow S' hgrants hH hC hhollow hitems =>
          exact (hI.hollow_noticed (hH.congr rfl rfl rfl : (t'.given []).Holds S') hC hhollow
            hitems hsame).elim
        | raised S' hroot hhigh hH hheight hitems =>
          exact (hI.raised_noticed hroot hi hhigh (hH.congr rfl rfl rfl : (t'.given []).Holds S')
            hheight hitems hsame).elim
        | torn S' hroot hhigh hH hlt =>
          have hH' : HeightTorn (t'.given []) S S' :=
            ⟨hH.holds.congr rfl rfl rfl, hH.height, hH.items⟩
          exact (hI.torn_noticed hroot hi hH' hlt hsame).elim
    · rw [(hI.given gs).insert_full hfree, Option.some_inj, Prod.mk.injEq] at hcall
      obtain ⟨-, rfl⟩ := hcall
      cases href
  · intro hfirst
    obtain ⟨t', hcall, hsame⟩ := hI.harmless hi hgs hfails hfirst
    exact ⟨-1, t', hcall, by decide, fun calls _ => by rw [hsame]⟩

/-- After every run all of whose failed insertions have failed in this way, a failed insertion goes
unnoticed if and only if it fails in this way too. -/
theorem radixTreeInsert_unnoticed_iff {ops : List (RadixOp α)}
    (hops : Runs.Along radixStep (RadixHarmless A) radixTreeInit ops) :
    ∃ t, Runs.run radixStep radixTreeInit ops = some t ∧ ∀ i v gs, i < 2 ^ A.word.bits →
      t.Fresh A gs → InsertFails t i v gs →
        (InsertUnnoticed A t i v gs ↔ FailsFirst t i gs) := by
  obtain ⟨t, hrun, m, S, hI⟩ := radix_run_harmless hops
  exact ⟨t, hrun, fun i v gs hi hgs hfails => hI.unnoticed_iff hi hgs hfails⟩

theorem radixOne_harmless :
    Runs.Along radixStep (RadixHarmless Arena.low) radixTreeInit radixOne := by
  obtain ⟨hi, hgs, hgranted⟩ := radixOne_granted.1
  refine ⟨⟨hi, hgs, ?_⟩, fun _ _ => trivial⟩
  rintro ⟨r, t', hcall, href⟩
  rw [hgranted r t' hcall] at href
  cases href

/-- With one item in the tree: no node is granted for index 0x10, and the tree would have to grow. -/
theorem radixTreeInsert_unnoticed_one : ∃ t, Runs.run radixStep radixTreeInit radixOne = some t ∧
    (InsertUnnoticed Arena.low t 0x10 9 [] ↔ FailsFirst t 0x10 []) := by
  obtain ⟨t, hrun, hiff⟩ := radixTreeInsert_unnoticed_iff radixOne_harmless
  obtain rfl := Option.some.inj hrun
  exact ⟨_, hrun, hiff 0x10 9 [] (by decide) ⟨List.nodup_nil, by simp⟩ ⟨-1, _, rfl, rfl⟩⟩

/-- The lookup of index 0 reads its item as a node afterwards. -/
theorem radixTreeInsert_torn :
    ¬ ∀ ops : List (RadixOp Nat),
      Runs.Along radixStep (RadixHarmless Arena.low) radixTreeInit ops →
        ∃ t, Runs.run radixStep radixTreeInit ops = some t ∧ ∀ i v gs, i < 2 ^ 64 →
          t.Fresh Arena.low gs → InsertFails t i v gs → InsertUnnoticed Arena.low t i v gs := by
  intro hclaim
  obtain ⟨t, hrun, hfails⟩ := hclaim radixOne radixOne_harmless
  obtain rfl := Option.some.inj hrun
  obtain ⟨r, t', hcall, -, hsame⟩ := hfails 0x10 9 [] (by decide) ⟨List.nodup_nil, by simp⟩
    ⟨-1, _, rfl, rfl⟩
  obtain ⟨-, rfl⟩ := Prod.mk.inj (Option.some.inj hcall)
  have hcalls := hsame [.lookup 0] (by simp [RadixCall.InRange])
  exact absurd hcalls (by decide)

end CcRpc
