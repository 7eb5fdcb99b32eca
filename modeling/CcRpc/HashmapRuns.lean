import CcRpc.Hashmap

/-!
# The hash map refines a finite map

The three kinds of keys differ in what a key stands for: a string for its text up to the
terminator, a number or a pointer for itself. After `hashmap_init` every sequence of calls gives
the results of a finite map on what the keys stand for.
-/

namespace CcRpc

/-- `HASHMAP_KEY_STRING`, `HASHMAP_KEY_INT` and `HASHMAP_KEY_PTR`. -/
inductive KeyType where
  | string
  | int
  | ptr
  deriving DecidableEq, Repr

/-- `HASHMAP_KEY_INT` and `HASHMAP_KEY_PTR`: the pointers themselves are compared. -/
def wordKey (w : WordSize) : HashKey (BitVec w.bits) where
  hash k := hashLong w k.toNat
  equal a b := a == b
  equiv := by
    refine ⟨fun a => beq_self_eq_true _, ?_, ?_⟩
    · intro a b h
      rw [beq_iff_eq] at h ⊢
      exact h.symm
    · intro a b c hab hbc
      rw [beq_iff_eq] at hab hbc ⊢
      exact hab.trans hbc
  hash_congr := by
    intro a b h
    rw [beq_iff_eq] at h
    rw [h]

/-- What the `void *` of a key is: a string's memory, or a word. -/
abbrev KeyType.Key (w : WordSize) : KeyType → Type
  | .string => Bytes
  | .int | .ptr => BitVec w.bits

def KeyType.hashKey (w : WordSize) : (t : KeyType) → HashKey (t.Key w)
  | .string => stringKey w
  | .int | .ptr => wordKey w

instance (w : WordSize) : (t : KeyType) → DecidableEq (t.Key w)
  | .string => inferInstanceAs (DecidableEq Bytes)
  | .int | .ptr => inferInstanceAs (DecidableEq (BitVec w.bits))

/-- What a key stands for. -/
def KeyType.value {w : WordSize} : (t : KeyType) → t.Key w → t.Key w
  | .string, (s : Bytes) => cstr s
  | .int, k | .ptr, k => k

theorem KeyType.equal_iff {w : WordSize} (t : KeyType) (a b : t.Key w) :
    (t.hashKey w).equal a b = true ↔ t.value a = t.value b := by
  cases t with
  | string => exact beq_iff_eq
  | int => exact beq_iff_eq
  | ptr => exact beq_iff_eq

/-- The 32-bit numbers of the pending table are words. -/
theorem intKey_hash (w : WordSize) (k : UInt32) :
    (intKey w).hash k = (wordKey w).hash (BitVec.ofNat w.bits k.toNat) := by
  have hk := k.toNat_lt
  have hw := w.two_pow_le
  change hashLong w k.toNat = hashLong w (BitVec.ofNat w.bits k.toNat).toNat
  rw [BitVec.toNat_ofNat, Nat.mod_eq_of_lt (by omega)]

/-- `sizeof(struct list_node)`: two links. -/
def sizeofListNode (w : WordSize) : Nat := 2 * w.bytes

variable {κ ν : Type}

/-- `hashmap_init` when its allocation succeeds and the rounding does not overflow. The size of the
array of buckets is computed in `size_t`; where that is less than the array needs, the loop stores
past its end, which is `none`. -/
def hashmapInit (w : WordSize) (K : HashKey κ) (ν : Type) (bucketCount : Nat) :
    Option (Hashmap K ν) :=
  let count := nextPowerOfTwo bucketCount
  if w.sizeT (sizeofListNode w * count) < sizeofListNode w * count then none
  else some (Hashmap.init K ν bucketCount)

/-- `hashmap_clear`. -/
def Hashmap.clear {K : HashKey κ} (m : Hashmap K ν) : Hashmap K ν where
  bucketCount := m.bucketCount
  buckets i := if i < m.bucketCount then [] else m.buckets i
  pow := m.pow
  placed := by
    intro i e he
    split at he
    · cases he
    · exact m.placed i e he
  distinct := by
    intro i
    split
    · exact List.Pairwise.nil
    · exact m.distinct i

theorem Hashmap.get_clear {K : HashKey κ} (m : Hashmap K ν) (k : κ) : m.clear.get k = none := by
  change Assoc.find K.equal k (if m.index k < m.bucketCount then [] else m.buckets (m.index k)) = none
  rw [if_pos (m.index_lt k)]
  rfl

theorem Hashmap.remove_fst {K : HashKey κ} (m : Hashmap K ν) (k : κ) :
    (m.remove k).1 = (m.get k).isSome := by
  unfold Hashmap.remove
  split
  · next l hl =>
    cases hget : m.get k with
    | some v => rfl
    | none =>
      rw [Assoc.remove_eq_none_iff.mpr hget] at hl
      cases hl
  · next hnone =>
    rw [show m.get k = none from Assoc.remove_eq_none_iff.mp hnone]
    rfl

inductive MapOp (κ ν : Type) where
  | put (key : κ) (value : ν)
  | get (key : κ)
  | remove (key : κ)
  | contains (key : κ)
  | clear

/-- What a call returns. -/
inductive MapResult (ν : Type) where
  | void
  | value (v : Option ν)
  | flag (b : Bool)

/-- One call, when the allocation of a new entry succeeds. -/
def Hashmap.exec {K : HashKey κ} (m : Hashmap K ν) : MapOp κ ν → Option (Hashmap K ν × MapResult ν)
  | .put key value => (m.put true key value).map fun m => (m, .void)
  | .get key => some (m, .value (m.get key))
  | .remove key => some ((m.remove key).2, .flag (m.remove key).1)
  | .contains key => some (m, .flag (m.contains key))
  | .clear => some (m.clear, .void)

/-- Calls in order, with what each returns. -/
def Hashmap.execAll {K : HashKey κ} (m : Hashmap K ν) :
    List (MapOp κ ν) → Option (Hashmap K ν × List (MapResult ν))
  | [] => some (m, [])
  | op :: ops => (m.exec op).bind fun (m, r) => (m.execAll ops).map fun (m, rs) => (m, r :: rs)

/-- The calls on a finite map from what the keys stand for. -/
def mapExec {α : Type} [DecidableEq α] (val : κ → α) (f : α → Option ν) :
    MapOp κ ν → (α → Option ν) × MapResult ν
  | .put key value => (Function.update f (val key) (some value), .void)
  | .get key => (f, .value (f (val key)))
  | .remove key => (Function.update f (val key) none, .flag (f (val key)).isSome)
  | .contains key => (f, .flag (f (val key)).isSome)
  | .clear => (fun _ => none, .void)

def mapExecAll {α : Type} [DecidableEq α] (val : κ → α) (f : α → Option ν) :
    List (MapOp κ ν) → List (MapResult ν)
  | [] => []
  | op :: ops => (mapExec val f op).2 :: mapExecAll val (mapExec val f op).1 ops

section Refinement

variable {α : Type} [DecidableEq α] {K : HashKey κ} {val : κ → α}

/-- The finite map that a hash map stands for. -/
def Hashmap.StandsFor (val : κ → α) (m : Hashmap K ν) (f : α → Option ν) : Prop :=
  ∀ k, m.get k = f (val k)

theorem Hashmap.StandsFor.exec (hval : ∀ a b, K.equal a b = true ↔ val a = val b) {m : Hashmap K ν}
    {f : α → Option ν} (hm : m.StandsFor val f) (op : MapOp κ ν) :
    ∃ m', m.exec op = some (m', (mapExec val f op).2) ∧ m'.StandsFor val (mapExec val f op).1 := by
  have hupdate : ∀ key v k, (if K.equal key k then v else m.get k) =
      Function.update f (val key) v (val k) := by
    intro key v k
    rw [Function.update_apply, hm k]
    by_cases hk : K.equal key k = true
    · rw [if_pos hk, if_pos ((hval key k).mp hk).symm]
    · rw [if_neg hk, if_neg]
      intro heq
      exact hk ((hval key k).mpr heq.symm)
  cases op with
  | put key value =>
    obtain ⟨m', hput⟩ := m.put_true key value
    refine ⟨m', by rw [Hashmap.exec, hput]; rfl, ?_⟩
    intro k
    rw [Hashmap.get_put hput, hupdate]
    rfl
  | get key => exact ⟨m, by rw [Hashmap.exec, hm key]; rfl, hm⟩
  | remove key =>
    refine ⟨(m.remove key).2, by rw [Hashmap.exec, m.remove_fst, hm key]; rfl, ?_⟩
    intro k
    rw [m.get_remove, hupdate]
    rfl
  | contains key => exact ⟨m, by rw [Hashmap.exec, Hashmap.contains, hm key]; rfl, hm⟩
  | clear =>
    refine ⟨m.clear, rfl, ?_⟩
    intro k
    exact m.get_clear k

theorem Hashmap.StandsFor.execAll (hval : ∀ a b, K.equal a b = true ↔ val a = val b)
    {m : Hashmap K ν} {f : α → Option ν} (hm : m.StandsFor val f) (ops : List (MapOp κ ν)) :
    ∃ m', m.execAll ops = some (m', mapExecAll val f ops) := by
  induction ops generalizing m f with
  | nil => exact ⟨m, rfl⟩
  | cons op ops ih =>
    obtain ⟨m₁, hstep, hm₁⟩ := hm.exec hval op
    obtain ⟨m', hrest⟩ := ih hm₁
    refine ⟨m', ?_⟩
    rw [Hashmap.execAll, hstep, Option.bind_some]
    dsimp only
    rw [hrest]
    rfl

end Refinement

/-- After `hashmap_init` every sequence of calls returns what a finite map returns, every entry is
in the bucket of its hash, and no two entries have equal keys. -/
def RefinesMap (w : WordSize) (t : KeyType) (ν : Type) (bucketCount : Nat) : Prop :=
  ∃ m, hashmapInit w (t.hashKey w) ν bucketCount = some m ∧
    ∀ ops : List (MapOp (t.Key w) ν), ∃ m', m.execAll ops = some (m', mapExecAll t.value (fun _ => none) ops) ∧
      (∀ i, ∀ e ∈ m'.buckets i, (t.hashKey w).hash e.1 &&& (m'.bucketCount - 1) = i) ∧
      m'.entries.Pairwise fun a b => t.value a.1 ≠ t.value b.1

theorem hashmapInit_eq_none_iff (w : WordSize) (K : HashKey κ) (ν : Type) (bucketCount : Nat) :
    hashmapInit w K ν bucketCount = none ↔
      2 ^ w.bits ≤ sizeofListNode w * nextPowerOfTwo bucketCount := by
  unfold hashmapInit
  dsimp only
  constructor
  · intro hnone
    by_contra hlt
    rw [WordSize.sizeT_of_lt (Nat.lt_of_not_le hlt), if_neg (Nat.lt_irrefl _)] at hnone
    cases hnone
  · intro hle
    exact if_pos (Nat.lt_of_lt_of_le (Nat.mod_lt _ (Nat.two_pow_pos _)) hle)

theorem not_refinesMap_of_wrap {w : WordSize} {t : KeyType} {bucketCount : Nat}
    (hwrap : 2 ^ w.bits ≤ sizeofListNode w * nextPowerOfTwo bucketCount) :
    ¬ RefinesMap w t ν bucketCount := by
  rintro ⟨m, hinit, -⟩
  rw [(hashmapInit_eq_none_iff w _ ν bucketCount).mpr hwrap] at hinit
  cases hinit

/-- The hash map refines a finite map exactly when the size of its array of buckets fits `size_t`. -/
theorem refinesMap_iff (w : WordSize) (t : KeyType) (ν : Type) (bucketCount : Nat) :
    RefinesMap w t ν bucketCount ↔
      sizeofListNode w * nextPowerOfTwo bucketCount < 2 ^ w.bits := by
  constructor
  · intro href
    by_contra hwrap
    exact not_refinesMap_of_wrap (Nat.le_of_not_lt hwrap) href
  · intro hfits
    refine ⟨Hashmap.init _ ν bucketCount, ?_, fun ops => ?_⟩
    · cases hinit : hashmapInit w (t.hashKey w) ν bucketCount with
      | none =>
        have := (hashmapInit_eq_none_iff w _ ν bucketCount).mp hinit
        omega
      | some m =>
        unfold hashmapInit at hinit
        dsimp only at hinit
        split at hinit
        · cases hinit
        · exact hinit.symm
    · have hempty : (Hashmap.init (t.hashKey w) ν bucketCount).StandsFor t.value fun _ => none :=
        fun k => Hashmap.get_init _ k
      obtain ⟨m', hexec⟩ := hempty.execAll t.equal_iff ops
      refine ⟨m', hexec, m'.placed, m'.entries_distinct.imp ?_⟩
      intro a b hab heq
      rw [(t.equal_iff a.1 b.1).mpr heq] at hab
      cases hab

/-- For 2^60 buckets of 16 bytes the code asks for 0 bytes. -/
theorem refinesMap_wrap : ¬ RefinesMap .w64 .string Nat (2 ^ 60) := by
  refine not_refinesMap_of_wrap ?_
  decide

end CcRpc
