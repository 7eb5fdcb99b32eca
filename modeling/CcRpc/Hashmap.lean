import CcRpc.Tlv
import CcRpc.Lib.Assoc

/-!
# The hash map (`hashmap.c`)

A power of two of buckets, each a list of entries. Keys are compared by `strcmp` or as words. A
map carries with it that every entry is in the bucket of its hash and that no bucket holds a key
twice.
-/

namespace CcRpc

/-- `GOLDEN_RATIO_PRIME`. -/
def goldenRatioPrime : WordSize → Nat
  | .w32 => 0x9e370001
  | .w64 => 0x9e37fffffffc0001

def hashLong (w : WordSize) (v : Nat) : Nat := w.sizeT (v * goldenRatioPrime w)

/-- `hashmap_hash` and `hashmap_key_equal` for one `key_type`. -/
structure HashKey (κ : Type) where
  hash : κ → Nat
  equal : κ → κ → Bool
  equiv : Assoc.IsEquiv equal
  hash_congr : ∀ {a b}, equal a b = true → hash a = hash b

/-- `HASHMAP_KEY_STRING`. -/
def stringKey (w : WordSize) : HashKey Bytes where
  hash s := (cstr s).foldl (fun h c => w.sizeT (h * goldenRatioPrime w + c.toNat)) 0
  equal a b := cstr a == cstr b
  equiv := by
    refine ⟨fun a => beq_self_eq_true _, ?_, ?_⟩
    · intro a b h
      rw [beq_iff_eq] at h ⊢
      exact h.symm
    · intro a b c hab hbc
      rw [beq_iff_eq] at hab hbc ⊢
      exact hab.trans hbc
  hash_congr := by
    intro a b h
    rw [beq_iff_eq] at h
    rw [h]

/-- `HASHMAP_KEY_INT`; the keys are 32-bit numbers cast to a pointer. -/
def intKey (w : WordSize) : HashKey UInt32 where
  hash k := hashLong w k.toNat
  equal a b := a == b
  equiv := by
    refine ⟨fun a => beq_self_eq_true _, ?_, ?_⟩
    · intro a b h
      rw [beq_iff_eq] at h ⊢
      exact h.symm
    · intro a b c hab hbc
      rw [beq_iff_eq] at hab hbc ⊢
      exact hab.trans hbc
  hash_congr := by
    intro a b h
    rw [beq_iff_eq] at h
    rw [h]

variable {κ ν : Type}

structure Hashmap (K : HashKey κ) (ν : Type) where
  bucketCount : Nat
  buckets : Nat → List (κ × ν)
  pow : ∃ k, bucketCount = 2 ^ k
  placed : ∀ i, ∀ e ∈ buckets i, K.hash e.1 &&& (bucketCount - 1) = i
  distinct : ∀ i, Assoc.Distinct K.equal (buckets i)

/-- `next_power_of_two`; `CLZ(y)` is `PLATFORM_BITS - 1 - log2 y`. -/
def nextPowerOfTwo (x : Nat) : Nat := if x ≤ 1 then 1 else 1 <<< (Nat.log2 (x - 1) + 1)

theorem nextPowerOfTwo_pow (x : Nat) : ∃ k, nextPowerOfTwo x = 2 ^ k := by
  unfold nextPowerOfTwo
  split
  · exact ⟨0, rfl⟩
  · exact ⟨_, Nat.one_shiftLeft _⟩

namespace Hashmap

variable {K : HashKey κ}

/-- `hashmap_init`, when its allocation succeeds and the rounding does not overflow. -/
def init (K : HashKey κ) (ν : Type) (bucketCount : Nat) : Hashmap K ν where
  bucketCount := nextPowerOfTwo bucketCount
  buckets := fun _ => []
  pow := nextPowerOfTwo_pow bucketCount
  placed := by simp
  distinct := fun _ => List.Pairwise.nil

/-- The index `hashmap_bucket` computes. -/
def index (m : Hashmap K ν) (key : κ) : Nat := K.hash key &&& (m.bucketCount - 1)

/-- `hashmap_bucket`. -/
def bucket (m : Hashmap K ν) (key : κ) : List (κ × ν) := m.buckets (m.index key)

/-- `hashmap_get`. -/
def get (m : Hashmap K ν) (key : κ) : Option ν := Assoc.find K.equal key (m.bucket key)

/-- `hashmap_contains`. -/
def contains (m : Hashmap K ν) (key : κ) : Bool := (m.get key).isSome

/-- The map with one bucket exchanged. -/
def withBucket (m : Hashmap K ν) (i : Nat) (l : List (κ × ν))
    (hp : ∀ e ∈ l, K.hash e.1 &&& (m.bucketCount - 1) = i) (hd : Assoc.Distinct K.equal l) :
    Hashmap K ν where
  bucketCount := m.bucketCount
  buckets := Function.update m.buckets i l
  pow := m.pow
  placed := by
    intro j e he
    by_cases hj : j = i
    · subst hj
      rw [Function.update_self] at he
      exact hp e he
    · rw [Function.update_of_ne hj] at he
      exact m.placed j e he
  distinct := by
    intro j
    by_cases hj : j = i
    · subst hj
      rw [Function.update_self]
      exact hd
    · rw [Function.update_of_ne hj]
      exact m.distinct j

theorem get_withBucket {m : Hashmap K ν} {i : Nat} {l : List (κ × ν)}
    (hp : ∀ e ∈ l, K.hash e.1 &&& (m.bucketCount - 1) = i) (hd : Assoc.Distinct K.equal l) (k : κ) :
    (m.withBucket i l hp hd).get k = if m.index k = i then Assoc.find K.equal k l else m.get k := by
  change Assoc.find K.equal k (Function.update m.buckets i l (m.index k)) = _
  rw [Function.update_apply]
  split <;> rfl

theorem placed_set {m : Hashmap K ν} {key : κ} {value : ν} {l : List (κ × ν)}
    (h : Assoc.set K.equal key value (m.bucket key) = some l) :
    ∀ e ∈ l, K.hash e.1 &&& (m.bucketCount - 1) = m.index key := by
  intro e he
  have hmem : e.1 ∈ (m.bucket key).map Prod.fst := by
    rw [← Assoc.keys_set h]
    exact List.mem_map_of_mem he
  obtain ⟨d, hd, hde⟩ := List.mem_map.mp hmem
  rw [← hde]
  exact m.placed _ d hd

/-- `hashmap_put`. A new entry needs a node, and `ok` tells whether `heap_malloc` gives it one; the
function does not look, so without one it stores through NULL, which is `none`. -/
def put (m : Hashmap K ν) (ok : Bool) (key : κ) (value : ν) : Option (Hashmap K ν) :=
  match h : Assoc.set K.equal key value (m.bucket key) with
  | some l =>
    some (m.withBucket (m.index key) l (placed_set h) ((m.distinct _).set h))
  | none =>
    if ok then
      some (m.withBucket (m.index key) ((key, value) :: m.bucket key)
        (by
          intro e he
          rcases List.mem_cons.mp he with rfl | he
          · rfl
          · exact m.placed _ e he)
        ((m.distinct _).cons K.equiv (Assoc.set_eq_none_iff.mp h)))
    else none

/-- `hashmap_remove`: its return value tells whether there was an entry. -/
def remove (m : Hashmap K ν) (key : κ) : Bool × Hashmap K ν :=
  match h : Assoc.remove K.equal key (m.bucket key) with
  | some l =>
    (true, m.withBucket (m.index key) l
      (fun e he => m.placed _ e ((Assoc.sublist_remove h).subset he)) ((m.distinct _).remove h))
  | none => (false, m)

theorem index_congr (m : Hashmap K ν) {a b : κ} (h : K.equal a b = true) :
    m.index a = m.index b := by
  rw [index, index, K.hash_congr h]

theorem get_congr {m : Hashmap K ν} {a b : κ} (h : K.equal a b = true) : m.get a = m.get b := by
  rw [get, get, bucket, bucket, m.index_congr h]
  exact Assoc.find_congr K.equiv h

@[simp] theorem get_init (n : Nat) (k : κ) : (init K ν n).get k = none := rfl

private theorem get_of_index_ne {m : Hashmap K ν} {key k : κ} (h : m.index k ≠ m.index key) :
    K.equal key k = false := by
  cases hk : K.equal key k with
  | false => rfl
  | true => exact absurd (m.index_congr hk).symm h

private theorem get_of_index_eq {m : Hashmap K ν} {key k : κ} (h : m.index k = m.index key) :
    m.get k = Assoc.find K.equal k (m.bucket key) := by
  rw [get, bucket, h]
  rfl

theorem get_put {m m' : Hashmap K ν} {ok : Bool} {key : κ} {value : ν}
    (h : m.put ok key value = some m') (k : κ) :
    m'.get k = if K.equal key k then some value else m.get k := by
  unfold put at h
  split at h
  · next l hl =>
    cases h
    rw [get_withBucket]
    split
    · next hi => rw [Assoc.find_set K.equiv hl, get_of_index_eq hi]
    · next hi => rw [get_of_index_ne hi]; rfl
  · next hnone =>
    split at h
    · cases h
      rw [get_withBucket]
      split
      · next hi => rw [Assoc.find, get_of_index_eq hi]
      · next hi => rw [get_of_index_ne hi]; rfl
    · cases h

theorem put_true (m : Hashmap K ν) (key : κ) (value : ν) : ∃ m', m.put true key value = some m' := by
  unfold put
  split
  · exact ⟨_, rfl⟩
  · exact ⟨_, if_pos rfl⟩

theorem put_false {m : Hashmap K ν} {key : κ} {value : ν} (hnew : m.get key = none) :
    m.put false key value = none := by
  unfold put
  split
  · next l hl =>
    rw [Assoc.set_eq_none_iff.mpr hnew] at hl
    cases hl
  · exact if_neg (by decide)

theorem get_remove (m : Hashmap K ν) (key k : κ) :
    (m.remove key).2.get k = if K.equal key k then none else m.get k := by
  unfold remove
  split
  · next l hl =>
    rw [get_withBucket]
    split
    · next hi =>
      rw [Assoc.find_remove K.equiv (m.distinct _) hl, get_of_index_eq hi]
      rfl
    · next hi => rw [get_of_index_ne hi]; rfl
  · next hnone =>
    split
    · next hk =>
      rw [get, bucket, ← m.index_congr hk, ← Assoc.find_congr K.equiv hk]
      exact Assoc.remove_eq_none_iff.mp hnone
    · rfl

theorem ext_buckets {m m' : Hashmap K ν} (hcount : m.bucketCount = m'.bucketCount)
    (hbuckets : m.buckets = m'.buckets) : m = m' := by
  cases m
  cases m'
  dsimp only at hcount hbuckets
  subst hcount hbuckets
  rfl

/-- Removing a new entry leaves the map as it was before the entry was put. -/
theorem remove_put {m m' : Hashmap K ν} {ok : Bool} {key : κ} {value : ν}
    (hput : m.put ok key value = some m') (hnew : m.get key = none) :
    (m'.remove key).1 = true ∧ (m'.remove key).2 = m := by
  unfold put at hput
  split at hput
  · next l hl =>
    rw [Assoc.set_eq_none_iff.mpr hnew] at hl
    cases hl
  · split at hput
    · cases hput
      have hbucket : ∀ hp hd, (m.withBucket (m.index key) ((key, value) :: m.bucket key) hp hd).bucket
          key = (key, value) :: m.bucket key := fun _ _ => Function.update_self ..
      unfold remove
      split
      · next l hl =>
        rw [hbucket, Assoc.remove, if_pos (K.equiv.refl key), Option.some.injEq] at hl
        subst hl
        refine ⟨rfl, ext_buckets rfl ?_⟩
        change Function.update (Function.update m.buckets (m.index key) _) (m.index key)
          (m.buckets (m.index key)) = m.buckets
        rw [Function.update_idem, Function.update_eq_self]
      · next hnone =>
        rw [hbucket, Assoc.remove, if_pos (K.equiv.refl key)] at hnone
        cases hnone
    · cases hput

/-- All entries, bucket after bucket. -/
def entries (m : Hashmap K ν) : List (κ × ν) := (List.range m.bucketCount).flatMap m.buckets

theorem index_lt (m : Hashmap K ν) (k : κ) : m.index k < m.bucketCount := by
  obtain ⟨n, hn⟩ := m.pow
  rw [index, hn, Nat.and_two_pow_sub_one_eq_mod]
  exact Nat.mod_lt _ (Nat.two_pow_pos n)

theorem mem_entries {m : Hashmap K ν} {e : κ × ν} : e ∈ m.entries ↔ e ∈ m.bucket e.1 := by
  unfold entries
  rw [List.mem_flatMap]
  constructor
  · rintro ⟨i, -, he⟩
    rw [bucket, index, m.placed i e he]
    exact he
  · intro he
    exact ⟨m.index e.1, List.mem_range.mpr (m.index_lt e.1), he⟩

theorem get_of_mem_entries {m : Hashmap K ν} {k : κ} {v : ν} (h : (k, v) ∈ m.entries) :
    m.get k = some v :=
  Assoc.find_of_mem K.equiv (m.distinct _) (mem_entries.mp h)

theorem mem_entries_of_get {m : Hashmap K ν} {k : κ} {v : ν} (h : m.get k = some v) :
    ∃ k', K.equal k' k = true ∧ (k', v) ∈ m.entries := by
  obtain ⟨k', hk, hmem⟩ := Assoc.mem_of_find h
  refine ⟨k', hk, mem_entries.mpr ?_⟩
  rw [bucket, m.index_congr hk]
  exact hmem

theorem entries_distinct (m : Hashmap K ν) : Assoc.Distinct K.equal m.entries := by
  unfold entries Assoc.Distinct
  rw [List.pairwise_flatMap]
  refine ⟨fun i _ => m.distinct i, List.nodup_range.imp ?_⟩
  intro i j hij a ha b hb
  cases hab : K.equal a.1 b.1 with
  | false => rfl
  | true =>
    have hi := m.placed i a ha
    rw [K.hash_congr hab, m.placed j b hb] at hi
    exact absurd hi.symm hij

end Hashmap

end CcRpc
