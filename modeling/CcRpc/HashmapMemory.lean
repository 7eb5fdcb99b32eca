import CcRpc.HashmapRuns
import CcRpc.HeapUsers
import CcRpc.LinkRings

/-!
# The hash map in memory (`hashmap.c`)

The functions of the hash map on the nodes and entries that it has in memory, with the blocks that they
take from the heap and give back.
-/

namespace CcRpc

open HeapPrograms Chain

/-- `sizeof(struct hashmap_entry)`: a node, a key and a value. -/
def sizeofHashmapEntry (w : WordSize) : Nat := 4 * w.bytes

/-- A `struct hashmap`, and the memory behind it. The node of an entry is its first field, so both have
one address. A field that nothing was stored in has no value. -/
structure HashmapMem (κ ν : Type) where
  buckets : Nat
  bucketCount : Nat
  /-- The entries that were allocated and not freed. -/
  entries : List Nat
  links : Links
  key : Nat → Option κ
  value : Nat → Option ν

variable (w : WordSize) {κ ν : Type} (K : HashKey κ)

namespace HashmapMem

variable (m : HashmapMem κ ν)

/-- `&map->buckets[i]`. -/
def bucketAt (i : Nat) : Nat := m.buckets + sizeofListNode w * i

/-- `hashmap_bucket`. -/
def bucket (key : κ) : Nat := m.bucketAt w (K.hash key &&& w.sizeT (m.bucketCount + 2 ^ w.bits - 1))

/-- Whether `size` bytes at `buckets` have a node at `x`. -/
def bucketNode (buckets size x : Nat) : Bool :=
  decide (buckets ≤ x ∧ (x - buckets) % sizeofListNode w = 0 ∧ x + sizeofListNode w ≤ buckets + size)

def setValue (e : Nat) (v : ν) : Option (HashmapMem κ ν) :=
  if m.links.valid e then some { m with value := Function.update m.value e (some v) } else none

/-- The heap gave out `size` bytes for the buckets. -/
def fresh (κ ν : Type) (buckets count size : Nat) (before : Links) : HashmapMem κ ν :=
  ⟨buckets, count, [], { before with valid := bucketNode w buckets size }, fun _ => none, fun _ => none⟩

/-- The heap gave out an entry. -/
def allocated (e : Nat) : HashmapMem κ ν :=
  { m with entries := e :: m.entries, links := { m.links with valid := Function.update m.links.valid e true },
           key := Function.update m.key e none, value := Function.update m.value e none }

/-- The heap has the entry back. -/
def released (e : Nat) : HashmapMem κ ν :=
  { m with entries := m.entries.erase e,
           links := { m.links with valid := Function.update m.links.valid e false } }

end HashmapMem

/-- The loop of `hashmap_init`, over a list of buckets. -/
def initBuckets (m : HashmapMem κ ν) (is : List Nat) : Option (HashmapMem κ ν) := do
  let links ← is.foldlM (fun l i => listNodeInit (m.bucketAt w i) l) m.links
  return { m with links := links }

namespace OnHeap

/-- `hashmap_init`; what the nodes held before is `before`. The shift of `next_power_of_two` is not
defined when it leaves the word. -/
def hashmapInit (κ ν : Type) (bucketCount : Nat) (before : Links) : Program (HashmapMem κ ν) :=
  let count := nextPowerOfTwo bucketCount
  if 2 ^ w.bits ≤ count then .undefined
  else do
    let size := w.sizeT (sizeofListNode w * count)
    match ← heapMalloc size with
    | none => .crash
    | some buckets =>
      Program.ofOption (initBuckets w (HashmapMem.fresh w κ ν buckets count size before) (List.range count))

/-- `list_remove` of an entry, and `heap_free`. -/
def removeEntry (m : HashmapMem κ ν) (e : Nat) : Program (HashmapMem κ ν) := do
  let links ← Program.ofOption (listRemove e m.links)
  heapFree e
  return { m with links := links }.released e

/-- The inner loop of `hashmap_clear` and `hashmap_destroy`. -/
def clearBucket (bucket : Nat) : Nat → Nat → HashmapMem κ ν → Program (HashmapMem κ ν)
  | 0, _, _ => .undefined
  | fuel + 1, p, m =>
    if p = bucket then return m
    else do
      let e := p
      let p ← Program.ofOption (m.links.getNext p)
      clearBucket bucket fuel p (← removeEntry m e)

/-- The outer loop, over a list of buckets. -/
def clearBuckets : List Nat → HashmapMem κ ν → Program (HashmapMem κ ν)
  | [], m => return m
  | i :: is, m => do
    let p ← Program.ofOption (m.links.getNext (m.bucketAt w i))
    clearBuckets is (← clearBucket (m.bucketAt w i) (m.entries.length + 1) p m)

/-- `hashmap_clear`. -/
def hashmapClear (m : HashmapMem κ ν) : Program (HashmapMem κ ν) :=
  clearBuckets w (List.range m.bucketCount) m

end OnHeap

theorem sizeofListNode_pos (w : WordSize) : 0 < sizeofListNode w := by
  cases w <;> decide

theorem sizeofHashmapEntry_pos (w : WordSize) : 0 < sizeofHashmapEntry w := by
  cases w <;> decide

/-- The blocks of the heap that a map keeps: its buckets, and its entries. -/
def HashmapMem.owned (m : HashmapMem κ ν) : List (Nat × Nat) :=
  (if m.buckets = 0 then [] else [(m.buckets, sizeofListNode w * m.bucketCount)]) ++
    m.entries.map fun e => (e, sizeofHashmapEntry w)

/-- Each bucket is the head of a ring of entries, and there are no entries but these. -/
structure HashmapMem.Shape (m : HashmapMem κ ν) (nodes : Nat → List Nat) : Prop where
  nonnull : m.buckets ≠ 0
  family : m.links.Family (m.bucketAt w) {i | i < m.bucketCount} nodes
  entries : m.entries.Perm ((List.range m.bucketCount).flatMap nodes)

/-- The key and the value of an entry in memory. -/
def HashmapMem.EntryAt (m : HashmapMem κ ν) (n : Nat) (e : κ × ν) : Prop :=
  m.key n = some e.1 ∧ m.value n = some e.2

/-- The map `a` in memory. -/
structure HashmapMem.Holds (m : HashmapMem κ ν) (a : Hashmap K ν) (nodes : Nat → List Nat) : Prop where
  shape : m.Shape w nodes
  count : m.bucketCount = a.bucketCount
  small : m.bucketCount < 2 ^ w.bits
  entries : ∀ i < m.bucketCount, List.Forall₂ m.EntryAt (nodes i) (a.buckets i)

section Shape

variable {w} {K} {m : HashmapMem κ ν} {nodes : Nat → List Nat} {i n : Nat} {ns qs : List Nat}

theorem HashmapMem.Shape.mem_entries (h : m.Shape w nodes) :
    n ∈ m.entries ↔ ∃ i < m.bucketCount, n ∈ nodes i := by
  rw [h.entries.mem_iff]
  simp

theorem HashmapMem.Shape.entries_update (h : m.Shape w nodes) (hi : i < m.bucketCount) (hns : ns = nodes i) :
    m.entries.Perm (ns ++ (List.range m.bucketCount).flatMap (Function.update nodes i [])) := by
  have hperm : ((List.range m.bucketCount).flatMap (Function.update nodes i (nodes i))).Perm _ :=
    flatMap_update_perm List.nodup_range (List.mem_range.mpr hi) (nodes i)
  rw [Function.update_eq_self] at hperm
  rw [hns]
  exact h.entries.trans hperm

theorem HashmapMem.Shape.nodup (h : m.Shape w nodes) : m.entries.Nodup := by
  rw [h.entries.nodup_iff, List.nodup_flatMap]
  constructor
  · intro i hi
    exact (List.nodup_cons.mp (h.family.rings.ring i (List.mem_range.mp hi)).nodup).2
  · apply List.nodup_range.imp_of_mem
    intro i j hi hj hij x hx hx'
    exact hij (h.family.rings.eq_of_mem (List.mem_range.mp hi) (List.mem_range.mp hj)
      (List.mem_cons_of_mem _ hx) (List.mem_cons_of_mem _ hx'))

theorem HashmapMem.Shape.owned_eq (h : m.Shape w nodes) : m.owned w =
    (m.buckets, sizeofListNode w * m.bucketCount) :: m.entries.map fun e => (e, sizeofHashmapEntry w) := by
  rw [HashmapMem.owned, if_neg h.nonnull, List.singleton_append]

theorem HashmapMem.Shape.fresh (h : m.Shape w nodes) {size : Nat} (hsize : 0 < size)
    (hapart : ∀ b ∈ m.owned w, Apart n size b.1 b.2) :
    ∀ j ∈ {i | i < m.bucketCount}, n ∉ m.bucketAt w j :: nodes j := by
  intro j hj hmem
  rw [h.owned_eq] at hapart
  rcases List.mem_cons.mp hmem with rfl | hmem
  · have hbuckets := hapart _ List.mem_cons_self
    have hroom : sizeofListNode w * j + sizeofListNode w ≤ sizeofListNode w * m.bucketCount := by
      rw [← Nat.mul_succ]
      exact Nat.mul_le_mul_left _ hj
    have hpos := sizeofListNode_pos w
    unfold Apart HashmapMem.bucketAt at hbuckets
    dsimp only at hbuckets
    omega
  · have hentry := hapart (n, sizeofHashmapEntry w)
      (List.mem_cons_of_mem _ (List.mem_map_of_mem (h.mem_entries.mpr ⟨j, hj, hmem⟩)))
    have hpos := sizeofHashmapEntry_pos w
    unfold Apart at hentry
    dsimp only at hentry
    omega

theorem HashmapMem.Shape.released (h : m.Shape w nodes) (hi : i < m.bucketCount)
    (hlist : nodes i = ns ++ n :: qs) :
    ∃ l, listRemove n m.links = some l ∧
      ({ m with links := l }.released n).Shape w (Function.update nodes i (ns ++ qs)) ∧
      (m.owned w : Multiset (Nat × Nat)) =
        (n, sizeofHashmapEntry w) ::ₘ (({ m with links := l }.released n).owned w : Multiset (Nat × Nat)) := by
  obtain ⟨l, hremove, hvalid, hfamily⟩ := h.family.remove (i := i) hi hlist
  have hmem : n ∈ m.entries := h.mem_entries.mpr ⟨i, hi, by simp [hlist]⟩
  have hperm : m.entries.Perm (n :: m.entries.erase n) := List.perm_cons_erase hmem
  have hcons : (n :: m.entries.erase n).Perm (n :: ((List.range m.bucketCount).flatMap
      (Function.update nodes i (ns ++ qs)))) := by
    apply hperm.symm.trans
    apply (h.entries_update hi hlist.symm).trans
    apply (List.perm_middle.append_right _).trans
    exact ((flatMap_update_perm List.nodup_range (List.mem_range.mpr hi) (ns ++ qs)).symm).cons n
  have hout : ∀ j < m.bucketCount, n ∉ m.bucketAt w j :: Function.update nodes i (ns ++ qs) j := by
    intro j hj hmem'
    have hni : n ∈ m.bucketAt w i :: nodes i := by simp [hlist]
    by_cases hji : j = i
    · subst hji
      have hnodup := (h.family.rings.ring j hj).nodup
      rw [hlist] at hnodup
      rw [Function.update_self] at hmem'
      exact (List.nodup_cons.mp (List.nodup_middle.mp (show (m.bucketAt w j :: ns ++ n :: qs).Nodup from hnodup))).1
        hmem'
    · rw [Function.update_of_ne hji] at hmem'
      exact hji (h.family.rings.eq_of_mem hj hi hmem' hni)
  refine ⟨l, hremove, ⟨h.nonnull, ⟨hfamily.rings, ?_⟩, hcons.cons_inv⟩, ?_⟩
  · intro j hj x hx
    have hne : x ≠ n := by
      rintro rfl
      exact hout j hj hx
    simpa [HashmapMem.released, Function.update_of_ne hne] using hfamily.valid j hj x hx
  · rw [h.owned_eq, Multiset.cons_coe, Multiset.coe_eq_coe]
    have howned : ({ m with links := l }.released n).owned w = (m.buckets, sizeofListNode w * m.bucketCount) ::
        (m.entries.erase n).map fun e => (e, sizeofHashmapEntry w) := by
      rw [HashmapMem.owned]
      simp [HashmapMem.released, h.nonnull]
    rw [howned]
    apply ((hperm.map _).cons _).trans
    exact List.Perm.swap _ _ _

end Shape

section Search

variable {w} {K} {m : HashmapMem κ ν} {a : Hashmap K ν} {nodes : Nat → List Nat} {key : κ} {n bucket : Nat}
  {qs : List Nat} {es : List (κ × ν)}

/-- `n` is the first of the nodes `qs` that has an entry with the key. -/
def HashmapMem.FirstAt (K : HashKey κ) (m : HashmapMem κ ν) (key : κ) (qs : List Nat) (es : List (κ × ν))
    (n : Nat) : Prop :=
  ∃ qs₁ qs₂ es₁ e es₂, qs = qs₁ ++ n :: qs₂ ∧ Assoc.First K.equal key es es₁ e es₂ ∧
    List.Forall₂ m.EntryAt qs₁ es₁ ∧ m.EntryAt n e ∧ List.Forall₂ m.EntryAt qs₂ es₂

theorem HashmapMem.Holds.index_lt (h : m.Holds w K a nodes) (key : κ) : a.index key < m.bucketCount := by
  rw [h.count]
  exact a.index_lt key

end Search

section Buckets

variable {K} {a : Hashmap K ν} {key : κ} {l : List (κ × ν)}

theorem Hashmap.put_of_set {value : ν} (h : Assoc.set K.equal key value (a.bucket key) = some l) :
    ∃ a', a.put true key value = some a' ∧ a'.bucketCount = a.bucketCount ∧
      a'.buckets = Function.update a.buckets (a.index key) l := by
  unfold Hashmap.put
  split
  · next l' hl' =>
    rw [h, Option.some.injEq] at hl'
    subst hl'
    exact ⟨_, rfl, rfl, rfl⟩
  · next hnone =>
    rw [h] at hnone
    cases hnone

end Buckets

section Calls

variable {w} {K} {m m' : HashmapMem κ ν} {a a' : Hashmap K ν} {nodes : Nat → List Nat} {key : κ} {value : ν}
  {i n : Nat} {ns : List Nat} {es : List (κ × ν)} {crash : Prop} {A : Arena}

theorem HashmapMem.entries_congr (h : List.Forall₂ m.EntryAt ns es)
    (hsame : ∀ x ∈ ns, m'.key x = m.key x ∧ m'.value x = m.value x) : List.Forall₂ m'.EntryAt ns es := by
  induction h with
  | nil => exact .nil
  | cons hn _ ih =>
    obtain ⟨⟨hkey, hvalue⟩, hrest⟩ := List.forall_mem_cons.mp hsame
    exact .cons ⟨hkey.trans hn.1, hvalue.trans hn.2⟩ (ih hrest)

theorem HashmapMem.Holds.update (h : m.Holds w K a nodes) (hi : i < m.bucketCount)
    (hcount : m'.bucketCount = m.bucketCount) (hshape : m'.Shape w (Function.update nodes i ns))
    (hentries : List.Forall₂ m'.EntryAt ns es)
    (hsame : ∀ j < m.bucketCount, j ≠ i → ∀ x ∈ nodes j, m'.key x = m.key x ∧ m'.value x = m.value x)
    (hcount' : a'.bucketCount = a.bucketCount) (hbuckets : a'.buckets = Function.update a.buckets i es) :
    m'.Holds w K a' (Function.update nodes i ns) := by
  refine ⟨hshape, ?_, ?_, ?_⟩
  · rw [hcount, h.count, hcount']
  · rw [hcount]
    exact h.small
  · intro j hj
    rw [hcount] at hj
    rw [hbuckets]
    by_cases hji : j = i
    · subst hji
      simpa using hentries
    · rw [Function.update_of_ne hji, Function.update_of_ne hji]
      exact HashmapMem.entries_congr (h.entries j hj) (hsame j hj hji)

/-- The map has the blocks it holds, and is what the call leaves of the map `a`. -/
def HashmapMem.After (w : WordSize) (K : HashKey κ) (a : Hashmap K ν) (op : MapOp κ ν)
    (x : HashmapMem κ ν × MapResult ν) (own : Multiset (Nat × Nat)) : Prop :=
  own = (x.1.owned w : Multiset (Nat × Nat)) ∧ ∃ a' nodes, a.exec op = some (a', x.2) ∧ x.1.Holds w K a' nodes

theorem HashmapMem.Holds.found (h : m.Holds w K a nodes)
    (hn : HashmapMem.FirstAt K m key (nodes (a.index key)) (a.bucket key) n) :
    m.links.valid n = true ∧ ∀ j < m.bucketCount, j ≠ a.index key → ∀ x ∈ nodes j, x ≠ n := by
  obtain ⟨qs₁, qs₂, es₁, e, es₂, hlist, -⟩ := hn
  have hmem : n ∈ m.bucketAt w (a.index key) :: nodes (a.index key) := by simp [hlist]
  have hi := h.index_lt key
  refine ⟨h.shape.family.valid _ hi n hmem, ?_⟩
  rintro j hj hji x hx rfl
  exact hji (h.shape.family.rings.eq_of_mem hj hi (List.mem_cons_of_mem _ hx) hmem)

theorem HashmapMem.Holds.stored (h : m.Holds w K a nodes)
    (hn : HashmapMem.FirstAt K m key (nodes (a.index key)) (a.bucket key) n) (value : ν) :
    ∃ m', m.setValue n value = some m' ∧ HashmapMem.After w K a (.put key value) (m', .void) (m.owned w) := by
  have hi := h.index_lt key
  obtain ⟨hvalid, hothers⟩ := h.found hn
  obtain ⟨qs₁, qs₂, es₁, e, es₂, hlist, hfirst, hqs₁, hne, hqs₂⟩ := hn
  obtain ⟨a', hput, hcount, hbuckets⟩ := a.put_of_set (hfirst.set value)
  have hnodup := (h.shape.family.rings.ring _ hi).nodup
  rw [hlist] at hnodup
  have hout := (List.nodup_cons.mp (List.nodup_middle.mp (List.nodup_cons.mp hnodup).2)).1
  rw [List.mem_append, not_or] at hout
  have hshape : ({ m with value := Function.update m.value n (some value) }).Shape w
      (Function.update nodes (a.index key) (qs₁ ++ n :: qs₂)) := by
    rw [← hlist, Function.update_eq_self]
    exact ⟨h.shape.nonnull, h.shape.family, h.shape.entries⟩
  refine ⟨_, if_pos hvalid, rfl, a', _, by simp [Hashmap.exec, hput],
    h.update hi rfl hshape ?_ ?_ hcount hbuckets⟩
  · have hrest : ∀ qs : List Nat, n ∉ qs → ∀ x ∈ qs, x ≠ n := by
      rintro qs hqs x hx rfl
      exact hqs hx
    have hkeep : ∀ {qs : List Nat} {es : List (κ × ν)}, n ∉ qs → List.Forall₂ m.EntryAt qs es →
        List.Forall₂ ({ m with value := Function.update m.value n (some value) }).EntryAt qs es := by
      intro qs es hqs hes
      apply HashmapMem.entries_congr hes
      intro x hx
      simp [hrest qs hqs x hx]
    have hnew : ({ m with value := Function.update m.value n (some value) }).EntryAt n (e.1, value) :=
      ⟨hne.1, Function.update_self ..⟩
    exact List.rel_append (hkeep hout.1 hqs₁) (.cons hnew (hkeep hout.2 hqs₂))
  · intro j hj hji x hx
    simp [hothers j hj hji x hx]

/-- What a map is after a loop that frees entries. -/
structure HashmapMem.Freed (w : WordSize) (m : HashmapMem κ ν) (nodes : Nat → List Nat) (m' : HashmapMem κ ν)
    (own : Multiset (Nat × Nat)) : Prop where
  owned : own = (m'.owned w : Multiset (Nat × Nat))
  shape : m'.Shape w nodes
  buckets : m'.buckets = m.buckets
  count : m'.bucketCount = m.bucketCount

theorem HashmapMem.Freed.trans {m₁ : HashmapMem κ ν} {nodes₁ : Nat → List Nat} {own : Multiset (Nat × Nat)}
    (h : HashmapMem.Freed w m₁ nodes m' own) (hbuckets : m₁.buckets = m.buckets)
    (hcount : m₁.bucketCount = m.bucketCount) (hnodes : nodes = nodes₁) : HashmapMem.Freed w m nodes₁ m' own :=
  ⟨h.owned, hnodes ▸ h.shape, h.buckets.trans hbuckets, h.count.trans hcount⟩

/-- After `hashmap_destroy` nothing is left. -/
structure HashmapMem.Gone (m : HashmapMem κ ν) : Prop where
  buckets : m.buckets = 0
  bucketCount : m.bucketCount = 0
  entries : m.entries = []

theorem HashmapMem.Gone.owned (h : m.Gone) : m.owned w = [] := by
  simp [HashmapMem.owned, h.buckets, h.entries]

theorem HashmapMem.Gone.clear (h : m.Gone) : OnHeap.hashmapClear w m = .done m := by
  rw [OnHeap.hashmapClear, h.bucketCount]
  rfl

end Calls

section Init

variable {w} {before : Links} {buckets count : Nat}

end Init

end CcRpc
