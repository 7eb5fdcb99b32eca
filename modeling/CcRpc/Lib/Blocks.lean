import Mathlib.Data.List.Nodup
import Mathlib.Data.List.Count

/-!
# Blocks that are allocated and freed

Blocks are numbered in the order of allocation and no number is used again. A ledger holds what is
in each block and which blocks were freed. A block that is not allocated, or was freed before,
cannot be freed: the operation is undefined there, so a sequence of frees that is defined frees each
of its blocks once.
-/

namespace Blocks

structure Ledger (β : Type) where
  blocks : List β
  freed : List Nat
  allocated : ∀ p ∈ freed, p < blocks.length
  once : freed.Nodup

variable {β : Type} {l l' l'' : Ledger β} {p : Nat} {ps : List Nat}

namespace Ledger

/-- Nothing allocated yet. -/
def empty : Ledger β := ⟨[], [], by simp, List.nodup_nil⟩

/-- Allocated and not freed. -/
def Live (l : Ledger β) (p : Nat) : Prop := p < l.blocks.length ∧ p ∉ l.freed

instance (l : Ledger β) (p : Nat) : Decidable (l.Live p) := inferInstanceAs (Decidable (_ ∧ _))

def alloc (b : β) (l : Ledger β) : Nat × Ledger β :=
  (l.blocks.length,
    { blocks := l.blocks ++ [b]
      freed := l.freed
      allocated := fun p hp => by
        have := l.allocated p hp
        simp only [List.length_append, List.length_singleton]
        omega
      once := l.once })

/-- The ledger after a live block is freed. -/
def release (l : Ledger β) (p : Nat) (hp : l.Live p) : Ledger β where
  blocks := l.blocks
  freed := l.freed ++ [p]
  allocated := by
    intro q hq
    rcases List.mem_append.mp hq with hq | hq
    · exact l.allocated q hq
    · rw [List.mem_singleton.mp hq]
      exact hp.1
  once := by
    rw [List.nodup_append]
    refine ⟨l.once, List.nodup_singleton p, fun a ha b hb heq => hp.2 ?_⟩
    rw [← List.mem_singleton.mp hb, ← heq]
    exact ha

def free (p : Nat) (l : Ledger β) : Option (Ledger β) :=
  if hp : l.Live p then some (l.release p hp) else none

/-- The blocks of a list are freed one after the other. -/
def freeAll : List Nat → Ledger β → Option (Ledger β)
  | [], l => some l
  | p :: ps, l => (l.free p).bind (freeAll ps)

/-- What is in a live block. -/
def read (l : Ledger β) (p : Nat) : Option β := if p ∈ l.freed then none else l.blocks[p]?

/-- The blocks of a later ledger that an earlier one does not have. -/
def since (l l' : Ledger β) : List Nat :=
  List.range' l.blocks.length (l'.blocks.length - l.blocks.length)

/-- `l'` is later than `l`: allocations and frees are not undone. -/
structure Extends (l l' : Ledger β) : Prop where
  length_le : l.blocks.length ≤ l'.blocks.length
  freed_prefix : l.freed <+: l'.freed

/-- From `l` to `l'` exactly the blocks `ps` were allocated, in this order, and none was freed. -/
structure Allocates (l l' : Ledger β) (ps : List Nat) : Prop where
  blocks_prefix : l.blocks <+: l'.blocks
  freed_eq : l'.freed = l.freed
  since_eq : ps = l.since l'

/-- What was freed from `l` to `l'` was allocated from `l` to `l'`. -/
def FreesOwn (l l' : Ledger β) : Prop := ∀ p ∈ l'.freed, p < l.blocks.length → p ∈ l.freed

@[simp] theorem alloc_fst (b : β) : (l.alloc b).1 = l.blocks.length := rfl
@[simp] theorem alloc_blocks (b : β) : (l.alloc b).2.blocks = l.blocks ++ [b] := rfl
@[simp] theorem alloc_freed (b : β) : (l.alloc b).2.freed = l.freed := rfl

theorem free_of_live (hp : l.Live p) :
    ∃ l', l.free p = some l' ∧ l'.blocks = l.blocks ∧ l'.freed = l.freed ++ [p] :=
  ⟨l.release p hp, dif_pos hp, rfl, rfl⟩

theorem live_alloc (b : β) : (l.alloc b).2.Live l.blocks.length := by
  constructor
  · simp
  · intro hp
    exact Nat.lt_irrefl _ (l.allocated _ hp)

theorem read_of_live (hp : l.Live p) : l.read p = l.blocks[p]? := if_neg hp.2

theorem live_of_read {b : β} (h : l.read p = some b) : l.Live p := by
  unfold read at h
  split at h
  · cases h
  · next hp => exact ⟨(List.getElem?_eq_some_iff.mp h).1, hp⟩

theorem mem_since (h : l.Extends l') :
    p ∈ l.since l' ↔ l.blocks.length ≤ p ∧ p < l'.blocks.length := by
  have hle := h.length_le
  rw [since, List.mem_range'_1]
  constructor <;> intro hp <;> omega

theorem nodup_since : (l.since l').Nodup := List.nodup_range'

@[simp] theorem since_self : l.since l = [] := by simp [since]

theorem count_freed (hp : p ∈ l.freed) : l.freed.count p = 1 :=
  List.count_eq_one_of_mem l.once hp

theorem Extends.refl (l : Ledger β) : l.Extends l := ⟨Nat.le_refl _, List.prefix_refl _⟩

theorem Extends.trans (h : l.Extends l') (h' : l'.Extends l'') : l.Extends l'' :=
  ⟨Nat.le_trans h.length_le h'.length_le, h.freed_prefix.trans h'.freed_prefix⟩

theorem extends_alloc (l : Ledger β) (b : β) : l.Extends (l.alloc b).2 :=
  ⟨by simp, List.prefix_refl _⟩

theorem extends_free (h : l.free p = some l') : l.Extends l' := by
  unfold free at h
  split at h
  · cases h
    exact ⟨Nat.le_refl _, List.prefix_append _ _⟩
  · cases h

theorem extends_free_getD (l : Ledger β) (p : Nat) : l.Extends ((l.free p).getD l) := by
  cases hp : l.free p with
  | none => exact Extends.refl l
  | some l' => exact extends_free hp

/-- Code that frees its own blocks only leaves the others live. -/
theorem Live.later (hp : l.Live p) (h : l.Extends l') (hown : l.FreesOwn l') : l'.Live p :=
  ⟨Nat.lt_of_lt_of_le hp.1 h.length_le, fun hf => hp.2 (hown p hf hp.1)⟩

theorem FreesOwn.of_freed_eq (h : l'.freed = l.freed) : l.FreesOwn l' := by
  intro p hp _
  rw [← h]
  exact hp

theorem Allocates.refl (l : Ledger β) : l.Allocates l [] :=
  ⟨List.prefix_refl _, rfl, since_self.symm⟩

theorem allocates_alloc (l : Ledger β) (b : β) : l.Allocates (l.alloc b).2 [l.blocks.length] :=
  ⟨List.prefix_append _ _, rfl, by simp [since]⟩

theorem Allocates.extends (h : l.Allocates l' ps) : l.Extends l' :=
  ⟨h.blocks_prefix.length_le, h.freed_eq ▸ List.prefix_refl _⟩

theorem Allocates.trans {qs : List Nat} (h : l.Allocates l' ps) (h' : l'.Allocates l'' qs) :
    l.Allocates l'' (ps ++ qs) := by
  have hle := h.extends.length_le
  have hle' := h'.extends.length_le
  refine ⟨h.blocks_prefix.trans h'.blocks_prefix, h'.freed_eq.trans h.freed_eq, ?_⟩
  rw [h.since_eq, h'.since_eq, since, since, since]
  have hsplit : l''.blocks.length - l.blocks.length =
      (l'.blocks.length - l.blocks.length) + (l''.blocks.length - l'.blocks.length) := by omega
  have hmid : l.blocks.length + 1 * (l'.blocks.length - l.blocks.length) = l'.blocks.length := by
    omega
  rw [hsplit, ← List.range'_append, hmid]

theorem Allocates.read {b : β} (h : l.Allocates l' ps) (hp : l.read p = some b) :
    l'.read p = some b := by
  have hlive := live_of_read hp
  rw [read_of_live hlive, List.getElem?_eq_some_iff] at hp
  obtain ⟨hlt, hb⟩ := hp
  rw [read_of_live (hlive.later h.extends (FreesOwn.of_freed_eq h.freed_eq)),
    List.prefix_iff_getElem?.mp h.blocks_prefix p hlt, hb]

theorem Allocates.live (h : l.Allocates l' ps) (hp : p ∈ ps) : l'.Live p := by
  rw [h.since_eq, mem_since h.extends] at hp
  refine ⟨hp.2, ?_⟩
  rw [h.freed_eq]
  intro hf
  have hlt := l.allocated p hf
  omega

theorem read_alloc (l : Ledger β) (b : β) : (l.alloc b).2.read l.blocks.length = some b := by
  rw [read_of_live (live_alloc b), alloc_blocks, List.getElem?_concat_length]

theorem freeAll_append (ps qs : List Nat) (l : Ledger β) :
    l.freeAll (ps ++ qs) = (l.freeAll ps).bind fun l => l.freeAll qs := by
  induction ps generalizing l with
  | nil => rfl
  | cons p ps ih =>
    simp only [List.cons_append, freeAll, Option.bind_assoc]
    congr 1
    funext l'
    exact ih l'

theorem freeAll_freed (h : l.freeAll ps = some l') : l'.freed = l.freed ++ ps := by
  induction ps generalizing l with
  | nil =>
    cases h
    exact (List.append_nil _).symm
  | cons p ps ih =>
    obtain ⟨l₁, hfree, hrest⟩ := Option.bind_eq_some_iff.mp h
    have hfreed : l₁.freed = l.freed ++ [p] := by
      unfold free at hfree
      split at hfree
      · cases hfree
        rfl
      · cases hfree
    rw [ih hrest, hfreed, List.append_assoc, List.singleton_append]

theorem freeAll_of_live (hps : ps.Nodup) (hlive : ∀ p ∈ ps, l.Live p) :
    ∃ l', l.freeAll ps = some l' := by
  induction ps generalizing l with
  | nil => exact ⟨l, rfl⟩
  | cons p ps ih =>
    rw [List.nodup_cons] at hps
    obtain ⟨l₁, hfree, hblocks, hfreed⟩ := free_of_live (hlive p (by simp))
    have hrest : ∀ q ∈ ps, l₁.Live q := by
      intro q hq
      have hold := hlive q (by simp [hq])
      refine ⟨hblocks ▸ hold.1, ?_⟩
      rw [hfreed, List.mem_append, List.mem_singleton]
      rintro (hf | rfl)
      · exact hold.2 hf
      · exact hps.1 hq
    obtain ⟨l₂, hall⟩ := ih hps.2 hrest
    refine ⟨l₂, ?_⟩
    rw [freeAll, hfree, Option.bind_some, hall]

theorem Allocates.nodup (h : l.Allocates l' ps) : ps.Nodup := by
  rw [h.since_eq]
  exact nodup_since

theorem Allocates.freeAll (h : l.Allocates l' ps) : ∃ l'', l'.freeAll ps = some l'' :=
  freeAll_of_live h.nodup fun _ hp => h.live hp

end Ledger

end Blocks
