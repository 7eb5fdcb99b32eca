import CcRpc.RegionHeap
import CcRpc.MemPoolRuns

/-!
# Everybody who shares the heap

Plain blocks, regions of both kinds and fixed-block pools live on one heap. They are made, used and
ended in any order, and each call of the heap may be refused.
-/

namespace CcRpc

open HeapPrograms

namespace OnHeap

/-- `mem_pool_create`; what the memory held before is `before`. -/
def memPoolCreate (w : WordSize) (size : UInt16) (amount : UInt8) (before : PoolMem) :
    Program (Option PoolHead) := do
  let start ← heapMalloc (memPoolTotal w size amount)
  Program.ofOption (CcRpc.memPoolCreate w size amount before start)

end OnHeap

/-- Who has memory of the heap: a caller of `heap_malloc` with the size asked for, a region at its
address, a fixed-block pool. -/
inductive HeapUser where
  | block (p n : Nat)
  | region (addr : Nat) (s : RegionSys)
  | pool (size : UInt16) (amount : UInt8) (s : PoolSys)

variable (A : Arena)

/-- The blocks of the heap that a user keeps. -/
def HeapUser.owned (w : WordSize) : HeapUser → List (Nat × Nat)
  | .block p n => [(p, n)]
  | .region addr s => s.region.owned w addr
  | .pool size amount s => [(s.pool.addr, memPoolTotal w size amount)]

/-- What a user was given: addresses and the sizes asked for. -/
def HeapUser.given : HeapUser → List (Nat × Nat)
  | .block p n => [(p, n)]
  | .region _ s => s.results
  | .pool size _ s => s.live.map fun p => (p, size.toNat)

/-- A user is in a state that its calls leave. -/
def HeapUser.Ok : HeapUser → Prop
  | .block _ _ => True
  | .region _ s => RegionHeld A s
  | .pool size amount s => PoolInv A.word size amount s.pool.addr s

variable {A}

/-- The bytes of `x` are among those of `y`. -/
def Among (x y : Nat × Nat) : Prop := y.1 ≤ x.1 ∧ x.1 + x.2 ≤ y.1 + y.2

/-- What a user was given lies in its blocks, and no two of it have a byte in common. -/
theorem HeapUser.Ok.given {u : HeapUser} (hu : u.Ok A) :
    (u.given.Pairwise fun x y => Apart x.1 x.2 y.1 y.2) ∧
      ∀ x ∈ u.given, ∃ b ∈ u.owned A.word, Among x b := by
  cases u with
  | block p n => exact ⟨by simp [HeapUser.given], by simp [HeapUser.given, HeapUser.owned, Among]⟩
  | region addr s =>
    obtain ⟨region, results⟩ := s
    cases region with
    | pool r =>
      have hI : RegionInv A r results := hu
      constructor
      · apply (hI.sound.disjoint r rfl).imp_of_mem
        intro x y hx hy hapart
        obtain ⟨n, hn, i, hi, -, hat, hroom⟩ := hI.taken x hx
        obtain ⟨m, hm, j, hj, -, hat', hroom'⟩ := hI.taken y hy
        have hblocks := hapart _ _ _ _ ⟨n, hn, i, hi, rfl, rfl, hat⟩ ⟨m, hm, j, hj, rfl, rfl, hat'⟩
        apply hblocks.within <;> omega
      · intro x hx
        obtain ⟨n, hn, i, hi, -, hat, hroom⟩ := hI.taken x hx
        obtain ⟨hle, hend⟩ := MembitPool.block_inside A.word hi
        refine ⟨(n.pool.addr, n.pool.extent A.word), ?_, ?_⟩
        · exact List.mem_append_left _ (List.mem_flatMap.mpr ⟨n, hn, List.mem_cons_self⟩)
        · unfold Among
          dsimp only
          omega
    | bump b =>
      obtain ⟨-, hI⟩ := hu
      exact ⟨hI.sound.disjoint, fun x hx => ⟨_, List.mem_cons_self, hI.sound.inside x hx⟩⟩
  | pool size amount s =>
    have hI : PoolInv A.word size amount s.pool.addr s := hu
    have hordered := hI.ordered
    refine ⟨?_, ?_⟩
    · rw [HeapUser.given, List.pairwise_map]
      apply hordered.disjoint.imp
      intro p q hapart
      exact hapart.within (Nat.le_refl _) (Nat.add_le_add_left hordered.sized _) (Nat.le_refl _)
        (Nat.add_le_add_left hordered.sized _)
    · intro x hx
      obtain ⟨p, hp, rfl⟩ := List.mem_map.mp hx
      obtain ⟨hle, hend⟩ := hordered.inside p hp
      refine ⟨_, List.mem_singleton_self _, hle, ?_⟩
      have hsized := hordered.sized
      dsimp only
      omega

end CcRpc
