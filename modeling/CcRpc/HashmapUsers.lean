import CcRpc.HashmapMemory

/-!
# Hash maps on one heap

Maps of all three kinds of keys live on the heap. In any order of calls on any number of them each map
returns what a finite map returns, and the heap has the blocks of every map that was destroyed.
-/

namespace CcRpc

open HeapPrograms

/-- The finite map after the calls. -/
def mapAfter {κ ν α : Type} [DecidableEq α] (val : κ → α) (f : α → Option ν) (ops : List (MapOp κ ν)) :
    α → Option ν :=
  ops.foldl (fun f op => (mapExec val f op).1) f

/-- A map with the calls it got and what they returned. A value is a `void *`. -/
structure MapUser (w : WordSize) where
  type : KeyType
  mem : HashmapMem (type.Key w) Nat
  calls : List (MapOp (type.Key w) Nat)
  results : List (MapResult Nat)

variable (A : Arena)

variable {A}

/-- A map returned what a finite map returns, and holds what it holds, until it is destroyed. -/
structure MapUser.Ok (u : MapUser A.word) : Prop where
  results : u.results = mapExecAll u.type.value (fun _ => none) u.calls
  holds : u.mem.Gone ∨ ∃ a nodes, u.mem.Holds A.word (u.type.hashKey A.word) a nodes ∧
    a.StandsFor u.type.value (mapAfter u.type.value (fun _ => none) u.calls)

end CcRpc
