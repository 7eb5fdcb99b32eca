import CcRpc.Lib.Ring

/-!
# Links (`link_list.c`)

The two pointers of each `struct list_node`, by its address. A function that reads or writes a node
outside the memory its caller has returns `none`.
-/

namespace CcRpc

open Chain

/-- The memory of list nodes; `valid` tells where there is any. -/
structure Links where
  valid : Nat → Bool
  next : Nat → Nat
  prev : Nat → Nat

namespace Links

def getNext (l : Links) (node : Nat) : Option Nat := if l.valid node then some (l.next node) else none

def getPrev (l : Links) (node : Nat) : Option Nat := if l.valid node then some (l.prev node) else none

def setNext (l : Links) (node v : Nat) : Option Links :=
  if l.valid node then some { l with next := Function.update l.next node v } else none

def setPrev (l : Links) (node v : Nat) : Option Links :=
  if l.valid node then some { l with prev := Function.update l.prev node v } else none

end Links

def listNodeInit (node : Nat) (l : Links) : Option Links := do
  let l ← l.setNext node node
  l.setPrev node node

def listAddPrev (next prev : Nat) (l : Links) : Option Links := do
  let l ← l.setPrev prev (← l.getPrev next)
  let l ← l.setNext prev next
  let l ← l.setNext (← l.getPrev next) prev
  l.setPrev next prev

def listAddNext (prev next : Nat) (l : Links) : Option Links := do
  let l ← l.setPrev next prev
  let l ← l.setNext next (← l.getNext prev)
  let l ← l.setPrev (← l.getNext prev) next
  l.setNext prev next

def listRemove (node : Nat) (l : Links) : Option Links := do
  let l ← l.setNext (← l.getPrev node) (← l.getNext node)
  l.setPrev (← l.getNext node) (← l.getPrev node)

/-- A ring of nodes that are in memory. -/
structure Links.Holds (l : Links) (a : Nat) (ns : List Nat) : Prop where
  ring : Ring l.next l.prev a ns
  valid : ∀ x ∈ a :: ns, l.valid x = true

variable {l : Links} {a n : Nat} {ns qs : List Nat}

theorem Links.Holds.valid_insert (h : l.Holds a (ns ++ qs)) (hn : l.valid n = true) :
    ∀ x ∈ a :: (ns ++ n :: qs), l.valid x = true := by
  intro x hx
  by_cases hxn : x = n
  · rwa [hxn]
  · apply h.valid
    simp only [List.mem_cons, List.mem_append] at hx ⊢
    tauto

theorem Links.Holds.valid_remove (h : l.Holds a (ns ++ n :: qs)) :
    ∀ x ∈ a :: (ns ++ qs), l.valid x = true := by
  intro x hx
  apply h.valid
  simp only [List.mem_cons, List.mem_append] at hx ⊢
  tauto

theorem listNodeInit_holds (hn : l.valid n = true) :
    ∃ l', listNodeInit n l = some l' ∧ l'.valid = l.valid ∧ l'.Holds n [] := by
  refine ⟨⟨l.valid, Function.update l.next n n, Function.update l.prev n n⟩, ?_, rfl,
    Ring.single (Function.update_self ..) (Function.update_self ..), ?_⟩
  · simp only [listNodeInit, Links.setNext, Links.setPrev, hn, if_true, Option.bind_eq_bind,
      Option.bind_some]
  · intro x hx
    rw [List.mem_singleton.mp hx]
    exact hn

theorem Links.Holds.nodeInit (h : l.Holds a ns) (hn : l.valid n = true) (hnew : n ∉ a :: ns) :
    ∃ l', listNodeInit n l = some l' ∧ l'.valid = l.valid ∧ l'.Holds a ns := by
  have hne : ∀ x ∈ a :: ns, x ≠ n := fun x hx heq => hnew (heq ▸ hx)
  refine ⟨⟨l.valid, Function.update l.next n n, Function.update l.prev n n⟩, ?_, rfl,
    h.ring.congr (fun x hx => Function.update_of_ne (hne x hx) _ _)
      (fun x hx => Function.update_of_ne (hne x hx) _ _), h.valid⟩
  simp only [listNodeInit, Links.setNext, Links.setPrev, hn, if_true, Option.bind_eq_bind,
    Option.bind_some]

theorem listAddPrev_holds (h : l.Holds a (ns ++ qs)) (hn : l.valid n = true)
    (hnew : n ∉ a :: (ns ++ qs)) :
    ∃ l', listAddPrev (qs.headD a) n l = some l' ∧ l'.valid = l.valid ∧
      l'.Holds a (ns ++ n :: qs) := by
  obtain ⟨hlast, hhead⟩ := ends_mem a ns qs
  have hlastn : ns.getLastD a ≠ n := fun heq => hnew (heq ▸ hlast)
  have hheadn : qs.headD a ≠ n := fun heq => hnew (heq ▸ hhead)
  refine ⟨⟨l.valid, Function.update (Function.update l.next n (qs.headD a)) (ns.getLastD a) n,
    Function.update (Function.update l.prev n (ns.getLastD a)) (qs.headD a) n⟩, ?_, rfl,
    h.ring.insert_update hnew, h.valid_insert hn⟩
  simp only [listAddPrev, Links.getPrev, Links.setPrev, Links.setNext, hn, h.valid _ hhead,
    h.valid _ hlast, h.ring.prev_headD, Function.update_of_ne hheadn, if_true,
    Option.bind_eq_bind, Option.bind_some]

theorem listAddNext_holds (h : l.Holds a (ns ++ qs)) (hn : l.valid n = true)
    (hnew : n ∉ a :: (ns ++ qs)) :
    ∃ l', listAddNext (ns.getLastD a) n l = some l' ∧ l'.valid = l.valid ∧
      l'.Holds a (ns ++ n :: qs) := by
  obtain ⟨hlast, hhead⟩ := ends_mem a ns qs
  have hlastn : ns.getLastD a ≠ n := fun heq => hnew (heq ▸ hlast)
  refine ⟨⟨l.valid, Function.update (Function.update l.next n (qs.headD a)) (ns.getLastD a) n,
    Function.update (Function.update l.prev n (ns.getLastD a)) (qs.headD a) n⟩, ?_, rfl,
    h.ring.insert_update hnew, h.valid_insert hn⟩
  simp only [listAddNext, Links.getNext, Links.setPrev, Links.setNext, hn, h.valid _ hhead,
    h.valid _ hlast, h.ring.next_getLastD, Function.update_of_ne hlastn, if_true,
    Option.bind_eq_bind, Option.bind_some]

theorem listRemove_holds (h : l.Holds a (ns ++ n :: qs)) :
    ∃ l', listRemove n l = some l' ∧ l'.valid = l.valid ∧ l'.Holds a (ns ++ qs) := by
  obtain ⟨hlast, hhead⟩ := ends_mem a ns qs
  have hrest := h.valid_remove
  have hn : l.valid n = true := h.valid n (by simp)
  have hnodup : (a :: ns ++ n :: qs).Nodup := h.ring.nodup
  have hnew : n ∉ a :: (ns ++ qs) := (List.nodup_cons.mp (List.nodup_middle.mp hnodup)).1
  have hlastn : n ≠ ns.getLastD a := fun heq => hnew (heq ▸ hlast)
  refine ⟨⟨l.valid, Function.update l.next (ns.getLastD a) (qs.headD a),
    Function.update l.prev (qs.headD a) (ns.getLastD a)⟩, ?_, rfl, h.ring.remove_update, hrest⟩
  simp only [listRemove, Links.getNext, Links.getPrev, Links.setPrev, Links.setNext, hn,
    hrest _ hhead, hrest _ hlast, h.ring.next_eq, h.ring.prev_eq, Function.update_of_ne hlastn,
    if_true, Option.bind_eq_bind, Option.bind_some]

end CcRpc
