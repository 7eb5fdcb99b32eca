import CcRpc.LinkRings
import CcRpc.Lib.Runs

/-!
# Queues and stacks (`queue.c`, `stack.c`)

Any number of queues, stacks and plain lists share the nodes of one memory. Whatever is done to them, in
any order, each is the list of nodes that the calls say it is.
-/

namespace CcRpc

open Chain

/-- `list_empty`; the second pointer is read when the first is not the node itself. -/
def listEmpty (node : Nat) (l : Links) : Option Bool := do
  if (← l.getNext node) = node then return true
  return (← l.getPrev node) = node

def queueEnqueue (head node : Nat) (l : Links) : Option Links := listAddPrev head node l

def queueDequeue (head : Nat) (l : Links) : Option (Option Nat × Links) := do
  if ← listEmpty head l then return (none, l)
  let front ← l.getNext head
  let l ← listRemove front l
  return (some front, l)

def stackPush (head node : Nat) (l : Links) : Option Links := listAddNext head node l

def stackPop (head : Nat) (l : Links) : Option (Option Nat × Links) := do
  if ← listEmpty head l then return (none, l)
  let top ← l.getNext head
  let l ← listRemove top l
  return (some top, l)

inductive ListOp where
  | listNodeInit (node : Nat)
  | listRemove (node : Nat)
  | listEmpty (head : Nat)
  | queueEnqueue (head node : Nat)
  | queueDequeue (head : Nat)
  | stackPush (head node : Nat)
  | stackPop (head : Nat)

/-- What a call returns. -/
inductive ListResult where
  | void
  | flag (b : Bool)
  | node (p : Option Nat)

/-- The memory and what the calls returned so far, the last one first. -/
structure ListSys where
  links : Links
  results : List ListResult

/-- One call. -/
def listStep (s : ListSys) : ListOp → Option ListSys
  | .listNodeInit node => do return ⟨← listNodeInit node s.links, .void :: s.results⟩
  | .listRemove node => do return ⟨← listRemove node s.links, .void :: s.results⟩
  | .listEmpty head => do return ⟨s.links, .flag (← listEmpty head s.links) :: s.results⟩
  | .queueEnqueue head node => do return ⟨← queueEnqueue head node s.links, .void :: s.results⟩
  | .queueDequeue head => do
    let (p, links) ← queueDequeue head s.links
    return ⟨links, .node p :: s.results⟩
  | .stackPush head node => do return ⟨← stackPush head node s.links, .void :: s.results⟩
  | .stackPop head => do
    let (p, links) ← stackPop head s.links
    return ⟨links, .node p :: s.results⟩

/-- Lists by the addresses of their heads, where there is one, and what the calls returned. -/
structure ListSpec where
  lists : Nat → Option (List Nat)
  results : List ListResult

namespace ListSpec

/-- The list of `head`. -/
def nodes (t : ListSpec) (head : Nat) : List Nat := (t.lists head).getD []

/-- The node is no longer the head of a list. -/
def forget (t : ListSpec) (node : Nat) : ListSpec := { t with lists := Function.update t.lists node none }

def put (t : ListSpec) (head : Nat) (ns : List Nat) (r : ListResult) : ListSpec :=
  ⟨Function.update t.lists head (some ns), r :: t.results⟩

def step (t : ListSpec) : ListOp → ListSpec
  | .listNodeInit node => t.put node [] .void
  | .listRemove node => ⟨fun a => (t.lists a).map (List.erase · node), .void :: t.results⟩
  | .listEmpty head => ⟨t.lists, .flag (t.nodes head).isEmpty :: t.results⟩
  | .queueEnqueue head node => (t.forget node).put head (t.nodes head ++ [node]) .void
  | .queueDequeue head | .stackPop head => t.put head (t.nodes head).tail (.node (t.nodes head).head?)
  | .stackPush head node => (t.forget node).put head (node :: t.nodes head) .void

/-- The node is in no list. -/
def Off (t : ListSpec) (node : Nat) : Prop := ∀ a, node ∉ t.nodes a

/-- The node can go into the list of `head`: it is in none, and if it was initialised, nothing was put
into its own. -/
def Free (t : ListSpec) (head node : Nat) : Prop := t.Off node ∧ node ≠ head ∧ t.nodes node = []

/-- Lists are used after they were initialised, and a node is put into one list at a time. -/
def Legal (valid : Nat → Bool) (t : ListSpec) : ListOp → Prop
  | .listNodeInit node => valid node = true ∧ t.Off node
  | .listRemove node => ∃ a, node ∈ t.nodes a
  | .listEmpty head | .queueDequeue head | .stackPop head => (t.lists head).isSome
  | .queueEnqueue head node | .stackPush head node =>
    (t.lists head).isSome ∧ valid node = true ∧ t.Free head node

/-- The heads. -/
def heads (t : ListSpec) : Set Nat := {a | (t.lists a).isSome}

end ListSpec

/-- The memory holds the lists. -/
structure ListsHold (valid : Nat → Bool) (s : ListSys) (t : ListSpec) : Prop where
  family : s.links.Family id t.heads t.nodes
  valid : s.links.valid = valid
  results : s.results = t.results

variable {valid : Nat → Bool} {s : ListSys} {t : ListSpec} {head node a : Nat} {l : Links} {ns : List Nat}

namespace ListSpec

theorem mem_heads_of_mem (h : node ∈ t.nodes a) : a ∈ t.heads := by
  cases hlist : t.lists a <;> simp [ListSpec.nodes, ListSpec.heads, hlist] at h ⊢

theorem nodes_put (r : ListResult) : (t.put head ns r).nodes = Function.update t.nodes head ns := by
  funext a
  by_cases ha : a = head <;> simp [ListSpec.nodes, put, ha]

theorem heads_put (r : ListResult) : (t.put head ns r).heads = insert head t.heads := by
  ext a
  by_cases ha : a = head <;> simp [heads, put, Function.update_apply, ha]

theorem nodes_forget (h : t.nodes node = []) : (t.forget node).nodes = t.nodes := by
  funext a
  by_cases ha : a = node
  · subst ha
    rw [h]
    simp [ListSpec.nodes, forget]
  · simp [ListSpec.nodes, forget, ha]

theorem mem_heads_forget : a ∈ (t.forget node).heads ↔ a ≠ node ∧ a ∈ t.heads := by
  by_cases ha : a = node <;> simp [heads, forget, ha]

end ListSpec

theorem listEmpty_eq (h : l.Holds head ns) : listEmpty head l = some ns.isEmpty := by
  have hvalid := h.valid head (by simp)
  cases ns with
  | nil => simp [listEmpty, Links.getNext, hvalid, h.ring.forth.first]
  | cons n ns =>
    have hout := (List.nodup_cons.mp h.ring.nodup).1
    have hnext : l.next head ≠ head := by
      rw [h.ring.forth.first]
      intro heq
      exact hout (heq ▸ List.mem_cons_self)
    have hprev : l.prev head ≠ head := by
      rw [h.ring.back.first, headD_reverse]
      intro heq
      have hlast := getLastD_mem n ns
      rw [List.getLastD_cons] at heq
      exact hout (heq ▸ hlast)
    simp [listEmpty, Links.getNext, Links.getPrev, hvalid, hnext, hprev]

theorem stackPop_eq : stackPop = queueDequeue := rfl

theorem queueDequeue_family (h : l.Family id t.heads t.nodes) (hhead : head ∈ t.heads) :
    ∃ l', queueDequeue head l = some ((t.nodes head).head?, l') ∧ l'.valid = l.valid ∧
      l'.Family id t.heads (Function.update t.nodes head (t.nodes head).tail) := by
  have hholds := h.holds hhead
  have hempty : listEmpty head l = some (t.nodes head).isEmpty := listEmpty_eq hholds
  cases hlist : t.nodes head with
  | nil =>
    rw [hlist] at hempty
    refine ⟨l, ?_, rfl, ?_⟩
    · simp [queueDequeue, hempty]
    · rw [List.tail_nil, ← hlist, Function.update_eq_self]
      exact h
  | cons n ns =>
    rw [hlist] at hempty hholds
    have hvalid := hholds.valid (id head) (by simp)
    have hfirst : l.getNext head = some n := by
      simpa [Links.getNext, show l.valid head = true from hvalid] using hholds.ring.forth.first
    obtain ⟨l', hremove, hkept, hfamily⟩ := h.remove (i := head) hhead (show t.nodes head = [] ++ n :: ns from hlist)
    exact ⟨l', by simp [queueDequeue, hempty, hfirst, hremove], hkept, hfamily⟩

theorem ListSpec.Free.family (hfree : t.Free head node) (h : l.Family id t.heads t.nodes)
    (hhead : head ∈ t.heads) :
    l.Family id (t.forget node).heads (t.forget node).nodes ∧ head ∈ (t.forget node).heads ∧
      ∀ j ∈ (t.forget node).heads, node ∉ id j :: (t.forget node).nodes j := by
  obtain ⟨hoff, hne, hempty⟩ := hfree
  rw [ListSpec.nodes_forget hempty]
  refine ⟨h.subset fun a ha => (ListSpec.mem_heads_forget.mp ha).2,
    ListSpec.mem_heads_forget.mpr ⟨hne.symm, hhead⟩, ?_⟩
  intro j hj hmem
  rcases List.mem_cons.mp hmem with heq | hmem
  · exact (ListSpec.mem_heads_forget.mp hj).1 heq.symm
  · exact hoff j hmem

theorem ListsHold.pushed (h : ListsHold valid s t) (hhead : head ∈ t.heads) (hfree : t.Free head node)
    (hkept : l.valid = s.links.valid)
    (hfamily : l.Family id (t.forget node).heads (Function.update (t.forget node).nodes head ns)) :
    ListsHold valid ⟨l, .void :: s.results⟩ ((t.forget node).put head ns .void) := by
  have hhead' : head ∈ (t.forget node).heads := ListSpec.mem_heads_forget.mpr ⟨hfree.2.1.symm, hhead⟩
  refine ⟨?_, hkept.trans h.valid, ?_⟩
  · rw [ListSpec.nodes_put, ListSpec.heads_put, Set.insert_eq_of_mem hhead']
    exact hfamily
  · simp [ListSpec.put, ListSpec.forget, h.results]

theorem ListsHold.popped (h : ListsHold valid s t) (hhead : head ∈ t.heads) (hkept : l.valid = s.links.valid)
    (hfamily : l.Family id t.heads (Function.update t.nodes head (t.nodes head).tail)) :
    ListsHold valid ⟨l, .node (t.nodes head).head? :: s.results⟩
      (t.put head (t.nodes head).tail (.node (t.nodes head).head?)) := by
  refine ⟨?_, hkept.trans h.valid, ?_⟩
  · rw [ListSpec.nodes_put, ListSpec.heads_put, Set.insert_eq_of_mem hhead]
    exact hfamily
  · simp [ListSpec.put, h.results]

theorem ListsHold.removed (h : ListsHold valid s t) {qs : List Nat} (hhead : a ∈ t.heads)
    (hlist : t.nodes a = ns ++ node :: qs) (hkept : l.valid = s.links.valid)
    (hfamily : l.Family id t.heads (Function.update t.nodes a (ns ++ qs))) :
    ListsHold valid ⟨l, .void :: s.results⟩ (t.step (.listRemove node)) := by
  have hmem : node ∈ t.nodes a := by simp [hlist]
  have hnodup : (t.nodes a).Nodup := (List.nodup_cons.mp (h.family.rings.ring a hhead).nodup).2
  have hheads : (t.step (.listRemove node)).heads = t.heads := by
    ext b
    simp [ListSpec.heads, ListSpec.step]
  have herase : (t.step (.listRemove node)).nodes = Function.update t.nodes a (ns ++ qs) := by
    funext b
    have hnodes : (t.step (.listRemove node)).nodes b = (t.nodes b).erase node := by
      cases hb : t.lists b <;> simp [ListSpec.nodes, ListSpec.step, hb]
    rw [hnodes]
    by_cases hba : b = a
    · subst hba
      rw [hlist] at hnodup ⊢
      have hout := (List.nodup_cons.mp (List.nodup_middle.mp hnodup)).1
      rw [Function.update_self, List.erase_append_right _ fun hns => hout (List.mem_append_left _ hns),
        List.erase_cons_head]
    · -- the node is on one ring only
      rw [Function.update_of_ne hba]
      apply List.erase_of_not_mem
      intro hb
      exact hba (h.family.rings.eq_of_mem (ListSpec.mem_heads_of_mem hb) hhead
        (List.mem_cons_of_mem _ hb) (List.mem_cons_of_mem _ hmem))
  refine ⟨?_, hkept.trans h.valid, ?_⟩
  · rw [herase, hheads]
    exact hfamily
  · simp [ListSpec.step, h.results]

/-- A legal call is defined, returns what it returns on lists, and leaves the lists that it leaves. -/
theorem ListsHold.step (h : ListsHold valid s t) {op : ListOp} (hop : t.Legal valid op) :
    ∃ s', listStep s op = some s' ∧ ListsHold valid s' (t.step op) := by
  have hvalid := h.valid
  cases op with
  | listNodeInit node =>
    obtain ⟨hin, hoff⟩ := hop
    have hnew : ∀ j ∈ t.heads, j ≠ node → id node ∉ id j :: t.nodes j := by
      intro j _ hji hmem
      rcases List.mem_cons.mp hmem with heq | hmem
      · exact hji heq.symm
      · exact hoff j hmem
    rw [← hvalid] at hin
    obtain ⟨l', hinit, hkept, hfamily⟩ := h.family.newHead (i := node) hin hnew
    refine ⟨⟨l', .void :: s.results⟩, ?_, ?_, hkept.trans hvalid, ?_⟩
    · simp [listStep, show listNodeInit node s.links = some l' from hinit]
    · rw [ListSpec.step, ListSpec.nodes_put, ListSpec.heads_put]
      exact hfamily
    · simp [ListSpec.step, ListSpec.put, h.results]
  | listRemove node =>
    obtain ⟨a, ha⟩ := hop
    have hhead := ListSpec.mem_heads_of_mem ha
    obtain ⟨ns, qs, hlist⟩ := List.append_of_mem ha
    obtain ⟨l', hremove, hkept, hfamily⟩ := h.family.remove (i := a) hhead hlist
    exact ⟨⟨l', .void :: s.results⟩, by simp [listStep, hremove], h.removed hhead hlist hkept hfamily⟩
  | listEmpty head =>
    have hempty : listEmpty head s.links = some (t.nodes head).isEmpty := listEmpty_eq (h.family.holds hop)
    refine ⟨⟨s.links, .flag (t.nodes head).isEmpty :: s.results⟩, ?_, h.family, hvalid, ?_⟩
    · simp [listStep, hempty]
    · simp [ListSpec.step, h.results]
  | queueEnqueue head node =>
    obtain ⟨hhead, hin, hfree⟩ := hop
    obtain ⟨hforget, hhead', hnew⟩ := hfree.family h.family hhead
    rw [← hvalid] at hin
    obtain ⟨l', hadd, hkept, hfamily⟩ := hforget.addPrev (i := head) hhead'
      (show _ = _ ++ [] from (List.append_nil _).symm) hin hnew
    refine ⟨⟨l', .void :: s.results⟩, ?_, ?_⟩
    · simp [listStep, queueEnqueue, show listAddPrev head node s.links = some l' from hadd]
    · rw [ListSpec.step, ← ListSpec.nodes_forget hfree.2.2]
      exact h.pushed hhead hfree hkept hfamily
  | queueDequeue head =>
    obtain ⟨l', hcall, hkept, hfamily⟩ := queueDequeue_family h.family hop
    exact ⟨_, by simp [listStep, hcall], h.popped hop hkept hfamily⟩
  | stackPush head node =>
    obtain ⟨hhead, hin, hfree⟩ := hop
    obtain ⟨hforget, hhead', hnew⟩ := hfree.family h.family hhead
    rw [← hvalid] at hin
    obtain ⟨l', hadd, hkept, hfamily⟩ := hforget.addNext (i := head) hhead'
      (show _ = [] ++ _ from rfl) hin hnew
    refine ⟨⟨l', .void :: s.results⟩, ?_, ?_⟩
    · simp [listStep, stackPush, show listAddNext head node s.links = some l' from hadd]
    · rw [ListSpec.step, ← ListSpec.nodes_forget hfree.2.2]
      exact h.pushed hhead hfree hkept hfamily
  | stackPop head =>
    obtain ⟨l', hcall, hkept, hfamily⟩ := queueDequeue_family h.family hop
    exact ⟨_, by simp [listStep, stackPop_eq, hcall], h.popped hop hkept hfamily⟩

/-- No lists, and nothing returned. -/
def ListSpec.empty : ListSpec := ⟨fun _ => none, []⟩

/-- Queues, stacks and lists in one memory, whatever it held before. In every order of legal calls on any
number of them each call is defined and returns what it returns on lists, and each head is then the ring
of its list. -/
theorem lists_shared {l : Links} {ops : List ListOp}
    (hops : Runs.Along (fun t op => some (t.step op)) (ListSpec.Legal l.valid) .empty ops) :
    ∃ s, Runs.run listStep ⟨l, []⟩ ops = some s ∧ s.results = (ops.foldl ListSpec.step .empty).results ∧
      ∀ head ns, (ops.foldl ListSpec.step .empty).lists head = some ns → s.links.Holds head ns := by
  have hstart : ListsHold l.valid ⟨l, []⟩ .empty := by
    have hnone : ListSpec.empty.heads = ∅ := by simp [ListSpec.heads, ListSpec.empty]
    refine ⟨?_, rfl, rfl⟩
    rw [hnone]
    exact ⟨Rings.none, fun _ hi => hi.elim⟩
  obtain ⟨s, hrun, h⟩ := Runs.run_refines (fun s t op h hop => h.step hop) hstart hops
  refine ⟨s, hrun, h.results, ?_⟩
  intro head ns hlist
  have hholds := h.family.holds (i := head) (by simp [ListSpec.heads, hlist])
  simpa [ListSpec.nodes, hlist] using hholds

theorem ListSpec.Off.put (h : t.Off node) (hns : node ∉ ns) (r : ListResult) : (t.put head ns r).Off node := by
  intro a
  rw [ListSpec.nodes_put]
  by_cases ha : a = head
  · simpa [ha] using hns
  · simpa [ha] using h a

theorem ListSpec.Off.forget (h : t.Off node) (a : Nat) : (t.forget a).Off node := by
  intro b
  by_cases hb : b = a
  · simp [ListSpec.nodes, ListSpec.forget, hb]
  · simpa [ListSpec.nodes, ListSpec.forget, hb] using h b

/-- A queue and a stack. -/
theorem lists_shared_two :
    ∃ s, Runs.run listStep ⟨⟨fun _ => true, id, id⟩, []⟩
        [.listNodeInit 1, .listNodeInit 2, .queueEnqueue 1 3, .stackPush 2 4, .queueDequeue 1] = some s ∧
      s.results.head? = some (.node (some 3)) ∧ s.links.Holds 1 [] ∧ s.links.Holds 2 [4] := by
  have hempty : ∀ n, ListSpec.empty.Off n := fun n a => List.not_mem_nil
  have hheads : ∀ n, ((ListSpec.empty.put 1 [] .void).put 2 [] .void).Off n := fun n =>
    ((hempty n).put List.not_mem_nil _).put List.not_mem_nil _
  have hops : Runs.Along (fun t op => some (ListSpec.step t op)) (ListSpec.Legal fun _ => true) .empty
      [.listNodeInit 1, .listNodeInit 2, .queueEnqueue 1 3, .stackPush 2 4, .queueDequeue 1] := by
    refine ⟨⟨rfl, hempty 1⟩, ?_⟩
    rintro _ ⟨⟩
    refine ⟨⟨rfl, (hempty 2).put List.not_mem_nil _⟩, ?_⟩
    rintro _ ⟨⟩
    refine ⟨⟨rfl, rfl, hheads 3, by decide, rfl⟩, ?_⟩
    rintro _ ⟨⟩
    refine ⟨⟨rfl, rfl, ((hheads 4).forget 3).put (by decide) _, by decide, rfl⟩, ?_⟩
    rintro _ ⟨⟩
    exact ⟨rfl, fun _ _ => trivial⟩
  obtain ⟨s, hrun, hresults, hlists⟩ := lists_shared (l := ⟨fun _ => true, id, id⟩) hops
  exact ⟨s, hrun, by rw [hresults]; rfl, hlists 1 [] (by decide), hlists 2 [4] (by decide)⟩

end CcRpc
