import CcRpc.LinkList
import CcRpc.OnData
import CcRpc.Payload

/-!
# The reassembly list

The chunks of a connection hang on a ring of list nodes from its head. Read in order they are the
chunks of `Reasm`, and so the list is a queue of bytes. A function that touches memory that is not
there returns `none`.
-/

namespace CcRpc

open Chain

/-- What is behind the node of a `struct rpc_buf`: its `len`, and the bytes there is memory for. -/
structure BufMem where
  data : Bytes
  len : Nat

/-- `memcpy` of `n` bytes from `b->data`. -/
def BufMem.read (b : BufMem) (n : Nat) : Option Bytes :=
  if n ≤ b.data.length then some (b.data.take n) else none

/-- `if (out) memcpy(out + copied, b->data, n)`. -/
def BufMem.copyOut (b : BufMem) (out : Bool) (n : Nat) : Option Bytes :=
  if out then b.read n else some []

/-- `memmove(b->data, b->data + n, b->len - n); b->len -= n`. -/
def BufMem.advance (b : BufMem) (n : Nat) : Option BufMem :=
  if b.len ≤ b.data.length then
    some ⟨(b.data.drop n).take (b.len - n) ++ b.data.drop (b.len - n), b.len - n⟩
  else none

/-- `struct rpc_reasm`, by the address of its `head`, and the buffers of the heap that were allocated
for it. The node of a buffer is its first member. -/
structure ReasmList where
  head : Nat
  totalLen : Nat
  links : Links
  bufs : Nat → Option BufMem

namespace ReasmList

/-- The memory of a buffer that `heap_malloc` granted at `p`. -/
def granted (m : ReasmList) (p : Nat) (b : BufMem) : ReasmList :=
  { m with
    links := { m.links with valid := Function.update m.links.valid p true }
    bufs := Function.update m.bufs p (some b) }

/-- `heap_free(b)`. -/
def heapFree (m : ReasmList) (p : Nat) : ReasmList :=
  { m with
    links := { m.links with valid := Function.update m.links.valid p false }
    bufs := Function.update m.bufs p none }

def setLinks (m : ReasmList) (links : Links) : ReasmList := { m with links := links }

def setBuf (m : ReasmList) (p : Nat) (b : BufMem) : ReasmList :=
  { m with bufs := Function.update m.bufs p (some b) }

/-- `rpc_buf_alloc`, given what `heap_malloc` answers. -/
def rpcBufAlloc (w : WordSize) (data : Bytes) (answer : Option Nat) (m : ReasmList) :
    Option (Option Nat × ReasmList) :=
  match answer with
  | none => some (none, m)
  | some b =>
    -- the granted bytes hold the struct and the copy only if the sum of the sizes did not wrap
    if w.sizeT (sizeofRpcBuf w + data.length) < sizeofRpcBuf w + data.length then none
    else do
      let m := m.granted b ⟨data, data.length⟩
      let links ← listNodeInit b m.links
      some (some b, m.setLinks links)

/-- `rpc_reasm_append`. -/
def rpcReasmAppend (w : WordSize) (data : Bytes) (answer : Option Nat) (m : ReasmList) :
    Option ReasmList :=
  if data.length = 0 then some m
  else do
    match ← rpcBufAlloc w data answer m with
    | (none, m) => some m
    | (some b, m) =>
      let links ← listAddPrev m.head b m.links
      some { m.setLinks links with totalLen := w.sizeT (m.totalLen + data.length) }

/-- The loop of `rpc_reasm_peek_header` at `pos`; `hdr` holds the bytes copied so far. -/
def peekLoop (m : ReasmList) : Nat → Nat → Bytes → Option Bytes
  | 0, _, _ => none
  | fuel + 1, pos, hdr =>
    if pos ≠ m.head ∧ hdr.length < sizeofRpcHeader then do
      let b ← m.bufs pos
      let remainSize := sizeofRpcHeader - hdr.length
      let take := if b.len < remainSize then b.len else remainSize
      let copy ← b.read take
      let pos ← m.links.getNext pos
      peekLoop m fuel pos (hdr ++ copy)
    else some hdr

/-- `rpc_reasm_peek_header`; the inner `none` is its return value -1. A node holds a byte at least, so
the loop goes round no more often than there are bytes. -/
def rpcReasmPeekHeader (m : ReasmList) : Option (Option Bytes) :=
  if m.totalLen < sizeofRpcHeader then some none
  else do
    let pos ← m.links.getNext m.head
    let hdr ← peekLoop m (m.totalLen + 1) pos []
    some (if hdr.length = sizeofRpcHeader then some hdr else none)

/-- The loop of `rpc_reasm_consume` at `pos`: what it stores at `out + copied` if there is an `out`, and
the final `copied`. -/
def consumeLoop (out : Bool) (len : Nat) : Nat → Nat → Nat → ReasmList →
    Option (Bytes × Nat × ReasmList)
  | 0, _, _, _ => none
  | fuel + 1, pos, copied, m =>
    if pos ≠ m.head ∧ copied < len then do
      let b ← m.bufs pos
      let n ← m.links.getNext pos
      let remain := len - copied
      let take := if b.len < remain then b.len else remain
      let copy ← b.copyOut out take
      let copied := copied + take
      if take = b.len then
        let links ← listRemove pos m.links
        let (rest, copied, m) ← consumeLoop out len fuel n copied ((m.setLinks links).heapFree pos)
        some (copy ++ rest, copied, m)
      else
        let b ← b.advance take
        some (copy, copied, m.setBuf pos b)
    else some ([], copied, m)

/-- `rpc_reasm_consume`; `out` tells whether it is given a buffer. -/
def rpcReasmConsume (w : WordSize) (out : Bool) (len : Nat) (m : ReasmList) :
    Option (Bytes × ReasmList) :=
  if len = 0 then some ([], m)
  else do
    let pos ← m.links.getNext m.head
    let (bytes, copied, m) ← consumeLoop out len (m.totalLen + 1) pos 0 m
    some (bytes, { m with totalLen := w.sub m.totalLen copied })

/-- The nodes on the ring have these addresses and chunks, in order. -/
structure Chained (m : ReasmList) (nodes : List (Nat × RpcBuf)) : Prop where
  ring : m.links.Holds m.head (nodes.map Prod.fst)
  bufs : ∀ x ∈ nodes, m.bufs x.1 = some ⟨x.2.data, x.2.len⟩

/-- The memory of a node. -/
def extent (w : WordSize) (x : Nat × RpcBuf) : Nat × Nat :=
  (x.1, sizeofRpcBuf w + x.2.data.length)

variable {w : WordSize} {m : ReasmList} {nodes pre post : List (Nat × RpcBuf)} {x : Nat × RpcBuf}
  {fuel copied len : Nat} {out : Bool}

theorem Chained.getNext_head (h : m.Chained nodes) :
    m.links.getNext m.head = some ((nodes.map Prod.fst).headD m.head) := by
  have hnext : m.links.next m.head = _ := h.ring.ring.forth.first
  rw [Links.getNext, if_pos (h.ring.valid _ List.mem_cons_self), hnext]

theorem Chained.getNext (h : m.Chained (pre ++ x :: post)) :
    m.links.getNext x.1 = some ((post.map Prod.fst).headD m.head) := by
  have hring := h.ring
  rw [List.map_append, List.map_cons] at hring
  rw [Links.getNext, if_pos (hring.valid _ (by simp)), hring.ring.next_eq]

theorem Chained.ne_head (h : m.Chained nodes) (hx : x ∈ nodes) : x.1 ≠ m.head := by
  have hhead := (List.nodup_cons.mp h.ring.ring.nodup).1
  exact fun heq => hhead (heq ▸ List.mem_map_of_mem hx)

theorem Chained.ne_of_mem (h : m.Chained (x :: nodes)) {y : Nat × RpcBuf} (hy : y ∈ nodes) :
    y.1 ≠ x.1 := by
  have hnodup := (List.nodup_cons.mp h.ring.ring.nodup).2
  rw [List.map_cons] at hnodup
  exact fun heq => (List.nodup_cons.mp hnodup).1 (heq ▸ List.mem_map_of_mem hy)

theorem read_of_le {b : RpcBuf} {n : Nat} (hn : n ≤ b.len) :
    BufMem.read ⟨b.data, b.len⟩ n = some (b.data.take n) :=
  if_pos (hn.trans b.len_le)

theorem copyOut_of_le {b : RpcBuf} {n : Nat} (hn : n ≤ b.len) :
    BufMem.copyOut ⟨b.data, b.len⟩ out n = some (if out then b.data.take n else []) := by
  cases out with
  | true => exact read_of_le hn
  | false => rfl

theorem peekLoop_eq {hdr : Bytes} (h : m.Chained (pre ++ post)) (hfuel : post.length < fuel) :
    m.peekLoop fuel ((post.map Prod.fst).headD m.head) hdr =
      some (peekHeaderLoop hdr (post.map Prod.snd)) := by
  induction post generalizing pre hdr fuel with
  | nil =>
    obtain ⟨fuel, rfl⟩ : ∃ k, fuel = k + 1 := ⟨fuel - 1, by omega⟩
    simp [peekLoop, peekHeaderLoop]
  | cons x post ih =>
    obtain ⟨fuel, rfl⟩ : ∃ k, fuel = k + 1 := ⟨fuel - 1, by omega⟩
    have hne : x.1 ≠ m.head := h.ne_head (by simp)
    rw [List.map_cons, List.headD_cons, peekLoop, List.map_cons, peekHeaderLoop]
    by_cases hlt : hdr.length < sizeofRpcHeader
    · have htake : (if x.2.len < sizeofRpcHeader - hdr.length then x.2.len
          else sizeofRpcHeader - hdr.length) ≤ x.2.len := by
        split <;> omega
      have hrest : m.Chained ((pre ++ [x]) ++ post) := by rwa [List.append_assoc]
      rw [if_pos ⟨hne, hlt⟩, if_pos hlt, h.bufs x (by simp)]
      simp only [Option.bind_eq_bind, Option.bind_some, read_of_le htake, h.getNext]
      exact ih hrest (Nat.lt_of_succ_lt_succ hfuel)
    · rw [if_neg fun hand => hlt hand.2, if_neg hlt]

theorem Chained.free (h : m.Chained (x :: nodes)) :
    ∃ links, listRemove x.1 m.links = some links ∧
      ((m.setLinks links).heapFree x.1).Chained nodes := by
  have hring := h.ring
  rw [List.map_cons, ← List.nil_append (x.1 :: _)] at hring
  obtain ⟨links, hremove, hvalid, hholds⟩ := listRemove_holds hring
  rw [List.nil_append] at hholds
  refine ⟨links, hremove, ⟨hholds.ring.congr (fun _ _ => rfl) (fun _ _ => rfl), ?_⟩, ?_⟩
  · intro a ha
    have hne : a ≠ x.1 := by
      rcases List.mem_cons.mp ha with rfl | ha
      · exact (h.ne_head List.mem_cons_self).symm
      · obtain ⟨y, hy, rfl⟩ := List.mem_map.mp ha
        exact h.ne_of_mem hy
    have hother : ((m.setLinks links).heapFree x.1).links.valid a = links.valid a :=
      Function.update_of_ne hne _ _
    rw [hother]
    exact hholds.valid a ha
  · intro y hy
    have hother : ((m.setLinks links).heapFree x.1).bufs y.1 = m.bufs y.1 :=
      Function.update_of_ne (h.ne_of_mem hy) _ _
    rw [hother]
    exact h.bufs y (List.mem_cons_of_mem x hy)

theorem advance_length (b : RpcBuf) (n : Nat) (hn : n < b.len) :
    (b.advance n hn).data.length = b.data.length := by
  have hle := b.len_le
  simp only [RpcBuf.advance, List.length_append, List.length_take, List.length_drop]
  omega

theorem Chained.setBuf (h : m.Chained (x :: nodes)) (b : RpcBuf) :
    (m.setBuf x.1 ⟨b.data, b.len⟩).Chained ((x.1, b) :: nodes) := by
  refine ⟨h.ring, List.forall_mem_cons.mpr ⟨Function.update_self .., fun y hy => ?_⟩⟩
  have hother : (m.setBuf x.1 ⟨b.data, b.len⟩).bufs y.1 = m.bufs y.1 :=
    Function.update_of_ne (h.ne_of_mem hy) _ _
  rw [hother]
  exact h.bufs y (List.mem_cons_of_mem x hy)

/-- What the loop leaves: the chunks of `bs`, in the memory they were in. -/
structure Consumed (w : WordSize) (m : ReasmList) (nodes : List (Nat × RpcBuf)) (bs : List RpcBuf)
    (m' : ReasmList) (nodes' : List (Nat × RpcBuf)) : Prop where
  chained : m'.Chained nodes'
  chunks : nodes'.map Prod.snd = bs
  extents : nodes'.map (extent w) <:+ nodes.map (extent w)
  head : m'.head = m.head
  totalLen : m'.totalLen = m.totalLen

theorem consumeLoop_whole {b : RpcBuf} {bs : List RpcBuf} (hlt : copied < len)
    (hle : b.len ≤ len - copied) :
    CcRpc.consumeLoop len copied (b :: bs) =
      (b.data.take b.len ++ (CcRpc.consumeLoop len (copied + b.len) bs).1,
        (CcRpc.consumeLoop len (copied + b.len) bs).2) := by
  have htake : (if b.len < len - copied then b.len else len - copied) = b.len := by
    split <;> omega
  rw [CcRpc.consumeLoop, if_pos hlt, dif_pos htake, htake]

theorem consumeLoop_front {b : RpcBuf} {bs : List RpcBuf} (hlt : copied < len)
    (hfront : len - copied < b.len) :
    CcRpc.consumeLoop len copied (b :: bs) =
      (b.data.take (len - copied), b.advance (len - copied) hfront :: bs,
        copied + (len - copied)) := by
  have htake : (if b.len < len - copied then b.len else len - copied) = len - copied :=
    if_neg (Nat.not_lt.mpr hfront.le)
  rw [CcRpc.consumeLoop, if_pos hlt, dif_neg (by omega)]
  simp only [htake]

/-- The loop goes over the chunks as that of `Reasm` does. -/
theorem consumeLoop_eq (w : WordSize) (h : m.Chained nodes) (out : Bool) (len copied : Nat)
    (hfuel : nodes.length < fuel) :
    ∃ m' nodes', consumeLoop out len fuel ((nodes.map Prod.fst).headD m.head) copied m =
        some (if out then (CcRpc.consumeLoop len copied (nodes.map Prod.snd)).1 else [],
          (CcRpc.consumeLoop len copied (nodes.map Prod.snd)).2.2, m') ∧
      Consumed w m nodes (CcRpc.consumeLoop len copied (nodes.map Prod.snd)).2.1 m' nodes' := by
  induction nodes generalizing m fuel copied with
  | nil =>
    obtain ⟨fuel, rfl⟩ : ∃ k, fuel = k + 1 := ⟨fuel - 1, by omega⟩
    refine ⟨m, [], ?_, h, rfl, List.suffix_refl _, rfl, rfl⟩
    simp [consumeLoop, CcRpc.consumeLoop]
  | cons x nodes ih =>
    obtain ⟨fuel, rfl⟩ : ∃ k, fuel = k + 1 := ⟨fuel - 1, by omega⟩
    have hne : x.1 ≠ m.head := h.ne_head List.mem_cons_self
    have hfirst : m.Chained ([] ++ x :: nodes) := h
    have hnext := hfirst.getNext
    rw [List.map_cons, List.headD_cons, consumeLoop, List.map_cons]
    by_cases hlt : copied < len
    · rw [if_pos ⟨hne, hlt⟩, h.bufs x List.mem_cons_self, hnext]
      dsimp only [Option.bind_eq_bind, Option.bind_some]
      rcases Nat.lt_or_ge (len - copied) x.2.len with hfront | hwhole
      · -- the front of the node is taken, and the loop ends
        rw [consumeLoop_front hlt hfront, if_neg (Nat.not_lt.mpr hfront.le), copyOut_of_le hfront.le]
        refine ⟨_, _, ?_, h.setBuf (x.2.advance (len - copied) hfront), ?_, ?_, rfl, rfl⟩
        · dsimp only [Option.bind_some]
          rw [if_neg hfront.ne, BufMem.advance, if_pos x.2.len_le]
          rfl
        · rfl
        · have hsame : extent w (x.1, x.2.advance (len - copied) hfront) = extent w x := by
            rw [extent, extent, advance_length x.2]
          rw [List.map_cons, List.map_cons, hsame]
      · -- the node is taken off, and the loop goes on with the rest of the ring
        have htake : (if x.2.len < len - copied then x.2.len else len - copied) = x.2.len := by
          split <;> omega
        obtain ⟨links, hremove, hrest⟩ := h.free
        obtain ⟨m', nodes', hloop, hC⟩ := ih hrest (copied + x.2.len)
          (Nat.lt_of_succ_lt_succ hfuel)
        rw [consumeLoop_whole hlt hwhole, htake, copyOut_of_le (Nat.le_refl _)]
        refine ⟨m', nodes', ?_, hC.chained, hC.chunks, hC.extents.trans (List.suffix_cons _ _),
          hC.head, hC.totalLen⟩
        have hhead : ((m.setLinks links).heapFree x.1).head = m.head := rfl
        rw [hhead] at hloop
        dsimp only [Option.bind_some]
        rw [if_pos rfl, hremove]
        dsimp only [Option.bind_some]
        rw [hloop]
        cases out <;> rfl
    · rw [if_neg fun hand => hlt hand.2, CcRpc.consumeLoop, if_neg hlt]
      refine ⟨m, x :: nodes, ?_, h, rfl, List.suffix_refl _, rfl, rfl⟩
      cases out <;> rfl

/-- The nodes on the ring hold `q` in order, none of them is empty, and `total_len` is the sum of their
lengths. -/
def IsQueue (m : ReasmList) (q : Bytes) : Prop :=
  ∃ nodes : List (Nat × BufMem), m.links.Holds m.head (nodes.map Prod.fst) ∧
    (∀ x ∈ nodes, m.bufs x.1 = some x.2 ∧ 0 < x.2.len ∧ x.2.len ≤ x.2.data.length) ∧
    m.totalLen = (nodes.map fun x => x.2.len).sum ∧
    q = (nodes.map fun x => x.2.data.take x.2.len).flatten

/-- A list stands for one queue. -/
theorem IsQueue.unique {q q' : Bytes} (h : m.IsQueue q) (h' : m.IsQueue q') : q = q' := by
  obtain ⟨nodes, hring, hbufs, -, rfl⟩ := h
  obtain ⟨nodes', hring', hbufs', -, rfl⟩ := h'
  have haddrs : nodes.map Prod.fst = nodes'.map Prod.fst := hring.ring.unique hring'.ring
  have hread : ∀ l : List (Nat × BufMem), (∀ x ∈ l, m.bufs x.1 = some x.2 ∧ 0 < x.2.len ∧
      x.2.len ≤ x.2.data.length) → l.map (fun x => some x.2) = (l.map Prod.fst).map m.bufs := by
    intro l hl
    rw [List.map_map]
    exact List.map_congr_left fun x hx => (hl x hx).1.symm
  have hsome : nodes.map (fun x => some x.2) = nodes'.map fun x => some x.2 := by
    rw [hread nodes hbufs, hread nodes' hbufs', haddrs]
  have hsnd : nodes.map Prod.snd = nodes'.map Prod.snd := by
    apply List.map_injective_iff.mpr (Option.some_injective BufMem)
    simpa [List.map_map, Function.comp_def] using hsome
  have hbytes := congrArg (List.map fun b : BufMem => b.data.take b.len) hsnd
  rw [List.map_map, List.map_map] at hbytes
  exact congrArg List.flatten hbytes

/-- What a list holds of a `Reasm`, and that its nodes lie in different memory. -/
structure Holds (w : WordSize) (m : ReasmList) (nodes : List (Nat × RpcBuf)) (r : Reasm) : Prop where
  chained : m.Chained nodes
  chunks : nodes.map Prod.snd = r.chunks
  total : m.totalLen = r.totalLen
  inside : ∀ e ∈ nodes.map (extent w), e.1 + e.2 ≤ 2 ^ w.bits
  apart : (nodes.map (extent w)).Pairwise fun e f => Apart e.1 e.2 f.1 f.2

variable {r : Reasm}

theorem Holds.isQueue (h : m.Holds w nodes r) : m.IsQueue r.bytes := by
  refine ⟨nodes.map fun x => (x.1, ⟨x.2.data, x.2.len⟩), ?_, ?_, ?_, ?_⟩
  · simpa [List.map_map, Function.comp_def] using h.chained.ring
  · intro x hx
    obtain ⟨y, hy, rfl⟩ := List.mem_map.mp hx
    exact ⟨h.chained.bufs y hy, y.2.len_pos, y.2.len_le⟩
  · rw [h.total, r.total_eq, ← h.chunks]
    simp [List.map_map, Function.comp_def]
  · rw [Reasm.bytes, ← h.chunks]
    simp [List.map_map, Function.comp_def, RpcBuf.bytes]

theorem Holds.length_le (h : m.Holds w nodes r) : nodes.length ≤ m.totalLen := by
  rw [h.total, r.total_eq, ← h.chunks, List.map_map]
  have hall : ∀ l : List (Nat × RpcBuf), l.length ≤ (l.map (RpcBuf.len ∘ Prod.snd)).sum := by
    intro l
    induction l with
    | nil => simp
    | cons x l ih =>
      have hpos := x.2.len_pos
      simp only [List.length_cons, List.map_cons, List.sum_cons, Function.comp_apply]
      omega
  exact hall nodes

theorem sizeofRpcBuf_pos (w : WordSize) : 0 < sizeofRpcBuf w := by
  cases w <;> decide

theorem sum_len_lt (hinside : ∀ e ∈ nodes.map (extent w), e.1 + e.2 ≤ 2 ^ w.bits)
    (hapart : (nodes.map (extent w)).Pairwise fun e f => Apart e.1 e.2 f.1 f.2) :
    (nodes.map fun x => x.2.len).sum < 2 ^ w.bits := by
  have hsum := sum_le_of_apart hinside hapart
  have hpos := sizeofRpcBuf_pos w
  have hle : ∀ l : List (Nat × RpcBuf), (l.map fun x => x.2.len).sum + l.length ≤
      ((l.map (extent w)).map Prod.snd).sum := by
    intro l
    induction l with
    | nil => simp
    | cons x l ih =>
      have hlen := x.2.len_le
      simp only [List.map_cons, List.sum_cons, List.length_cons, extent] at ih ⊢
      omega
  have hnodes := hle nodes
  cases nodes with
  | nil => exact Nat.two_pow_pos _
  | cons x nodes =>
    rw [List.length_cons] at hnodes
    omega

theorem Holds.totalLen_lt (h : m.Holds w nodes r) : m.totalLen < 2 ^ w.bits := by
  have hlt := sum_len_lt h.inside h.apart
  rwa [h.total, r.total_eq, ← h.chunks, List.map_map]

theorem Holds.peek (h : m.Holds w nodes r) :
    m.rpcReasmPeekHeader = some (CcRpc.rpcReasmPeekHeader r) := by
  unfold rpcReasmPeekHeader CcRpc.rpcReasmPeekHeader
  rw [h.total]
  split
  · rfl
  · have hfuel : nodes.length < r.totalLen + 1 := Nat.lt_succ_of_le (h.total ▸ h.length_le)
    have hall : m.Chained ([] ++ nodes) := h.chained
    have hloop : peekLoop m (r.totalLen + 1) ((nodes.map Prod.fst).headD m.head) [] = _ :=
      peekLoop_eq hall hfuel
    rw [h.chunks] at hloop
    rw [h.chained.getNext_head]
    dsimp only [Option.bind_eq_bind, Option.bind_some]
    rw [hloop]
    rfl

theorem Holds.consume (h : m.Holds w nodes r) (out : Bool) (len : Nat) :
    ∃ m' nodes', rpcReasmConsume w out len m =
        some (if out then (CcRpc.rpcReasmConsume r len).1 else [], m') ∧
      m'.Holds w nodes' (CcRpc.rpcReasmConsume r len).2 ∧ m'.head = m.head := by
  unfold rpcReasmConsume CcRpc.rpcReasmConsume
  by_cases hzero : len = 0
  · rw [if_pos hzero, if_pos hzero]
    refine ⟨m, nodes, ?_, h, rfl⟩
    cases out <;> rfl
  · rw [if_neg hzero, if_neg hzero]
    obtain ⟨m', nodes', hloop, hC⟩ := consumeLoop_eq w h.chained out len 0
      (Nat.lt_succ_of_le h.length_le)
    have hlt := h.totalLen_lt
    have hcopied : (CcRpc.consumeLoop len 0 r.chunks).2.2 ≤ r.totalLen := by
      obtain ⟨-, -, hn⟩ := consumeLoop_spec len 0 r.chunks
      have hbytes := r.totalLen_eq
      rw [Reasm.bytes] at hbytes
      omega
    rw [h.chunks] at hloop hC
    refine ⟨{ m' with totalLen := w.sub m.totalLen (CcRpc.consumeLoop len 0 r.chunks).2.2 }, nodes', ?_,
      ⟨⟨hC.chained.ring, hC.chained.bufs⟩, hC.chunks, ?_, ?_, ?_⟩, hC.head⟩
    · rw [h.chained.getNext_head]
      dsimp only [Option.bind_eq_bind, Option.bind_some]
      rw [hloop, Option.bind_some, hC.totalLen]
    · dsimp only
      rw [h.total] at hlt ⊢
      rw [WordSize.sub_of_le hcopied hlt]
    · exact fun e he => h.inside e (hC.extents.subset he)
    · exact h.apart.sublist hC.extents.sublist

/-- `sizeof(struct rpc_reasm)`, two pointers and a `size_t`. -/
def sizeofRpcReasm (w : WordSize) : Nat := 3 * w.bytes

/-- The `n` bytes at `p` are in memory, outside the `struct rpc_reasm` and its buffers. -/
def Fresh (w : WordSize) (m : ReasmList) (p n : Nat) : Prop :=
  p + n ≤ 2 ^ w.bits ∧ Apart p n m.head (sizeofRpcReasm w) ∧
    ∀ a b, m.bufs a = some b → Apart p n a (sizeofRpcBuf w + b.data.length)

variable {p n : Nat} {data : Bytes} {answer : Option Nat}

theorem Fresh.not_mem (hfresh : m.Fresh w p (sizeofRpcBuf w + n)) (h : m.Chained nodes) :
    p ∉ m.head :: nodes.map Prod.fst := by
  have hpos := sizeofRpcBuf_pos w
  have hsize : sizeofRpcReasm w = sizeofRpcBuf w := rfl
  obtain ⟨-, hhead, hbufs⟩ := hfresh
  unfold Apart at hhead hbufs
  intro hmem
  rcases List.mem_cons.mp hmem with rfl | hmem
  · omega
  · obtain ⟨x, hx, rfl⟩ := List.mem_map.mp hmem
    have hapart := hbufs _ _ (h.bufs x hx)
    omega

theorem Chained.append (h : m.Chained nodes) (hnew : p ∉ m.head :: nodes.map Prod.fst)
    (b : RpcBuf) :
    ∃ links links', listNodeInit p (m.granted p ⟨b.data, b.len⟩).links = some links ∧
      listAddPrev m.head p links = some links' ∧
      ((m.granted p ⟨b.data, b.len⟩).setLinks links').Chained (nodes ++ [(p, b)]) := by
  have hp : (m.granted p ⟨b.data, b.len⟩).links.valid p = true := Function.update_self ..
  have hring : (m.granted p ⟨b.data, b.len⟩).links.Holds m.head (nodes.map Prod.fst) := by
    refine ⟨h.ring.ring.congr (fun _ _ => rfl) (fun _ _ => rfl), fun x hx => ?_⟩
    have hne : x ≠ p := fun heq => hnew (heq ▸ hx)
    have hother : (m.granted p ⟨b.data, b.len⟩).links.valid x = m.links.valid x :=
      Function.update_of_ne hne _ _
    rw [hother]
    exact h.ring.valid x hx
  obtain ⟨links, hinit, hvalid, hlinks⟩ := hring.nodeInit hp hnew
  have hpl : links.valid p = true := hvalid ▸ hp
  rw [← List.append_nil (nodes.map Prod.fst)] at hlinks hnew
  obtain ⟨links', hadd, -, hadded⟩ := listAddPrev_holds hlinks hpl hnew
  rw [List.headD_nil] at hadd
  refine ⟨links, links', hinit, hadd, ?_, fun x hx => ?_⟩
  · rwa [List.map_append]
  · rcases List.mem_append.mp hx with hx | hx
    · have hne : x.1 ≠ p := fun heq => hnew (by
        rw [List.append_nil, ← heq]
        exact List.mem_cons_of_mem _ (List.mem_map_of_mem hx))
      have hother : ((m.granted p ⟨b.data, b.len⟩).setLinks links').bufs x.1 = m.bufs x.1 :=
        Function.update_of_ne hne _ _
      rw [hother]
      exact h.bufs x hx
    · obtain rfl := List.mem_singleton.mp hx
      exact Function.update_self ..

theorem length_le (data : Bytes) : data.length ≤ data.length := Nat.le_refl _

/-- The chunk that `rpc_buf_alloc` fills in. -/
def newBuf (data : Bytes) (hlen : 0 < data.length) : RpcBuf :=
  ⟨data, data.length, hlen, length_le data⟩

theorem newBuf_bytes (hlen : 0 < data.length) : (newBuf data hlen).bytes = data :=
  List.take_length ..

/-- Appending with a buffer is what `list_add_prev` does to the chunks. -/
theorem Holds.append (h : m.Holds w nodes r) (hlen : 0 < data.length)
    (hbits : data.length + sizeofRpcBuf w < 2 ^ w.bits)
    (hfresh : m.Fresh w p (sizeofRpcBuf w + data.length)) :
    ∃ m' nodes', rpcReasmAppend w data (some p) m = some m' ∧
      m'.Holds w nodes' (r.addPrev (newBuf data hlen)) ∧ m'.head = m.head := by
  obtain ⟨links, links', hinit, hadd, hchained⟩ :=
    h.chained.append (hfresh.not_mem h.chained) (newBuf data hlen)
  have hextent : extent w (p, newBuf data hlen) = (p, sizeofRpcBuf w + data.length) := rfl
  have hinside : ∀ e ∈ (nodes ++ [(p, newBuf data hlen)]).map (extent w),
      e.1 + e.2 ≤ 2 ^ w.bits := by
    intro e he
    rw [List.map_append, List.mem_append] at he
    rcases he with he | he
    · exact h.inside e he
    · obtain rfl := List.mem_singleton.mp he
      exact hfresh.1
  have hapart : ((nodes ++ [(p, newBuf data hlen)]).map (extent w)).Pairwise
      fun e f => Apart e.1 e.2 f.1 f.2 := by
    rw [List.map_append, List.pairwise_append]
    refine ⟨h.apart, List.pairwise_singleton _ _, fun e he f hf => ?_⟩
    obtain ⟨x, hx, rfl⟩ := List.mem_map.mp he
    obtain rfl := List.mem_singleton.mp hf
    rw [hextent]
    exact (hfresh.2.2 _ _ (h.chained.bufs x hx)).symm
  have htotal : m.totalLen + data.length < 2 ^ w.bits := by
    have hsum := sum_len_lt hinside hapart
    have hold : m.totalLen = (nodes.map fun x => x.2.len).sum := by
      rw [h.total, r.total_eq, ← h.chunks, List.map_map]
      rfl
    rwa [List.map_append, List.sum_append, ← hold, List.map_singleton, List.sum_singleton] at hsum
  have hcall : rpcReasmAppend w data (some p) m = some
      { (m.granted p ⟨data, data.length⟩).setLinks links' with
        totalLen := w.sizeT (m.totalLen + data.length) } := by
    have hsize : w.sizeT (sizeofRpcBuf w + data.length) = sizeofRpcBuf w + data.length :=
      WordSize.sizeT_of_lt (by omega)
    rw [rpcReasmAppend, if_neg hlen.ne', rpcBufAlloc, hsize, if_neg (Nat.lt_irrefl _)]
    have hinit : listNodeInit p (m.granted p ⟨data, data.length⟩).links = some links := hinit
    simp only [Option.bind_eq_bind, Option.bind_some, hinit]
    have hhead : ((m.granted p ⟨data, data.length⟩).setLinks links).head = m.head := rfl
    have hlinks : ((m.granted p ⟨data, data.length⟩).setLinks links).links = links := rfl
    rw [hhead, hlinks, hadd]
    rfl
  refine ⟨_, nodes ++ [(p, newBuf data hlen)], hcall, ⟨⟨hchained.ring, hchained.bufs⟩, ?_, ?_,
    hinside, hapart⟩, rfl⟩
  · rw [List.map_append, h.chunks]
    rfl
  · dsimp only
    rw [WordSize.sizeT_of_lt htotal, h.total]
    rfl

/-- A call; an append with what `heap_malloc` answers. -/
inductive Op where
  | append (data : Bytes) (answer : Option Nat)
  | peek
  | consume (out : Bool) (len : Nat)

/-- One call. -/
def step (w : WordSize) (m : ReasmList) : Op → Option ReasmList
  | .append data answer => rpcReasmAppend w data answer m
  | .peek => (rpcReasmPeekHeader m).map fun _ => m
  | .consume out len => (rpcReasmConsume w out len m).map Prod.snd

/-- The head after `list_node_init`. -/
def empty (head : Nat) : ReasmList where
  head := head
  totalLen := 0
  links := ⟨fun a => decide (a = head), fun _ => head, fun _ => head⟩
  bufs := fun _ => none

/-- What is appended lies in memory beside a `struct rpc_reasm`, and `heap_malloc` grants memory that
is not in use. -/
def Legal (w : WordSize) (m : ReasmList) : Op → Prop
  | .append data answer => data.length + sizeofRpcBuf w < 2 ^ w.bits ∧
      ∀ p, answer = some p → m.Fresh w p (sizeofRpcBuf w + data.length)
  | .peek => True
  | .consume _ _ => True

/-- The call does to the list what its name says of the queue, and returns the bytes of the queue. -/
def Faithful (w : WordSize) (m : ReasmList) : Op → Prop
  | .append data answer => ∃ q m', m.IsQueue q ∧ rpcReasmAppend w data answer m = some m' ∧
      m'.IsQueue (if answer.isSome then q ++ data else q)
  | .peek => ∃ q, m.IsQueue q ∧ rpcReasmPeekHeader m =
      some (if q.length < sizeofRpcHeader then none else some (q.take sizeofRpcHeader))
  | .consume out len => ∃ q m', m.IsQueue q ∧
      rpcReasmConsume w out len m =
        some (if out then q.take (min len m.totalLen) else [], m') ∧
      m'.IsQueue (q.drop (min len m.totalLen))

/-- The queue after a call. -/
def queueStep (q : Bytes) : Op → Bytes
  | .append data answer => if answer.isSome then q ++ data else q
  | .peek => q
  | .consume _ len => q.drop len

theorem holds_empty (w : WordSize) (head : Nat) : (empty head).Holds w [] Reasm.empty where
  chained := by
    refine ⟨⟨Ring.single rfl rfl, fun x hx => ?_⟩, by simp⟩
    rw [List.mem_singleton.mp hx]
    exact decide_eq_true rfl
  chunks := rfl
  total := rfl
  inside := by simp
  apart := List.Pairwise.nil

theorem append_nothing (hnothing : data = [] ∨ answer = none) :
    rpcReasmAppend w data answer m = some m := by
  unfold rpcReasmAppend
  split
  · rfl
  · next hlen =>
    rcases hnothing with rfl | rfl
    · exact absurd rfl hlen
    · rfl

theorem Holds.step {op : Op} (h : m.Holds w nodes r) (hl : Legal w m op) :
    Faithful w m op ∧ ∃ m' nodes' r', step w m op = some m' ∧ m'.Holds w nodes' r' ∧
      r'.bytes = queueStep r.bytes op := by
  have hq := h.isQueue
  cases op with
  | append data answer =>
    by_cases hnothing : data = [] ∨ answer = none
    · have hcall : rpcReasmAppend w data answer m = some m := append_nothing hnothing
      have hbytes : (if answer.isSome then r.bytes ++ data else r.bytes) = r.bytes := by
        rcases hnothing with rfl | rfl
        · rw [List.append_nil, ite_self]
        · rfl
      refine ⟨⟨r.bytes, m, hq, hcall, ?_⟩, m, nodes, r, hcall, h, hbytes.symm⟩
      rwa [hbytes]
    · rw [not_or] at hnothing
      obtain ⟨p, rfl⟩ := Option.ne_none_iff_exists'.mp hnothing.2
      have hlen : 0 < data.length := List.length_pos_iff.mpr hnothing.1
      obtain ⟨m', nodes', hcall, hH, -⟩ := h.append hlen hl.1 (hl.2 p rfl)
      have hbytes : (r.addPrev (newBuf data hlen)).bytes = r.bytes ++ data := by
        rw [Reasm.addPrev_bytes, newBuf_bytes]
      have hqueue := hH.isQueue
      rw [hbytes] at hqueue
      exact ⟨⟨r.bytes, m', hq, hcall, hqueue⟩, m', nodes', _, hcall, hH, hbytes⟩
  | peek =>
    have hcall := h.peek
    rw [rpcReasmPeekHeader_eq] at hcall
    refine ⟨⟨r.bytes, hq, hcall⟩, m, nodes, r, ?_, h, rfl⟩
    rw [ReasmList.step, hcall]
    rfl
  | consume out len =>
    obtain ⟨m', nodes', hcall, hH, -⟩ := h.consume out len
    obtain ⟨hout, hrest⟩ := rpcReasmConsume_spec r len
    have htotal : m.totalLen = r.bytes.length := h.total.trans r.totalLen_eq
    have hqueue := hH.isQueue
    refine ⟨⟨r.bytes, m', hq, ?_, ?_⟩, m', nodes', _, ?_, hH, hrest⟩
    · rw [hcall, hout, htotal, List.take_eq_take_min]
    · rwa [htotal, ← List.drop_eq_drop_min, ← hrest]
    · rw [ReasmList.step, hcall]
      rfl

end ReasmList

/-- Whatever is appended, looked at and consumed, the list is a queue of bytes: each call does to the
list what it does to the queue. -/
theorem reasm_faithful (w : WordSize) (head : Nat) {ops : List ReasmList.Op}
    (hl : Runs.Along (ReasmList.step w) (ReasmList.Legal w) (.empty head) ops) :
    Runs.Along (ReasmList.step w) (ReasmList.Faithful w) (.empty head) ops ∧
      ∃ m, Runs.run (ReasmList.step w) (.empty head) ops = some m ∧
        m.IsQueue (ops.foldl ReasmList.queueStep []) := by
  constructor
  · apply Runs.along_imp (I := fun m => ∃ nodes r, m.Holds w nodes r) (C := fun _ _ => True) _
      ⟨[], .empty, ReasmList.holds_empty w head⟩ hl (Runs.along_of_forall fun _ _ => trivial)
    rintro m op ⟨nodes, r, hH⟩ hlegal -
    obtain ⟨hfaithful, m', nodes', r', hstep, hH', -⟩ := hH.step hlegal
    exact ⟨hfaithful, m', hstep, nodes', r', hH'⟩
  · have hrun := Runs.run_foldl (f := ReasmList.queueStep)
      (I := fun m q => ∃ nodes r, m.Holds w nodes r ∧ r.bytes = q) (t := []) ?_
      ⟨[], .empty, ReasmList.holds_empty w head, rfl⟩ hl
    · obtain ⟨m, hrun, nodes, r, hH, hbytes⟩ := hrun
      exact ⟨m, hrun, hbytes ▸ hH.isQueue⟩
    · rintro m q op ⟨nodes, r, hH, rfl⟩ hlegal
      obtain ⟨-, m', nodes', r', hstep, hH', hbytes⟩ := hH.step hlegal
      exact ⟨m', hstep, nodes', r', hH', hbytes⟩

/-- Two chunks of 8 bytes are looked at across their border, and the first and part of the second are
taken away. -/
theorem reasm_faithful_two :
    Runs.Along (ReasmList.step .w64) (ReasmList.Faithful .w64) (.empty 0x1000)
        [.append [0, 1, 2, 3, 4, 5, 6, 7] (some 0x2000), .append [8] none,
          .append [10, 11, 12, 13, 14, 15, 16, 17] (some 0x3000), .peek, .consume true 10,
          .consume false 100] ∧
      ∃ m, Runs.run (ReasmList.step .w64) (.empty 0x1000)
        [.append [0, 1, 2, 3, 4, 5, 6, 7] (some 0x2000), .append [8] none,
          .append [10, 11, 12, 13, 14, 15, 16, 17] (some 0x3000), .peek, .consume true 10,
          .consume false 100] = some m ∧ m.IsQueue [] := by
  apply reasm_faithful .w64 0x1000
  refine ⟨⟨by decide, ?_⟩, fun s hs => ⟨⟨by decide, ?_⟩, fun s' hs' => ⟨⟨by decide, ?_⟩,
    fun _ _ => ⟨trivial, fun _ _ => ⟨trivial, fun _ _ => ⟨trivial, fun _ _ => trivial⟩⟩⟩⟩⟩⟩
  · rintro p ⟨⟩
    exact ⟨by decide, by decide, fun a b hb => nomatch hb⟩
  · rintro p ⟨⟩
  · rintro p ⟨⟩
    cases hs
    cases hs'
    refine ⟨by decide, by decide, fun a b hb => ?_⟩
    simp only [ReasmList.setLinks, ReasmList.granted, ReasmList.empty, Function.update_apply] at hb
    split at hb
    · next ha =>
      cases hb
      subst ha
      decide
    · cases hb

end CcRpc
