import CcRpc.Wire
import CcRpc.Lib.Runs

/-!
# Reassembly (`rpc_reasm_*`, `rpc_on_data`)

Received bytes are kept as a list of chunks, the first of which may be partly consumed. Read as
one byte string the list is a queue, and every operation is the queue's.
-/

namespace CcRpc

/-- `struct rpc_buf`: the memory behind `data` and how many bytes of it are left. -/
structure RpcBuf where
  data : Bytes
  len : Nat
  len_pos : 0 < len
  len_le : len ≤ data.length

/-- The bytes a chunk still holds. -/
def RpcBuf.bytes (b : RpcBuf) : Bytes := b.data.take b.len

@[simp] theorem RpcBuf.bytes_length (b : RpcBuf) : b.bytes.length = b.len :=
  List.length_take_of_le b.len_le

theorem RpcBuf.take_data (b : RpcBuf) {n : Nat} (hn : n ≤ b.len) :
    b.data.take n = b.bytes.take n := by
  rw [bytes, List.take_take, min_eq_left hn]

/-- `memmove(b->data, b->data + take, b->len - take); b->len -= take`. -/
def RpcBuf.advance (b : RpcBuf) (take : Nat) (h : take < b.len) : RpcBuf where
  data := (b.data.drop take).take (b.len - take) ++ b.data.drop (b.len - take)
  len := b.len - take
  len_pos := by omega
  len_le := by
    have := b.len_le
    simp only [List.length_append, List.length_take, List.length_drop]
    omega

@[simp] theorem RpcBuf.advance_bytes (b : RpcBuf) (take : Nat) (h : take < b.len) :
    (b.advance take h).bytes = b.bytes.drop take := by
  have hle := b.len_le
  unfold bytes advance
  dsimp only
  rw [List.take_left' (by rw [List.length_take, List.length_drop]; omega), List.drop_take]

/-- `struct rpc_reasm`. The bytes counted by `total_len` are in memory, so it does not wrap. -/
structure Reasm where
  chunks : List RpcBuf
  totalLen : Nat
  total_eq : totalLen = (chunks.map RpcBuf.len).sum

/-- The byte queue a chunk list stands for. -/
def Reasm.bytes (r : Reasm) : Bytes := (r.chunks.map RpcBuf.bytes).flatten

theorem sum_len (bs : List RpcBuf) :
    (bs.map RpcBuf.len).sum = ((bs.map RpcBuf.bytes).flatten).length := by
  simp [List.length_flatten, Function.comp_def]

theorem Reasm.totalLen_eq (r : Reasm) : r.totalLen = r.bytes.length := by
  rw [r.total_eq, sum_len, Reasm.bytes]

/-- The list head after `list_node_init`. -/
def Reasm.empty : Reasm := ⟨[], 0, rfl⟩

@[simp] theorem Reasm.empty_bytes : Reasm.empty.bytes = [] := rfl

/-- `list_add_prev(&r->head, &b->node); r->total_len += len`. -/
def Reasm.addPrev (r : Reasm) (b : RpcBuf) : Reasm where
  chunks := r.chunks ++ [b]
  totalLen := r.totalLen + b.len
  total_eq := by
    have := r.total_eq
    simp only [List.map_append, List.sum_append, List.map_cons, List.map_nil, List.sum_singleton]
    omega

@[simp] theorem Reasm.addPrev_bytes (r : Reasm) (b : RpcBuf) :
    (r.addPrev b).bytes = r.bytes ++ b.bytes := by
  simp [addPrev, bytes]

/-- The copy loop of `rpc_reasm_peek_header`; `hdr` holds the bytes copied so far. -/
def peekHeaderLoop : Bytes → List RpcBuf → Bytes
  | hdr, [] => hdr
  | hdr, b :: bs =>
    if hdr.length < sizeofRpcHeader then
      let remainSize := sizeofRpcHeader - hdr.length
      let take := if b.len < remainSize then b.len else remainSize
      peekHeaderLoop (hdr ++ b.data.take take) bs
    else hdr

/-- `rpc_reasm_peek_header`; `none` is its return value -1. -/
def rpcReasmPeekHeader (r : Reasm) : Option Bytes :=
  if r.totalLen < sizeofRpcHeader then none
  else
    let hdr := peekHeaderLoop [] r.chunks
    if hdr.length = sizeofRpcHeader then some hdr else none

private theorem peekHeaderLoop_eq (hdr : Bytes) (bs : List RpcBuf)
    (hle : hdr.length ≤ sizeofRpcHeader) :
    peekHeaderLoop hdr bs = (hdr ++ (bs.map RpcBuf.bytes).flatten).take sizeofRpcHeader := by
  induction bs generalizing hdr with
  | nil =>
    simp only [peekHeaderLoop, List.map_nil, List.flatten_nil, List.append_nil]
    exact (List.take_of_length_le hle).symm
  | cons b bs ih =>
    unfold peekHeaderLoop
    split
    · next hlt =>
      dsimp only
      split
      · next hshort =>
        have hall : b.data.take b.len = b.bytes := rfl
        rw [hall, ih _ (by simp only [List.length_append, RpcBuf.bytes_length]; omega)]
        simp
      · next hlong =>
        rw [b.take_data (by omega), ih _ (by simp; omega)]
        have hfull : (hdr ++ b.bytes.take (sizeofRpcHeader - hdr.length)).length =
            sizeofRpcHeader := by
          simp only [List.length_append, List.length_take, RpcBuf.bytes_length]
          omega
        have hhdr : hdr.take sizeofRpcHeader = hdr := List.take_of_length_le hle
        have hzero : sizeofRpcHeader - hdr.length - b.len = 0 := by omega
        rw [List.take_left' hfull]
        simp only [List.map_cons, List.flatten_cons, List.take_append, hhdr, RpcBuf.bytes_length,
          hzero, List.take_zero, List.append_nil]
    · next hge =>
      have hfull : hdr.length = sizeofRpcHeader := by omega
      rw [List.take_left' hfull]

theorem rpcReasmPeekHeader_eq (r : Reasm) :
    rpcReasmPeekHeader r =
      if r.bytes.length < sizeofRpcHeader then none else some (r.bytes.take sizeofRpcHeader) := by
  have hloop : peekHeaderLoop [] r.chunks = r.bytes.take sizeofRpcHeader :=
    peekHeaderLoop_eq [] r.chunks (Nat.zero_le _)
  unfold rpcReasmPeekHeader
  rw [r.totalLen_eq]
  by_cases h : r.bytes.length < sizeofRpcHeader
  · rw [if_pos h, if_pos h]
  · rw [if_neg h, if_neg h]
    dsimp only
    rw [hloop, if_pos (List.length_take_of_le (by omega))]

/-- The loop of `rpc_reasm_consume` from `copied` on: what it stores at `out + copied`, the nodes
that stay in the list, and the final `copied`. -/
def consumeLoop (len : Nat) : Nat → List RpcBuf → Bytes × List RpcBuf × Nat
  | copied, [] => ([], [], copied)
  | copied, b :: bs =>
    if copied < len then
      let remain := len - copied
      let take := if b.len < remain then b.len else remain
      if h : take = b.len then
        let (out, rest, n) := consumeLoop len (copied + take) bs
        (b.data.take take ++ out, rest, n)
      else
        have hlt : take < b.len := by
          have hle : take ≤ b.len := by
            unfold take
            split <;> omega
          omega
        (b.data.take take, b.advance take hlt :: bs, copied + take)
    else ([], b :: bs, copied)

/-- The loop moves bytes from the front of the queue to `out`, up to `len` of them. -/
theorem consumeLoop_spec (len copied : Nat) (bs : List RpcBuf) :
    (consumeLoop len copied bs).1 = (bs.map RpcBuf.bytes).flatten.take (len - copied) ∧
      ((consumeLoop len copied bs).2.1.map RpcBuf.bytes).flatten =
        (bs.map RpcBuf.bytes).flatten.drop (len - copied) ∧
      (consumeLoop len copied bs).2.2 =
        copied + min (len - copied) (bs.map RpcBuf.bytes).flatten.length := by
  induction bs generalizing copied with
  | nil => simp [consumeLoop]
  | cons b bs ih =>
    have hlen := b.bytes_length
    simp only [consumeLoop, List.map_cons, List.flatten_cons]
    have hwhole : b.data.take b.len = b.bytes := rfl
    by_cases hlt : copied < len
    · rw [if_pos hlt]
      by_cases hshort : b.len < len - copied
      · -- the whole node is taken and removed
        have htake : (if b.len < len - copied then b.len else len - copied) = b.len := if_pos hshort
        rw [dif_pos htake, htake, hwhole]
        obtain ⟨hout, hrest, hn⟩ := ih (copied + b.len)
        have harith : len - (copied + b.len) = len - copied - b.len := by omega
        have htaken : b.bytes.take (len - copied) = b.bytes := List.take_of_length_le (by omega)
        have hdropped : b.bytes.drop (len - copied) = [] := List.drop_of_length_le (by omega)
        rw [harith] at hout hrest hn
        refine ⟨?_, ?_, ?_⟩
        · rw [hout, List.take_append, htaken, hlen]
        · rw [hrest, List.drop_append, hdropped, List.nil_append, hlen]
        · rw [hn, List.length_append, hlen]
          omega
      · have htake : (if b.len < len - copied then b.len else len - copied) = len - copied :=
          if_neg hshort
        by_cases heq : len - copied = b.len
        · -- the node is the last one taken, and removed
          rw [dif_pos (htake.trans heq), htake, heq, hwhole]
          obtain ⟨hout, hrest, hn⟩ := ih (copied + b.len)
          have hzero : len - (copied + b.len) = 0 := by omega
          rw [hzero] at hout hrest hn
          refine ⟨?_, ?_, ?_⟩
          · rw [hout, List.take_zero, List.append_nil, ← hlen, List.take_left]
          · rw [hrest, ← hlen, List.drop_left, List.drop_zero]
          · rw [hn, List.length_append, hlen]
            omega
        · -- only the front of the node is taken
          rw [dif_neg (htake.trans_ne heq)]
          simp only [htake]
          refine ⟨?_, ?_, ?_⟩
          · rw [b.take_data (by omega), List.take_append_of_le_length (by omega)]
          · rw [List.map_cons, List.flatten_cons, RpcBuf.advance_bytes,
              List.drop_append_of_le_length (by omega)]
          · rw [List.length_append, hlen, min_eq_left (by omega)]
    · rw [if_neg hlt]
      have hzero : len - copied = 0 := by omega
      simp [hzero]

/-- `rpc_reasm_consume`: what it stores at `out`, if `out` is not NULL, and the queue after it. -/
def rpcReasmConsume (r : Reasm) (len : Nat) : Bytes × Reasm :=
  if len = 0 then ([], r)
  else
    ((consumeLoop len 0 r.chunks).1,
      { chunks := (consumeLoop len 0 r.chunks).2.1
        totalLen := r.totalLen - (consumeLoop len 0 r.chunks).2.2
        total_eq := by
          obtain ⟨-, hrest, hn⟩ := consumeLoop_spec len 0 r.chunks
          rw [sum_len, hrest, hn, r.totalLen_eq, List.length_drop, Reasm.bytes]
          omega })

theorem rpcReasmConsume_spec (r : Reasm) (len : Nat) :
    (rpcReasmConsume r len).1 = r.bytes.take len ∧
      (rpcReasmConsume r len).2.bytes = r.bytes.drop len := by
  unfold rpcReasmConsume
  split
  · next h =>
    subst h
    simp
  · obtain ⟨hout, hrest, -⟩ := consumeLoop_spec len 0 r.chunks
    exact ⟨hout, hrest⟩

end CcRpc
