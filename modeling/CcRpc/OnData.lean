import CcRpc.Reasm

/-!
# Receiving (`rpc_on_data`)

The receive loop cuts whole messages off the reassembly queue and dispatches each from a buffer of
its own. What the loop needs from the rest of the node comes in as a parameter: the lock, the
allocator, the transport's `recv` and `rpc_dispatch_message`, each acting on a state of any type.
-/

namespace CcRpc

/-- What `rpc_on_data` calls. `recv` is NULL or yields the bytes it stored in `poll_buf`, none when
it returns 0 or less. -/
structure Ports (σ : Type) where
  rpcPortLock : σ → σ
  rpcPortUnlock : σ → σ
  heapMalloc : Nat → σ → Bool × σ
  recv : Option (σ → Bytes × σ)
  /-- `rpc_dispatch_message(t, buf, len)`. -/
  dispatch : Bytes → Nat → σ → σ

/-- `sizeof(struct rpc_buf)`: two links and a length. -/
def sizeofRpcBuf (w : WordSize) : Nat := 3 * w.bytes

variable {σ : Type}

/-- `rpc_reasm_append`. A chunk that gets no node is dropped. -/
def rpcReasmAppend (h : Host) (P : Ports σ) (r : Reasm) (data : Bytes) (s : σ) : Reasm × σ :=
  if hlen : 0 < data.length then
    let (ok, s) := P.heapMalloc (h.word.sizeT (sizeofRpcBuf h.word + data.length)) s
    if ok then (r.addPrev ⟨data, data.length, hlen, Nat.le_refl _⟩, s) else (r, s)
  else (r, s)

/-- The `for (;;)` of `rpc_on_data`; `none` when `fuel` iterations do not end it. -/
def onDataLoop (h : Host) (P : Ports σ) : Nat → Reasm → σ → Option (Reasm × σ)
  | 0, _, _ => none
  | fuel + 1, r, s =>
    if r.totalLen < sizeofRpcHeader then some (r, s)
    else
      match rpcReasmPeekHeader r with
      | none => some (r, s)
      | some hdr =>
        let msgLen := (ntohl (RpcHeader.load h.order hdr).msgLen).toNat
        let need := h.word.sizeT (sizeofRpcHeader + msgLen)
        if r.totalLen < need then some (r, s)
        else
          let (ok, s) := P.heapMalloc need s
          let (msgBuf, r) := rpcReasmConsume r need
          onDataLoop h P fuel r (if ok then P.dispatch msgBuf need s else s)

/-- `rpc_on_data(t, buf, len)` for a transport with the reassembly state `r`. An iteration that
removes nothing is repeated for ever, so `totalLen + 1` of them tell whether the call returns. -/
def rpcOnData (h : Host) (P : Ports σ) (buf : Bytes) (r : Reasm) (s : σ) : Option (Reasm × σ) :=
  match P.recv with
  | none => some (r, s)
  | some recv =>
    let s := P.rpcPortLock s
    let (data, s) := if 0 < buf.length then (buf, s) else recv s
    -- nothing received: the source returns here, with the lock still held
    if data.length = 0 then some (r, s)
    else
      let (r, s) := rpcReasmAppend h P r data s
      (onDataLoop h P (r.totalLen + 1) r s).map fun (r, s) => (r, P.rpcPortUnlock s)

/-- One call of `rpc_on_data` as a step on the reassembly state and the rest. -/
def onDataStep (h : Host) (P : Ports σ) (x : Reasm × σ) (buf : Bytes) : Option (Reasm × σ) :=
  rpcOnData h P buf x.1 x.2

/-- Each frame in order: a buffer for it, and then its dispatch. -/
def deliver (P : Ports σ) : List Bytes → σ → σ
  | [], s => s
  | f :: fs, s =>
    let (ok, s) := P.heapMalloc f.length s
    deliver P fs (if ok then P.dispatch f f.length s else s)

theorem need_eq_some {o : ByteOrder} {bs : Bytes} {n : Nat} :
    (wireFraming o).need bs = some n ↔
      sizeofRpcHeader ≤ bs.length ∧ n = sizeofRpcHeader + announced o bs := by
  unfold wireFraming
  dsimp only
  split
  · next hle => simp [hle, eq_comm]
  · next hlt => simp [hlt]

/-- The loop delivers the whole frames in the queue and leaves the rest, when the length of no
frame wraps. -/
theorem onDataLoop_eq (h : Host) (P : Ports σ) (fuel : Nat) (r : Reasm) (s : σ)
    (hbits : (wireFraming h.order).Below (2 ^ h.word.bits) r.bytes) (hfuel : r.totalLen < fuel) :
    ∃ r', onDataLoop h P fuel r s = some (r', deliver P ((wireFraming h.order).frames r.bytes) s) ∧
      r'.bytes = (wireFraming h.order).rest r.bytes := by
  induction hr : r.bytes using Framing.split_induction (F := wireFraming h.order)
    generalizing fuel r s with
  | stuck bs hcut =>
    subst hr
    obtain ⟨fuel, rfl⟩ : ∃ k, fuel = k + 1 := ⟨fuel - 1, by omega⟩
    rw [Framing.below_of_cut_none hcut] at hbits
    refine ⟨r, ?_, (Framing.rest_of_cut_none hcut).symm⟩
    rw [Framing.frames_of_cut_none hcut, deliver, onDataLoop, rpcReasmPeekHeader_eq, r.totalLen_eq]
    by_cases hshort : r.bytes.length < sizeofRpcHeader
    · rw [if_pos hshort]
    · rw [if_neg hshort, if_neg hshort]
      have hneed := need_eq_some (o := h.order).mpr ⟨Nat.le_of_not_lt hshort, rfl⟩
      have hwrap := hbits _ hneed
      have hmore : r.bytes.length < sizeofRpcHeader + announced h.order r.bytes := by
        by_contra hle
        unfold Framing.cut at hcut
        rw [hneed] at hcut
        simp only [if_pos (Nat.le_of_not_lt hle)] at hcut
        cases hcut
      simp only [RpcHeader.load_take (Nat.le_refl sizeofRpcHeader)]
      change (if r.bytes.length < h.word.sizeT (sizeofRpcHeader + announced h.order r.bytes) then _
        else _) = _
      rw [WordSize.sizeT_of_lt hwrap, if_pos hmore]
  | frame f tail hf ih =>
    obtain ⟨fuel, rfl⟩ : ∃ k, fuel = k + 1 := ⟨fuel - 1, by omega⟩
    rw [hr, Framing.below_append hf] at hbits
    obtain ⟨hhdr, hflen⟩ := isFrame_iff.mp hf
    have hlen : r.bytes.length = f.length + tail.length := by rw [hr, List.length_append]
    have hneed : h.word.sizeT (sizeofRpcHeader +
        (ntohl (RpcHeader.load h.order r.bytes).msgLen).toNat) = f.length := by
      rw [hr, RpcHeader.load_append hhdr]
      change h.word.sizeT (sizeofRpcHeader + announced h.order f) = f.length
      rw [← hflen, WordSize.sizeT_of_lt hbits.1]
    obtain ⟨hout, hrest⟩ := rpcReasmConsume_spec r f.length
    rw [hr, List.take_left] at hout
    rw [hr, List.drop_left] at hrest
    have hfuel' : (rpcReasmConsume r f.length).2.totalLen < fuel := by
      rw [Reasm.totalLen_eq, hrest]
      rw [Reasm.totalLen_eq] at hfuel
      have := hf.pos
      omega
    obtain ⟨r', hloop, hbytes⟩ := ih fuel (rpcReasmConsume r f.length).2
      (if (P.heapMalloc f.length s).1 then P.dispatch f f.length (P.heapMalloc f.length s).2
        else (P.heapMalloc f.length s).2) (by rw [hrest]; exact hbits.2) hfuel' hrest
    refine ⟨r', ?_, by rw [Framing.rest_append hf]; exact hbytes⟩
    have hlong : ¬ r.bytes.length < sizeofRpcHeader := by omega
    rw [Framing.frames_append hf, onDataLoop, rpcReasmPeekHeader_eq, r.totalLen_eq, if_neg hlong,
      if_neg hlong]
    simp only [RpcHeader.load_take (Nat.le_refl sizeofRpcHeader), hneed, hout]
    rw [if_neg (by omega)]
    exact hloop

/-- Whether `rpc_reasm_append` gets a node for a chunk, and the state after it asked. -/
def chunkNode (h : Host) (P : Ports σ) (buf : Bytes) (s : σ) : Bool × σ :=
  P.heapMalloc (h.word.sizeT (sizeofRpcBuf h.word + buf.length)) (P.rpcPortLock s)

theorem rpcOnData_eq (h : Host) {P : Ports σ} (hrecv : P.recv.isSome) {buf : Bytes}
    (hbuf : buf ≠ []) (r : Reasm) (s : σ) {queue : Bytes}
    (hqueue : queue = if (chunkNode h P buf s).1 then r.bytes ++ buf else r.bytes)
    (hbits : (wireFraming h.order).Below (2 ^ h.word.bits) queue) :
    ∃ r', rpcOnData h P buf r s = some (r', P.rpcPortUnlock
        (deliver P ((wireFraming h.order).frames queue) (chunkNode h P buf s).2)) ∧
      r'.bytes = (wireFraming h.order).rest queue := by
  obtain ⟨recv, hr⟩ := Option.isSome_iff_exists.mp hrecv
  have hpos : 0 < buf.length := List.length_pos_iff.mpr hbuf
  let x := rpcReasmAppend h P r buf (P.rpcPortLock s)
  have hx : x.1.bytes = queue ∧ x.2 = (chunkNode h P buf s).2 := by
    unfold x rpcReasmAppend
    rw [dif_pos hpos, hqueue]
    unfold chunkNode
    dsimp only
    split
    · rw [Reasm.addPrev_bytes]
      exact ⟨congrArg _ (List.take_length ..), rfl⟩
    · exact ⟨rfl, rfl⟩
  obtain ⟨r', hloop, hbytes⟩ := onDataLoop_eq h P (x.1.totalLen + 1) x.1 x.2
    (by rw [hx.1]; exact hbits) (Nat.lt_succ_self _)
  refine ⟨r', ?_, by rw [hbytes, hx.1]⟩
  unfold rpcOnData
  simp only [hr, if_pos hpos, if_neg (Nat.ne_of_gt hpos)]
  change (onDataLoop h P (x.1.totalLen + 1) x.1 x.2).map _ = _
  rw [hloop, hx.1, hx.2]
  rfl

/-- What a call takes in: the bytes it is given, or what `recv` yields. -/
def received (buf polled : Bytes) : Bytes := if 0 < buf.length then buf else polled

theorem rpcOnData_received (h : Host) {P : Ports σ} {polled : Bytes}
    (hrecv : P.recv = some fun s => (polled, s)) (buf : Bytes) (r : Reasm) (s : σ) :
    rpcOnData h P buf r s =
      if (received buf polled).length = 0 then some (r, P.rpcPortLock s)
      else rpcOnData h P (received buf polled) r s := by
  unfold rpcOnData received
  simp only [hrecv]
  by_cases hbuf : 0 < buf.length
  · simp only [if_pos hbuf]
    rw [if_neg (Nat.ne_of_gt hbuf), if_neg (Nat.ne_of_gt hbuf)]
  · simp only [if_neg hbuf]
    by_cases hpolled : polled.length = 0
    · rw [if_pos hpolled, if_pos hpolled]
    · rw [if_neg hpolled, if_neg hpolled, if_pos (Nat.pos_of_ne_zero hpolled)]
      simp only [if_neg hpolled]

theorem deliver_keeps {Q : σ → Prop} {P : Ports σ} (hmalloc : ∀ k s, Q s → Q (P.heapMalloc k s).2)
    {fs : List Bytes} (hdispatch : ∀ f ∈ fs, ∀ s, Q s → Q (P.dispatch f f.length s)) {s : σ}
    (hs : Q s) : Q (deliver P fs s) := by
  induction fs generalizing s with
  | nil => exact hs
  | cons f fs ih =>
    refine ih (fun g hg => hdispatch g (by simp [hg])) ?_
    split
    · exact hdispatch f (by simp) _ (hmalloc _ s hs)
    · exact hmalloc _ s hs

theorem below_of_w64 {h : Host} (hw : h.word = .w64) (bs : Bytes) :
    (wireFraming h.order).Below (2 ^ h.word.bits) bs := by
  have hbits : 2 ^ h.word.bits = 2 ^ 64 := by rw [hw]; rfl
  have hann := announced_lt h.order
  rw [hbits]
  constructor
  · intro f hf
    have hframe := isFrame_iff.mp (Framing.isFrame_of_mem_frames hf)
    have := hann f
    simp only [sizeofRpcHeader] at hframe
    omega
  · intro n hn
    rw [need_eq_some] at hn
    have := hann ((wireFraming h.order).rest bs)
    simp only [sizeofRpcHeader] at hn
    omega

/-- The same ports, with a record of the arguments of each `rpc_dispatch_message`. -/
def Ports.traced (P : Ports σ) : Ports (σ × List (Bytes × Nat)) where
  rpcPortLock x := (P.rpcPortLock x.1, x.2)
  rpcPortUnlock x := (P.rpcPortUnlock x.1, x.2)
  heapMalloc n x := ((P.heapMalloc n x.1).1, (P.heapMalloc n x.1).2, x.2)
  recv := P.recv.map fun recv x => ((recv x.1).1, (recv x.1).2, x.2)
  dispatch msg len x := (P.dispatch msg len x.1, x.2 ++ [(msg, len)])

/-- A message together with its length. -/
def withLength (msg : Bytes) : Bytes × Nat := (msg, msg.length)

/-- The dispatches are some of the frames, each with its length; all of them if every buffer is
granted. -/
theorem deliver_traced (P : Ports σ) (fs : List Bytes) (x : σ × List (Bytes × Nat)) :
    ∃ ms, (deliver P.traced fs x).2 = x.2 ++ ms.map withLength ∧ ms.Sublist fs ∧
      ((∀ n s, (P.heapMalloc n s).1 = true) → ms = fs) := by
  induction fs generalizing x with
  | nil => exact ⟨[], by simp [deliver], List.Sublist.refl _, fun _ => rfl⟩
  | cons f fs ih =>
    simp only [deliver]
    split
    · next hok =>
      obtain ⟨ms, hlog, hsub, hall⟩ := ih (P.traced.dispatch f f.length (P.traced.heapMalloc f.length x).2)
      refine ⟨f :: ms, ?_, hsub.cons_cons f, fun halloc => by rw [hall halloc]⟩
      rw [hlog]
      simp [Ports.traced, withLength]
    · next hok =>
      obtain ⟨ms, hlog, hsub, -⟩ := ih (P.traced.heapMalloc f.length x).2
      refine ⟨ms, by rw [hlog]; rfl, hsub.cons f, fun halloc => ?_⟩
      exact absurd (halloc f.length x.1) hok

theorem onDataStep_traced (h : Host) {P : Ports σ} (hrecv : P.recv.isSome) {c : Bytes}
    (hc : c ≠ []) (r : Reasm) (s : σ) (log : List (Bytes × Nat)) (queue : Bytes)
    (hqueue : queue = if (chunkNode h P c s).1 then r.bytes ++ c else r.bytes)
    (hbits : (wireFraming h.order).Below (2 ^ h.word.bits) queue) :
    ∃ r' s' ms, onDataStep h P.traced (r, (s, log)) c =
        some (r', (s', log ++ ms.map withLength)) ∧
      r'.bytes = (wireFraming h.order).rest queue ∧
      ms.Sublist ((wireFraming h.order).frames queue) ∧
      ((∀ n s, (P.heapMalloc n s).1 = true) → ms = (wireFraming h.order).frames queue) := by
  have hrecv' : P.traced.recv.isSome := by simpa [Ports.traced] using hrecv
  obtain ⟨r', hstep, hbytes⟩ := rpcOnData_eq h hrecv' hc r (s, log) hqueue hbits
  obtain ⟨ms, hlog, hsub, hall⟩ := deliver_traced P ((wireFraming h.order).frames queue)
    (chunkNode h P.traced c (s, log)).2
  let x := deliver P.traced ((wireFraming h.order).frames queue) (chunkNode h P.traced c (s, log)).2
  refine ⟨r', P.rpcPortUnlock x.1, ms, ?_, hbytes, hsub, hall⟩
  rw [onDataStep, hstep]
  exact congrArg (fun l => some (r', (P.rpcPortUnlock x.1, l))) hlog

/-- The queue and the record after a run, from those after what came before. -/
private theorem run_onDataStep {h : Host} (hw : h.word = .w64) {P : Ports σ}
    (hrecv : P.recv.isSome) (halloc : ∀ n s, (P.heapMalloc n s).1 = true)
    {chunks : List Bytes} (hchunks : ∀ c ∈ chunks, c ≠ []) (pre : Bytes) (r : Reasm) (s : σ)
    (hr : r.bytes = (wireFraming h.order).rest pre) :
    ∃ r' s', Runs.run (onDataStep h P.traced)
        (r, (s, ((wireFraming h.order).frames pre).map withLength)) chunks =
        some (r', (s', ((wireFraming h.order).frames (pre ++ chunks.flatten)).map withLength)) ∧
      r'.bytes = (wireFraming h.order).rest (pre ++ chunks.flatten) := by
  induction chunks generalizing pre r s with
  | nil =>
    rw [List.flatten_nil, List.append_nil]
    exact ⟨r, s, rfl, hr⟩
  | cons c cs ih =>
    have hstored : (chunkNode h P c s).1 = true := halloc _ _
    obtain ⟨r₁, s₁, ms, hstep, hbytes, -, hall⟩ := onDataStep_traced h hrecv
      (hchunks c (by simp)) r s (((wireFraming h.order).frames pre).map withLength)
      (r.bytes ++ c) (by rw [hstored]; rfl) (below_of_w64 hw _)
    rw [hall halloc, ← List.map_append, hr, ← Framing.frames_append_bytes] at hstep
    rw [hr, ← Framing.rest_append_bytes] at hbytes
    obtain ⟨r', s', hrun, hbytes'⟩ := ih (fun d hd => hchunks d (by simp [hd])) (pre ++ c) r₁ s₁
      hbytes
    rw [List.append_assoc] at hrun hbytes'
    exact ⟨r', s', Runs.run_cons.mpr ⟨_, hstep, hrun⟩, hbytes'⟩

/-- The length of a message as `rpc.h` describes it: twelve bytes, and as many more as the big-endian number
in bytes 6 to 9 says. -/
def netNeed (bs : Bytes) : Option Nat :=
  if sizeofRpcHeader ≤ bs.length then some (sizeofRpcHeader + Endian.beValue ((bs.drop 6).take 4)) else none

theorem netNeed_eq (bs : Bytes) : netNeed bs = (wireFraming .little).need bs := by
  unfold netNeed wireFraming
  dsimp only
  split
  · next hle => rw [announced_little hle]
  · rfl

theorem netNeed_pos {bs : Bytes} {n : Nat} (h : netNeed bs = some n) : 0 < n := by
  rw [netNeed_eq] at h
  exact (wireFraming .little).need_pos h

theorem netNeed_append {bs : Bytes} {n : Nat} (cs : Bytes) (h : netNeed bs = some n) :
    netNeed (bs ++ cs) = some n := by
  rw [netNeed_eq] at h ⊢
  exact (wireFraming .little).need_append cs h

theorem netNeed_take {bs : Bytes} {n : Nat} (h : netNeed bs = some n) (hn : n ≤ bs.length) :
    netNeed (bs.take n) = some n := by
  rw [netNeed_eq] at h ⊢
  exact (wireFraming .little).need_take h hn

/-- Messages as `rpc.h` describes them. -/
def netFraming : Framing UInt8 where
  need := netNeed
  need_pos := netNeed_pos
  need_append := netNeed_append
  need_take := netNeed_take

theorem netFraming_need (bs : Bytes) : netFraming.need bs = (wireFraming .little).need bs :=
  netNeed_eq bs

theorem net_isFrame_iff {f : Bytes} : netFraming.IsFrame f ↔ (wireFraming .little).IsFrame f := by
  rw [Framing.IsFrame, netFraming_need, Framing.IsFrame]

/-- Handed to `rpc_on_data` chunk by chunk, the stream is dispatched as its greedy split into messages,
each once, in order and with its length, and the queue holds what is left over, which is no whole
message. -/
def Reassembles (h : Host) (P : Ports σ) (s : σ) (chunks : List Bytes) : Prop :=
  ∃ r s', Runs.run (onDataStep h P.traced) (Reasm.empty, (s, [])) chunks =
      some (r, (s', (netFraming.frames chunks.flatten).map withLength)) ∧
    r.bytes = netFraming.rest chunks.flatten ∧ r.totalLen = r.bytes.length ∧
      netFraming.cut r.bytes = none

/-- The host reads the length of every message of the stream as it is meant, and takes the rest, if it
holds a header, for a message that is not there yet. -/
def ReadsLengths (o : ByteOrder) (bs : Bytes) : Prop :=
  (∀ f ∈ netFraming.frames bs, announced o f = announced .little f) ∧
    ∀ n, (wireFraming o).need (netFraming.rest bs) = some n → (netFraming.rest bs).length < n

theorem readsLengths_iff {o : ByteOrder} {bs : Bytes} :
    ReadsLengths o bs ↔ (wireFraming o).frames bs = netFraming.frames bs := by
  rw [Framing.frames_eq_iff, ReadsLengths]
  apply and_congr
  · apply forall₂_congr
    intro f hf
    have hframe := isFrame_iff.mp (net_isFrame_iff.mp (Framing.isFrame_of_mem_frames hf))
    rw [isFrame_iff]
    omega
  · unfold Framing.cut
    cases (wireFraming o).need (netFraming.rest bs) with
    | none => simp
    | some n => simp

theorem readsLengths_little (bs : Bytes) : ReadsLengths .little bs := by
  refine ⟨fun _ _ => rfl, ?_⟩
  intro n hn
  have hcut := Framing.cut_rest (F := netFraming) bs
  by_contra hle
  rw [Framing.cut, netFraming_need, hn] at hcut
  dsimp only at hcut
  rw [if_pos (Nat.le_of_not_lt hle)] at hcut
  cases hcut

theorem run_noRecv (h : Host) {P : Ports σ} (hrecv : P.recv = none) (x : Reasm × σ × List (Bytes × Nat))
    (chunks : List Bytes) : Runs.run (onDataStep h P.traced) x chunks = some x := by
  have hstep : ∀ c, onDataStep h P.traced x c = some x := by
    intro c
    unfold onDataStep rpcOnData Ports.traced
    rw [hrecv]
    rfl
  induction chunks with
  | nil => rfl
  | cons c cs ih => exact Runs.run_cons.mpr ⟨x, hstep c, ih⟩

theorem withLength_injective : Function.Injective withLength :=
  fun _ _ heq => congrArg Prod.fst heq

/-- Reassembly does not depend on the chunking, if and only if the transport has a `recv`, without which
the pushed bytes are dropped as well, and the host reads the lengths as they are meant. -/
theorem rpcOnData_chunking_iff {h : Host} (hw : h.word = .w64) {P : Ports σ}
    (halloc : ∀ n s, (P.heapMalloc n s).1 = true) (s : σ) {chunks : List Bytes}
    (hchunks : ∀ c ∈ chunks, c ≠ []) :
    Reassembles h P s chunks ↔
      chunks = [] ∨ P.recv.isSome ∧ ReadsLengths h.order chunks.flatten := by
  by_cases hrecv : P.recv.isSome
  · have hempty : (wireFraming h.order).cut [] = none := rfl
    obtain ⟨r, s', hrun, hbytes⟩ := run_onDataStep hw hrecv halloc hchunks [] Reasm.empty s
      (Framing.rest_of_cut_none hempty).symm
    rw [Framing.frames_of_cut_none hempty, List.nil_append] at hrun
    rw [List.nil_append] at hbytes
    have hreads : Reassembles h P s chunks ↔ ReadsLengths h.order chunks.flatten := by
      rw [readsLengths_iff]
      constructor
      · rintro ⟨r', s'', hrun', -⟩
        have hstart : ([] : List Bytes).map withLength = [] := rfl
        rw [hstart] at hrun
        rw [hrun] at hrun'
        simp only [Option.some.injEq, Prod.mk.injEq] at hrun'
        exact List.map_injective_iff.mpr withLength_injective hrun'.2.2
      · intro hsame
        have hrest := Framing.rest_eq_of_frames_eq hsame
        rw [hsame] at hrun
        rw [hrest] at hbytes
        refine ⟨r, s', hrun, hbytes, r.totalLen_eq, ?_⟩
        rw [hbytes]
        exact Framing.cut_rest _
    rw [hreads]
    constructor
    · exact fun hlengths => .inr ⟨hrecv, hlengths⟩
    · rintro (rfl | ⟨-, hlengths⟩)
      · exact readsLengths_iff.mpr rfl
      · exact hlengths
  · have hnone : P.recv = none := Option.not_isSome_iff_eq_none.mp hrecv
    have hrun := run_noRecv h hnone (Reasm.empty, (s, [])) chunks
    constructor
    · rintro ⟨r, s', hrun', hbytes, -⟩
      rw [hrun] at hrun'
      simp only [Option.some.injEq, Prod.mk.injEq] at hrun'
      obtain ⟨rfl, -, hframes⟩ := hrun'
      -- nothing was dispatched and nothing is kept, so nothing came
      have hall := Framing.frames_flatten_append_rest (F := netFraming) chunks.flatten
      rw [List.map_eq_nil_iff.mp hframes.symm, ← hbytes] at hall
      refine .inl (List.eq_nil_iff_forall_not_mem.mpr fun c hc => hchunks c hc ?_)
      exact List.flatten_eq_nil_iff.mp hall.symm c hc
    · rintro (rfl | ⟨hsome, -⟩)
      · exact ⟨Reasm.empty, s, rfl, rfl, rfl, rfl⟩
      · exact absurd hsome hrecv

/-- Ports that grant every buffer and do nothing else. -/
def plainPorts (hasRecv : Bool) : Ports Unit where
  rpcPortLock := id
  rpcPortUnlock := id
  heapMalloc _ _ := (true, ())
  recv := if hasRecv then some fun _ => ([], ()) else none
  dispatch _ _ _ := ()

/-- A twelve-byte frame and the start of another, in three chunks. -/
theorem rpcOnData_chunking_small :
    Reassembles ⟨.little, .w64⟩ (plainPorts true) () [[0, 0, 0, 0, 0, 1, 0], [0, 0, 0, 0], [0, 7, 7]] :=
  (rpcOnData_chunking_iff (h := ⟨.little, .w64⟩) rfl (fun _ _ => rfl) () (by decide)).mpr
    (.inr ⟨rfl, readsLengths_little _⟩)

/-- A whole message of thirteen bytes. -/
def thirteenBytes : List Bytes := [[0, 0, 0, 0, 0, 1, 0, 0, 0, 1, 0, 0, 7]]

/-- The message is dropped by a transport without a `recv`, and kept as the start of a longer one by a
big-endian host. -/
theorem rpcOnData_not_chunking :
    ¬ Reassembles ⟨.little, .w64⟩ (plainPorts false) () thirteenBytes ∧
      ¬ Reassembles ⟨.big, .w64⟩ (plainPorts true) () thirteenBytes := by
  have hone : netFraming.frames thirteenBytes.flatten = thirteenBytes := by decide
  constructor
  · rintro ⟨r, s', hrun, -⟩
    have hnone : (Runs.run (onDataStep ⟨.little, .w64⟩ (plainPorts false).traced)
        (Reasm.empty, ((), [])) thirteenBytes).map (fun x => x.2.2.length) = some 0 := by
      decide
    rw [hrun, hone] at hnone
    exact absurd (Option.some.inj hnone) (Nat.succ_ne_zero 0)
  · rintro ⟨r, s', hrun, -⟩
    have hnone : (Runs.run (onDataStep ⟨.big, .w64⟩ (plainPorts true).traced)
        (Reasm.empty, ((), [])) thirteenBytes).map (fun x => x.2.2.length) = some 0 := by
      decide
    rw [hrun, hone] at hnone
    exact absurd (Option.some.inj hnone) (Nat.succ_ne_zero 0)

end CcRpc
