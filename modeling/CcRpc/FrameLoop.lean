import CcRpc.OnData

/-!
# Progress of the frame loop (`rpc_on_data`)

The length of a message is computed in `size_t`. While it does not wrap, every round of the loop
takes a whole message off the queue; where it does, a round takes less than a header, and a message
of another length is dispatched.
-/

namespace CcRpc

open Runs

variable {σ : Type}

/-- One round of the loop of `rpc_on_data`: what it dispatches, if it gets a buffer, and the state
after it; `none` when it leaves the loop. -/
def loopRound (h : Host) (P : Ports σ) (x : Reasm × σ) :
    Option (Option (Bytes × Nat) × Reasm × σ) :=
  if x.1.totalLen < sizeofRpcHeader then none
  else
    match rpcReasmPeekHeader x.1 with
    | none => none
    | some hdr =>
      let msgLen := (ntohl (RpcHeader.load h.order hdr).msgLen).toNat
      let need := h.word.sizeT (sizeofRpcHeader + msgLen)
      if x.1.totalLen < need then none
      else
        let (ok, s) := P.heapMalloc need x.2
        let (msgBuf, r) := rpcReasmConsume x.1 need
        some (if ok then some (msgBuf, need) else none, r, if ok then P.dispatch msgBuf need s else s)

def loopBody (h : Host) (P : Ports σ) (x : Reasm × σ) : Option (Reasm × σ) :=
  (loopRound h P x).map Prod.snd

theorem onDataLoop_succ (h : Host) (P : Ports σ) (fuel : Nat) (r : Reasm) (s : σ) :
    onDataLoop h P (fuel + 1) r s =
      match loopBody h P (r, s) with
      | none => some (r, s)
      | some x => onDataLoop h P fuel x.1 x.2 := by
  rw [onDataLoop]
  unfold loopBody loopRound
  dsimp only
  by_cases hshort : r.totalLen < sizeofRpcHeader
  · rw [if_pos hshort, if_pos hshort]
    rfl
  · rw [if_neg hshort, if_neg hshort]
    cases rpcReasmPeekHeader r with
    | none => rfl
    | some hdr =>
      dsimp only
      split
      · rfl
      · rfl

/-- Twelve plus the message length that the queue's first header announces, not reduced. -/
def firstLength (o : ByteOrder) (bs : Bytes) : Nat := sizeofRpcHeader + announced o bs

/-- Every round that does not leave the loop takes at least a header's length off the queue and
dispatches, if it dispatches, exactly the bytes of the first message; so the loop leaves after at
most `totalLen / 12` rounds. -/
structure Progresses (h : Host) (P : Ports σ) (x : Reasm × σ) : Prop where
  takes : ∀ k y d z, Iterates (loopBody h P) k x y → loopRound h P y = some (d, z) →
    z.1.totalLen + sizeofRpcHeader ≤ y.1.totalLen ∧
      ∀ msg len, d = some (msg, len) →
        len = firstLength h.order y.1.bytes ∧ msg.length = firstLength h.order y.1.bytes
  rounds : ∀ k y, Iterates (loopBody h P) k x y → k ≤ x.1.totalLen / sizeofRpcHeader
  leaves : ∃ z, onDataLoop h P (x.1.totalLen / sizeofRpcHeader + 1) x.1 x.2 = some z

/-- What a round does: it takes the computed length off the queue. -/
theorem loopRound_eq {h : Host} {P : Ports σ} {x : Reasm × σ} {d : Option (Bytes × Nat)}
    {z : Reasm × σ} (hround : loopRound h P x = some (d, z)) :
    sizeofRpcHeader ≤ x.1.bytes.length ∧
      h.word.sizeT (firstLength h.order x.1.bytes) ≤ x.1.bytes.length ∧
      z.1.bytes = x.1.bytes.drop (h.word.sizeT (firstLength h.order x.1.bytes)) ∧
      ∀ msg len, d = some (msg, len) → len = h.word.sizeT (firstLength h.order x.1.bytes) ∧
        msg = x.1.bytes.take (h.word.sizeT (firstLength h.order x.1.bytes)) := by
  unfold loopRound at hround
  rw [rpcReasmPeekHeader_eq, x.1.totalLen_eq] at hround
  by_cases hshort : x.1.bytes.length < sizeofRpcHeader
  · rw [if_pos hshort] at hround
    cases hround
  · rw [if_neg hshort, if_neg hshort] at hround
    simp only [RpcHeader.load_take (Nat.le_refl sizeofRpcHeader)] at hround
    change (if x.1.bytes.length < h.word.sizeT (firstLength h.order x.1.bytes) then none
      else _) = some (d, z) at hround
    split at hround
    · cases hround
    · next hfits =>
      obtain ⟨hout, hrest⟩ := rpcReasmConsume_spec x.1 (h.word.sizeT (firstLength h.order x.1.bytes))
      rw [Option.some.injEq, Prod.mk.injEq] at hround
      obtain ⟨rfl, rfl⟩ := hround
      refine ⟨Nat.le_of_not_lt hshort, Nat.le_of_not_lt hfits, hrest, ?_⟩
      intro msg len hd
      split at hd
      · rw [Option.some.injEq, Prod.mk.injEq] at hd
        exact ⟨hd.2.symm, hd.1.symm.trans hout⟩
      · cases hd

theorem exists_loopRound {h : Host} {P : Ports σ} {x : Reasm × σ}
    (hhdr : sizeofRpcHeader ≤ x.1.bytes.length)
    (hlen : h.word.sizeT (firstLength h.order x.1.bytes) ≤ x.1.bytes.length) :
    ∃ d z, loopRound h P x = some (d, z) := by
  cases hround : loopRound h P x with
  | some y => exact ⟨y.1, y.2, rfl⟩
  | none =>
    unfold loopRound at hround
    rw [rpcReasmPeekHeader_eq, x.1.totalLen_eq, if_neg (Nat.not_lt.mpr hhdr),
      if_neg (Nat.not_lt.mpr hhdr)] at hround
    simp only [RpcHeader.load_take (Nat.le_refl sizeofRpcHeader)] at hround
    change (if x.1.bytes.length < h.word.sizeT (firstLength h.order x.1.bytes) then none
      else _) = none at hround
    rw [if_neg (Nat.not_lt.mpr hlen)] at hround
    cases hround

/-- A length that wraps comes out shorter than a header. -/
theorem sizeT_firstLength_lt {w : WordSize} {o : ByteOrder} {bs : Bytes}
    (hwrap : 2 ^ w.bits ≤ firstLength o bs) : w.sizeT (firstLength o bs) < sizeofRpcHeader := by
  have hann := announced_lt o bs
  have hbits := w.two_pow_le
  unfold firstLength at hwrap ⊢
  rw [WordSize.sizeT, Nat.mod_eq_sub_mod hwrap, Nat.mod_eq_of_lt] <;> simp only [sizeofRpcHeader] at * <;>
    omega

theorem loopRound_frame {h : Host} {P : Ports σ} {x : Reasm × σ} {d : Option (Bytes × Nat)}
    {z : Reasm × σ} (hround : loopRound h P x = some (d, z))
    (hfits : firstLength h.order x.1.bytes < 2 ^ h.word.bits) :
    ∃ f, (wireFraming h.order).cut x.1.bytes = some (f, z.1.bytes) ∧
      f.length = firstLength h.order x.1.bytes := by
  obtain ⟨hhdr, hlen, hrest, -⟩ := loopRound_eq hround
  rw [WordSize.sizeT_of_lt hfits] at hlen hrest
  refine ⟨x.1.bytes.take (firstLength h.order x.1.bytes), ?_, List.length_take_of_le hlen⟩
  unfold Framing.cut
  rw [need_eq_some.mpr ⟨hhdr, rfl⟩]
  dsimp only
  rw [hrest]
  exact if_pos hlen

theorem below_of_iterates {h : Host} {P : Ports σ} {k : Nat} {x y : Reasm × σ}
    (hiter : Iterates (loopBody h P) k x y)
    (hbelow : (wireFraming h.order).Below (2 ^ h.word.bits) x.1.bytes) :
    (wireFraming h.order).Below (2 ^ h.word.bits) y.1.bytes := by
  induction hiter with
  | zero => exact hbelow
  | succ hs _ ih =>
    refine ih ?_
    obtain ⟨⟨d, z⟩, hround, rfl⟩ := Option.map_eq_some_iff.mp hs
    obtain ⟨hhdr, hlen, -, -⟩ := loopRound_eq hround
    have hneed := need_eq_some (o := h.order).mpr ⟨hhdr, rfl⟩
    have hfits := Framing.need_lt_of_below hbelow hneed
    obtain ⟨f, hcut, -⟩ := loopRound_frame hround hfits
    obtain ⟨heq, hf⟩ := Framing.cut_eq_some_iff.mp hcut
    rw [heq, Framing.below_append hf] at hbelow
    exact hbelow.2

theorem takes_of_below {h : Host} {P : Ports σ} {y z : Reasm × σ} {d : Option (Bytes × Nat)}
    (hbelow : (wireFraming h.order).Below (2 ^ h.word.bits) y.1.bytes)
    (hround : loopRound h P y = some (d, z)) :
    z.1.totalLen + sizeofRpcHeader ≤ y.1.totalLen ∧
      ∀ msg len, d = some (msg, len) →
        len = firstLength h.order y.1.bytes ∧ msg.length = firstLength h.order y.1.bytes := by
  obtain ⟨hhdr, hlen, hrest, hdisp⟩ := loopRound_eq hround
  have hfits := Framing.need_lt_of_below hbelow (need_eq_some (o := h.order).mpr ⟨hhdr, rfl⟩)
  have hsize : h.word.sizeT (firstLength h.order y.1.bytes) = firstLength h.order y.1.bytes :=
    WordSize.sizeT_of_lt hfits
  rw [hsize] at hlen hrest hdisp
  refine ⟨?_, ?_⟩
  · rw [Reasm.totalLen_eq, Reasm.totalLen_eq, hrest, List.length_drop]
    unfold firstLength at hlen ⊢
    omega
  · intro msg len hd
    obtain ⟨hl, hmsg⟩ := hdisp msg len hd
    rw [hmsg, List.length_take_of_le hlen]
    exact ⟨hl, rfl⟩

theorem onDataLoop_of_rounds {h : Host} {P : Ports σ} {n : Nat} {x : Reasm × σ}
    (hrounds : ∀ k y, Iterates (loopBody h P) k x y → k ≤ n) :
    ∃ z, onDataLoop h P (n + 1) x.1 x.2 = some z := by
  induction n generalizing x with
  | zero =>
    rw [onDataLoop_succ]
    cases hbody : loopBody h P (x.1, x.2) with
    | none => exact ⟨_, rfl⟩
    | some y =>
      have := hrounds 1 y (.succ hbody (.zero y))
      omega
  | succ n ih =>
    rw [onDataLoop_succ]
    cases hbody : loopBody h P (x.1, x.2) with
    | none => exact ⟨_, rfl⟩
    | some y =>
      refine ih fun k z hk => ?_
      have := hrounds (k + 1) z (.succ hbody hk)
      omega

/-- Progress of every round keeps every length from wrapping. -/
theorem below_of_takes {h : Host} {P : Ports σ} {x : Reasm × σ}
    (htakes : ∀ k y d z, Iterates (loopBody h P) k x y → loopRound h P y = some (d, z) →
      z.1.totalLen + sizeofRpcHeader ≤ y.1.totalLen) :
    (wireFraming h.order).Below (2 ^ h.word.bits) x.1.bytes := by
  -- a first length that wraps gives a round that takes too little
  have hfirst : ∀ y : Reasm × σ, (∀ d z, loopRound h P y = some (d, z) →
      z.1.totalLen + sizeofRpcHeader ≤ y.1.totalLen) → sizeofRpcHeader ≤ y.1.bytes.length →
      firstLength h.order y.1.bytes < 2 ^ h.word.bits := by
    intro y hy hhdr
    by_contra hwrap
    have hsmall := sizeT_firstLength_lt (Nat.le_of_not_lt hwrap)
    obtain ⟨d, z, hround⟩ := exists_loopRound (h := h) (P := P) hhdr (by omega)
    have htake := hy d z hround
    obtain ⟨-, -, hrest, -⟩ := loopRound_eq hround
    rw [Reasm.totalLen_eq, Reasm.totalLen_eq, hrest, List.length_drop] at htake
    omega
  induction hx : x.1.bytes using Framing.split_induction (F := wireFraming h.order)
    generalizing x with
  | stuck bs hcut =>
    subst hx
    rw [Framing.below_of_cut_none hcut]
    intro n hn
    obtain ⟨hhdr, rfl⟩ := need_eq_some.mp hn
    exact hfirst x (fun d z => htakes 0 x d z (.zero x)) hhdr
  | frame f tail hf ih =>
    have hhdr : sizeofRpcHeader ≤ x.1.bytes.length := by
      have := (isFrame_iff.mp hf).1
      rw [hx, List.length_append]
      omega
    have hfits := hfirst x (fun d z => htakes 0 x d z (.zero x)) hhdr
    have hflen : firstLength h.order x.1.bytes = f.length := by
      have hneed := Framing.need_append (wireFraming h.order) tail hf
      rw [← hx] at hneed
      exact (need_eq_some.mp hneed).2.symm
    have hle : h.word.sizeT (firstLength h.order x.1.bytes) ≤ x.1.bytes.length := by
      rw [WordSize.sizeT_of_lt hfits, hflen, hx, List.length_append]
      omega
    obtain ⟨d, z, hround⟩ := exists_loopRound (P := P) hhdr hle
    have hbody : loopBody h P x = some z := by
      rw [loopBody, hround]
      rfl
    obtain ⟨-, -, hrest, -⟩ := loopRound_eq hround
    rw [WordSize.sizeT_of_lt hfits, hflen, hx, List.drop_left] at hrest
    rw [Framing.below_append hf]
    refine ⟨by rw [← hflen]; exact hfits, ih ?_ hrest⟩
    intro k y d' z' hk hround'
    exact htakes (k + 1) y d' z' (.succ hbody hk) hround'

/-- The frame loop makes progress exactly when no length that the queue announces wraps. -/
theorem progresses_iff (h : Host) (P : Ports σ) (x : Reasm × σ) :
    Progresses h P x ↔ (wireFraming h.order).Below (2 ^ h.word.bits) x.1.bytes := by
  constructor
  · intro hp
    refine below_of_takes (P := P) ?_
    intro k y d z hk hround
    exact (hp.takes k y d z hk hround).1
  · intro hbelow
    have htakes : ∀ k y d z, Iterates (loopBody h P) k x y → loopRound h P y = some (d, z) →
        z.1.totalLen + sizeofRpcHeader ≤ y.1.totalLen ∧
          ∀ msg len, d = some (msg, len) →
            len = firstLength h.order y.1.bytes ∧ msg.length = firstLength h.order y.1.bytes := by
      intro k y d z hk hround
      exact takes_of_below (below_of_iterates hk hbelow) hround
    have hrounds : ∀ k y, Iterates (loopBody h P) k x y → k ≤ x.1.totalLen / sizeofRpcHeader := by
      intro k y hk
      have hbound := hk.mul_add_le (μ := fun y : Reasm × σ => y.1.totalLen) (d := sizeofRpcHeader)
        (by
          intro j m n hj hm
          obtain ⟨⟨d, z⟩, hround, rfl⟩ := Option.map_eq_some_iff.mp hm
          exact (htakes j m d z hj hround).1)
      rw [Nat.le_div_iff_mul_le (by decide), Nat.mul_comm]
      omega
    exact ⟨htakes, hrounds, onDataLoop_of_rounds hrounds⟩

/-- Twelve bytes that announce 2^32 - 12 more. -/
def wrappingHeader : Reasm :=
  Reasm.empty.addPrev ⟨[0, 0, 0, 0, 0, 0, 0xFF, 0xFF, 0xFF, 0xF4, 0, 0], 12, by decide, by decide⟩

/-- Ports that grant every buffer and do nothing else. -/
def idlePorts : Ports Unit where
  rpcPortLock := id
  rpcPortUnlock := id
  heapMalloc _ _ := (true, ())
  recv := some fun _ => ([], ())
  dispatch _ _ _ := ()

/-- On a 32-bit machine that header is a message of no bytes, for ever. -/
theorem wrappingHeader_stuck : ¬ Progresses ⟨.little, .w32⟩ idlePorts (wrappingHeader, ()) := by
  intro hp
  have hround := (hp.takes 0 _ (some ([], 0)) (wrappingHeader, ()) (.zero _) rfl).1
  exact absurd hround (by decide)

end CcRpc
