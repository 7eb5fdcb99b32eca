import CcRpc.OnData

/-!
# Chunks that get no memory

`rpc_on_data` meets a failing allocator in two places. Without a message buffer it skips a whole
frame. Without a chunk node `rpc_reasm_append` drops the chunk, whatever part of a frame it was,
and the bytes after it are read as if they followed the bytes before it.
-/

namespace CcRpc

variable {σ : Type}

/-- The chunks of a run, each with whether it got a node. -/
def chunkOutcomes (h : Host) (P : Ports σ) : List Bytes → Reasm × σ → List (Bytes × Bool)
  | [], _ => []
  | c :: cs, x =>
    (c, (chunkNode h P c x.2).1) ::
      (match onDataStep h P x c with
      | some y => chunkOutcomes h P cs y
      | none => [])

/-- `pre` is made of the first frames of the stream `fs`. -/
def Boundary (fs : List Bytes) (pre : Bytes) : Prop := ∃ k, pre = (fs.take k).flatten

/-- Wherever a chunk that got a node and one that did not meet, a frame of the stream ends. The
chunks come after `pre`, the last of which got a node or not as `stored` says. -/
def LossesAligned (fs : List Bytes) : Bytes → Bool → List (Bytes × Bool) → Prop
  | _, _, [] => True
  | pre, stored, (c, ok) :: rest =>
    (stored ≠ ok → Boundary fs pre) ∧ LossesAligned fs (pre ++ c) ok rest

variable {h : Host} {P : Ports σ}

theorem rest_of_boundary {F : Framing UInt8} (hnil : F.need [] = none) {fs : List Bytes}
    (hfs : ∀ f ∈ fs, F.IsFrame f) {pre : Bytes} (hpre : Boundary fs pre) : F.rest pre = [] := by
  obtain ⟨k, rfl⟩ := hpre
  have hframes : ∀ f ∈ fs.take k, F.IsFrame f := fun f hf => hfs f (List.mem_of_mem_take hf)
  have hcut : F.cut [] = none := by simp [Framing.cut, hnil]
  have h := Framing.rest_flatten hframes []
  rwa [List.append_nil, Framing.rest_of_cut_none hcut] at h

/-- A call after `pre` keeps the queue the rest of `pre`, or empty after a lost chunk, and the
record some of the frames of `pre`. -/
private theorem onDataStep_aligned (hrecv : P.recv.isSome) {fs : List Bytes}
    (hfs : ∀ f ∈ fs, (wireFraming h.order).IsFrame f) (hbits : ∀ f ∈ fs, f.length < 2 ^ h.word.bits)
    {pre c : Bytes} (hc : c ≠ []) (hpre : pre ++ c <+: fs.flatten) {stored : Bool} {r : Reasm}
    {s : σ} {log : List Bytes} (hlog : log.Sublist ((wireFraming h.order).frames pre))
    (hr : r.bytes = if stored then (wireFraming h.order).rest pre else [])
    (halign : stored ≠ (chunkNode h P c s).1 → Boundary fs pre) :
    ∃ (r' : Reasm) (s' : σ) (log' : List Bytes),
      onDataStep h P.traced (r, (s, log.map withLength)) c =
        some (r', (s', log'.map withLength)) ∧
      log'.Sublist ((wireFraming h.order).frames (pre ++ c)) ∧
      r'.bytes = if (chunkNode h P c s).1 then (wireFraming h.order).rest (pre ++ c) else [] := by
  have hnil : (wireFraming h.order).need [] = none := rfl
  have hcutnil : (wireFraming h.order).cut [] = none := rfl
  have hframes := Framing.frames_append_bytes (F := wireFraming h.order) pre c
  cases hok : (chunkNode h P c s).1 with
  | true =>
    -- the queue is the rest of `pre`, or a frame ends here and both are empty
    have hrest : r.bytes = (wireFraming h.order).rest pre := by
      cases stored with
      | true => exact hr
      | false => rw [hr, rest_of_boundary hnil hfs (halign (by simp [hok]))]; rfl
    have hbelow : (wireFraming h.order).Below (2 ^ h.word.bits) (r.bytes ++ c) := by
      have hall := (Framing.frames_of_prefix hnil hfs hbits hpre).2
      rw [Framing.Below, hframes, Framing.rest_append_bytes] at hall
      rw [hrest]
      exact ⟨fun f hf => hall.1 f (by simp [hf]), hall.2⟩
    obtain ⟨r', s', ms, hstep, hbytes, hsub, -⟩ := onDataStep_traced h hrecv hc r s
      (log.map withLength) (r.bytes ++ c) (by rw [hok]; rfl) hbelow
    rw [← List.map_append] at hstep
    rw [hrest] at hsub hbytes
    refine ⟨r', s', log ++ ms, hstep, ?_, ?_⟩
    · rw [hframes]
      exact hlog.append hsub
    · rw [hbytes, Framing.rest_append_bytes pre c]
      rfl
  | false =>
    have hempty : r.bytes = [] := by
      cases stored with
      | true => rw [hr, if_pos rfl, rest_of_boundary hnil hfs (halign (by simp [hok]))]
      | false => exact hr
    have hbelow : (wireFraming h.order).Below (2 ^ h.word.bits) r.bytes := by
      rw [hempty, Framing.below_of_cut_none hcutnil, hnil]
      intro n hn
      cases hn
    obtain ⟨r', s', ms, hstep, hbytes, hsub, -⟩ := onDataStep_traced h hrecv hc r s
      (log.map withLength) r.bytes (by rw [hok]; rfl) hbelow
    rw [← List.map_append] at hstep
    rw [hempty, Framing.frames_of_cut_none hcutnil] at hsub
    rw [hempty, Framing.rest_of_cut_none hcutnil] at hbytes
    obtain rfl := List.sublist_nil.mp hsub
    refine ⟨r', s', log ++ [], hstep, ?_, hbytes⟩
    rw [hframes, List.append_nil]
    exact hlog.trans (List.sublist_append_left _ _)

private theorem run_aligned (hrecv : P.recv.isSome) {fs : List Bytes}
    (hfs : ∀ f ∈ fs, (wireFraming h.order).IsFrame f) (hbits : ∀ f ∈ fs, f.length < 2 ^ h.word.bits)
    {chunks : List Bytes} (hchunks : ∀ c ∈ chunks, c ≠ []) (pre : Bytes)
    (hpre : pre ++ chunks.flatten <+: fs.flatten) (stored : Bool) {r : Reasm}
    {s : σ} (log : List Bytes) (hlog : log.Sublist ((wireFraming h.order).frames pre))
    (hr : r.bytes = if stored then (wireFraming h.order).rest pre else [])
    (halign : LossesAligned fs pre stored
      (chunkOutcomes h P.traced chunks (r, (s, log.map withLength)))) :
    ∃ (r' : Reasm) (s' : σ) (log' : List Bytes),
      Runs.run (onDataStep h P.traced) (r, (s, log.map withLength)) chunks =
        some (r', (s', log'.map withLength)) ∧
      log'.Sublist ((wireFraming h.order).frames (pre ++ chunks.flatten)) := by
  induction chunks generalizing pre stored r s log with
  | nil =>
    rw [List.flatten_nil, List.append_nil]
    exact ⟨r, s, log, rfl, hlog⟩
  | cons c cs ih =>
    rw [List.flatten_cons, ← List.append_assoc] at hpre
    simp only [chunkOutcomes, LossesAligned] at halign
    obtain ⟨r₁, s₁, log₁, hstep, hlog₁, hr₁⟩ := onDataStep_aligned hrecv hfs hbits
      (hchunks c (by simp)) ((List.prefix_append _ _).trans hpre) hlog hr halign.1
    have hrest := halign.2
    rw [hstep] at hrest
    obtain ⟨r', s', log', hrun, hlog'⟩ := ih (fun d hd => hchunks d (by simp [hd])) _ hpre _ _ hlog₁ hr₁
      hrest
    rw [List.append_assoc] at hlog'
    exact ⟨r', s', log', Runs.run_cons.mpr ⟨_, hstep, hrun⟩, hlog'⟩

/-- Where every lost chunk begins and ends between frames, at least where it meets a chunk that is
not lost, the messages dispatched up to any point of the stream are some of its frames. -/
theorem rpcOnData_frames_of_aligned {fs : List Bytes}
    (hfs : ∀ f ∈ fs, (wireFraming h.order).IsFrame f) (hbits : ∀ f ∈ fs, f.length < 2 ^ h.word.bits)
    {chunks : List Bytes} (hchunks : ∀ c ∈ chunks, c ≠ []) (hstream : chunks.flatten <+: fs.flatten)
    (s : σ)
    (halign : LossesAligned fs [] true (chunkOutcomes h P.traced chunks (Reasm.empty, (s, [])))) :
    ∃ (r : Reasm) (s' : σ) (msgs : List Bytes),
      Runs.run (onDataStep h P.traced) (Reasm.empty, (s, [])) chunks =
        some (r, (s', msgs.map withLength)) ∧
      msgs.Sublist fs := by
  by_cases hrecv : P.recv.isSome
  · have hempty : (wireFraming h.order).cut [] = none := rfl
    have hr : Reasm.empty.bytes = if true then (wireFraming h.order).rest [] else [] :=
      (Framing.rest_of_cut_none hempty).symm
    obtain ⟨r, s', msgs, hrun, hsub⟩ := run_aligned hrecv hfs hbits hchunks [] hstream true []
      (List.nil_sublist _) hr halign
    have hframes := (Framing.frames_of_prefix rfl hfs hbits hstream).1
    exact ⟨r, s', msgs, hrun, hsub.trans hframes.sublist⟩
  · -- nothing is taken in, and nothing is dispatched
    have hrun := run_noRecv h (Option.not_isSome_iff_eq_none.mp hrecv) (Reasm.empty, (s, [])) chunks
    exact ⟨Reasm.empty, s, [], hrun, List.nil_sublist fs⟩

/-- Ports whose allocator refuses one request, the one numbered `n`. -/
def refusing (n : Nat) : Ports Nat where
  rpcPortLock := id
  rpcPortUnlock := id
  heapMalloc _ k := (k != n, k + 1)
  recv := some fun k => ([], k)
  dispatch _ _ k := k

/-- A whole frame that gets no node, between two that do. -/
theorem rpcOnData_frames_of_aligned_small :
    ∃ (r : Reasm) (s' : Nat) (msgs : List Bytes),
      Runs.run (onDataStep ⟨.little, .w64⟩ (refusing 2).traced) (Reasm.empty, (0, []))
        [[0, 0, 0, 0, 0, 1, 0, 0, 0, 0, 0, 0], [0, 0, 0, 0, 0, 2, 0, 0, 0, 0, 0, 0],
          [0, 0, 0, 0, 0, 3, 0, 0, 0, 0, 0, 0]] = some (r, (s', msgs.map withLength)) ∧
      msgs.Sublist [[0, 0, 0, 0, 0, 1, 0, 0, 0, 0, 0, 0], [0, 0, 0, 0, 0, 2, 0, 0, 0, 0, 0, 0],
        [0, 0, 0, 0, 0, 3, 0, 0, 0, 0, 0, 0]] := by
  have houtcomes : chunkOutcomes ⟨.little, .w64⟩ (refusing 2).traced
      [[0, 0, 0, 0, 0, 1, 0, 0, 0, 0, 0, 0], [0, 0, 0, 0, 0, 2, 0, 0, 0, 0, 0, 0],
        [0, 0, 0, 0, 0, 3, 0, 0, 0, 0, 0, 0]] (Reasm.empty, (0, [])) =
      [([0, 0, 0, 0, 0, 1, 0, 0, 0, 0, 0, 0], true), ([0, 0, 0, 0, 0, 2, 0, 0, 0, 0, 0, 0], false),
        ([0, 0, 0, 0, 0, 3, 0, 0, 0, 0, 0, 0], true)] := by decide
  refine rpcOnData_frames_of_aligned (h := ⟨.little, .w64⟩) (P := refusing 2) (by decide)
    (by decide) (by decide) (by decide) 0 ?_
  rw [houtcomes]
  exact ⟨fun h => absurd rfl h, fun _ => ⟨1, rfl⟩, fun _ => ⟨2, rfl⟩, trivial⟩

/-- The payload byte of the first message gets no node, and the second message is read as if it
began one byte early. -/
theorem rpcOnData_lostPayload :
    ∃ msgs : List Bytes,
      (Runs.run (onDataStep ⟨.little, .w64⟩ (refusing 1).traced) (Reasm.empty, (0, []))
        [[0, 0, 0, 0, 0, 1, 0, 0, 0, 1, 0, 0], [7], [0, 0, 0, 0, 0, 2, 0, 0, 0, 1, 0, 0, 8]]).map
          (fun x => x.2.2) = some (msgs.map withLength) ∧
      ¬ msgs.Sublist [[0, 0, 0, 0, 0, 1, 0, 0, 0, 1, 0, 0, 7],
        [0, 0, 0, 0, 0, 2, 0, 0, 0, 1, 0, 0, 8]] :=
  ⟨[[0, 0, 0, 0, 0, 1, 0, 0, 0, 1, 0, 0, 0]], by decide, by decide⟩

end CcRpc
