import CcRpc.Gen

/-!
# Result encoding on the server

`rpc_handle_request` hands `encode_result_X` the static `resp_tlv` and its capacity. The encoder
clears that many bytes but does not look at the capacity again, so it stays inside the buffer
exactly when the result is small enough. The two demo services show what results can be asked for.
-/

namespace CcRpc

def rpcMaxParamSize : Nat := 4096
def rpcMaxResultSize : Nat := 4096
def rpcMaxResultTlvSize : Nat := 4096

/-- `encode_result_X` on a buffer of `cap` bytes, with `*out_len = cap`, returns nonzero, or
stores inside the buffer only and reports a length within it. -/
def EncoderInBounds (o : ByteOrder) (s : Schema) (r : Struct s) (buf : Bytes) (cap : Nat) : Prop :=
  ∃ rc buf' outLen, encodeResult o s r buf cap = some (rc, buf', outLen) ∧
    (rc ≠ 0 ∨ outLen ≤ cap)

variable {o : ByteOrder}

private theorem cleared {buf : Bytes} {cap : Nat} (hbuf : buf.length = cap) :
    (if 0 < cap then memcpy buf 0 (List.replicate cap 0) else some buf) =
      some (List.replicate cap 0) := by
  subst hbuf
  cases buf with
  | nil => rfl
  | cons b bs =>
    rw [if_pos (by simp), memcpy_eq_some (by simp)]
    simp

/-- What the encoder does on a buffer of its declared capacity. -/
theorem encodeResult_eq {s : Schema} (hs : .i32 ∉ s) (r : Struct s) {buf : Bytes} {cap : Nat}
    (hbuf : buf.length = cap) :
    encodeResult o s r buf cap =
      if Struct.tlvSize s r ≤ cap then
        some (0, Struct.wire o s r ++ List.replicate (cap - Struct.tlvSize s r) 0,
          Struct.tlvSize s r)
      else none := by
  unfold encodeResult
  rw [cleared hbuf]
  change (emitFields o s r (List.replicate cap 0) 0).map (fun x => (0, x.1, x.2)) = _
  by_cases hle : Struct.tlvSize s r ≤ cap
  · rw [if_pos hle, emitFields_of_le hs r (by simpa using hle), Struct.wire_length,
      List.drop_replicate]
    rfl
  · rw [if_neg hle, emitFields_of_lt hs r (by simpa using hle)]
    rfl

theorem inBounds_of_tlvSize_le {s : Schema} (hs : .i32 ∉ s) {r : Struct s} {buf : Bytes}
    {cap : Nat} (hbuf : buf.length = cap) (hle : Struct.tlvSize s r ≤ cap) :
    EncoderInBounds o s r buf cap := by
  have h := encodeResult_eq (o := o) hs r hbuf
  rw [if_pos hle] at h
  exact ⟨0, _, _, h, Or.inr hle⟩

theorem tlvSize_le_of_inBounds {s : Schema} (hs : .i32 ∉ s) {r : Struct s} {buf : Bytes}
    {cap : Nat} (hbuf : buf.length = cap) (h : EncoderInBounds o s r buf cap) :
    Struct.tlvSize s r ≤ cap := by
  obtain ⟨rc, buf', outLen, h, -⟩ := h
  by_contra hgt
  rw [encodeResult_eq hs r hbuf, if_neg hgt] at h
  cases h

/-- The encoder stays inside the response buffer if and only if the result's TLVs fit it. -/
theorem encoderInBounds_iff {s : Schema} (hs : .i32 ∉ s) (r : Struct s) {buf : Bytes}
    (hbuf : buf.length = rpcMaxResultTlvSize) :
    EncoderInBounds o s r buf rpcMaxResultTlvSize ↔ Struct.tlvSize s r ≤ rpcMaxResultTlvSize :=
  ⟨tlvSize_le_of_inBounds hs hbuf, inBounds_of_tlvSize_le hs hbuf⟩

/-- A three-byte result in a 4096-byte buffer. -/
theorem encoderInBounds_iff_small :
    EncoderInBounds .little [.bytes] (([1, 2, 3] : Bytes), ()) (List.replicate 4096 0)
        rpcMaxResultTlvSize ↔
      Struct.tlvSize [.bytes] (([1, 2, 3] : Bytes), ()) ≤ rpcMaxResultTlvSize :=
  encoderInBounds_iff (by decide) _ (List.length_replicate ..)

abbrev fsReadParams : Schema := [.string, .u32, .u32]
abbrev fsReadResults : Schema := [.bytes, .u32, .u32]
abbrev shellExecParams : Schema := [.string]
abbrev shellExecResults : Schema := [.string, .u32]

/-- What the handlers ask of the operating system. -/
structure Os where
  /-- The content of the file that `fopen` opens. -/
  fopen : Bytes → Option Bytes
  /-- Whether `fseek` to an offset succeeds. -/
  fseek : Bytes → Nat → Bool
  /-- The output that can be read from `popen`, and the value of `pclose`. -/
  popen : Bytes → Option (Bytes × UInt32)

variable (os : Os)

/-- `fs_read_handler`, with the outcome of its `heap_malloc`. -/
def fsReadHandler (ok : Bool) (inp : Struct fsReadParams) (out : Struct fsReadResults) :
    Int × Struct fsReadResults :=
  let (path, offset, size, _) := inp
  let path : Bytes := cstr (Option.getD path [])
  match os.fopen path with
  | none => (-1, out)
  | some content =>
    if !os.fseek path (UInt32.toNat offset) then (-1, out)
    else if !ok then (-1, out)
    else
      let p := (content.drop (UInt32.toNat offset)).take (UInt32.toNat size)
      let n := p.length
      if n ≠ UInt32.toNat size then (-1, out)
      else (0, (p, UInt32.ofNat n, (0 : UInt32), ()))

/-- `shell_exec_handler`, with the outcome of its `heap_malloc`. -/
def shellExecHandler (ok : Bool) (inp : Struct shellExecParams) (out : Struct shellExecResults) :
    Int × Struct shellExecResults :=
  let (cmd, _) := inp
  match os.popen (cstr (Option.getD cmd [])) with
  | none => (-1, out)
  | some (output, exitcode) =>
    let buf := output.take 4095
    if !ok then (-1, out) else (0, ((some buf : Option Bytes), exitcode, ()))

theorem fsReadHandler_ok {path content : Bytes} {offset size : UInt32} {out : Struct fsReadResults}
    (hopen : os.fopen (cstr path) = some content)
    (hseek : os.fseek (cstr path) offset.toNat = true)
    (hlen : offset.toNat + size.toNat ≤ content.length) :
    fsReadHandler os true ((some path : Option Bytes), offset, size, ()) out =
      (0, ((content.drop offset.toNat).take size.toNat, UInt32.ofNat size.toNat,
        (0 : UInt32), ())) := by
  have hn : ((content.drop offset.toNat).take size.toNat).length = size.toNat := by
    rw [List.length_take, List.length_drop]
    omega
  unfold fsReadHandler
  simp only [Option.getD_some, hopen, hseek, Bool.not_true, Bool.false_eq_true, if_false, hn, ne_eq,
    not_true_eq_false]

theorem fsReadResults_tlvSize (data : Bytes) (len eof : UInt32) :
    Struct.tlvSize fsReadResults (data, len, eof, ()) = data.length + 17 := by
  simp only [Struct.tlvSize, FieldType.tlvSize]
  omega

/-- A result of `fs_read_handler` fits the response buffer up to 4079 requested bytes. -/
theorem fsRead_inBounds_iff {ok : Bool} {path : Option Bytes} {offset size : UInt32}
    {out r : Struct fsReadResults}
    (h : fsReadHandler os ok (path, offset, size, ()) out = (0, r)) {buf : Bytes}
    (hbuf : buf.length = rpcMaxResultTlvSize) :
    EncoderInBounds o fsReadResults r buf rpcMaxResultTlvSize ↔ size.toNat ≤ 4079 := by
  have hiff : EncoderInBounds o fsReadResults r buf rpcMaxResultTlvSize ↔
      Struct.tlvSize fsReadResults r ≤ rpcMaxResultTlvSize :=
    ⟨tlvSize_le_of_inBounds (by decide) hbuf, inBounds_of_tlvSize_le (by decide) hbuf⟩
  rw [hiff]
  unfold fsReadHandler at h
  dsimp only at h
  split at h
  · cases h
  · split at h
    · cases h
    · split at h
      · cases h
      · split at h
        · cases h
        · next hn =>
          cases h
          rw [not_not] at hn
          rw [fsReadResults_tlvSize, hn, rpcMaxResultTlvSize]
          omega

/-- A peer that asks `fs_read` for 4080 bytes of a long enough file makes the encoder leave the
response buffer by one byte. -/
theorem fsRead_overflow :
    ∃ r, fsReadHandler ⟨fun _ => some (List.replicate 4080 0), fun _ _ => true, fun _ => none⟩ true
        ((some [0x66] : Option Bytes), (0 : UInt32), (4080 : UInt32), ()) (Struct.zero _) = (0, r) ∧
      ¬ EncoderInBounds .little fsReadResults r (List.replicate 4096 0) rpcMaxResultTlvSize := by
  refine ⟨_, fsReadHandler_ok _ rfl rfl ?_, ?_⟩
  · rw [List.length_replicate]
    decide
  · intro h
    have hle := tlvSize_le_of_inBounds (by decide) (List.length_replicate ..) h
    have hsize := (fsReadResults_tlvSize _ _ _).symm.trans_le hle
    rw [List.length_take, List.length_drop, List.length_replicate] at hsize
    revert hsize
    decide

/-- A result of `shell_exec_handler` fits the response buffer up to 4086 output characters, of
the 4095 that the handler keeps. -/
theorem shellExec_inBounds_iff {ok : Bool} {cmd : Option Bytes} {out r : Struct shellExecResults}
    {output : Bytes} {exitcode : UInt32}
    (hos : os.popen (cstr (Option.getD cmd [])) = some (output, exitcode))
    (h : shellExecHandler os ok (cmd, ()) out = (0, r)) {buf : Bytes}
    (hbuf : buf.length = rpcMaxResultTlvSize) :
    EncoderInBounds o shellExecResults r buf rpcMaxResultTlvSize ↔
      strlen (output.take 4095) ≤ 4086 := by
  have hiff : EncoderInBounds o shellExecResults r buf rpcMaxResultTlvSize ↔
      Struct.tlvSize shellExecResults r ≤ rpcMaxResultTlvSize :=
    ⟨tlvSize_le_of_inBounds (by decide) hbuf, inBounds_of_tlvSize_le (by decide) hbuf⟩
  rw [hiff]
  unfold shellExecHandler at h
  simp only [hos] at h
  split at h
  · cases h
  · cases h
    simp only [Struct.tlvSize, FieldType.tlvSize, rpcMaxResultTlvSize]
    omega

end CcRpc
