import CcRpc.Grammar
import CcRpc.Wire

/-!
# Fields longer than their length header

A writer stores all the data of a field and advances by all of it, but the header keeps 16 bits
of the length. The reader takes the first `len mod 65536` bytes for the whole field and looks for
the next TLV in the middle of the data. Whether it then delivers a wrong struct is decided by
what the data holds there.
-/

namespace CcRpc

variable {o : ByteOrder}

/-- The peer misreads the first `k` bytes of the struct's TLV area: the first field longer than
65535 bytes arrives as a whole shorter TLV, and the bytes after that TLV, data of the long field
first, begin with a TLV for each later field. -/
def Misread (o : ByteOrder) : (s : Schema) → Struct s → Nat → Prop
  | [], _, _ => False
  | t :: ts, (v, vs), k =>
    let data := (t.payload o v).getD []
    let m := data.length % 65536
    if data.length < 65536 then 3 + m ≤ k ∧ Misread o ts vs (k - (3 + m))
    else
      3 + m ≤ k ∧
        ∃ rest, Begins ts ((data.drop m ++ Struct.wire o ts vs).take (k - (3 + m))) rest

theorem tlv_inj {a b : UInt8} {x y : Bytes} (h : tlv a x = tlv b y) : x = y := by
  simp only [tlv, List.cons_append, List.nil_append, List.cons.injEq] at h
  exact h.2.2.2

/-- The TLV at the front of a prefix of a stream is the TLV at the front of the stream. -/
private theorem front_of_prefix {type : UInt8} {x y m w : Bytes} {k : Nat} (hx : x.length < 65536)
    (hy : y.length < 65536) (h : (tlv type y ++ w).take k = tlv type x ++ m) :
    x = y ∧ m = w.take (k - (3 + y.length)) ∧ 3 + y.length ≤ k := by
  have hfull : tlv type y ++ w = tlv type x ++ (m ++ (tlv type y ++ w).drop k) := by
    rw [← List.append_assoc, ← h, List.take_append_drop]
  have hcut := Framing.cut_append (isFrame_tlv type hy) w
  rw [hfull, Framing.cut_append (isFrame_tlv type hx)] at hcut
  simp only [Option.some.injEq, Prod.mk.injEq] at hcut
  obtain rfl := tlv_inj hcut.1
  have hle : 3 + x.length ≤ k := by
    have hlen := congrArg List.length h
    simp only [List.length_take, List.length_append, tlv_length] at hlen
    omega
  refine ⟨rfl, ?_, hle⟩
  rw [List.take_append, tlv_length, List.take_of_length_le (by rw [tlv_length]; omega)] at h
  exact (List.append_cancel_left h).symm

private theorem wire_eq_short {t : FieldType} {v : t.Value} {data : Bytes}
    (hdata : t.payload o v = some data) (w : Bytes) :
    t.wire o v ++ w = tlv t.code (data.take (data.length % 65536)) ++
      (data.drop (data.length % 65536) ++ w) := by
  have hw : t.wire o v = tlv t.code data := by
    unfold FieldType.wire
    rw [hdata]
  rw [hw, ← List.append_assoc, ← tlv_eq_short]

private theorem fits_short {t : FieldType} {v : t.Value} {data : Bytes}
    (hdata : t.payload o v = some data) : t.Fits (data.take (data.length % 65536)) := by
  have hfits := FieldType.fits_payload hdata
  cases t with
  | string => trivial
  | u32 =>
    have h4 : data.length = 4 := hfits
    show (data.take _).length = 4
    rw [List.length_take, h4]
    rfl
  | i32 =>
    have h4 : data.length = 4 := hfits
    show (data.take _).length = 4
    rw [List.length_take, h4]
    rfl
  | bytes => trivial

/-- What a parser that accepts the first `k` bytes of a TLV area delivers for the first field,
and what it goes on with. -/
private theorem parse_front {t : FieldType} {ts : Schema} {v : t.Value} {vs : Struct ts} {k r : Nat}
    {data : Bytes} (hdata : t.payload o v = some data) {x : t.Value} {xs : Struct ts}
    (hk : k ≤ (Struct.wire o (t :: ts) (v, vs)).length)
    (h : parseFields o (t :: ts) allOk ((Struct.wire o (t :: ts) (v, vs)).take k) k =
      some (true, (x, xs), r)) :
    let m := data.length % 65536
    x = t.decode o (data.take m) ∧ 3 + m ≤ k ∧
      parseFields o ts allOk ((data.drop m ++ Struct.wire o ts vs).take (k - (3 + m)))
        (k - (3 + m)) = some (true, xs, r) := by
  intro m
  have hm : (data.take m).length = m := List.length_take_of_le (Nat.mod_le _ _)
  have hmlt : (data.take m).length < 65536 := by
    rw [hm]
    exact Nat.mod_lt _ (by decide)
  have hlen : k ≤ ((Struct.wire o (t :: ts) (v, vs)).take k).length := by
    rw [List.length_take_of_le hk]
  cases hf : parseField o t (allOk 0) ((Struct.wire o (t :: ts) (v, vs)).take k) k with
  | error e => cases e <;> simp [parseFields, hf] at h
  | ok xu =>
    obtain ⟨x', used⟩ := xu
    obtain ⟨d, n, hp, hd, -, rfl, rfl, hle⟩ := parseField_eq_ok hlen hf
    rw [parseFields_cons hf, Option.map_eq_some_iff] at h
    obtain ⟨⟨acc, ys, r'⟩, hys, heq⟩ := h
    simp only [Prod.mk.injEq] at heq
    obtain ⟨rfl, ⟨rfl, rfl⟩, rfl⟩ := heq
    have hpre := hp
    rw [Struct.wire, wire_eq_short hdata] at hpre
    obtain ⟨rfl, rfl, hle'⟩ := front_of_prefix hd hmlt hpre
    rw [hm] at hle'
    refine ⟨rfl, hle', ?_⟩
    rw [hp, List.drop_left' (tlv_length _ _), hm] at hys
    exact hys

/-- What the parser delivers for the first `k` bytes of the TLV area is the struct itself, if and
only if the peer does not misread them. -/
theorem decoded_eq_iff_not_misread {s : Schema} {v : Struct s} (hnull : v.All FieldType.NonNull)
    (hnul : v.All FieldType.NulFree) {k : Nat} (hk : k ≤ (Struct.wire o s v).length) :
    (∀ v' r, parseFields o s allOk ((Struct.wire o s v).take k) k = some (true, v', r) → v' = v) ↔
      ¬ Misread o s v k := by
  induction s generalizing k with
  | nil => exact ⟨fun _ h => h, fun _ _ _ _ => rfl⟩
  | cons t ts ih =>
    obtain ⟨v, vs⟩ := v
    obtain ⟨data, hdata⟩ := FieldType.payload_isSome (o := o) hnull.1
    let m := data.length % 65536
    have hm : (data.take m).length = m := List.length_take_of_le (Nat.mod_le _ _)
    have hmlt : (data.take m).length < 65536 := by
      rw [hm]
      exact Nat.mod_lt _ (by decide)
    have hv : t.decode o data = v := FieldType.decode_payload hnul.1 hdata
    have hwire := wire_eq_short hdata (Struct.wire o ts vs)
    have hlen : (Struct.wire o (t :: ts) (v, vs)).length =
        3 + m + (data.drop m ++ Struct.wire o ts vs).length := by
      rw [Struct.wire, hwire, List.length_append, tlv_length, hm]
    -- the accepting run, given one for what follows the TLV
    have hbuild : ∀ xs r, 3 + m ≤ k → parseFields o ts allOk
        ((data.drop m ++ Struct.wire o ts vs).take (k - (3 + m))) (k - (3 + m)) =
          some (true, xs, r) →
        parseFields o (t :: ts) allOk ((Struct.wire o (t :: ts) (v, vs)).take k) k =
          some (true, (t.decode o (data.take m), xs), r) := by
      intro xs r hle hxs
      rw [Struct.wire, hwire, List.take_append, tlv_length, hm,
        List.take_of_length_le (by rw [tlv_length, hm]; omega)]
      have hstep := parseFields_cons_tlv (o := o) t ts hmlt (fits_short hdata)
        ((data.drop m ++ Struct.wire o ts vs).take (k - (3 + m))) (k - (3 + m))
      rw [hm, show 3 + m + (k - (3 + m)) = k by omega] at hstep
      rw [hstep, hxs]
      rfl
    by_cases hshort : data.length < 65536
    · have hmeq : m = data.length := Nat.mod_eq_of_lt hshort
      have htake : data.take m = data := by rw [hmeq, List.take_length]
      have hdrop : data.drop m ++ Struct.wire o ts vs = Struct.wire o ts vs := by
        rw [hmeq, List.drop_length, List.nil_append]
      have hmis : Misread o (t :: ts) (v, vs) k ↔
          3 + m ≤ k ∧ Misread o ts vs (k - (3 + m)) := by
        simp only [Misread, hdata, Option.getD_some, if_pos hshort, m]
      rw [hdrop] at hlen hbuild
      rw [hmis, not_and]
      constructor
      · intro hall hle
        rw [← ih hnull.2 hnul.2 (by omega)]
        intro xs r hxs
        have hxv := hall _ _ (hbuild xs r hle hxs)
        exact congrArg Prod.snd hxv
      · intro hnot x r hx
        obtain ⟨x, xs⟩ := x
        obtain ⟨rfl, hle, hxs⟩ := parse_front hdata hk hx
        change parseFields o ts allOk ((data.drop m ++ _).take (k - (3 + m))) (k - (3 + m)) = _ at hxs
        rw [hdrop] at hxs
        have hvs := (ih hnull.2 hnul.2 (by omega)).mpr (hnot hle) xs r hxs
        change (t.decode o (data.take m), xs) = (v, vs)
        rw [htake, hv, hvs]
    · have hmis : Misread o (t :: ts) (v, vs) k ↔ 3 + m ≤ k ∧
          ∃ rest, Begins ts ((data.drop m ++ Struct.wire o ts vs).take (k - (3 + m))) rest := by
        simp only [Misread, hdata, Option.getD_some, if_neg hshort, m]
      have htail : k - (3 + m) ≤ (data.drop m ++ Struct.wire o ts vs).length := by omega
      rw [hmis]
      constructor
      · intro hall hbad
        obtain ⟨hle, rest, hrest⟩ := hbad
        obtain ⟨xs, hxs⟩ := parseFields_of_begins (o := o) hrest []
        rw [List.append_nil, List.length_take_of_le htail] at hxs
        have hxv : t.decode o (data.take m) = v :=
          congrArg Prod.fst (hall _ _ (hbuild xs _ hle hxs))
        have heq := FieldType.decode_injective (fits_short hdata) (FieldType.fits_payload hdata)
          (hxv.trans hv.symm)
        have : m = data.length := by rw [← hm, heq]
        omega
      · intro hnot x r hx
        obtain ⟨x, xs⟩ := x
        obtain ⟨-, hle, hxs⟩ := parse_front hdata hk hx
        have hp : k - (3 + m) ≤
            ((data.drop m ++ Struct.wire o ts vs).take (k - (3 + m))).length := by
          rw [List.length_take_of_le htail]
        obtain ⟨rest, hrest, -⟩ := begins_of_parseFields hp hxs
        rw [List.take_of_length_le (Nat.le_of_eq (List.length_take_of_le htail))] at hrest
        exact absurd ⟨hle, rest, hrest⟩ hnot

private theorem parseFields_allOk {s : Schema} {ok : Nat → Bool} {p : Bytes} {k r : Nat}
    {v : Struct s} (hp : k ≤ p.length) (h : parseFields o s ok p k = some (true, v, r)) :
    parseFields o s allOk p k = some (true, v, r) := by
  induction s generalizing ok p k with
  | nil => exact h
  | cons t ts ih =>
    cases hf : parseField o t (ok 0) p k with
    | error e => cases e <;> simp [parseFields, hf] at h
    | ok xu =>
      obtain ⟨x, used⟩ := xu
      rw [parseFields_cons hf, Option.map_eq_some_iff] at h
      obtain ⟨⟨acc, xs, r'⟩, hxs, heq⟩ := h
      simp only [Prod.mk.injEq] at heq
      obtain ⟨rfl, rfl, rfl⟩ := heq
      obtain ⟨data, m, rfl, hdata, hfits, rfl, rfl, hle⟩ := parseField_eq_ok hp hf
      rw [List.drop_left' (tlv_length _ _)] at hxs
      rw [List.length_append, tlv_length] at hp
      have hrest := ih (by omega) hxs
      have hstep := parseFields_cons_tlv (o := o) t ts hdata hfits m (k - (3 + data.length))
      rw [show 3 + data.length + (k - (3 + data.length)) = k by omega, hrest] at hstep
      exact hstep

/-- Whatever the peer's parser accepts of the request message `msg` is the struct `v`: the peer
cuts the message's frame off the stream, checks it and parses its TLV area. -/
def DecodedAsSent (h : Host) (s : Schema) (v : Struct s) (msg : Bytes) : Prop :=
  ∀ f rest req, (wireFraming h.order).cut msg = some (f, rest) →
    requestOf h f f.length = some req →
      ∀ ok v', parseStruct h.order s ok req.tlv req.tlvLen = some (0, v') → v' = v

/-- The payload length that the header of a request announces: 32 bits of it. -/
def announcedPayload (s : Schema) (v : Struct s) (name : Bytes) : Nat :=
  (strlen name + Struct.tlvSize s v) % 2 ^ 32

private theorem decodedAsSent_of_cut {h : Host} {s : Schema} {v : Struct s} {msg f rest : Bytes}
    (hcut : (wireFraming h.order).cut msg = some (f, rest)) :
    DecodedAsSent h s v msg ↔ ∀ req, requestOf h f f.length = some req →
      ∀ ok v', parseStruct h.order s ok req.tlv req.tlvLen = some (0, v') → v' = v := by
  constructor
  · intro hall req hreq
    exact hall f rest req hcut hreq
  · intro hall f' rest' req hcut' hreq
    rw [hcut] at hcut'
    cases hcut'
    exact hall req hreq

private theorem decodedAsSent_iff_not_misread {h : Host} {s : Schema} (hs : .i32 ∉ s)
    {v : Struct s} (hnull : v.All FieldType.NonNull) (hnul : v.All FieldType.NulFree)
    {name : Bytes} (hname : 1 ≤ strlen name ∧ strlen name ≤ 127) {seq : UInt32}
    {tlvArea msg : Bytes} (henc : stubEncode h s v = some tlvArea)
    (hmsg : requestMessage h seq name tlvArea = some msg) :
    DecodedAsSent h s v msg ↔
      ¬ (strlen name ≤ announcedPayload s v name ∧
        Misread h.order s v (announcedPayload s v name - strlen name)) := by
  obtain rfl := stubEncode_eq_some hs henc
  let area := Struct.wire h.order s v
  let hdr := requestHeader seq (strlen name) area.length
  have hsent : (ntohl hdr.msgLen).toNat = announcedPayload s v name := by
    rw [requestHeader_msgLen, announcedPayload, Struct.wire_length]
  have hle : announcedPayload s v name ≤ (cstr name ++ area).length := by
    rw [← hsent, requestHeader_msgLen, List.length_append, length_cstr]
    exact Nat.mod_le _ _
  have hcut := cut_store h.order hdr (p := cstr name ++ area) (by rw [hsent]; exact hle)
  rw [hsent] at hcut
  rw [requestMessage_eq] at hmsg
  split at hmsg
  · next hlt =>
    cases hmsg
    rw [decodedAsSent_of_cut hcut]
    by_cases hmlen : strlen name ≤ announcedPayload s v name
    · let k := announcedPayload s v name - strlen name
      have hk : announcedPayload s v name = strlen name + k := by omega
      have htake : (cstr name ++ area).take (announcedPayload s v name) =
          cstr name ++ area.take k := by
        rw [List.take_append, length_cstr, List.take_of_length_le (by rw [length_cstr]; exact hmlen)]
      have hkarea : k ≤ area.length := by
        rw [List.length_append, length_cstr] at hle
        omega
      have hmod : (strlen name + area.length) % 2 ^ 32 = strlen name + k := by
        rw [← hk, ← hsent, requestHeader_msgLen]
      have hword : sizeofRpcHeader + (strlen name + k) < 2 ^ h.word.bits := by
        change sizeofRpcHeader + strlen name + area.length < _ at hlt
        omega
      have hreq := requestOf_request h seq hname hmod hword
      have hflen : (hdr.store h.order ++ (cstr name ++ area.take k)).length =
          sizeofRpcHeader + (strlen name + k) := by
        simp only [List.length_append, RpcHeader.store_length, length_cstr,
          List.length_take_of_le hkarea]
      rw [htake, hflen, hreq]
      simp only [Option.some.injEq, forall_eq', parseStruct_eq_zero_iff]
      rw [and_iff_right hmlen, ← decoded_eq_iff_not_misread hnull hnul hkarea]
      constructor
      · intro hall v' r hr
        exact hall allOk v' ⟨r, hr⟩
      · intro hall ok v' hv'
        obtain ⟨r, hr⟩ := hv'
        exact hall v' r (parseFields_allOk (by rw [List.length_take_of_le hkarea]) hr)
    · rw [requestOf_short h seq hname.2 (by rw [← requestHeader_msgLen, hsent]; omega)]
      simp [hmlen]
  · cases hmsg

/-- The peer decodes what the stub sent, or nothing, if and only if the part of the TLV area that
the header announces is not misread. -/
theorem stub_decodedAsSent_iff {h : Host} {s : Schema} (hs : .i32 ∉ s) {v : Struct s}
    (hnull : v.All FieldType.NonNull) (hnul : v.All FieldType.NulFree) {name : Bytes}
    (hname : 1 ≤ strlen name ∧ strlen name ≤ 127) {seq : UInt32} {tlvArea msg : Bytes}
    (henc : stubEncode h s v = some tlvArea)
    (hmsg : requestMessage h seq name tlvArea = some msg) :
    DecodedAsSent h s v msg ↔
      ¬ (strlen name ≤ announcedPayload s v name ∧
        Misread h.order s v (announcedPayload s v name - strlen name)) :=
  decodedAsSent_iff_not_misread hs hnull hnul hname henc hmsg

/-- Two bytes sent to the method `e`. -/
theorem stub_decodedAsSent_iff_small :
    DecodedAsSent ⟨.little, .w64⟩ [.bytes] (([7, 8] : Bytes), ())
        [0, 0, 0, 0, 0, 1, 0, 0, 0, 6, 0, 1, 0x65, 3, 2, 0, 7, 8] ↔
      ¬ (1 ≤ announcedPayload [.bytes] (([7, 8] : Bytes), ()) [0x65] ∧
        Misread .little [.bytes] (([7, 8] : Bytes), ())
          (announcedPayload [.bytes] (([7, 8] : Bytes), ()) [0x65] - 1)) := by
  have henc : stubEncode ⟨.little, .w64⟩ [.bytes] (([7, 8] : Bytes), ()) =
      some [3, 2, 0, 7, 8] := by decide
  have hmsg : requestMessage ⟨.little, .w64⟩ 1 [0x65] [3, 2, 0, 7, 8] =
      some [0, 0, 0, 0, 0, 1, 0, 0, 0, 6, 0, 1, 0x65, 3, 2, 0, 7, 8] := by decide
  have hnull : Struct.All FieldType.NonNull [.bytes] (([7, 8] : Bytes), ()) := ⟨trivial, trivial⟩
  have hnul : Struct.All FieldType.NulFree [.bytes] (([7, 8] : Bytes), ()) := ⟨trivial, trivial⟩
  exact stub_decodedAsSent_iff (by decide) hnull hnul (by decide) henc hmsg

private theorem bytes65536_misread {data : Bytes} (hlen : data.length = 65536) :
    ∃ tlvArea msg, stubEncode ⟨.little, .w64⟩ [.bytes] (data, ()) = some tlvArea ∧
      requestMessage ⟨.little, .w64⟩ 1 [0x65] tlvArea = some msg ∧
        ¬ DecodedAsSent ⟨.little, .w64⟩ [.bytes] (data, ()) msg := by
  have hsize : Struct.tlvSize [.bytes] (data, ()) = 65539 := by
    change 3 + data.length + 0 = 65539
    rw [hlen]
  have hname : strlen [0x65] = 1 := rfl
  have henc : stubEncode ⟨.little, .w64⟩ [.bytes] (data, ()) =
      some (Struct.wire .little [.bytes] (data, ())) :=
    stubEncode_eq (by decide) (by rw [hsize]; decide)
  have hmsg := requestMessage_eq ⟨.little, .w64⟩ 1 [0x65] (Struct.wire .little [.bytes] (data, ()))
  rw [if_pos (by rw [Struct.wire_length, hsize, hname]; decide)] at hmsg
  refine ⟨_, _, henc, hmsg, ?_⟩
  have hk : announcedPayload [.bytes] (data, ()) [0x65] = 65540 := by
    rw [announcedPayload, hsize, hname]
    exact Nat.mod_eq_of_lt (by decide)
  rw [decodedAsSent_iff_not_misread (s := [.bytes]) (by decide) ⟨trivial, trivial⟩
    ⟨trivial, trivial⟩ (by rw [hname]; decide) henc hmsg, not_not, hk, hname]
  have hmis : Misread .little [.bytes] (data, ()) 65539 ↔ 3 + 65536 % 65536 ≤ 65539 ∧
      ∃ rest, Begins [] ((data.drop (65536 % 65536) ++ []).take (65539 - (3 + 65536 % 65536)))
        rest := by
    simp only [Misread, FieldType.payload, Option.getD_some, hlen, Struct.wire]
    rfl
  exact ⟨by decide, hmis.mpr ⟨by decide, _, rfl⟩⟩

/-- A bytes field of 65536 zeros arrives as an empty one. -/
theorem stub_longBytes_misread :
    ∃ tlvArea msg,
      stubEncode ⟨.little, .w64⟩ [.bytes] (List.replicate 65536 0, ()) = some tlvArea ∧
        requestMessage ⟨.little, .w64⟩ 1 [0x65] tlvArea = some msg ∧
          ¬ DecodedAsSent ⟨.little, .w64⟩ [.bytes] (List.replicate 65536 0, ()) msg :=
  bytes65536_misread (List.length_replicate ..)

end CcRpc
