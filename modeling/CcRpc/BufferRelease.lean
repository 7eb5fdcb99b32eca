import CcRpc.FieldBuffers
import CcRpc.Hashmap
import CcRpc.Services
import CcRpc.Wire

/-!
# Every field buffer is freed once

The server frees the fields of both static structs whatever became of the request, and a caller of
a stub frees the fields of the result it passed in. A parser may stop at any field, so what is freed
is what the struct points to: after the parser these are the blocks it allocated, and after a
handler that stores fresh blocks they are still different from each other and live.
-/

namespace CcRpc

open Blocks

/-- A registered method. Its callbacks but the handler are the generated ones, and there is no
generated encoder for an `i32`. The handler gets the struct in `param_buf` and the cleared one in
`result_buf`, and may allocate and free. -/
structure HeapMethod where
  params : Schema
  results : Schema
  handler : Cells params → Cells results → (m : Memory) →
    Int × Cells results × { m' : Memory // m.Extends m' }
  emits : .i32 ∉ results

/-- What a run of `rpc_handle_request` did. -/
structure Handled where
  /-- The status and the TLV area of the response, if one was sent. -/
  response : Option (RpcStatus × Bytes)
  /-- The blocks the parser allocated. -/
  parsed : List Nat
  /-- The blocks in `result_buf` after the handler. -/
  stored : List Nat
  memory : Memory

section Server

variable (h : Host)

/-- Both structs lie inside their static buffers. -/
def HeapMethod.Fits (m : HeapMethod) : Prop :=
  m.params.sizeof h.word ≤ rpcMaxParamSize ∧ m.results.sizeof h.word ≤ rpcMaxResultSize

instance (m : HeapMethod) : Decidable (m.Fits h) := inferInstanceAs (Decidable (_ ∧ _))

def runParserCells (m : HeapMethod) (req : Request) (mem : Memory) :
    Option (RpcStatus × Cells m.params × Memory) :=
  (parseCells h.order m.params allOk req.tlv req.tlvLen mem).map fun (acc, param, _, mem) =>
    (if acc then .ok else .invalidParams, param, mem)

def runHandlerCells (m : HeapMethod) (status : RpcStatus) (param : Cells m.params) (mem : Memory) :
    RpcStatus × Cells m.results × Memory :=
  if status = .ok then
    let (rc, result, mem) := m.handler param (Cells.zero _) mem
    (if rc ≠ 0 then .internalError else .ok, result, mem.1)
  else (status, Cells.zero _, mem)

/-- The status, `resp_tlv` and `resp_len`. -/
def runEncoderCells (m : HeapMethod) (status : RpcStatus) (result : Cells m.results)
    (mem : Memory) : Option (RpcStatus × Bytes × Nat) :=
  let respTlv := List.replicate rpcMaxResultTlvSize 0
  if status = .ok then
    (Cells.load mem m.results result).bind fun r =>
      (encodeResult h.order m.results r respTlv rpcMaxResultTlvSize).map fun (rc, buf, respLen) =>
        if rc ≠ 0 then (.internalError, buf, 0) else (.ok, buf, respLen)
  else some (status, respTlv, rpcMaxResultTlvSize)

/-- `rpc_handle_request` once the method is found; `none` is undefined behaviour, as the accesses to
a struct that does not fit its buffer are. -/
def serveCells (m : HeapMethod) (req : Request) (mem : Memory) : Option Handled :=
  if m.Fits h then
    (runParserCells h m req mem).bind fun (status, param, mem₁) =>
      let (status, result, mem₂) := runHandlerCells m status param mem₁
      (runEncoderCells h m status result mem₂).bind fun (status, respTlv, respLen) =>
        (freeCells m.params param mem₂).bind fun mem₃ =>
          (freeCells m.results result mem₃).map fun mem₄ =>
            { response := some (status, if status = .ok then respTlv.take respLen else [])
              parsed := mem.since mem₁
              stored := Cells.pointers m.results result
              memory := mem₄ }
  else none

/-- `rpc_handle_request`, for the contents of the static `method` and for the method table. -/
def rpcHandleRequestCells (methods : Hashmap (stringKey h.word) HeapMethod) (method msg : Bytes)
    (len : Nat) (mem : Memory) : Option Handled :=
  match requestOf h msg len with
  | none => some ⟨none, [], [], mem⟩
  | some req =>
    match methods.get (req.name ++ 0 :: method.drop (req.name.length + 1)) with
    | none => some ⟨some (.methodNotFound, []), [], [], mem⟩
    | some m => serveCells h m req mem

/-- `rpc_handle_request` ends, and every block that the parser allocated or the handler stored was
freed once. -/
def RequestReleases (methods : Hashmap (stringKey h.word) HeapMethod) (method msg : Bytes)
    (len : Nat) (mem : Memory) : Prop :=
  ∃ r, rpcHandleRequestCells h methods method msg len mem = some r ∧
    ∀ p ∈ r.parsed ++ r.stored, r.memory.freed.count p = 1

end Server

/-- What the handler leaves behind for a struct `param` that lies in `mem`. -/
def HeapMethod.Leaves (m : HeapMethod)
    (P : (param : Cells m.params) → (mem : Memory) → (rc : Int) → Cells m.results → Memory → Prop) :
    Prop :=
  ∀ param mem v, Cells.load mem m.params param = some v →
    P param mem (m.handler param (Cells.zero _) mem).1 (m.handler param (Cells.zero _) mem).2.1
      (m.handler param (Cells.zero _) mem).2.2.1

/-- Every pointer in the result is NULL or a block of its own that the handler allocated. -/
def HeapMethod.StoresFresh (m : HeapMethod) : Prop :=
  m.Leaves fun _ mem _ result mem' => (Cells.pointers m.results result).Nodup ∧
    ∀ p ∈ Cells.pointers m.results result, mem.blocks.length ≤ p ∧ mem'.Live p

/-- A result that is returned with 0 is encoded in at most 4096 bytes. -/
def HeapMethod.EncodesSmall (m : HeapMethod) : Prop :=
  m.Leaves fun _ _ rc result mem' => rc = 0 →
    ∃ r, Cells.load mem' m.results result = some r ∧
      Struct.tlvSize m.results r ≤ rpcMaxResultTlvSize

/-- The handler frees no block but its own. -/
def HeapMethod.KeepsOthers (m : HeapMethod) : Prop :=
  m.Leaves fun _ mem _ _ mem' => mem.FreesOwn mem'

section Server

variable {h : Host}

/-- After the handler the two structs point to different live blocks. -/
theorem runHandlerCells_live {m : HeapMethod} (hfresh : m.StoresFresh) (hkeep : m.KeepsOthers)
    (status : RpcStatus) {param : Cells m.params} {v : Struct m.params} {mem₀ mem : Memory}
    (hparam : mem₀.Allocates mem (Cells.pointers m.params param))
    (hload : Cells.load mem m.params param = some v) :
    (Cells.pointers m.params param ++
        Cells.pointers m.results (runHandlerCells m status param mem).2.1).Nodup ∧
      ∀ p ∈ Cells.pointers m.params param ++
          Cells.pointers m.results (runHandlerCells m status param mem).2.1,
        (runHandlerCells m status param mem).2.2.Live p := by
  have hnodup := hparam.nodup
  unfold runHandlerCells
  split
  · obtain ⟨hstored, hown⟩ := hfresh param mem v hload
    constructor
    · apply List.nodup_append.mpr
      refine ⟨hnodup, hstored, ?_⟩
      intro p hp q hq hpq
      subst hpq
      exact Nat.not_lt.mpr (hown p hq).1 (hparam.live hp).1
    · intro p hp
      rcases List.mem_append.mp hp with hp | hp
      · exact (hparam.live hp).later (m.handler param (Cells.zero _) mem).2.2.2
          (hkeep param mem v hload)
      · exact (hown p hp).2
  · simp only [Cells.pointers_zero, List.append_nil]
    exact ⟨hnodup, fun p hp => hparam.live hp⟩

theorem runEncoderCells_ends (h : Host) {m : HeapMethod} (hsmall : m.EncodesSmall)
    (status : RpcStatus) {param : Cells m.params} {v : Struct m.params} {mem : Memory}
    (hload : Cells.load mem m.params param = some v) :
    ∃ r, runEncoderCells h m (runHandlerCells m status param mem).1
      (runHandlerCells m status param mem).2.1 (runHandlerCells m status param mem).2.2 =
        some r := by
  unfold runHandlerCells
  split
  · unfold runEncoderCells
    by_cases hrc : (m.handler param (Cells.zero _) mem).1 = 0
    · obtain ⟨r, hr, hsize⟩ := hsmall param mem v hload hrc
      have henc := encodeResult_eq (o := h.order) m.emits r
        (List.length_replicate (n := rpcMaxResultTlvSize) (a := 0))
      rw [if_pos hsize] at henc
      simp only [hrc, ne_eq, not_true_eq_false, if_false, if_true, hr, Option.bind_some, henc,
        Option.map_some]
      exact ⟨_, rfl⟩
    · simp [hrc]
  · next hstatus => exact ⟨_, if_neg hstatus⟩

/-- Whatever becomes of the request, both structs are freed. -/
theorem serveCells_releases {m : HeapMethod} (hfits : m.Fits h) (hfresh : m.StoresFresh)
    (hsmall : m.EncodesSmall) (hkeep : m.KeepsOthers) (req : Request) (mem : Memory) :
    ∃ r, serveCells h m req mem = some r ∧ ∀ p ∈ r.parsed ++ r.stored, p ∈ r.memory.freed := by
  obtain ⟨⟨acc, param, rest, mem₁⟩, hparse⟩ :=
    parseCells_allOk (o := h.order) m.params req.tlv req.tlvLen mem
  have hparam := parseCells_allocates hparse
  obtain ⟨v, hload, -⟩ := parseCells_load hparse
  let status : RpcStatus := if acc then .ok else .invalidParams
  obtain ⟨⟨status', respTlv, respLen⟩, henc⟩ := runEncoderCells_ends h hsmall status hload
  obtain ⟨hnodup, hlive⟩ := runHandlerCells_live hfresh hkeep status hparam hload
  obtain ⟨mem₄, hfree⟩ := Ledger.freeAll_of_live hnodup hlive
  have hfreed := Ledger.freeAll_freed hfree
  rw [Ledger.freeAll_append] at hfree
  obtain ⟨mem₃, hfree₃, hfree₄⟩ := Option.bind_eq_some_iff.mp hfree
  have hran : runParserCells h m req mem = some (status, param, mem₁) := by
    unfold runParserCells
    rw [hparse]
    rfl
  have hserve : serveCells h m req mem = some
      { response := some (status', if status' = .ok then respTlv.take respLen else [])
        parsed := mem.since mem₁
        stored := Cells.pointers m.results (runHandlerCells m status param mem₁).2.1
        memory := mem₄ } := by
    unfold serveCells
    simp only [if_pos hfits, hran, Option.bind_some, henc, freeCells_eq, hfree₃, hfree₄,
      Option.map_some]
  refine ⟨_, hserve, ?_⟩
  intro p hp
  rw [← hparam.since_eq] at hp
  rw [hfreed]
  exact List.mem_append_right _ hp

theorem rpcHandleRequestCells_releases {methods : Hashmap (stringKey h.word) HeapMethod}
    (hmethods : ∀ name m, methods.get name = some m →
      m.Fits h ∧ m.StoresFresh ∧ m.EncodesSmall ∧ m.KeepsOthers)
    (method msg : Bytes) (len : Nat) (mem : Memory) :
    RequestReleases h methods method msg len mem := by
  unfold RequestReleases rpcHandleRequestCells
  split
  · exact ⟨_, rfl, by simp⟩
  · next req _ =>
    split
    · exact ⟨_, rfl, by simp⟩
    · next m hm =>
      obtain ⟨hfits, hfresh, hsmall, hkeep⟩ := hmethods _ m hm
      obtain ⟨r, hr, hfreed⟩ := serveCells_releases hfits hfresh hsmall hkeep req mem
      exact ⟨r, hr, fun p hp => Ledger.count_freed (hfreed p hp)⟩

end Server

def rpcRespBufSize : Nat := 4096

/-- What a run of `rpc_call_X` did. -/
structure Called (s : Schema) where
  st : Int
  out : Cells s
  /-- The blocks the result parser allocated. -/
  parsed : List Nat
  memory : Memory

section Client

variable (h : Host) (params results : Schema)

/-- `if (st == 0) st = rpc_result_parse_X(resp, resp_len, out);` -/
def parseResponse (ok : Nat → Bool) (st : Int) (resp : Bytes) (respLen : Nat) (out : Cells results)
    (mem : Memory) : Option (Int × Cells results × Memory) :=
  if st = 0 then
    (parseCells h.order results ok resp respLen mem).map fun (acc, out, _, mem) =>
      (if acc then 0 else -1, out, mem)
  else some (st, out, mem)

/-- `rpc_call_X`, for the outcomes of its two `RPC_ALLOC` and of the allocations of the result
parser, and for what `rpc_call_with_tlv` returns: the status, the response buffer and its length. -/
def rpcCallCells (inp : Struct params) (out : Cells results) (okTlv okResp : Bool) (ok : Nat → Bool)
    (rpcCallWithTlv : Bytes → Int × Bytes × Nat) (mem : Memory) : Option (Called results) :=
  if !okTlv then some ⟨-1, out, [], mem⟩
  else
    (stubEncode h params inp).bind fun tlv =>
      let (tlvbuf, mem) := mem.alloc tlv
      if !okResp then (mem.free tlvbuf).map fun mem => ⟨-1, out, [], mem⟩
      else
        let (resp, mem) := mem.alloc (List.replicate rpcRespBufSize 0)
        let (st, respBytes, respLen) := rpcCallWithTlv tlv
        (parseResponse h results ok st respBytes respLen out mem).bind fun (st, out, mem₁) =>
          (mem₁.free tlvbuf).bind fun mem₂ =>
            (mem₂.free resp).map fun mem₃ => ⟨st, out, mem.since mem₁, mem₃⟩

/-- With memory to be had the stub returns, and whenever it returns, `free_result_X` on the struct
that was zeroed before the call frees the blocks the result parser allocated, each once, and no
other. -/
def CallReleases (inp : Struct params) (okTlv okResp : Bool) (ok : Nat → Bool)
    (rpcCallWithTlv : Bytes → Int × Bytes × Nat) (mem : Memory) : Prop :=
  let call :=
    rpcCallCells h params results inp (Cells.zero results) okTlv okResp ok rpcCallWithTlv mem
  ((stubEncode h params inp).isSome → ok = allOk → call.isSome) ∧
    ∀ r, call = some r → ∃ mem', freeCells results r.out r.memory = some mem' ∧
      mem'.freed = r.memory.freed ++ r.parsed ∧ ∀ p ∈ r.parsed, mem'.freed.count p = 1

variable {h : Host} {params results : Schema} {inp : Struct params} {okTlv okResp : Bool}
  {ok : Nat → Bool} {rpcCallWithTlv : Bytes → Int × Bytes × Nat} {mem : Memory}

theorem parseResponse_allocates {st st' : Int} {resp : Bytes} {respLen : Nat} {mem₁ : Memory}
    {out : Cells results}
    (hparsed : parseResponse h results ok st resp respLen (Cells.zero results) mem =
      some (st', out, mem₁)) : mem.Allocates mem₁ (Cells.pointers results out) := by
  unfold parseResponse at hparsed
  split at hparsed
  · obtain ⟨⟨acc, out', rest, mem'⟩, hcells, heq⟩ := Option.map_eq_some_iff.mp hparsed
    cases heq
    exact parseCells_allocates hcells
  · cases hparsed
    rw [Cells.pointers_zero]
    exact Ledger.Allocates.refl mem

theorem parseResponse_allOk (h : Host) (st : Int) (resp : Bytes) (respLen : Nat)
    (out : Cells results) (mem : Memory) : ∃ r, parseResponse h results allOk st resp respLen out mem = some r := by
  unfold parseResponse
  split
  · obtain ⟨r, hr⟩ := parseCells_allOk (o := h.order) results resp respLen mem
    rw [hr]
    exact ⟨_, rfl⟩
  · exact ⟨_, rfl⟩

/-- The stub can free its own two blocks after the result was parsed, and the blocks of the result
after these. -/
theorem stub_frees {mem mem₁ : Memory} {ps : List Nat} {b₁ b₂ : Bytes}
    (h : ((mem.alloc b₁).2.alloc b₂).2.Allocates mem₁ ps) :
    ∃ mem₂ mem₃ mem', mem₁.free (mem.alloc b₁).1 = some mem₂ ∧
      mem₂.free ((mem.alloc b₁).2.alloc b₂).1 = some mem₃ ∧ mem₃.freeAll ps = some mem' := by
  have hbufs := (Ledger.allocates_alloc mem b₁).trans (Ledger.allocates_alloc (mem.alloc b₁).2 b₂)
  obtain ⟨mem', hfree⟩ := (hbufs.trans h).freeAll
  obtain ⟨mem₂, hfree₁, hfree⟩ := Option.bind_eq_some_iff.mp hfree
  obtain ⟨mem₃, hfree₂, hfree⟩ := Option.bind_eq_some_iff.mp hfree
  exact ⟨mem₂, mem₃, mem', hfree₁, hfree₂, hfree⟩

theorem freeResult {r : Called results} (hparsed : r.parsed = Cells.pointers results r.out)
    {mem' : Memory} (hfree : r.memory.freeAll r.parsed = some mem') :
    ∃ mem', freeCells results r.out r.memory = some mem' ∧
      mem'.freed = r.memory.freed ++ r.parsed ∧ ∀ p ∈ r.parsed, mem'.freed.count p = 1 := by
  have hfreed := Ledger.freeAll_freed hfree
  refine ⟨mem', ?_, hfreed, ?_⟩
  · rw [freeCells_eq, ← hparsed]
    exact hfree
  · intro p hp
    apply Ledger.count_freed
    rw [hfreed]
    exact List.mem_append_right _ hp

theorem rpcCallCells_parsed {tlv : Bytes} {st : Int} {out : Cells results} {mem₁ : Memory}
    (henc : stubEncode h params inp = some tlv)
    (hparsed : parseResponse h results ok (rpcCallWithTlv tlv).1 (rpcCallWithTlv tlv).2.1
        (rpcCallWithTlv tlv).2.2 (Cells.zero results)
        ((mem.alloc tlv).2.alloc (List.replicate rpcRespBufSize 0)).2 = some (st, out, mem₁)) :
    ∃ r mem',
      rpcCallCells h params results inp (Cells.zero results) true true ok rpcCallWithTlv mem =
        some r ∧
      r.parsed = Cells.pointers results r.out ∧ r.memory.freeAll r.parsed = some mem' := by
  have halloc := parseResponse_allocates hparsed
  obtain ⟨mem₂, mem₃, mem', hfree₁, hfree₂, hfree⟩ := stub_frees halloc
  rw [halloc.since_eq] at hfree
  refine ⟨⟨st, out, _, mem₃⟩, mem', ?_, halloc.since_eq.symm, hfree⟩
  unfold rpcCallCells
  simp only [henc, Option.bind_some, Bool.not_true, Bool.false_eq_true, if_false, hparsed, hfree₁,
    hfree₂, Option.map_some]
  rfl

theorem rpcCallCells_releases (inp : Struct params) (okTlv okResp : Bool) (ok : Nat → Bool)
    (rpcCallWithTlv : Bytes → Int × Bytes × Nat) (mem : Memory) :
    CallReleases h params results inp okTlv okResp ok rpcCallWithTlv mem := by
  cases okTlv with
  | false =>
    refine ⟨fun _ _ => rfl, ?_⟩
    intro r hr
    cases hr
    exact freeResult (Cells.pointers_zero results).symm rfl
  | true =>
    cases henc : stubEncode h params inp with
    | none =>
      unfold CallReleases rpcCallCells
      simp [henc]
    | some tlv =>
      cases okResp with
      | false =>
        obtain ⟨mem₁, hfree, -, -⟩ := Ledger.free_of_live (Ledger.live_alloc (l := mem) tlv)
        have hcall : rpcCallCells h params results inp (Cells.zero results) true false ok
            rpcCallWithTlv mem = some ⟨-1, Cells.zero results, [], mem₁⟩ := by
          unfold rpcCallCells
          simp only [henc, Option.bind_some, Ledger.alloc_fst, hfree, Bool.not_true, Bool.not_false,
            Bool.false_eq_true, if_false, if_true, Option.map_some]
        unfold CallReleases
        simp only [hcall]
        refine ⟨fun _ _ => rfl, ?_⟩
        intro r hr
        cases hr
        exact freeResult (Cells.pointers_zero results).symm rfl
      | true =>
        constructor
        · intro _ hok
          subst hok
          obtain ⟨⟨st, out, mem₁⟩, hparsed⟩ := parseResponse_allOk h (rpcCallWithTlv tlv).1
            (rpcCallWithTlv tlv).2.1 (rpcCallWithTlv tlv).2.2 (Cells.zero results)
            ((mem.alloc tlv).2.alloc (List.replicate rpcRespBufSize 0)).2
          obtain ⟨r, -, hr, -⟩ := rpcCallCells_parsed henc hparsed
          rw [hr]
          rfl
        · intro r hr
          cases hparsed : parseResponse h results ok (rpcCallWithTlv tlv).1 (rpcCallWithTlv tlv).2.1
              (rpcCallWithTlv tlv).2.2 (Cells.zero results)
              ((mem.alloc tlv).2.alloc (List.replicate rpcRespBufSize 0)).2 with
          | none =>
            unfold rpcCallCells at hr
            simp [henc, hparsed] at hr
          | some x =>
            obtain ⟨r', mem', hr', howns, hfree⟩ := rpcCallCells_parsed henc hparsed
            rw [hr] at hr'
            cases hr'
            exact freeResult howns hfree

end Client

/-- Every field buffer is freed once: on the server for handlers that store fresh blocks and free no
others, in methods whose structs fit the static buffers, and on the client always. -/
theorem fieldBuffers_freed_once (h : Host) :
    (∀ methods : Hashmap (stringKey h.word) HeapMethod,
      (∀ name m, methods.get name = some m →
        m.Fits h ∧ m.StoresFresh ∧ m.EncodesSmall ∧ m.KeepsOthers) →
      ∀ method msg len mem, RequestReleases h methods method msg len mem) ∧
    ∀ params results inp okTlv okResp ok rpcCallWithTlv mem,
      CallReleases h params results inp okTlv okResp ok rpcCallWithTlv mem := by
  constructor
  · intro methods hmethods
    exact rpcHandleRequestCells_releases hmethods
  · intro params results
    exact rpcCallCells_releases

/-- A table with one method, registered as `"m"`. -/
def oneMethod (m : HeapMethod) : Hashmap (stringKey .w64) HeapMethod :=
  ((Hashmap.init _ _ 4).put true [0x6d] m).getD (Hashmap.init _ _ 4)

theorem get_oneMethod {m m' : HeapMethod} {name : Bytes} (h : (oneMethod m).get name = some m') :
    m = m' := by
  obtain ⟨methods, hput⟩ := Hashmap.put_true (Hashmap.init (stringKey .w64) HeapMethod 4) [0x6d] m
  rw [oneMethod, hput, Option.getD_some, Hashmap.get_put hput] at h
  split at h
  · exact Option.some.inj h
  · cases h

/-- A handler that allocates two buffers and stores both. -/
def pairMethod : HeapMethod where
  params := [.string]
  results := [.string, .bytes]
  handler _ _ mem :=
    (0, ((some (mem.alloc [0x61, 0]).1 : Option Nat),
      ((some ((mem.alloc [0x61, 0]).2.alloc [1, 2]).1, 2) : Option Nat × Nat), ()),
      ⟨((mem.alloc [0x61, 0]).2.alloc [1, 2]).2,
        (Ledger.extends_alloc mem _).trans (Ledger.extends_alloc _ _)⟩)
  emits := by decide

/-- 600 string parameters, which take 4800 bytes. -/
def wideMethod : HeapMethod where
  params := List.replicate 600 .string
  results := []
  handler _ _ mem := (0, (), ⟨mem, Ledger.Extends.refl mem⟩)
  emits := by decide

/-- A handler that frees its parameter. -/
def freeingMethod : HeapMethod where
  params := [.string]
  results := []
  handler param _ mem :=
    (0, (), ⟨(mem.free (param.1.getD 0)).getD mem, Ledger.extends_free_getD mem _⟩)
  emits := by decide

theorem pairMethod_storesFresh : pairMethod.StoresFresh := by
  intro param mem v _
  have hpair := (Ledger.allocates_alloc mem [0x61, 0]).trans
    (Ledger.allocates_alloc (mem.alloc [0x61, 0]).2 [1, 2])
  refine ⟨hpair.nodup, ?_⟩
  intro p hp
  have hsince : p ∈ mem.since ((mem.alloc [0x61, 0]).2.alloc [1, 2]).2 := by
    rw [← hpair.since_eq]
    exact hp
  exact ⟨((Ledger.mem_since hpair.extends).mp hsince).1, hpair.live hp⟩

theorem pairMethod_encodesSmall : pairMethod.EncodesSmall := by
  intro param mem v _ _
  have hlater := Ledger.allocates_alloc (mem.alloc [0x61, 0]).2 [1, 2]
  refine ⟨((some [0x61] : Option Bytes), ([1, 2] : Bytes), ()), ?_, by decide⟩
  have hstring := hlater.read (Ledger.read_alloc mem [0x61, 0])
  have hbytes := Ledger.read_alloc (mem.alloc [0x61, 0]).2 [1, 2]
  simp only [pairMethod, Cells.load, FieldType.loadCell, Ledger.alloc_fst, hstring, hbytes]
  rfl

/-- The method of two buffers, asked with the string `a`. -/
theorem fieldBuffers_freed_once_pair :
    RequestReleases ⟨.little, .w64⟩ (oneMethod pairMethod) (List.replicate 128 0)
      [0, 0, 0, 0, 0, 1, 0, 0, 0, 5, 0, 1, 0x6d, 2, 1, 0, 0x61] 17 Ledger.empty := by
  apply (fieldBuffers_freed_once ⟨.little, .w64⟩).1 (oneMethod pairMethod)
  intro name m hm
  have hm' := get_oneMethod hm
  subst hm'
  refine ⟨by decide, pairMethod_storesFresh, pairMethod_encodesSmall, ?_⟩
  intro param mem v _
  exact Ledger.FreesOwn.of_freed_eq rfl

/-- A struct that does not fit its static buffer, or a handler that frees what it was given, and
the blocks are not each freed once. -/
theorem fieldBuffers_not_freed_once :
    (wideMethod.StoresFresh ∧ wideMethod.EncodesSmall ∧
        ¬ RequestReleases ⟨.little, .w64⟩ (oneMethod wideMethod) (List.replicate 128 0)
          [0, 0, 0, 0, 0, 1, 0, 0, 0, 1, 0, 1, 0x6d] 13 Ledger.empty) ∧
      freeingMethod.StoresFresh ∧ freeingMethod.EncodesSmall ∧ freeingMethod.Fits ⟨.little, .w64⟩ ∧
        ¬ RequestReleases ⟨.little, .w64⟩ (oneMethod freeingMethod) (List.replicate 128 0)
          [0, 0, 0, 0, 0, 1, 0, 0, 0, 5, 0, 1, 0x6d, 2, 1, 0, 0x61] 17 Ledger.empty := by
  have hwide : (rpcHandleRequestCells ⟨.little, .w64⟩ (oneMethod wideMethod) (List.replicate 128 0)
      [0, 0, 0, 0, 0, 1, 0, 0, 0, 1, 0, 1, 0x6d] 13 Ledger.empty).isNone = true := by decide +kernel
  have hfreeing : (rpcHandleRequestCells ⟨.little, .w64⟩ (oneMethod freeingMethod)
      (List.replicate 128 0) [0, 0, 0, 0, 0, 1, 0, 0, 0, 5, 0, 1, 0x6d, 2, 1, 0, 0x61] 17
      Ledger.empty).isNone = true := by decide +kernel
  refine ⟨⟨?_, ?_, ?_⟩, ?_, ?_, ?_, ?_⟩
  · exact fun _ _ _ _ => ⟨List.nodup_nil, by simp [wideMethod, Cells.pointers]⟩
  · exact fun _ _ _ _ _ => ⟨(), rfl, by decide⟩
  · rintro ⟨r, hr, -⟩
    rw [hr] at hwide
    cases hwide
  · exact fun _ _ _ _ => ⟨List.nodup_nil, by simp [freeingMethod, Cells.pointers]⟩
  · exact fun _ _ _ _ _ => ⟨(), rfl, by decide⟩
  · decide
  · rintro ⟨r, hr, -⟩
    rw [hr] at hfreeing
    cases hfreeing

end CcRpc
