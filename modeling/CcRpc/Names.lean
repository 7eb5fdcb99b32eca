import CcRpc.Requests

/-!
# Names on the wire and names in the table

On the wire a method name has a length and may hold any bytes. In the table it ends at its first
NUL. `rpc_handle_request` copies the bytes of the wire and then looks up the C string, so a name
with a NUL in it is taken for a shorter one.
-/

namespace CcRpc

variable {h : Host} {ω : Type} {E : Env}

/-- The request's method is `m`, which was registered under `name`. -/
structure Node.Selects (n : Node h ω) (req : Request) (name : Bytes) (m : MethodEntry ω) : Prop where
  entry : (name, m) ∈ n.methods.entries
  equal : (stringKey h.word).equal name (n.storeMethod req.name).method = true

/-- A method that the message selects was registered under exactly the name bytes of the message. -/
def Node.ExactDispatch (n : Node h ω) (msg : Bytes) (len : Nat) : Prop :=
  ∀ req, requestOf h msg len = some req → ∀ name m, n.Selects req name m → cstr name = req.name

theorem Node.Selects.cstr_eq {n : Node h ω} {req : Request} {name : Bytes} {m : MethodEntry ω}
    (hsel : n.Selects req name m) : cstr name = cstr req.name := by
  have heq : cstr name = cstr (n.storeMethod req.name).method := beq_iff_eq.mp hsel.equal
  rw [heq]
  exact cstr_append_zero _ _

/-- What is selected is what `hashmap_get` finds. -/
theorem Node.selects_iff_get {n : Node h ω} {req : Request} {m : MethodEntry ω} :
    (∃ name, n.Selects req name m) ↔ n.methods.get req.name = some m := by
  rw [← get_storeMethod n req.name]
  constructor
  · intro hsel
    obtain ⟨name, hsel⟩ := hsel
    rw [← Hashmap.get_congr hsel.equal]
    exact Hashmap.get_of_mem_entries hsel.entry
  · intro hget
    obtain ⟨name, hequal, hmem⟩ := Hashmap.mem_entries_of_get hget
    exact ⟨name, hmem, hequal⟩

/-- Dispatch of a message is exact if and only if the name bytes hold no NUL, or no method is
registered under the bytes before the first. A handler that runs is the selected one, and messages
that are dispatched exactly and select the same method have the same name bytes. -/
theorem exactDispatch_iff (E : Env) (t : Nat) (n : Node h ω) (msg : Bytes) (len : Nat) :
    (n.ExactDispatch msg len ↔ ∀ req, requestOf h msg len = some req →
      (0 : UInt8) ∈ req.name → n.methods.get (cstr req.name) = none) ∧
    (∀ l, (rpcHandleRequest E t msg len n).log = n.log ++ l → ∀ ran param, .ran ran param ∈ l →
      ∃ req name m, requestOf h msg len = some req ∧ n.Selects req name m ∧ m.handler ≠ none ∧
        ran = cstr name ∧ (n.ExactDispatch msg len → ran = req.name)) ∧
    ∀ msg' len', n.ExactDispatch msg len → n.ExactDispatch msg' len' →
      ∀ req req' name m m', requestOf h msg len = some req → requestOf h msg' len' = some req' →
        n.Selects req name m → n.Selects req' name m' → req.name = req'.name := by
  have hcstr : ∀ name : Bytes, n.methods.get (cstr name) = n.methods.get name := by
    intro name
    apply Hashmap.get_congr
    apply beq_iff_eq.mpr
    exact cstr_of_not_mem (zero_not_mem_cstr name)
  refine ⟨?_, ?_, ?_⟩
  · constructor
    · intro hexact req hreq hnul
      rw [hcstr]
      cases hget : n.methods.get req.name with
      | none => rfl
      | some m =>
        obtain ⟨name, hsel⟩ := Node.selects_iff_get.mpr hget
        have hname := hexact req hreq name m hsel
        rw [← hname] at hnul
        exact absurd hnul (zero_not_mem_cstr name)
    · intro hnone req hreq name m hsel
      have hget := Node.selects_iff_get.mp ⟨name, hsel⟩
      have hfree : (0 : UInt8) ∉ req.name := by
        intro hnul
        rw [← hcstr, hnone req hreq hnul] at hget
        cases hget
      rw [hsel.cstr_eq, cstr_of_not_mem hfree]
  · intro l hlog ran param hran
    obtain ⟨req, m, hreq, hget, hhandler, rfl⟩ := rpcHandleRequest_ran hlog hran
    obtain ⟨name, hsel⟩ := Node.selects_iff_get.mpr hget
    refine ⟨req, name, m, hreq, hsel, hhandler, hsel.cstr_eq.symm, ?_⟩
    intro hexact
    rw [← hsel.cstr_eq]
    exact hexact req hreq name m hsel
  · intro msg' len' hexact hexact' req req' name m m' hreq hreq' hsel hsel'
    rw [← hexact req hreq name m hsel, ← hexact' req' hreq' name m' hsel']

/-- The method `add`, without parameters and results. -/
def addEntry : MethodEntry Unit where
  params := []
  results := []
  parseParam := some (parseStruct .little [])
  handler := some fun _ _ w => (0, (), w)
  encodeResult := some (encodeResult .little [])
  freeParam := none
  freeResult := none

/-- A request for the four bytes `add` and NUL. -/
def nulNameFrame : Bytes := [0, 0, 0, 0, 0, 1, 0, 0, 0, 4, 0, 4, 0x61, 0x64, 0x64, 0]

/-- A node that has `add` takes a request for another name for one for `add` and runs it. -/
theorem nulName_selects :
    ∃ n, Runs.run (Node.step Env.granting) freshNode [.registerMethod [0x61, 0x64, 0x64] addEntry] =
        some n ∧
      requestOf ⟨.little, .w64⟩ nulNameFrame 16 = some ⟨1, [0x61, 0x64, 0x64, 0], [], 0⟩ ∧
      ¬ n.ExactDispatch nulNameFrame 16 ∧
      (rpcHandleRequest Env.granting 0 nulNameFrame 16 n).log.any (fun
        | .ran name _ => name == [0x61, 0x64, 0x64]
        | .dispatched .. | .sent .. => false) = true := by
  have heval : (Runs.run (Node.step Env.granting) freshNode
      [.registerMethod [0x61, 0x64, 0x64] addEntry]).map (fun n =>
        ((n.methods.get [0x61, 0x64, 0x64]).isSome,
          (rpcHandleRequest Env.granting 0 nulNameFrame 16 n).log.any (fun
            | .ran name _ => name == [0x61, 0x64, 0x64]
            | .dispatched .. | .sent .. => false))) = some (true, true) := by
    decide +kernel
  obtain ⟨n, hrun, hboth⟩ := Option.map_eq_some_iff.mp heval
  rw [Prod.mk.injEq] at hboth
  have hreq : requestOf ⟨.little, .w64⟩ nulNameFrame 16 = some ⟨1, [0x61, 0x64, 0x64, 0], [], 0⟩ := by
    decide
  refine ⟨n, hrun, hreq, ?_, hboth.2⟩
  intro hexact
  obtain ⟨m, hm⟩ := Option.isSome_iff_exists.mp hboth.1
  let req : Request := ⟨1, [0x61, 0x64, 0x64, 0], [], 0⟩
  have hget : n.methods.get req.name = some m := by
    rw [← hm]
    apply Hashmap.get_congr
    decide
  obtain ⟨name, hsel⟩ := Node.selects_iff_get.mpr hget
  have hname := hexact _ hreq name m hsel
  have hnul : (0 : UInt8) ∈ cstr name := by
    rw [hname]
    decide
  exact zero_not_mem_cstr name hnul

end CcRpc
