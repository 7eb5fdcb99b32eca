import CcRpc.Gen
import CcRpc.Lib.Blocks

/-!
# The buffers behind the fields (`rpc_gen.c`)

A string or bytes field is a pointer. Here the structs hold the pointers, the parsers allocate the
buffers and the generated `free` functions give them back. Loading a struct from memory forgets the
pointers, and the parsers then read what they read in `parseFields`.
-/

namespace CcRpc

open Blocks

/-- The blocks that the generated code and the handlers ask `heap_malloc` for, with their contents. -/
abbrev Memory := Ledger Bytes

/-- A field as it lies in its struct. A pointer is NULL or the number of a block. -/
abbrev FieldType.Cell : FieldType → Type
  | .string => Option Nat
  | .u32 => UInt32
  | .i32 => Int32
  | .bytes => Option Nat × Nat

abbrev Cells : Schema → Type
  | [] => Unit
  | t :: ts => t.Cell × Cells ts

/-- The field after `memset(out, 0, sizeof(*out))`. -/
def FieldType.zeroCell : (t : FieldType) → t.Cell
  | .string => (none : Option Nat)
  | .u32 => (0 : UInt32)
  | .i32 => (0 : Int32)
  | .bytes => ((none, 0) : Option Nat × Nat)

def Cells.zero : (s : Schema) → Cells s
  | [] => ()
  | t :: ts => (t.zeroCell, Cells.zero ts)

/-- The block a field points to. -/
def FieldType.pointers : (t : FieldType) → t.Cell → List Nat
  | .string, (p : Option Nat) => p.toList
  | .u32, _ | .i32, _ => []
  | .bytes, (p : Option Nat × Nat) => p.1.toList

def Cells.pointers : (s : Schema) → Cells s → List Nat
  | [], _ => []
  | t :: ts, (c, cs) => t.pointers c ++ Cells.pointers ts cs

/-- The value of a field. A dangling pointer, a string without a terminator and bytes past the end
of their block have none. -/
def FieldType.loadCell (m : Memory) : (t : FieldType) → t.Cell → Option t.Value
  | .string, (none : Option Nat) => some (none : Option Bytes)
  | .string, (some p : Option Nat) =>
    (m.read p).bind fun b => if 0 ∈ b then some (some b.dropLast : Option Bytes) else none
  | .u32, (v : UInt32) => some v
  | .i32, (v : Int32) => some v
  | .bytes, ((none, len) : Option Nat × Nat) => if len = 0 then some ([] : Bytes) else none
  | .bytes, ((some p, len) : Option Nat × Nat) =>
    (m.read p).bind fun b => if len ≤ b.length then some (b.take len : Bytes) else none

def Cells.load (m : Memory) : (s : Schema) → Cells s → Option (Struct s)
  | [], _ => some ()
  | t :: ts, (c, cs) => (t.loadCell m c).bind fun v => (Cells.load m ts cs).map fun vs => (v, vs)

variable (o : ByteOrder)

/-- `PARSE_FIELD_*`: the field, `used` and the memory; `ok` is the outcome of its `heap_malloc`. -/
def parseCell (t : FieldType) (ok : Bool) (p : Bytes) (remain : Nat) (m : Memory) :
    Except ReadError (t.Cell × Nat × Memory) :=
  match t with
  | .string => (tlvReadString ok p remain).map fun (s, used) =>
    let (b, m) := m.alloc (s ++ [0])
    ((some b : Option Nat), used, m)
  | .u32 => (tlvReadU32 o p remain).map fun (v, used) => (v, used, m)
  | .i32 => (tlvReadI32 o p remain).map fun (v, used) => (v, used, m)
  | .bytes => (tlvReadBytes ok p remain).map fun (data, used) =>
    if ok then
      let (b, m) := m.alloc data
      (((some b, data.length) : Option Nat × Nat), used, m)
    else (((none, data.length) : Option Nat × Nat), used, m)

/-- The fields of `rpc_param_parse_X` and `rpc_result_parse_X`. -/
def parseCells : (s : Schema) → (ok : Nat → Bool) → Bytes → Nat → Memory →
    Option (Bool × Cells s × Nat × Memory)
  | [], _, _, remain, m => some (true, (), remain, m)
  | t :: ts, ok, p, remain, m =>
    match parseCell o t (ok 0) p remain m with
    | .error .nullWrite => none
    | .error .rejected => some (false, (t.zeroCell, Cells.zero ts), remain, m)
    | .ok (c, used, m) =>
      (parseCells ts (fun i => ok (i + 1)) (p.drop used) (remain - used) m).map
        fun (acc, cs, rest, m) => (acc, (c, cs), rest, m)

/-- `FREE_FIELD_*`. -/
def freeCell : (t : FieldType) → t.Cell → Memory → Option Memory
  | .string, (none : Option Nat), m => some m
  | .string, (some p : Option Nat), m => m.free p
  | .u32, _, m | .i32, _, m => some m
  | .bytes, ((none, _) : Option Nat × Nat), m => some m
  | .bytes, ((some p, _) : Option Nat × Nat), m => m.free p

/-- `free_param_X` and `free_result_X`. -/
def freeCells : (s : Schema) → Cells s → Memory → Option Memory
  | [], _, m => some m
  | t :: ts, (c, cs), m => (freeCell t c m).bind (freeCells ts cs)

@[simp] theorem FieldType.pointers_zeroCell (t : FieldType) : t.pointers t.zeroCell = [] := by
  cases t <;> rfl

@[simp] theorem Cells.pointers_zero (s : Schema) : Cells.pointers s (Cells.zero s) = [] := by
  induction s with
  | nil => rfl
  | cons t ts ih => simp [Cells.pointers, Cells.zero, ih]

theorem freeCell_eq (t : FieldType) (c : t.Cell) (m : Memory) :
    freeCell t c m = m.freeAll (t.pointers c) := by
  cases t with
  | string =>
    cases c with
    | none => rfl
    | some p => exact (Option.bind_fun_some _).symm
  | u32 => rfl
  | i32 => rfl
  | bytes =>
    rcases c with ⟨_ | p, len⟩
    · rfl
    · exact (Option.bind_fun_some _).symm

theorem freeCells_eq (s : Schema) (c : Cells s) (m : Memory) :
    freeCells s c m = m.freeAll (Cells.pointers s c) := by
  induction s generalizing m with
  | nil => rfl
  | cons t ts ih =>
    obtain ⟨c, cs⟩ := c
    rw [freeCells, freeCell_eq, Cells.pointers, Ledger.freeAll_append]
    congr 1
    funext m'
    exact ih cs m'

variable {o}

theorem Except.map_eq_ok {ε α β : Type} {f : α → β} {x : Except ε α} {b : β}
    (h : x.map f = .ok b) : ∃ a, x = .ok a ∧ f a = b := by
  cases x with
  | error e => cases h
  | ok a =>
    cases h
    exact ⟨a, rfl, rfl⟩

theorem Except.map_eq_error {ε α β : Type} {f : α → β} {x : Except ε α} {e : ε}
    (h : x.map f = .error e) : x = .error e := by
  cases x with
  | error e' =>
    cases h
    rfl
  | ok a => cases h

theorem parseCell_allocates {t : FieldType} {ok : Bool} {p : Bytes} {remain used : Nat}
    {m m' : Memory} {c : t.Cell} (h : parseCell o t ok p remain m = .ok (c, used, m')) :
    m.Allocates m' (t.pointers c) := by
  cases t with
  | string =>
    obtain ⟨⟨s, used⟩, -, h⟩ := Except.map_eq_ok h
    cases h
    exact Ledger.allocates_alloc _ _
  | u32 =>
    obtain ⟨⟨v, used⟩, -, h⟩ := Except.map_eq_ok h
    cases h
    exact Ledger.Allocates.refl _
  | i32 =>
    obtain ⟨⟨v, used⟩, -, h⟩ := Except.map_eq_ok h
    cases h
    exact Ledger.Allocates.refl _
  | bytes =>
    obtain ⟨⟨data, used⟩, -, h⟩ := Except.map_eq_ok h
    cases ok with
    | true =>
      cases h
      exact Ledger.allocates_alloc _ _
    | false =>
      cases h
      exact Ledger.Allocates.refl _

/-- Wherever the parser stops, the struct points to exactly the blocks it allocated. -/
theorem parseCells_allocates {s : Schema} {ok : Nat → Bool} {p : Bytes} {remain rest : Nat}
    {m m' : Memory} {acc : Bool} {c : Cells s}
    (h : parseCells o s ok p remain m = some (acc, c, rest, m')) :
    m.Allocates m' (Cells.pointers s c) := by
  induction s generalizing ok p remain m with
  | nil =>
    cases h
    exact Ledger.Allocates.refl _
  | cons t ts ih =>
    unfold parseCells at h
    split at h
    · cases h
    · cases h
      simp only [Cells.pointers, FieldType.pointers_zeroCell, Cells.pointers_zero]
      exact Ledger.Allocates.refl _
    · next c₁ used m₁ hfield =>
      obtain ⟨⟨acc₂, cs, rest₂, m₂⟩, hfields, h⟩ := Option.map_eq_some_iff.mp h
      cases h
      exact (parseCell_allocates hfield).trans (ih hfields)

theorem FieldType.loadCell_later {t : FieldType} {c : t.Cell} {v : t.Value} {m m' : Memory}
    {ps : List Nat} (hm : m.Allocates m' ps) (h : t.loadCell m c = some v) :
    t.loadCell m' c = some v := by
  cases t with
  | string =>
    cases c with
    | none => exact h
    | some p =>
      obtain ⟨b, hb, h⟩ := Option.bind_eq_some_iff.mp h
      exact Option.bind_eq_some_iff.mpr ⟨b, hm.read hb, h⟩
  | u32 => exact h
  | i32 => exact h
  | bytes =>
    rcases c with ⟨_ | p, len⟩
    · exact h
    · obtain ⟨b, hb, h⟩ := Option.bind_eq_some_iff.mp h
      exact Option.bind_eq_some_iff.mpr ⟨b, hm.read hb, h⟩

theorem FieldType.loadCell_zero (m : Memory) (t : FieldType) :
    t.loadCell m t.zeroCell = some t.zero := by
  cases t <;> rfl

theorem Cells.load_zero (m : Memory) (s : Schema) :
    Cells.load m s (Cells.zero s) = some (Struct.zero s) := by
  induction s with
  | nil => rfl
  | cons t ts ih =>
    simp only [Cells.load, Cells.zero, FieldType.loadCell_zero, ih, Struct.zero, Option.bind_some,
      Option.map_some]

theorem tlvReadBytes_false {p data : Bytes} {remain used : Nat}
    (h : tlvReadBytes false p remain = .ok (data, used)) : data = [] := by
  unfold tlvReadBytes at h
  split at h
  · cases h
  · split at h
    · cases h
    · split at h
      · next hlen =>
        cases h
        simp only [Bool.false_eq_true, false_or] at hlen
        rw [hlen, List.take_zero]
      · cases h

theorem parseCell_load {t : FieldType} {ok : Bool} {p : Bytes} {remain used : Nat} {m m' : Memory}
    {c : t.Cell} (h : parseCell o t ok p remain m = .ok (c, used, m')) :
    ∃ v, t.loadCell m' c = some v ∧ parseField o t ok p remain = .ok (v, used) := by
  cases t with
  | string =>
    obtain ⟨⟨s, used⟩, hread, h⟩ := Except.map_eq_ok h
    cases h
    refine ⟨(some s : Option Bytes), ?_, ?_⟩
    · apply Option.bind_eq_some_iff.mpr
      exact ⟨s ++ [0], Ledger.read_alloc m _, by simp⟩
    · rw [parseField, hread]
      rfl
  | u32 =>
    obtain ⟨⟨v, used⟩, hread, h⟩ := Except.map_eq_ok h
    cases h
    exact ⟨_, rfl, hread⟩
  | i32 =>
    obtain ⟨⟨v, used⟩, hread, h⟩ := Except.map_eq_ok h
    cases h
    exact ⟨_, rfl, hread⟩
  | bytes =>
    obtain ⟨⟨data, used⟩, hread, h⟩ := Except.map_eq_ok h
    cases ok with
    | true =>
      cases h
      refine ⟨data, ?_, hread⟩
      apply Option.bind_eq_some_iff.mpr
      exact ⟨data, Ledger.read_alloc m _, by simp⟩
    | false =>
      cases h
      refine ⟨data, ?_, hread⟩
      have hnil := tlvReadBytes_false hread
      subst hnil
      rfl

theorem parseCell_error {t : FieldType} {ok : Bool} {p : Bytes} {remain : Nat} {m : Memory}
    {e : ReadError} (h : parseCell o t ok p remain m = .error e) :
    parseField o t ok p remain = .error e := by
  have hread := h
  cases t with
  | string =>
    rw [parseField, Except.map_eq_error hread]
    rfl
  | u32 =>
    rw [parseField, Except.map_eq_error hread]
  | i32 =>
    rw [parseField, Except.map_eq_error hread]
  | bytes =>
    rw [parseField, Except.map_eq_error hread]

/-- The struct in memory is the struct that `parseFields` reads. -/
theorem parseCells_load {s : Schema} {ok : Nat → Bool} {p : Bytes} {remain rest : Nat}
    {m m' : Memory} {acc : Bool} {c : Cells s}
    (h : parseCells o s ok p remain m = some (acc, c, rest, m')) :
    ∃ v, Cells.load m' s c = some v ∧ parseFields o s ok p remain = some (acc, v, rest) := by
  induction s generalizing ok p remain m with
  | nil =>
    cases h
    exact ⟨(), rfl, rfl⟩
  | cons t ts ih =>
    unfold parseCells at h
    split at h
    · cases h
    · next hfield =>
      cases h
      refine ⟨(t.zero, Struct.zero ts), Cells.load_zero _ (t :: ts), ?_⟩
      rw [parseFields, parseCell_error hfield]
    · next c₁ used m₁ hfield =>
      obtain ⟨⟨acc₂, cs, rest₂, m₂⟩, hfields, h⟩ := Option.map_eq_some_iff.mp h
      cases h
      obtain ⟨v, hv, hread⟩ := parseCell_load hfield
      obtain ⟨vs, hvs, hreads⟩ := ih hfields
      refine ⟨(v, vs), ?_, ?_⟩
      · rw [Cells.load, FieldType.loadCell_later (parseCells_allocates hfields) hv, hvs]
        rfl
      · rw [parseFields, hread]
        simp only [hreads, Option.map_some]

theorem parseField_true (t : FieldType) (p : Bytes) (remain : Nat) :
    parseField o t true p remain ≠ .error .nullWrite := by
  cases hread : tlvRead p remain with
  | none =>
    cases t <;>
      simp [parseField, tlvReadString, tlvReadU32, tlvReadI32, tlvReadBytes, hread, Except.map]
  | some x =>
    obtain ⟨type, value, len⟩ := x
    cases t with
    | string =>
      by_cases htype : type = 2 <;> simp [parseField, tlvReadString, hread, htype, Except.map]
    | u32 =>
      by_cases hbad : type ≠ 1 ∨ len ≠ 4
      · simp [parseField, tlvReadU32, hread, if_pos hbad]
      · simp [parseField, tlvReadU32, hread, if_neg hbad]
    | i32 =>
      by_cases hbad : type ≠ 1 ∨ len ≠ 4
      · simp [parseField, tlvReadI32, hread, if_pos hbad]
      · simp [parseField, tlvReadI32, hread, if_neg hbad]
    | bytes => by_cases htype : type = 3 <;> simp [parseField, tlvReadBytes, hread, htype]

theorem parseCells_allOk (s : Schema) (p : Bytes) (remain : Nat) (m : Memory) :
    ∃ r, parseCells o s allOk p remain m = some r := by
  induction s generalizing p remain m with
  | nil => exact ⟨_, rfl⟩
  | cons t ts ih =>
    unfold parseCells
    split
    · next hfield => exact absurd (parseCell_error hfield) (parseField_true t _ _)
    · exact ⟨_, rfl⟩
    · next c used m₁ hfield =>
      obtain ⟨r, hr⟩ := ih (p.drop used) (remain - used) m₁
      exact ⟨_, Option.map_eq_some_iff.mpr ⟨r, hr, rfl⟩⟩

end CcRpc
