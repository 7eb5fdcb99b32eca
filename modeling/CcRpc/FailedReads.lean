import CcRpc.FieldBuffers

/-!
# Reading without memory

`tlv_read_string` and `tlv_read_bytes` copy into what `heap_malloc` returned without looking at it.
Only an empty bytes field survives an allocation that fails. So a parser gets through an input, and
its struct can be freed, exactly when every buffer that the input needs is granted.
-/

namespace CcRpc

open Blocks

variable {o : ByteOrder}

/-- The reader of a field stores something in its buffer when the TLV has `len` bytes of data. -/
def FieldType.NeedsBuffer : FieldType → (len : Nat) → Prop
  | .string, _ => True
  | .u32, _ | .i32, _ => False
  | .bytes, len => len ≠ 0

instance (t : FieldType) (len : Nat) : Decidable (t.NeedsBuffer len) :=
  match t with
  | .string => inferInstanceAs (Decidable True)
  | .u32 | .i32 => inferInstanceAs (Decidable False)
  | .bytes => inferInstanceAs (Decidable (len ≠ 0))

/-- Every buffer that the fields of the input need is granted, up to the first field that is not
there; `ok i` is the outcome of the allocation for field `i`. -/
def BuffersGranted (o : ByteOrder) : (s : Schema) → (ok : Nat → Bool) → Bytes → Nat → Prop
  | [], _, _, _ => True
  | t :: ts, ok, p, remain =>
    match parseField o t true p remain with
    | .error _ => True
    | .ok (_, used) => (t.NeedsBuffer (used - 3) → ok 0 = true) ∧
      BuffersGranted o ts (fun i => ok (i + 1)) (p.drop used) (remain - used)

/-- The parser stores nothing through a failed allocation, returns -1 when one that it needed failed,
and leaves a struct that can be read and freed. -/
def Survives (o : ByteOrder) (s : Schema) (ok : Nat → Bool) (p : Bytes) (remain : Nat)
    (m : Memory) : Prop :=
  ∃ acc c rest m', parseCells o s ok p remain m = some (acc, c, rest, m') ∧
    (¬ BuffersGranted o s ok p remain → acc = false) ∧
    (∃ v, Cells.load m' s c = some v) ∧ ∃ m'', freeCells s c m' = some m''

theorem parseField_eq (t : FieldType) (ok : Bool) (p : Bytes) (remain : Nat) :
    parseField o t ok p remain =
      match parseField o t true p remain with
      | .error e => .error e
      | .ok (v, used) =>
        if t.NeedsBuffer (used - 3) ∧ ok = false then .error .nullWrite else .ok (v, used) := by
  cases ok with
  | true =>
    cases parseField o t true p remain with
    | error e => rfl
    | ok vu => simp
  | false =>
    cases hread : tlvRead p remain with
    | none =>
      cases t <;>
        simp [parseField, tlvReadString, tlvReadU32, tlvReadI32, tlvReadBytes, hread, Except.map]
    | some r =>
      obtain ⟨type, value, len⟩ := r
      cases t with
      | string =>
        by_cases htype : type = 2 <;>
          simp [parseField, tlvReadString, hread, htype, Except.map, FieldType.NeedsBuffer]
      | u32 =>
        by_cases hbad : type ≠ 1 ∨ len ≠ 4
        · simp [parseField, tlvReadU32, hread, if_pos hbad]
        · simp [parseField, tlvReadU32, hread, if_neg hbad, FieldType.NeedsBuffer]
      | i32 =>
        by_cases hbad : type ≠ 1 ∨ len ≠ 4
        · simp [parseField, tlvReadI32, hread, if_pos hbad]
        · simp [parseField, tlvReadI32, hread, if_neg hbad, FieldType.NeedsBuffer]
      | bytes =>
        by_cases htype : type = 3
        · by_cases hlen : len = 0 <;>
            simp [parseField, tlvReadBytes, hread, htype, hlen, FieldType.NeedsBuffer]
        · simp [parseField, tlvReadBytes, hread, htype]

/-- The parser gets to its end exactly when no store goes through NULL. -/
theorem parseCells_isSome_iff (s : Schema) (ok : Nat → Bool) (p : Bytes) (remain : Nat)
    (m : Memory) :
    (∃ r, parseCells o s ok p remain m = some r) ↔ BuffersGranted o s ok p remain := by
  induction s generalizing ok p remain m with
  | nil => exact iff_of_true ⟨_, rfl⟩ trivial
  | cons t ts ih =>
    have hfield := parseField_eq (o := o) t (ok 0) p remain
    unfold parseCells BuffersGranted
    cases hcell : parseCell o t (ok 0) p remain m with
    | error e =>
      rw [parseCell_error hcell] at hfield
      cases htrue : parseField o t true p remain with
      | error e' =>
        rw [htrue, Except.error.injEq] at hfield
        cases e with
        | rejected => exact iff_of_true ⟨_, rfl⟩ trivial
        | nullWrite => exact absurd (htrue.trans (by rw [← hfield])) (parseField_true t _ _)
      | ok vu =>
        rw [htrue] at hfield
        dsimp only at hfield
        split at hfield
        · next hfails =>
          rw [Except.error.injEq] at hfield
          subst hfield
          apply iff_of_false
          · intro hsome
            obtain ⟨r, hr⟩ := hsome
            cases hr
          · intro hgranted
            have hok := hgranted.1 hfails.1
            rw [hfails.2] at hok
            cases hok
        · cases hfield
    | ok cum =>
      obtain ⟨c, used, m₁⟩ := cum
      obtain ⟨v, -, hread⟩ := parseCell_load hcell
      rw [hread] at hfield
      cases htrue : parseField o t true p remain with
      | error e =>
        rw [htrue] at hfield
        cases hfield
      | ok vu =>
        obtain ⟨v', used'⟩ := vu
        rw [htrue] at hfield
        dsimp only at hfield
        split at hfield
        · cases hfield
        · next hneeds =>
          rw [Except.ok.injEq, Prod.mk.injEq] at hfield
          obtain ⟨rfl, rfl⟩ := hfield
          have hok : t.NeedsBuffer (used - 3) → ok 0 = true := by
            intro hneed
            by_contra hfalse
            exact hneeds ⟨hneed, Bool.eq_false_iff.mpr hfalse⟩
          dsimp only
          rw [← ih, and_iff_right hok]
          constructor
          · intro hsome
            obtain ⟨r, hr⟩ := hsome
            obtain ⟨r', hr', -⟩ := Option.map_eq_some_iff.mp hr
            exact ⟨r', hr'⟩
          · intro hsome
            obtain ⟨r, hr⟩ := hsome
            exact ⟨_, Option.map_eq_some_iff.mpr ⟨r, hr, rfl⟩⟩

/-- A parser survives failing allocations if and only if none fails that the input needs. -/
theorem survives_iff (o : ByteOrder) (s : Schema) (ok : Nat → Bool) (p : Bytes) (remain : Nat)
    (m : Memory) : Survives o s ok p remain m ↔ BuffersGranted o s ok p remain := by
  constructor
  · intro hsurvives
    obtain ⟨acc, c, rest, m', hparse, -⟩ := hsurvives
    exact (parseCells_isSome_iff s ok p remain m).mp ⟨_, hparse⟩
  · intro hgranted
    obtain ⟨⟨acc, c, rest, m'⟩, hparse⟩ := (parseCells_isSome_iff s ok p remain m).mpr hgranted
    obtain ⟨v, hv, -⟩ := parseCells_load hparse
    refine ⟨acc, c, rest, m', hparse, fun hno => absurd hgranted hno, ⟨v, hv⟩, ?_⟩
    rw [freeCells_eq]
    exact (parseCells_allocates hparse).freeAll

/-- One string field, the TLV of the string `a`, and an allocation that fails: the reader stores the
string at NULL. -/
theorem string_nullWrite :
    ¬ Survives .little [.string] (fun _ => false) [0x02, 1, 0, 0x61] 4 Ledger.empty := by
  intro hsurvives
  obtain ⟨acc, c, rest, m', hparse, -⟩ := hsurvives
  cases hparse

end CcRpc
