import CcRpc.MgAlloc

/-!
# Runs of a bump region

Rounding a request up and adding it to the offset are sums of `size_t` that nothing checks. A request
that makes the second one wrap is granted, and the offset goes back under what was handed out.
-/

namespace CcRpc

/-- Bytes handed out, 0 for a pool region. -/
def MgRegion.off : MgRegion → Nat
  | .bump b => b.off
  | .pool _ => 0

theorem MgRegion.off_bump (buf cap off : Nat) : (MgRegion.bump ⟨buf, cap, off⟩).off = off := rfl

/-- A request is a `size_t`. -/
def SizeT (w : WordSize) : RegionOp → Prop
  | .alloc size _ => size < 2 ^ w.bits
  | .reset => True

/-- The offset is in the buffer, and so are the results, which have no byte in common. -/
structure BumpSound (buf cap : Nat) (s : RegionSys) : Prop where
  region : ∃ off ≤ cap, s.region = .bump ⟨buf, cap, off⟩
  inside : ∀ x ∈ s.results, buf ≤ x.1 ∧ x.1 + x.2 ≤ buf + cap
  disjoint : s.results.Pairwise fun x y => Apart x.1 x.2 y.1 y.2

/-- The call leaves a sound region, and if it is no reset the offset is not less than before. -/
def BumpSafe (w : WordSize) (buf cap : Nat) (s : RegionSys) (op : RegionOp) : Prop :=
  ∃ s', regionStep w s op = some s' ∧ BumpSound buf cap s' ∧
    (op ≠ .reset → s.region.off ≤ s'.region.off)

/-- The offset plus the request, rounded up to 4, is a `size_t`. -/
def BumpFits (w : WordSize) (s : RegionSys) : RegionOp → Prop
  | .alloc size _ => s.region.off + (size + 3) / 4 * 4 < 2 ^ w.bits
  | .reset => True

/-- Sound, and all results end at or before the offset. -/
structure BumpInv (buf cap : Nat) (s : RegionSys) : Prop where
  sound : BumpSound buf cap s
  behind : ∀ x ∈ s.results, x.1 + x.2 ≤ buf + s.region.off

variable {w : WordSize} {buf cap off size : Nat} {answers : HeapAnswers} {s s' : RegionSys}
  {rs : List (Nat × Nat)}

theorem two_pow_bits_mod (w : WordSize) : 2 ^ w.bits % 4 = 0 := by
  cases w <;> decide

theorem regionStep_bump_zero :
    regionStep w ⟨.bump ⟨buf, cap, off⟩, rs⟩ (.alloc 0 answers) =
      some ⟨.bump ⟨buf, cap, off⟩, rs⟩ := by
  rw [regionStep, mgRegionAlloc, if_pos rfl]
  rfl

theorem regionStep_bump_null (hsize : size ≠ 0)
    (hnull : cap < w.sizeT (off + roundedBump w size)) :
    regionStep w ⟨.bump ⟨buf, cap, off⟩, rs⟩ (.alloc size answers) =
      some ⟨.bump ⟨buf, cap, off⟩, rs⟩ := by
  rw [regionStep, mgRegionAlloc, if_neg hsize]
  dsimp only
  rw [mgRegionAllocBump]
  dsimp only
  rw [if_pos hnull]
  rfl

theorem regionStep_bump_some (hsize : size ≠ 0)
    (hfits : w.sizeT (off + roundedBump w size) ≤ cap) :
    regionStep w ⟨.bump ⟨buf, cap, off⟩, rs⟩ (.alloc size answers) =
      some ⟨.bump ⟨buf, cap, w.sizeT (off + roundedBump w size)⟩, (buf + off, size) :: rs⟩ := by
  rw [regionStep, mgRegionAlloc, if_neg hsize]
  dsimp only
  rw [mgRegionAllocBump]
  dsimp only
  rw [if_neg (Nat.not_lt.mpr hfits)]
  rfl

theorem roundedBump_of_fits (hfits : (size + 3) / 4 * 4 < 2 ^ w.bits) :
    roundedBump w size = (size + 3) / 4 * 4 := by
  have hbits := two_pow_bits_mod w
  have hlt : size + 3 < 2 ^ w.bits := by omega
  rw [roundedBump_eq, WordSize.sizeT_of_lt hlt]

theorem roundedBump_wraps (hsize : size < 2 ^ w.bits) (hwraps : 2 ^ w.bits ≤ (size + 3) / 4 * 4) :
    roundedBump w size = 0 := by
  have hbits := two_pow_bits_mod w
  have hpos : 4 ≤ 2 ^ w.bits := by
    have hle := w.two_pow_le
    omega
  have hwrapped : w.sizeT (size + 3) = size + 3 - 2 ^ w.bits := by
    have hsum : size + 3 = size + 3 - 2 ^ w.bits + 2 ^ w.bits := by omega
    rw [WordSize.sizeT, hsum, Nat.add_mod_right, Nat.mod_eq_of_lt (by omega), Nat.add_sub_cancel]
  rw [roundedBump_eq, hwrapped]
  omega

theorem BumpInv.alloc (hI : BumpInv buf cap s)
    (hfits : BumpFits w s (.alloc size answers)) :
    ∃ s', regionStep w s (.alloc size answers) = some s' ∧ BumpInv buf cap s' ∧
      s.region.off ≤ s'.region.off := by
  obtain ⟨⟨off, hoff, hregion⟩, hinside, hdisjoint⟩ := hI.sound
  obtain ⟨region, rs⟩ := s
  dsimp only at hregion
  subst hregion
  rw [BumpFits, MgRegion.off_bump] at hfits
  rcases Nat.eq_zero_or_pos size with rfl | hpos
  · exact ⟨_, regionStep_bump_zero, hI, Nat.le_refl _⟩
  have hround : roundedBump w size = (size + 3) / 4 * 4 := roundedBump_of_fits (by omega)
  have hsum : w.sizeT (off + roundedBump w size) = off + (size + 3) / 4 * 4 := by
    rw [hround, WordSize.sizeT_of_lt hfits]
  by_cases hnull : cap < w.sizeT (off + roundedBump w size)
  · exact ⟨_, regionStep_bump_null hpos.ne' hnull, hI, Nat.le_refl _⟩
  have hle : w.sizeT (off + roundedBump w size) ≤ cap := Nat.not_lt.mp hnull
  refine ⟨_, regionStep_bump_some hpos.ne' hle, ⟨⟨⟨_, hle, rfl⟩, fun x hx => ?_, ?_⟩, fun x hx => ?_⟩, ?_⟩
  · rcases List.mem_cons.mp hx with rfl | hx
    · dsimp only
      omega
    · exact hinside x hx
  · refine List.pairwise_cons.mpr ⟨fun x hx => Or.inr ?_, hdisjoint⟩
    exact hI.behind x hx
  · rw [MgRegion.off_bump, hsum]
    rcases List.mem_cons.mp hx with rfl | hx
    · dsimp only
      omega
    · have hbehind := hI.behind x hx
      rw [MgRegion.off_bump] at hbehind
      omega
  · rw [MgRegion.off_bump, MgRegion.off_bump, hsum]
    exact Nat.le_add_right ..

theorem BumpInv.step (hI : BumpInv buf cap s) {op : RegionOp} (hfits : BumpFits w s op) :
    BumpSafe w buf cap s op ∧ ∃ s', regionStep w s op = some s' ∧ BumpInv buf cap s' := by
  cases op with
  | alloc size answers =>
    obtain ⟨s', hstep, hI', hle⟩ := hI.alloc hfits
    exact ⟨⟨s', hstep, hI'.sound, fun _ => hle⟩, s', hstep, hI'⟩
  | reset =>
    obtain ⟨off, -, hregion⟩ := hI.sound.region
    have hstep : regionStep w s .reset = some ⟨.bump ⟨buf, cap, 0⟩, []⟩ := by
      rw [regionStep, hregion]
      rfl
    have hsound : BumpSound buf cap ⟨.bump ⟨buf, cap, 0⟩, []⟩ :=
      ⟨⟨0, Nat.zero_le _, rfl⟩, by simp, by simp⟩
    exact ⟨⟨_, hstep, hsound, fun hne => absurd rfl hne⟩, _, hstep, hsound, by simp⟩

/-- A request that does not fit is granted: where the offset stays it is larger than the buffer, and
otherwise the offset goes back. -/
theorem BumpInv.fits_of_safe (hI : BumpInv buf cap s) (hcap : cap + 3 < 2 ^ w.bits) {op : RegionOp}
    (hop : SizeT w op) (hsafe : BumpSafe w buf cap s op) : BumpFits w s op := by
  obtain ⟨s', hstep, hsound, hkept⟩ := hsafe
  cases op with
  | reset => exact trivial
  | alloc size answers =>
    by_contra hfits
    obtain ⟨off, hoff, hregion⟩ := hI.sound.region
    obtain ⟨region, rs⟩ := s
    dsimp only at hregion
    subst hregion
    rw [BumpFits, MgRegion.off_bump, Nat.not_lt] at hfits
    rw [SizeT] at hop
    have hpos : size ≠ 0 := by
      rintro rfl
      omega
    rcases Nat.lt_or_ge ((size + 3) / 4 * 4) (2 ^ w.bits) with hlt | hge
    · -- the sum with the offset wraps
      have hsum : w.sizeT (off + roundedBump w size) = off + (size + 3) / 4 * 4 - 2 ^ w.bits := by
        have hback : off + (size + 3) / 4 * 4 =
            off + (size + 3) / 4 * 4 - 2 ^ w.bits + 2 ^ w.bits := by omega
        rw [roundedBump_of_fits hlt, WordSize.sizeT]
        conv_lhs => rw [hback]
        rw [Nat.add_mod_right, Nat.mod_eq_of_lt (by omega)]
      have hgranted : w.sizeT (off + roundedBump w size) ≤ cap := by omega
      rw [regionStep_bump_some hpos hgranted] at hstep
      cases hstep
      have hle := hkept (by simp)
      rw [MgRegion.off_bump, MgRegion.off_bump, hsum] at hle
      omega
    · -- the rounding wraps
      have hsum : w.sizeT (off + roundedBump w size) = off := by
        rw [roundedBump_wraps hop hge, Nat.add_zero, WordSize.sizeT_of_lt (by omega)]
      have hgranted : w.sizeT (off + roundedBump w size) ≤ cap := hsum.trans_le hoff
      rw [regionStep_bump_some hpos hgranted] at hstep
      cases hstep
      have hin := (hsound.inside _ List.mem_cons_self).2
      dsimp only at hin
      omega

/-- A run of a bump region is safe in every step if no request wraps, and only if, unless the capacity
itself is within 3 of 2^32 or 2^64. -/
theorem bump_safe_iff (w : WordSize) {cap buf r : Nat} {rest : HeapAnswers} {region : MgRegion}
    (hregion : mgRegionCreateBump cap (some r :: some buf :: rest) = (some region, rest))
    {ops : List RegionOp} (hops : ∀ op ∈ ops, SizeT w op) :
    BumpSound buf cap ⟨region, []⟩ ∧
      (Runs.Along (regionStep w) (BumpFits w) ⟨region, []⟩ ops →
        Runs.Along (regionStep w) (BumpSafe w buf cap) ⟨region, []⟩ ops) ∧
      (cap + 3 < 2 ^ w.bits →
        Runs.Along (regionStep w) (BumpSafe w buf cap) ⟨region, []⟩ ops →
          Runs.Along (regionStep w) (BumpFits w) ⟨region, []⟩ ops) := by
  cases hregion
  have hsound : BumpSound buf cap ⟨.bump ⟨buf, cap, 0⟩, []⟩ :=
    ⟨⟨0, Nat.zero_le _, rfl⟩, by simp, by simp⟩
  have hI : BumpInv buf cap ⟨.bump ⟨buf, cap, 0⟩, []⟩ := ⟨hsound, by simp⟩
  have hlegal : Runs.Along (regionStep w) (fun _ => SizeT w) ⟨.bump ⟨buf, cap, 0⟩, []⟩ ops :=
    Runs.along_of_forall hops
  refine ⟨hsound, Runs.along_imp (fun _ _ hI _ hfits => hI.step hfits) hI hlegal,
    fun hcap => ?_⟩
  · exact (Runs.along_iff (fun _ _ hI hop hsafe => hI.fits_of_safe hcap hop hsafe)
      (fun _ _ hI _ hfits => hI.step hfits) hI hlegal).mp

/-- A buffer of 64 bytes, two requests and a reset. -/
theorem bump_safe_iff_two :
    BumpSound 0x100100 64 ⟨.bump ⟨0x100100, 64, 0⟩, []⟩ ∧
      (Runs.Along (regionStep .w64) (BumpFits .w64) ⟨.bump ⟨0x100100, 64, 0⟩, []⟩
          [.alloc 5 [], .alloc 8 [], .reset] →
        Runs.Along (regionStep .w64) (BumpSafe .w64 0x100100 64) ⟨.bump ⟨0x100100, 64, 0⟩, []⟩
          [.alloc 5 [], .alloc 8 [], .reset]) ∧
      (64 + 3 < 2 ^ WordSize.w64.bits →
        Runs.Along (regionStep .w64) (BumpSafe .w64 0x100100 64) ⟨.bump ⟨0x100100, 64, 0⟩, []⟩
            [.alloc 5 [], .alloc 8 [], .reset] →
          Runs.Along (regionStep .w64) (BumpFits .w64) ⟨.bump ⟨0x100100, 64, 0⟩, []⟩
            [.alloc 5 [], .alloc 8 [], .reset]) := by
  have hregion : mgRegionCreateBump 64 [some 0x100010, some 0x100100] =
      (some (.bump ⟨0x100100, 64, 0⟩), []) := rfl
  apply bump_safe_iff .w64 hregion
  intro op hop
  simp only [List.mem_cons, List.not_mem_nil, or_false] at hop
  rcases hop with rfl | rfl | rfl
  · exact show 5 < 2 ^ 64 by decide
  · exact show 8 < 2 ^ 64 by decide
  · exact trivial

/-- A request of 2^64 - 32 bytes takes the offset back to the start, and the next one gets bytes that
are in use. -/
theorem bump_rewinds :
    Runs.run (regionStep .w64) ⟨.bump ⟨0x100100, 64, 0⟩, []⟩
        [.alloc 32 [], .alloc (2 ^ 64 - 32) [], .alloc 4 []] =
      some ⟨.bump ⟨0x100100, 64, 4⟩,
        [(0x100100, 4), (0x100120, 2 ^ 64 - 32), (0x100100, 32)]⟩ ∧
      ¬ BumpSound 0x100100 64 ⟨.bump ⟨0x100100, 64, 4⟩,
        [(0x100100, 4), (0x100120, 2 ^ 64 - 32), (0x100100, 32)]⟩ := by
  refine ⟨rfl, fun hsound => ?_⟩
  have hdisjoint := hsound.disjoint
  revert hdisjoint
  decide

end CcRpc
