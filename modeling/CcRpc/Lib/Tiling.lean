import Mathlib

/-!
# Tilings of an interval

A list of blocks tiles an interval when each block begins where the one before it ends.
-/

namespace Tiling

variable {β : Type} (addr size : β → Nat)

/-- The blocks cover `[a, b)` in order, without gap or overlap. -/
def Tiles : Nat → List β → Nat → Prop
  | a, [], b => a = b
  | a, x :: xs, b => addr x = a ∧ Tiles (a + size x) xs b

variable {addr size} {a b : Nat} {xs ys : List β}

theorem tiles_append : Tiles addr size a (xs ++ ys) b ↔
    ∃ m, Tiles addr size a xs m ∧ Tiles addr size m ys b := by
  induction xs generalizing a with
  | nil => simp [Tiles]
  | cons x xs ih => simp only [List.cons_append, Tiles, ih, and_assoc, exists_and_left]

theorem Tiles.le (h : Tiles addr size a xs b) : a ≤ b := by
  induction xs generalizing a with
  | nil => exact Nat.le_of_eq h
  | cons x xs ih =>
    have := ih h.2
    omega

theorem Tiles.sum (h : Tiles addr size a xs b) : a + (xs.map size).sum = b := by
  induction xs generalizing a with
  | nil => exact h
  | cons x xs ih =>
    have hrest := ih h.2
    rw [List.map_cons, List.sum_cons]
    omega

theorem Tiles.bounds (h : Tiles addr size a xs b) {x : β} (hx : x ∈ xs) :
    a ≤ addr x ∧ addr x + size x ≤ b := by
  induction xs generalizing a with
  | nil => cases hx
  | cons y ys ih =>
    have hle := h.2.le
    rcases List.mem_cons.mp hx with rfl | hx
    · rw [h.1]
      exact ⟨Nat.le_refl _, hle⟩
    · have := ih h.2 hx
      omega

theorem Tiles.pairwise (h : Tiles addr size a xs b) :
    xs.Pairwise fun x y => addr x + size x ≤ addr y := by
  induction xs generalizing a with
  | nil => exact List.Pairwise.nil
  | cons x xs ih =>
    refine List.Pairwise.cons ?_ (ih h.2)
    intro y hy
    have := (h.2.bounds hy).1
    rw [h.1]
    exact this

theorem Tiles.around {x : β} (h : Tiles addr size a (xs ++ x :: ys) b) :
    (∀ y ∈ xs, addr y + size y ≤ addr x) ∧ ∀ y ∈ ys, addr x + size x ≤ addr y := by
  obtain ⟨m, hxs, hx⟩ := tiles_append.mp h
  rw [hx.1]
  exact ⟨fun y hy => (hxs.bounds hy).2, fun y hy => (hx.2.bounds hy).1⟩

theorem Tiles.eq_or_apart (h : Tiles addr size a xs b) {x y : β} (hx : x ∈ xs) (hy : y ∈ xs) :
    x = y ∨ addr x + size x ≤ addr y ∨ addr y + size y ≤ addr x := by
  induction xs generalizing a with
  | nil => cases hx
  | cons z zs ih =>
    have hz := h.1
    rcases List.mem_cons.mp hx with hxz | hxs <;> rcases List.mem_cons.mp hy with hyz | hys
    · exact Or.inl (hxz.trans hyz.symm)
    · have := (h.2.bounds hys).1
      rw [hxz]
      omega
    · have := (h.2.bounds hxs).1
      rw [hyz]
      omega
    · exact ih h.2 hxs hys

theorem Tiles.dvd_addr (h : Tiles addr size a xs b) {k : Nat} (ha : k ∣ a)
    (hk : ∀ x ∈ xs, k ∣ size x) {x : β} (hx : x ∈ xs) : k ∣ addr x := by
  induction xs generalizing a with
  | nil => cases hx
  | cons y ys ih =>
    rcases List.mem_cons.mp hx with hxy | hxs
    · rw [hxy, h.1]
      exact ha
    · have hy := hk y (by simp)
      exact ih h.2 (Nat.dvd_add ha hy) (fun z hz => hk z (by simp [hz])) hxs

theorem Tiles.length_mul_le (h : Tiles addr size a xs b) {k : Nat} (hk : ∀ x ∈ xs, k ≤ size x) :
    a + xs.length * k ≤ b := by
  induction xs generalizing a with
  | nil => simpa using h.le
  | cons x xs ih =>
    have hx := hk x (by simp)
    have hrest := ih h.2 fun y hy => hk y (by simp [hy])
    rw [List.length_cons, Nat.succ_mul]
    omega

theorem tiles_map {γ : Type} {f : β → γ} {addr' size' : γ → Nat} (ha : ∀ x ∈ xs, addr' (f x) = addr x)
    (hs : ∀ x ∈ xs, size' (f x) = size x) :
    Tiles addr' size' a (xs.map f) b ↔ Tiles addr size a xs b := by
  induction xs generalizing a with
  | nil => rfl
  | cons x xs ih =>
    have hrest := ih (a := a + size x) (fun y hy => ha y (by simp [hy])) fun y hy => hs y (by simp [hy])
    simp only [List.map_cons, Tiles, ha x (by simp), hs x (by simp), hrest]

theorem Tiles.cover (h : Tiles addr size a xs b) {p : Nat} (hap : a ≤ p) (hpb : p < b) :
    ∃ pre x post, xs = pre ++ x :: post ∧ addr x ≤ p ∧ p < addr x + size x := by
  induction xs generalizing a with
  | nil =>
    have heq : a = b := h
    omega
  | cons x xs ih =>
    by_cases hx : p < a + size x
    · refine ⟨[], x, xs, rfl, ?_, ?_⟩
      · rw [h.1]
        exact hap
      · rw [h.1]
        exact hx
    · obtain ⟨pre, y, post, rfl, hy⟩ := ih h.2 (Nat.le_of_not_lt hx)
      exact ⟨x :: pre, y, post, rfl, hy⟩

/-- `[a, a + n)` is a longest interval inside `[lo, hi)` all of whose points have `P`. -/
structure MaximalRun (P : Nat → Prop) (lo hi a n : Nat) : Prop where
  pos : 0 < n
  lower : lo ≤ a
  upper : a + n ≤ hi
  all : ∀ p, a ≤ p → p < a + n → P p
  left : lo < a → ¬ P (a - 1)
  right : a + n < hi → ¬ P (a + n)

variable {P : Nat → Prop} {mark : β → Prop} {lo hi n : Nat}

/-- Where no two neighbours are marked, the marked blocks of a tiling are the maximal runs of the points
that lie in a marked block. -/
theorem Tiles.maximalRun_iff (h : Tiles addr size lo xs hi) (hpos : ∀ x ∈ xs, 0 < size x)
    (hP : ∀ x ∈ xs, ∀ p, addr x ≤ p → p < addr x + size x → (P p ↔ mark x))
    (hapart : xs.IsChain fun x y => mark x → ¬ mark y) :
    MaximalRun P lo hi a n ↔ ∃ x ∈ xs, mark x ∧ addr x = a ∧ size x = n := by
  constructor
  · intro hrun
    have hn := hrun.pos
    have hlower := hrun.lower
    have hupper := hrun.upper
    obtain ⟨pre, x, post, rfl, hxa, hax⟩ := h.cover hrun.lower (p := a) (by omega)
    have hx : x ∈ pre ++ x :: post := by simp
    have hbounds := h.bounds hx
    have hmark : mark x := (hP x hx a hxa hax).mp (hrun.all a (Nat.le_refl a) (by omega))
    have haddr : addr x = a := by
      by_contra hne
      refine hrun.left (by omega) ((hP x hx (a - 1) (by omega) (by omega)).mpr hmark)
    refine ⟨x, hx, hmark, haddr, ?_⟩
    rcases Nat.lt_trichotomy (size x) n with hlt | heq | hgt
    · -- the run goes on into the next block, which would be marked too
      obtain ⟨m, -, htail⟩ := tiles_append.mp h
      cases post with
      | nil =>
        have hend : m + size x = hi := htail.2
        have hstart := htail.1
        omega
      | cons y ys =>
        have hstart := htail.1
        have hy : addr y = m + size x := htail.2.1
        have hymem : y ∈ pre ++ x :: y :: ys := by simp
        have hypos := hpos y hymem
        have hymark : mark y :=
          (hP y hymem (addr y) (Nat.le_refl _) (by omega)).mp (hrun.all _ (by omega) (by omega))
        exact absurd hymark ((List.isChain_append_cons_cons.mp hapart).2.1 hmark)
    · exact heq
    · exact absurd ((hP x hx (a + n) (by omega) (by omega)).mpr hmark) (hrun.right (by omega))
  · rintro ⟨x, hx, hmark, rfl, rfl⟩
    have hxpos := hpos x hx
    have hbounds := h.bounds hx
    obtain ⟨pre, post, rfl⟩ := List.append_of_mem hx
    obtain ⟨m, hpre, htail⟩ := tiles_append.mp h
    refine ⟨hxpos, hbounds.1, hbounds.2, ?_, ?_, ?_⟩
    · intro p hxp hpx
      exact (hP x hx p hxp hpx).mpr hmark
    · intro hlo
      rcases List.eq_nil_or_concat pre with rfl | ⟨ys, y, rfl⟩
      · have hstart := htail.1
        have heq : lo = m := hpre
        omega
      · rw [List.concat_eq_append] at *
        have hy : y ∈ ys ++ [y] ++ x :: post := by simp
        have hypos := hpos y hy
        obtain ⟨k, -, hyend⟩ := tiles_append.mp hpre
        have hend : k + size y = m := hyend.2
        have hyaddr := hyend.1
        have hstart := htail.1
        rw [List.append_assoc] at hapart
        intro hp
        have hymark := (hP y hy _ (by omega) (by omega)).mp hp
        exact (List.isChain_append_cons_cons.mp hapart).2.1 hymark hmark
    · intro hlt
      cases post with
      | nil =>
        have hend : m + size x = hi := htail.2
        have hstart := htail.1
        omega
      | cons y ys =>
        have hy : y ∈ pre ++ x :: y :: ys := by simp
        have hypos := hpos y hy
        have hstart := htail.1
        have hyaddr : addr y = m + size x := htail.2.1
        intro hp
        have hymark := (hP y hy _ (by omega) (by omega)).mp hp
        exact (List.isChain_append_cons_cons.mp hapart).2.1 hmark hymark

end Tiling
