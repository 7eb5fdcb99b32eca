import CcRpc.RbtreeShape

/-!
# The repairs (`rb_insert_color`, `rb_erase_color`)

On a tree in memory both loops end, dereference no NULL, and leave the repaired tree there.
-/

namespace CcRpc

open RedBlack RedBlack.ColorTree

variable {S : Rb} {p : Spine Nat} {s s' : Side} {c d : Color} {a x g : Nat} {n : Nat} {b : Bool}
  {t near far sib uncle : ColorTree Nat}

theorem Rb.Holds.roots_ne (h : S.Holds (plug p (join s c near a far)))
    (hne : near ≠ .leaf ∨ far ≠ .leaf) : far.root? ≠ near.root? := by
  intro heq
  obtain ⟨htnodup, -, -⟩ := nodup_plug.mp h.nodup
  obtain ⟨-, -, -, -, hapart⟩ := nodup_join.mp htnodup
  cases hroot : near.root? with
  | none =>
    rw [hroot] at heq
    rcases hne with hnear | hfar
    · exact hnear (root?_eq_none.mp hroot)
    · exact hfar (root?_eq_none.mp heq)
  | some y =>
    rw [hroot] at heq
    exact hapart y (mem_of_root? hroot) (mem_of_root? heq)

theorem Rb.Holds.side (h : S.Holds (plug p (join s c near a far)))
    (hne : near ≠ .leaf ∨ far ≠ .leaf) :
    (if S.child .left a = near.root? then Side.left else .right) = s := by
  obtain ⟨-, -, hnear, hfar⟩ := h.read
  cases s with
  | left => exact if_pos hnear
  | right =>
    apply if_neg
    rw [show Side.left = Side.right.other from rfl, hfar]
    exact h.roots_ne hne

theorem Rb.Holds.parent_root (h : S.Holds (plug p t)) (hx : t.root? = some x) :
    S.parent x = p.root? := by
  obtain ⟨near, y, far, ht⟩ := exists_join .left (ne_leaf_of_root? hx) rfl
  rw [ht, root?_join] at hx
  obtain rfl := Option.some.inj hx
  exact (ht ▸ h).read.1

theorem Rb.Holds.above {f : Frame Nat} (h : S.Holds (plug (f :: p) t)) (hx : t.root? = some x) :
    S.parent x = some f.elem ∧ S.color f.elem = f.color := by
  obtain ⟨-, hcolor, -, -⟩ := Rb.Holds.read (p := p) h
  exact ⟨h.parent_root hx, hcolor⟩

theorem rbInsertColor_stop (fuel : Nat) {T : ColorTree Nat} (h : S.Holds T) (hne : T ≠ .leaf)
    (hparent : (S.parent x).filter (fun parent => S.color parent = .red) = none) :
    ∃ S', rbInsertColor (fuel + 1) x S = some S' ∧ S.Moves S' T (T.paint .black) := by
  cases hroot : T.root? with
  | none => exact absurd (root?_eq_none.mp hroot) hne
  | some top =>
    refine ⟨S.setColor top .black, ?_, Rb.Holds.setColor (p := []) h hroot⟩
    rw [rbInsertColor, hparent]
    dsimp only
    rw [h.root, hroot]
    rfl

theorem rbInsertTurn_outer (h : S.Holds (plug p (join s c t a sib))) (hx : t.root? = some x) :
    rbInsertTurn s x a S = some (x, a, S) := by
  obtain ⟨-, -, -, hother⟩ := h.read
  have hroots := h.roots_ne (.inl (ne_leaf_of_root? hx))
  unfold rbInsertTurn
  rw [hother, ← hx, if_neg hroots]
  rfl

theorem rbInsertTurn_inner (h : S.Holds (plug p (join s.other c (join s d near x far) a sib))) :
    ∃ S', rbInsertTurn s x a S = some (a, x, S') ∧
      S.Moves S' (plug p (join s.other c (join s d near x far) a sib))
        (plug p (join s d (join s c sib a near) x far)) := by
  rw [join_other] at h ⊢
  obtain ⟨-, -, -, hother⟩ := h.read
  obtain ⟨S', hrun, hmoves⟩ := h.rotate
  refine ⟨S', ?_, hmoves⟩
  unfold rbInsertTurn
  rw [hother, root?_join, if_pos rfl, hrun]
  rfl

/-- With a black uncle the grandparent comes down on the other side of its child. -/
theorem rbInsertFix_black {S₁ : Rb} {x' y : Nat} (hread : S.child s.other g = uncle.root?)
    (hisBlack : S.isBlack uncle.root? = true)
    (hturn : rbInsertTurn s x a S = some (x', y, S₁))
    (h : S₁.Holds (plug p (join s c (join s d near y far) g uncle))) :
    ∃ S', rbInsertFix s x a g S = some (x', S') ∧
      S₁.Moves S' (plug p (join s c (join s d near y far) g uncle))
        (plug p (join s .black near y (join s .red far g uncle))) := by
  have h₁ := h.setColor_near .black
  have h₂ := h₁.holds.setColor_join .red
  obtain ⟨S', hrun, h₃⟩ := h₂.holds.rotate_other
  refine ⟨S', ?_, (h₁.trans h₂).trans h₃⟩
  unfold rbInsertFix
  dsimp only
  rw [hread, hisBlack, if_pos rfl, hturn]
  dsimp only [bind, Option.bind]
  rw [hrun]
  rfl

/-- With a red uncle only colours change, and the repair goes on at the grandparent. -/
theorem rbInsertFix_red (h : S.Holds (plug p (join s d (join s' c t a sib) g uncle)))
    (hred : uncle.color = .red) :
    ∃ S', rbInsertFix s x a g S = some (g, S') ∧
      S.Moves S' (plug p (join s d (join s' c t a sib) g uncle))
        (plug p (join s .red (join s' .black t a sib) g (uncle.paint .black))) := by
  obtain ⟨-, -, -, hread⟩ := h.read
  have huncle : S.Holds (plug (⟨s.other, d, g, join s' c t a sib⟩ :: p) uncle) := by
    rw [plug_other]
    exact h
  have h₁ := h.blacken_far
  have h₂ := h₁.holds.setColor_near .black
  have h₃ := h₂.holds.setColor_join .red
  refine ⟨_, ?_, (h₁.trans h₂).trans h₃⟩
  unfold rbInsertFix
  dsimp only
  rw [hread, huncle.isBlack, hred]
  rfl

theorem rbInsertColor_black (fuel : Nat) {f : Frame Nat} (h : S.Holds (plug (f :: p) t))
    (hx : t.root? = some x) (hblack : f.color = .black) :
    ∃ S', rbInsertColor (fuel + 1) x S = some S' ∧
      S.Moves S' (plug (f :: p) t) ((plug (f :: p) t).paint .black) := by
  obtain ⟨hparent, hcolor⟩ := h.above hx
  apply rbInsertColor_stop fuel h
  · intro hleaf
    obtain ⟨y, hroot, -⟩ := root?_plug (List.cons_ne_nil f p) t
    rw [hleaf] at hroot
    cases hroot
  · rw [hparent]
    simp [hcolor, hblack]

theorem rbInsertColor_red {fuel : Nat} {s s' : Side} {c : Color}
    (h : S.Holds (plug p (join s' c (join s .red t a sib) g uncle))) (hx : t.root? = some x) :
    rbInsertColor (fuel + 1) x S =
      (rbInsertFix s' x a g S).bind fun r => rbInsertColor fuel r.1 r.2 := by
  have hparent := Rb.Holds.above (p := ⟨s', c, g, uncle⟩ :: p) (f := ⟨s, .red, a, sib⟩) h hx
  have hgrand := Rb.Holds.above (p := p) (f := ⟨s', c, g, uncle⟩) h (root?_join ..)
  have hne : join s .red t a sib ≠ .leaf := ne_leaf_of_red (color_join ..)
  have hside := h.side (.inl hne)
  rw [root?_join] at hside
  rw [rbInsertColor, hparent.1]
  simp only [Option.filter, hparent.2, decide_true, if_true]
  rw [hgrand.1]
  dsimp only [bind, Option.bind]
  rw [hside]

/-- `rb_insert_color` on a red node under a path that a valid tree could have. -/
theorem rbInsertColor_spec {fuel : Nat} (h : S.Holds (plug p t)) (hx : t.root? = some x)
    (hred : t.color = .red) (hole : Hole b n p) (hfuel : p.length < fuel) :
    ∃ S' T, rbInsertColor fuel x S = some S' ∧ Inserts p t T ∧ S.Moves S' (plug p t) T := by
  induction fuel generalizing S p t x b n with
  | zero => cases hfuel
  | succ fuel ih =>
    cases hole with
    | root =>
      have hparent := Rb.Holds.parent_root (p := []) h hx
      obtain ⟨S', hrun, hmoves⟩ := rbInsertColor_stop fuel h (ne_leaf_of_red hred)
        (by rw [hparent]; rfl)
      exact ⟨S', _, hrun, .stop (fun f hf => by cases hf), hmoves⟩
    | black hsib hole =>
      obtain ⟨S', hrun, hmoves⟩ := rbInsertColor_black fuel h hx rfl
      exact ⟨S', _, hrun, .stop (fun f hf => by cases hf; rfl), hmoves⟩
    | @red n s a sib p hsib hole =>
      cases hole with
      | @black n b c' s' g uncle p huncle hole =>
        have h' : S.Holds (plug p (join s' .black (join s .red t a sib) g uncle)) := h
        simp only [List.length_cons] at hfuel
        rw [rbInsertColor_red h' hx]
        by_cases hcolor : uncle.color = .red
        · obtain ⟨S₁, hfix, hmoves₁⟩ := rbInsertFix_red (x := x) h' hcolor
          rw [hfix]
          obtain ⟨S', T, hrun, hT, hmoves⟩ := ih hmoves₁.holds (root?_join ..) (color_join ..) hole
            (by omega)
          exact ⟨S', T, hrun, .recolor hcolor hT, hmoves₁.trans hmoves⟩
        · have hblack := Color.eq_black_of_ne hcolor
          obtain ⟨fuel, rfl⟩ : ∃ k, fuel = k + 1 := ⟨fuel - 1, by omega⟩
          obtain ⟨-, -, -, hread⟩ := h'.read
          have hisBlack : S.isBlack uncle.root? = true := by
            rw [← plug_other] at h'
            rw [h'.isBlack, hblack]
            rfl
          by_cases hs : s = s'
          · subst hs
            have hturn := rbInsertTurn_outer (p := ⟨s, .black, g, uncle⟩ :: p) h hx
            obtain ⟨S₁, hfix, hmoves₁⟩ := rbInsertFix_black hread hisBlack hturn h'
            rw [hfix]
            obtain ⟨S', hrun, hmoves⟩ := rbInsertColor_black fuel
              (f := ⟨s, .black, a, join s .red sib g uncle⟩) hmoves₁.holds hx rfl
            exact ⟨S', _, hrun, .outer hblack, hmoves₁.trans hmoves⟩
          · obtain rfl := Side.eq_other_of_ne hs
            obtain ⟨near, y, far, rfl⟩ := exists_join s' (ne_leaf_of_red hred) hred
            rw [root?_join] at hx
            obtain rfl := Option.some.inj hx
            obtain ⟨S₀, hturn, hmoves₀⟩ :=
              rbInsertTurn_inner (p := ⟨s', .black, g, uncle⟩ :: p) h
            obtain ⟨S₁, hfix, hmoves₁⟩ := rbInsertFix_black hread hisBlack hturn hmoves₀.holds
            rw [hfix]
            obtain ⟨S', hrun, hmoves⟩ := rbInsertColor_black fuel
              (f := ⟨s', .black, y, join s' .red far g uncle⟩) hmoves₁.holds (root?_join ..) rfl
            exact ⟨S', _, hrun, .inner hblack, (hmoves₀.trans hmoves₁).trans hmoves⟩

theorem Rb.Holds.children_black (h : S.Holds (plug p (join s c near a far))) :
    (S.isBlack (S.child .left a) = true ∧ S.isBlack (S.child .right a) = true) ↔
      near.color = .black ∧ far.color = .black := by
  obtain ⟨-, -, hn, hf⟩ := h.read
  have hnear := Rb.Holds.isBlack (p := ⟨s, c, a, far⟩ :: p) h
  rw [← plug_other] at h
  have hfar := h.isBlack
  cases s with
  | left =>
    rw [hn, show S.child .right a = far.root? from hf, hnear, hfar]
    simp
  | right =>
    rw [hn, show S.child .left a = far.root? from hf, hnear, hfar]
    simp [and_comm]

theorem rbEraseSibling_black {w : Nat}
    (h : S.Holds (plug p (join s c t a (join s .black near w far)))) :
    rbEraseSibling s a S = some (w, S) := by
  obtain ⟨-, -, -, hother⟩ := h.read
  rw [← plug_other] at h
  obtain ⟨-, hcolor, -, -⟩ := h.read
  unfold rbEraseSibling
  rw [hother, root?_join]
  dsimp only [bind, Option.bind]
  rw [hcolor, if_neg (by decide)]
  rfl

theorem rbEraseSibling_red {w y : Nat} {n₂ f₂ : ColorTree Nat} {d : Color}
    (h : S.Holds (plug p (join s c t a (join s .red (join s d n₂ y f₂) w far)))) :
    ∃ S', rbEraseSibling s a S = some (y, S') ∧
      S.Moves S' (plug p (join s c t a (join s .red (join s d n₂ y f₂) w far)))
        (plug p (join s .black (join s .red t a (join s d n₂ y f₂)) w far)) := by
  obtain ⟨-, -, -, hother⟩ := h.read
  have hsib := h
  rw [← plug_other] at hsib
  obtain ⟨-, hcolor, -, -⟩ := hsib.read
  have h₁ := h.setColor_far .black
  have h₂ := h₁.holds.setColor_join .red
  obtain ⟨S', hrun, h₃⟩ := h₂.holds.rotate
  obtain ⟨-, -, -, hother'⟩ := Rb.Holds.read (p := ⟨s, .black, w, far⟩ :: p) h₃.holds
  refine ⟨S', ?_, (h₁.trans h₂).trans h₃⟩
  unfold rbEraseSibling
  rw [hother, root?_join]
  dsimp only [bind, Option.bind]
  rw [hcolor, if_pos rfl, hrun]
  dsimp only [bind, Option.bind]
  rw [hother', root?_join]
  rfl

theorem rbEraseTurn_far {w : Nat} (h : S.Holds (plug p (join s c t a (join s .black near w far))))
    (hfar : far.color = .red) : rbEraseTurn s a w S = some (w, S) := by
  rw [← plug_other] at h
  obtain ⟨-, -, -, hother⟩ := h.read
  rw [← plug_other] at h
  have hisBlack : S.isBlack far.root? = false := by
    rw [h.isBlack, hfar]
    rfl
  unfold rbEraseTurn
  rw [hother, hisBlack]
  rfl

theorem rbEraseTurn_near {w y : Nat} {m : ColorTree Nat}
    (h : S.Holds (plug p (join s c t a (join s .black (join s .red near y m) w far))))
    (hfar : far.color = .black) :
    ∃ S', rbEraseTurn s a w S = some (y, S') ∧
      S.Moves S' (plug p (join s c t a (join s .black (join s .red near y m) w far)))
        (plug p (join s c t a (join s .black near y (join s .red m w far)))) := by
  have hw := h
  rw [← plug_other] at hw
  obtain ⟨-, -, hchild, hother⟩ := hw.read
  have hf := hw
  rw [← plug_other] at hf
  have hisBlack : S.isBlack far.root? = true := by
    rw [hf.isBlack, hfar]
    rfl
  have h₁ := hw.blacken_near
  have h₂ := h₁.holds.setColor_join .red
  rw [paint_join] at h₁ h₂
  obtain ⟨S', hrun, h₃⟩ := h₂.holds.rotate_other
  have hmoves := (h₁.trans h₂).trans h₃
  rw [plug_other, plug_other] at hmoves
  obtain ⟨-, -, -, hother'⟩ := hmoves.holds.read
  refine ⟨S', ?_, hmoves⟩
  unfold rbEraseTurn
  rw [hother, hisBlack, if_pos rfl, hchild]
  dsimp only [bind, Option.bind]
  rw [hrun]
  dsimp only [bind, Option.bind]
  rw [hother', root?_join]
  rfl

theorem rbEraseFix_rotates {S₁ S₂ : Rb} {w y : Nat} (hsib : rbEraseSibling s a S = some (w, S₁))
    (hred : ¬ (S₁.isBlack (S₁.child .left w) ∧ S₁.isBlack (S₁.child .right w)))
    (hturn : rbEraseTurn s a w S₁ = some (y, S₂))
    (h : S₂.Holds (plug p (join s c t a (join s d near y far)))) :
    ∃ S', rbEraseFix s a S = some (none, S') ∧
      S₂.Moves S' (plug p (join s c t a (join s d near y far)))
        (plug p (join s c (join s .black t a near) y (far.paint .black))) := by
  have hcolor := h.read.2.1
  have h₁ := h.setColor_far c
  have h₂ := h₁.holds.setColor_join .black
  have hy := h₂.holds
  rw [← plug_other] at hy
  obtain ⟨-, -, -, hother⟩ := hy.read
  have h₃ := hy.blacken_far
  rw [plug_other, plug_other] at h₃
  obtain ⟨S', hrun, h₄⟩ := h₃.holds.rotate
  refine ⟨S', ?_, ((h₁.trans h₂).trans h₃).trans h₄⟩
  unfold rbEraseFix
  rw [hsib]
  dsimp only [bind, Option.bind]
  rw [if_neg hred, hturn]
  dsimp only [bind, Option.bind]
  rw [hcolor, hother, hrun]
  rfl

theorem rbEraseFix_recolors {S₁ : Rb} {w : Nat} (hsib : rbEraseSibling s a S = some (w, S₁))
    (h : S₁.Holds (plug p (join s c t a (join s .black near w far))))
    (hblack : near.color = .black ∧ far.color = .black) :
    ∃ S', rbEraseFix s a S = some (some (a, p.root?), S') ∧
      S₁.Moves S' (plug p (join s c t a (join s .black near w far)))
        (plug p (join s c t a (join s .red near w far))) := by
  have hparent := h.read.1
  have h₁ := h.setColor_far .red
  rw [← plug_other] at h
  refine ⟨_, ?_, h₁⟩
  unfold rbEraseFix
  rw [hsib]
  dsimp only [bind, Option.bind]
  rw [if_pos (h.children_black.mpr hblack), Rb.parent_setColor, hparent]
  rfl

/-- One iteration with a black sibling, or after a red one has moved up: it goes on at the parent,
with black children, or ends the repair. -/
theorem rbEraseFix_spec {S₁ : Rb} {w : Nat} (hsib : rbEraseSibling s a S = some (w, S₁))
    (h : S₁.Holds (plug p (join s c t a (join s .black near w far)))) (ht : t.color = .black) :
    ∃ S', (rbEraseFix s a S = some (some (a, p.root?), S') ∧ near.color = .black ∧
        far.color = .black ∧ S₁.Moves S' (plug p (join s c t a (join s .black near w far)))
          (plug p (join s c t a (join s .red near w far)))) ∨
      (∃ T, rbEraseFix s a S = some (none, S') ∧
        Erases (⟨s, c, a, join s .black near w far⟩ :: p) t T ∧
        S₁.Moves S' (plug p (join s c t a (join s .black near w far))) T) := by
  have hw := h
  rw [← plug_other] at hw
  by_cases hblack : near.color = .black ∧ far.color = .black
  · obtain ⟨S', hrun, hmoves⟩ := rbEraseFix_recolors hsib h hblack
    exact ⟨S', .inl ⟨hrun, hblack.1, hblack.2, hmoves⟩⟩
  · have hnot := mt hw.children_black.mp hblack
    by_cases hfar : far.color = .red
    · have hturn := rbEraseTurn_far h hfar
      obtain ⟨S', hrun, hmoves⟩ := rbEraseFix_rotates hsib hnot hturn h
      exact ⟨S', .inr ⟨_, hrun, .far ht hfar, hmoves⟩⟩
    · have hfar := Color.eq_black_of_ne hfar
      have hnear : near.color = .red := by
        by_contra hnear
        exact hblack ⟨Color.eq_black_of_ne hnear, hfar⟩
      obtain ⟨n₂, y, m, rfl⟩ := exists_join s (ne_leaf_of_red hnear) hnear
      obtain ⟨S₂, hturn, hmoves₂⟩ := rbEraseTurn_near h hfar
      obtain ⟨S', hrun, hmoves⟩ := rbEraseFix_rotates hsib hnot hturn hmoves₂.holds
      rw [paint_join] at hmoves
      exact ⟨S', .inr ⟨_, hrun, .near ht hfar, hmoves₂.trans hmoves⟩⟩

theorem rbEraseColor_stop {fuel : Nat} (h : S.Holds (plug p t)) (hstop : p = [] ∨ t.color = .red)
    {parent : Option Nat} :
    ∃ S' T, rbEraseColor (fuel + 1) t.root? parent S = some S' ∧ Erases p t T ∧
      S.Moves S' (plug p t) T := by
  have hcond : ¬ (S.isBlack t.root? = true ∧ t.root? ≠ S.root.rbNode) := by
    rw [h.isBlack, h.root]
    rcases hstop with rfl | hred
    · exact fun hand => hand.2 rfl
    · rw [hred]
      exact fun hand => by cases hand.1
  refine ⟨S.blacken t.root?, plug p (t.paint .black), ?_, ?_, h.blacken⟩
  · rw [rbEraseColor, if_neg hcond]
    rfl
  · rcases hstop with rfl | hred
    · exact .root
    · exact .red hred

theorem Rb.Holds.root_ne {f : Frame Nat} (h : S.Holds (plug (f :: p) t)) :
    t.root? ≠ S.root.rbNode := by
  obtain ⟨y, hroot, hy⟩ := root?_plug (List.cons_ne_nil f p) t
  obtain ⟨-, -, hapart⟩ := nodup_plug.mp h.nodup
  rw [h.root, hroot]
  exact fun ht => hapart y (mem_of_root? ht) hy

theorem rbEraseColor_succ {fuel : Nat} {sib : ColorTree Nat}
    (h : S.Holds (plug p (join s c t a sib))) (ht : t.color = .black) (hne : sib ≠ .leaf) :
    rbEraseColor (fuel + 1) t.root? (some a) S = (rbEraseFix s a S).bind fun r =>
      match r.1 with
      | some (up, parent) => rbEraseColor fuel (some up) parent r.2
      | none => some (r.2.blacken r.2.root.rbNode) := by
  have hcond : S.isBlack t.root? = true ∧ t.root? ≠ S.root.rbNode := by
    refine ⟨?_, Rb.Holds.root_ne (f := ⟨s, c, a, sib⟩) h⟩
    rw [Rb.Holds.isBlack (p := ⟨s, c, a, sib⟩ :: p) h, ht]
    rfl
  rw [rbEraseColor, if_pos hcond]
  dsimp only [bind, Option.bind]
  rw [h.side (.inr hne)]
  rfl

theorem Rb.Holds.blacken_root {T : ColorTree Nat} {k : Nat} (h : S.Holds T)
    (hT : Valid .black k T) : S.Moves (S.blacken S.root.rbNode) T T := by
  have hmoves := Rb.Holds.blacken (p := []) h
  rw [h.root]
  change S.Moves _ T (T.paint .black) at hmoves
  rw [hT.paint_black] at hmoves
  exact hmoves

theorem rbEraseColor_next {fuel w : Nat} {S₁ : Rb} (hsib : rbEraseSibling s a S = some (w, S₁))
    (h : S₁.Holds (plug p (join s c t a (join s .black near w far)))) (hblack : t.color = .black)
    (hole : Hole b (n + 1) (⟨s, c, a, join s .black near w far⟩ :: p)) (ht : Lacks n t)
    (ih : ∀ {S : Rb} {b : Bool} {n : Nat} {t : ColorTree Nat}, S.Holds (plug p t) →
      Hole b (n + 1) p → Lacks n t → t.color = c → ∃ S' T, rbEraseColor fuel t.root? p.root? S = some S' ∧
        Erases p t T ∧ S.Moves S' (plug p t) T) :
    ∃ S' T, ((rbEraseFix s a S).bind fun r =>
        match r.1 with
        | some (up, parent) => rbEraseColor fuel (some up) parent r.2
        | none => some (r.2.blacken r.2.root.rbNode)) = some S' ∧
      Erases (⟨s, c, a, join s .black near w far⟩ :: p) t T ∧
      S₁.Moves S' (plug p (join s c t a (join s .black near w far))) T := by
  obtain ⟨S₂, hnext | hlast⟩ := rbEraseFix_spec hsib h hblack
  · obtain ⟨hrun, hnear, hfar, hmoves₂⟩ := hnext
    obtain ⟨b', n', hole', ht'⟩ := hole.recolor (ht.of_black hblack) hnear hfar
    obtain ⟨S', T, hrest, hT, hmoves⟩ := ih hmoves₂.holds hole' ht' (color_join ..)
    rw [root?_join] at hrest
    rw [hrun]
    exact ⟨S', T, hrest, .recolor hblack hnear hfar hT, hmoves₂.trans hmoves⟩
  · obtain ⟨T, hrun, hT, hmoves⟩ := hlast
    obtain ⟨k, hvalid⟩ := hT.valid hole ht
    rw [hrun]
    exact ⟨_, T, rfl, hT, hmoves.trans (hmoves.holds.blacken_root hvalid)⟩

/-- `rb_erase_color` on a subtree that lacks a black node. The sibling is never NULL. A subtree that
is red ends it at once; else every iteration but the last goes up, from a red sibling to a red
parent. -/
theorem rbEraseColor_spec {fuel : Nat} (h : S.Holds (plug p t)) (hole : Hole b (n + 1) p)
    (ht : Lacks n t) (hfuel : p.length < fuel ∨ t.color = .red ∧ 0 < fuel) :
    ∃ S' T, rbEraseColor fuel t.root? p.root? S = some S' ∧ Erases p t T ∧
      S.Moves S' (plug p t) T := by
  induction fuel generalizing S p t b n with
  | zero => omega
  | succ fuel ih =>
    by_cases hstop : p = [] ∨ t.color = .red
    · exact rbEraseColor_stop h hstop
    · rw [not_or] at hstop
      obtain ⟨hp, hred⟩ := hstop
      have hblack := Color.eq_black_of_ne hred
      cases p with
      | nil => exact absurd rfl hp
      | cons f p =>
        obtain ⟨s, c, a, sib⟩ := f
        have hvalid := hole.sibling
        have hlen : p.length < fuel := by
          rcases hfuel with hlt | hr
          · simpa using hlt
          · exact absurd hr.1 hred
        have h' : S.Holds (plug p (join s c t a sib)) := h
        rw [show Spine.root? (⟨s, c, a, sib⟩ :: p) = some a from rfl,
          rbEraseColor_succ h' hblack hvalid.ne_leaf]
        by_cases hsib : sib.color = .red
        · obtain ⟨near, w, far, rfl⟩ := exists_join s hvalid.ne_leaf hsib
          obtain ⟨-, hnear, -⟩ := valid_join_red hvalid
          obtain ⟨n₂, y, f₂, rfl⟩ := exists_join s hnear.ne_leaf hnear.color
          obtain ⟨S₁, hrun, hmoves₁⟩ := rbEraseSibling_red h'
          obtain ⟨S', T, hrest, hT, hmoves⟩ := rbEraseColor_next
            (p := ⟨s, .black, w, far⟩ :: p) hrun hmoves₁.holds hblack hole.rotate ht
            (fun h hole ht hc => ih h hole ht (.inr ⟨hc, by omega⟩))
          exact ⟨S', T, hrest, .rotate hblack hT, hmoves₁.trans hmoves⟩
        · obtain ⟨near, w, far, rfl⟩ :=
            exists_join s hvalid.ne_leaf (Color.eq_black_of_ne hsib)
          exact rbEraseColor_next (rbEraseSibling_black h') h' hblack hole ht
            (fun h hole ht _ => ih h hole ht (.inl hlen))

/-- The memory holds a valid tree, whatever the root says of its ends and its size. -/
structure Rb.Carries (S : Rb) (T : ColorTree Nat) : Prop where
  holds : S.Holds T
  valid : ∃ k, Valid .black k T

/-- What the root says of the tree that it holds. -/
structure Rb.Shelters (S : Rb) (T : ColorTree Nat) : Prop where
  holds : S.Holds T
  valid : ∃ k, Valid .black k T
  first : S.root.firstNode = T.toList.head?
  last : S.root.lastNode = T.toList.getLast?
  count : S.root.count.toNat = T.toList.length

theorem Rb.Shelters.carries {S : Rb} {T : ColorTree Nat} (h : S.Shelters T) : S.Carries T :=
  ⟨h.holds, h.valid⟩

end CcRpc
