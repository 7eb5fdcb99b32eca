import CcRpc.RbtreeRepair

/-!
# Removing a node (`rb_remove_node`)

A node with one child at most makes way for it; else its successor, which has no left child, makes
way and takes its place. First and last node are told by the neighbours of the node.
-/

namespace CcRpc

open RedBlack RedBlack.ColorTree Rb

variable {S : Rb} {p : Spine Nat} {s : Side} {c : Color} {a x : Nat}
  {t l r near far : ColorTree Nat}

theorem rbEnd_spec {fuel : Nat} (h : S.Holds (plug p t)) (hx : t.root? = some x)
    (hfuel : t.toList.length ≤ fuel) :
    ∃ q d m far, rbEnd S s fuel x = some m ∧ t = plug q (join s d .leaf m far) ∧
      ∀ f ∈ q, f.side = s := by
  induction fuel generalizing p t x with
  | zero =>
    have hmem := mem_of_root? hx
    rw [List.length_eq_zero_iff.mp (Nat.le_zero.mp hfuel)] at hmem
    cases hmem
  | succ fuel ih =>
    obtain ⟨near, y, far, ht⟩ := exists_join s (ne_leaf_of_root? hx) rfl
    generalize t.color = c at ht
    subst ht
    rw [root?_join] at hx
    obtain rfl := Option.some.inj hx
    obtain ⟨-, -, hchild, -⟩ := h.read
    rw [rbEnd, hchild]
    cases hroot : near.root? with
    | none =>
      rw [root?_eq_none.mp hroot]
      exact ⟨[], c, y, far, rfl, rfl, fun f hf => by cases hf⟩
    | some z =>
      have hle : near.toList.length ≤ fuel := by
        have hlen : (join s c near y far).toList.length =
            near.toList.length + 1 + far.toList.length := by
          cases s <;> simp only [join, toList, List.length_append, List.length_cons] <;> omega
        omega
      obtain ⟨q, d, m, f₂, hrun, rfl, hq⟩ := ih (p := ⟨s, c, y, far⟩ :: p) h hroot hle
      refine ⟨q ++ [⟨s, c, y, far⟩], d, m, f₂, hrun, by rw [plug_append]; rfl, ?_⟩
      intro f hf
      rcases List.mem_append.mp hf with hf | hf
      · exact hq f hf
      · rw [List.mem_singleton.mp hf]

theorem rbClimb_spec {fuel : Nat} (h : S.Holds (plug p t)) (hx : t.root? = some x)
    (hfuel : p.length < fuel) : rbClimb S s fuel x = some (Spine.next s p) := by
  induction fuel generalizing p t x with
  | zero => cases hfuel
  | succ fuel ih =>
    rw [rbClimb, h.parent_root hx]
    cases p with
    | nil => rfl
    | cons f p =>
      have h' : S.Holds (plug p (join f.side f.color t f.elem f.sibling)) := h
      obtain ⟨-, -, hside, hother⟩ := h'.read
      dsimp only [Spine.root?]
      rw [Spine.next]
      by_cases hs : f.side = s
      · subst hs
        rw [if_pos rfl, hside, if_pos hx]
        exact ih h' (root?_join ..) (by simpa using hfuel)
      · have hroots := h'.roots_ne (.inl (ne_leaf_of_root? hx))
        rw [hx] at hroots
        rw [Side.eq_other_of_ne (Ne.symm hs), hother, if_neg hroots, if_neg f.side.other_ne.symm]

theorem rbNeighbour_spec {fuel : Nat} (h : S.Holds (plug p (join s c near a far)))
    (hfuel : (plug p (join s c near a far)).toList.length < fuel) :
    rbNeighbour s fuel a S = some ((near.endOf s.other).or (Spine.next s p)) := by
  have hlen := length_le_toList_plug p (join s c near a far)
  have hlen' := length_le_toList_plug (⟨s, c, a, far⟩ :: p) near
  obtain ⟨-, -, hchild, -⟩ := h.read
  unfold rbNeighbour
  rw [hchild]
  cases hroot : near.root? with
  | none =>
    rw [root?_eq_none.mp hroot]
    exact rbClimb_spec h (root?_join ..) (by omega)
  | some z =>
    have hle : near.toList.length ≤ fuel := by
      change _ ≤ (plug p (join s c near a far)).toList.length at hlen'
      omega
    obtain ⟨q, d, m, f₂, hrun, rfl, hq⟩ :=
      rbEnd_spec (s := s.other) (p := ⟨s, c, a, far⟩ :: p) h hroot hle
    rw [endOf_plug hq]
    dsimp only
    rw [hrun]
    rfl

theorem rbPrev_spec {fuel : Nat} (h : S.Holds (plug p (.node c l a r)))
    (hfuel : (plug p (.node c l a r)).toList.length < fuel) :
    rbPrev fuel a S = some ((p.before ++ l.toList).getLast?) := by
  have hspec := rbNeighbour_spec (s := .left) h hfuel
  rw [show Side.left.other = .right from rfl, endOf_right, Spine.next_left, ← List.getLast?_append]
    at hspec
  exact hspec

theorem rbNext_spec {fuel : Nat} (h : S.Holds (plug p (.node c l a r)))
    (hfuel : (plug p (.node c l a r)).toList.length < fuel) :
    rbNext fuel a S = some ((r.toList ++ p.after).head?) := by
  have hspec := rbNeighbour_spec (s := .right) h hfuel
  rw [show Side.right.other = .left from rfl, endOf_left, Spine.next_right, ← List.head?_append]
    at hspec
  exact hspec

theorem Rb.Holds.unlink (h : S.Holds (plug p (join s c .leaf a far))) :
    let S₁ := (S.adopt far.root? p.root?).replaceChild .left p.root? a far.root?
    S₁.Holds (plug p far) ∧ S.Keeps S₁ (far.root?.toList ++ p.root?.toList) := by
  intro S₁
  obtain ⟨hpath, htree, hnodup⟩ := holds_plug.mp h
  obtain ⟨htnodup, hpnodup, hapart⟩ := nodup_plug.mp hnodup
  obtain ⟨-, -, -, -, -, hsfar⟩ := shows_join.mp htree
  obtain ⟨-, hfnodup, -, hafar, -⟩ := nodup_join.mp htnodup
  have hfroot : ∀ x, far.root? = some x → x ∈ far.toList := fun x => mem_of_root?
  have hproot : ∀ x, p.root? = some x → x ∈ p.before ++ p.after :=
    fun x => mem_before_after_of_root?
  have hk : S.Keeps (S.adopt far.root? p.root?) far.root?.toList := keeps_adopt
  have hk' : (S.adopt far.root? p.root?).Keeps S₁ p.root?.toList := keeps_replaceChild
  simp only [mem_join] at hapart
  refine ⟨holds_plug.mpr ⟨?_, ?_, ?_⟩, hk.trans hk'⟩
  · rw [root?_join] at hpath
    have hpath₁ : (S.adopt far.root? p.root?).ShowsPath p (some a) := by
      apply hpath.keeps hk (by simp)
      intro x hx
      simp only [Option.mem_toList]
      grind
    exact hpath₁.replaceChild hpnodup (hapart a (.inl rfl))
  · apply (hsfar.adopt hfnodup).keeps hk'
    intro x hx
    simp only [Option.mem_toList]
    grind
  · rw [nodup_plug]
    exact ⟨hfnodup, hpnodup, fun x hx => hapart x (.inr (.inr hx))⟩

/-- A node from elsewhere takes the place of one in the tree. -/
theorem Rb.Holds.replace {m : Nat} (h : S.Holds (plug p (.node c l a r))) (hl : l ≠ .leaf)
    (hm : m ∉ (plug p (.node c l a r)).toList) :
    ∃ S', rbEraseReplace a m S = some S' ∧ S'.Holds (plug p (.node c l m r)) ∧
      S.Keeps S' (m :: (plug p (.node c l a r)).toList) := by
  obtain ⟨hpath, htree, hnodup⟩ := holds_plug.mp h
  obtain ⟨htnodup, hpnodup, hapart⟩ := nodup_plug.mp hnodup
  obtain ⟨hparent, hcolor, hleft, hright, hsl, hsr⟩ := htree
  obtain ⟨hlnodup, hrnodup, hal, har, hlr⟩ := nodup_join (s := .left) |>.mp htnodup
  have hlroot : ∀ x, l.root? = some x → x ∈ l.toList := fun x => mem_of_root?
  have hrroot : ∀ x, r.root? = some x → x ∈ r.toList := fun x => mem_of_root?
  have hproot : ∀ x, p.root? = some x → x ∈ p.before ++ p.after :=
    fun x => mem_before_after_of_root?
  rw [mem_plug] at hm
  change ¬ (m ∈ (join .left c l a r).toList ∨ _) at hm
  change ∀ x ∈ (join .left c l a r).toList, _ at hapart
  simp only [mem_join, not_or] at hm hapart
  obtain ⟨⟨hma, hml, hmr⟩, hmp⟩ := hm
  have hpa : p.root? ≠ some a := fun hroot => hapart a (.inl rfl) (hproot a hroot)
  have hpm : p.root? ≠ some m := fun hroot => hmp (hproot m hroot)
  -- the eight stores, one state for each
  let S₁ := S.setParent m p.root?
  let S₂ := S₁.setColor m c
  let S₃ := S₂.setChild .right m r.root?
  let S₄ := S₃.setChild .left m l.root?
  let S₅ := S₄.replaceChild .left p.root? a (some m)
  let S₆ := S₅.adopt l.root? (some m)
  let S₇ := S₆.adopt r.root? (some m)
  have ham : a ≠ m := fun ham => hma ham.symm
  have hchild₄ : ∀ s', S₄.child s' a = S.child s' a := by
    intro s'
    simp [S₄, S₃, S₂, S₁, ham]
  have hchild₅ : ∀ s', S₅.child s' a = S.child s' a := by
    intro s'
    rw [← hchild₄ s']
    exact child_replaceChild hpa
  have hrun : rbEraseReplace a m S = some S₇ := by
    obtain ⟨x, hx⟩ := Option.ne_none_iff_exists'.mp (mt root?_eq_none.mp hl)
    have hstores : rbEraseReplace a m S = (S₅.child .left a).bind fun left =>
        some ((S₅.setParent left (some m)).adopt ((S₅.setParent left (some m)).child .right a)
          (some m)) := by
      unfold rbEraseReplace
      simp only [hparent, hcolor, hright, hleft, color_setParent, child_setColor, child_setParent,
        parent_setChild, parent_setColor, parent_setParent, child_setChild, ham, false_and,
        if_false]
      rfl
    rw [hstores, hchild₅, hleft, hx]
    simp only [Option.bind_some, child_setParent]
    rw [hchild₅, hright]
    simp only [S₇, S₆, hx]
    rfl
  have hk₁ : S.Keeps S₁ [m] := keeps_setParent
  have hk₂ : S₁.Keeps S₂ [m] := keeps_setColor
  have hk₃ : S₂.Keeps S₃ [m] := keeps_setChild
  have hk₄ : S₃.Keeps S₄ [m] := keeps_setChild
  have hk₅ : S₄.Keeps S₅ p.root?.toList := keeps_replaceChild
  have hk₆ : S₅.Keeps S₆ l.root?.toList := keeps_adopt
  have hk₇ : S₆.Keeps S₇ r.root?.toList := keeps_adopt
  have hk₀₄ := ((hk₁.trans hk₂).trans hk₃).trans hk₄
  have hk₀₅ := hk₀₄.trans hk₅
  have hk₅₇ := hk₆.trans hk₇
  refine ⟨S₇, hrun, holds_plug.mpr ⟨?_, ?_, ?_⟩, ?_⟩
  · have hpath₄ : S₄.ShowsPath p (some a) := by
      apply hpath.keeps hk₀₄ rfl
      intro x hx
      simp only [List.mem_append, List.mem_singleton]
      grind
    have hpath₅ : S₅.ShowsPath p (some m) := hpath₄.replaceChild hpnodup (hapart a (.inl rfl))
    apply hpath₅.keeps hk₅₇ (by simp [S₇, S₆])
    intro x hx
    simp only [List.mem_append, Option.mem_toList]
    grind
  · have hml' : l.root? ≠ some m := fun hroot => hml (hlroot m hroot)
    have hmr' : r.root? ≠ some m := fun hroot => hmr (hrroot m hroot)
    have hparent₇ : S₇.parent m = S₄.parent m := by
      simp only [S₇, S₆, S₅]
      rw [parent_adopt hmr', parent_adopt hml', parent_replaceChild]
    have hchild₇ : ∀ s', S₇.child s' m = S₄.child s' m := by
      intro s'
      simp only [S₇, S₆, S₅, child_adopt]
      exact child_replaceChild hpm
    refine ⟨?_, ?_, ?_, ?_, ?_, ?_⟩
    · rw [hparent₇]
      simp [S₄, S₃, S₂, S₁]
    · simp [S₇, S₆, S₅, S₄, S₃, S₂]
    · rw [hchild₇]
      simp [S₄]
    · rw [hchild₇]
      simp [S₄, S₃]
    · have hsl₅ : S₅.Shows l (some a) := by
        apply hsl.keeps hk₀₅
        intro x hx
        simp only [List.mem_append, List.mem_singleton, Option.mem_toList]
        grind
      apply (hsl₅.adopt hlnodup).keeps hk₇
      intro x hx
      simp only [Option.mem_toList]
      grind
    · have hsr₆ : S₆.Shows r (some a) := by
        apply hsr.keeps (hk₀₅.trans hk₆)
        intro x hx
        simp only [List.mem_append, List.mem_singleton, Option.mem_toList]
        grind
      exact hsr₆.adopt hrnodup
  · rw [nodup_plug]
    refine ⟨nodup_join (s := .left) |>.mpr ⟨hlnodup, hrnodup, hml, hmr, hlr⟩, hpnodup, ?_⟩
    change ∀ x ∈ (join .left c l m r).toList, _
    simp only [mem_join]
    grind
  · apply (hk₀₅.trans hk₅₇).mono
    intro x hx
    simp only [List.mem_append, List.mem_singleton, Option.mem_toList] at hx
    rw [List.mem_cons, mem_plug]
    change _ ∨ x ∈ (join .left c l a r).toList ∨ _
    simp only [mem_join]
    grind

/-- What the relinking leaves for the repair: a subtree under a path. -/
structure Unlinked (S' : Rb) (q : Spine Nat) (t : ColorTree Nat) (c : Color) (l : List Nat) :
    Prop where
  holds : S'.Holds (plug q t)
  toList : (plug q t).toList = l
  fits : ∃ b n, (c = .red ∧ Hole b n q ∧ Valid .black n t) ∨
    (c = .black ∧ ∃ k, Hole b (k + 1) q ∧ Lacks k t)

theorem rbEraseLink_one (fuel : Nat) {k : Nat} (h : S.Holds (plug p (join s c .leaf a far)))
    (hvalid : Valid .black k (plug p (join s c .leaf a far))) :
    ∃ S', rbEraseLink fuel a S = some (far.root?, p.root?, c, S') ∧
      Unlinked S' p far c (p.before ++ far.toList ++ p.after) ∧
      S.Keeps S' (plug p (join s c .leaf a far)).toList := by
  obtain ⟨hparent, hcolor, hleaf, hfar⟩ := h.read
  obtain ⟨hholds, hkeeps⟩ := h.unlink
  obtain ⟨b, n, hole, hv, -⟩ := hvalid.unplug
  refine ⟨_, ?_, ⟨hholds, toList_plug p far, b, n, hole.makesWay hv⟩, ?_⟩
  · cases s with
    | left =>
      have hright : S.child .right a = far.root? := hfar
      unfold rbEraseLink
      rw [hleaf, hright, hparent, hcolor]
      rfl
    | right =>
      have hleft : S.child .left a = far.root? := hfar
      unfold rbEraseLink
      rw [hleaf, hleft, hparent, hcolor]
      cases far.root? <;> rfl
  · apply hkeeps.mono
    intro x hx
    simp only [List.mem_append, Option.mem_toList] at hx
    rw [mem_plug, mem_join]
    rcases hx with hx | hx
    · exact .inl (.inr (.inr (mem_of_root? hx)))
    · exact .inr (mem_before_after_of_root? hx)

theorem rbEraseLink_two {fuel k : Nat} (h : S.Holds (plug p (.node c l a r)))
    (hvalid : Valid .black k (plug p (.node c l a r))) (hl : l ≠ .leaf) (hr : r ≠ .leaf)
    (hfuel : r.toList.length ≤ fuel) :
    ∃ S' q t d, rbEraseLink fuel a S = some (t.root?, q.root?, d, S') ∧
      Unlinked S' q t d (p.before ++ l.toList ++ r.toList ++ p.after) ∧
      S.Keeps S' (plug p (.node c l a r)).toList := by
  obtain ⟨x, hx⟩ := Option.ne_none_iff_exists'.mp (mt root?_eq_none.mp hl)
  obtain ⟨y, hy⟩ := Option.ne_none_iff_exists'.mp (mt root?_eq_none.mp hr)
  obtain ⟨-, -, hleft, hright⟩ := h.read (s := .left)
  obtain ⟨q, d, m, far, hend, rfl, hq⟩ :=
    rbEnd_spec (s := .left) (p := ⟨.right, c, a, l⟩ :: p) h hy hfuel
  -- the node that takes the place of `a`, under its path
  have hm : S.Holds (plug (q ++ ⟨.right, c, a, l⟩ :: p) (join .left d .leaf m far)) := by
    rw [plug_append]
    exact h
  have hmvalid : Valid .black k
      (plug (q ++ ⟨.right, c, a, l⟩ :: p) (join .left d .leaf m far)) := by
    rw [plug_append]
    exact hvalid
  obtain ⟨b, n, hole, hv, -⟩ := hmvalid.unplug
  obtain ⟨hparent, hcolor, -, hfar⟩ := hm.read
  obtain ⟨hholds, hkeeps⟩ := hm.unlink
  obtain ⟨hjnodup, hpnodup, hapart⟩ := nodup_plug.mp hm.nodup
  obtain ⟨-, -, -, hmfar, -⟩ := nodup_join.mp hjnodup
  have hmp := hapart m (by simp)
  generalize hS₁ : (S.adopt far.root?
    (Spine.root? (q ++ ⟨.right, c, a, l⟩ :: p))).replaceChild .left (Spine.root? (q ++ ⟨.right, c, a, l⟩ :: p)) m far.root? = S₁ at hholds hkeeps
  have hparent₁ : S₁.parent m = Spine.root? (q ++ ⟨.right, c, a, l⟩ :: p) := by
    rw [← hparent]
    apply hkeeps.parent
    simp only [List.mem_append, Option.mem_toList, not_or]
    exact ⟨fun hroot => hmfar (mem_of_root? hroot),
      fun hroot => hmp (mem_before_after_of_root? hroot)⟩
  have htop : (if Spine.root? (q ++ ⟨.right, c, a, l⟩ :: p) = some a then some m
      else Spine.root? (q ++ ⟨.right, c, a, l⟩ :: p)) =
      Spine.root? (q ++ ⟨.right, c, m, l⟩ :: p) := by
    cases q with
    | nil => exact if_pos rfl
    | cons f q =>
      apply if_neg
      intro heq
      obtain ⟨-, -, -, hfapart⟩ := nodup_path.mp hpnodup
      apply hfapart f.elem (.inl rfl)
      rw [show f.elem = a from Option.some.inj heq]
      simp [before_append, Spine.before]
  have hout : m ∉ (plug p (.node c l a (plug q far))).toList := by
    have hplug : plug p (.node c l a (plug q far)) = plug (q ++ ⟨.right, c, a, l⟩ :: p) far := by
      rw [plug_append]
      rfl
    rw [hplug, mem_plug, not_or]
    exact ⟨hmfar, hmp⟩
  rw [plug_append] at hholds
  obtain ⟨S', hrun, hholds', hkeeps'⟩ := Rb.Holds.replace hholds hl hout
  have hplug' : plug p (.node c l m (plug q far)) = plug (q ++ ⟨.right, c, m, l⟩ :: p) far := by
    rw [plug_append]
    rfl
  refine ⟨S', q ++ ⟨.right, c, m, l⟩ :: p, far, d, ?_, ⟨hplug' ▸ hholds', ?_, b, n,
    hole.replace.makesWay hv⟩, ?_⟩
  · unfold rbEraseLink
    rw [hleft, hx, show S.child .right a = _ from hright, hy]
    dsimp only [bind, Option.bind]
    rw [hend]
    dsimp only [bind, Option.bind]
    rw [show S.child .right m = far.root? from hfar, hparent, hcolor, hS₁, hparent₁, htop, hrun]
    rfl
  · rw [← hplug', toList_plug]
    simp [toList, toList_plug, join, Spine.before_of_left hq]
  · have hplug : plug p (.node c l a (plug q (join .left d .leaf m far))) =
        plug (q ++ ⟨.right, c, a, l⟩ :: p) (join .left d .leaf m far) := by
      rw [plug_append]
      rfl
    rw [hplug]
    refine (hkeeps.mono ?_).step hkeeps' ?_
    · intro z hz
      simp only [List.mem_append, Option.mem_toList] at hz
      rw [mem_plug, mem_join]
      rcases hz with hz | hz
      · exact .inl (.inr (.inr (mem_of_root? hz)))
      · exact .inr (mem_before_after_of_root? hz)
    · intro z hz
      rw [mem_plug, mem_join]
      rcases List.mem_cons.mp hz with rfl | hz
      · exact .inl (.inl rfl)
      · have hz' : z ∈ (plug (q ++ ⟨.right, c, a, l⟩ :: p) far).toList := by
          rw [plug_append]
          exact hz
        rw [mem_plug] at hz'
        tauto

theorem Unlinked.repair {S : Rb} {q : Spine Nat} {list : List Nat} {fuel : Nat}
    (h : Unlinked S q t c list) (hfuel : list.length < fuel) :
    ∃ S' T, (if c = .black then rbEraseColor fuel t.root? q.root? S else some S) = some S' ∧
      S'.Holds T ∧ (∃ k, Valid .black k T) ∧ T.toList = list ∧ S.Keeps S' list := by
  obtain ⟨hholds, hlist, b, n, hred | hblack⟩ := h
  · obtain ⟨rfl, hole, hvalid⟩ := hred
    exact ⟨S, plug q t, if_neg (by decide), hholds, hole.valid_plug hvalid (fun h => by cases h),
      hlist, .refl _ _⟩
  · obtain ⟨rfl, k, hole, hlacks⟩ := hblack
    have hlen := length_le_toList_plug q t
    rw [hlist] at hlen
    have hshort : q.length < fuel := by omega
    obtain ⟨S', T, hrun, hT, hmoves⟩ := rbEraseColor_spec hholds hole hlacks (.inl hshort)
    refine ⟨S', T, hrun, hmoves.holds, hT.valid hole hlacks, hmoves.toList.trans hlist, ?_⟩
    rw [← hlist]
    exact hmoves.keeps

theorem rbErase_spec {fuel k : Nat} (h : S.Holds (plug p (.node c l a r)))
    (hvalid : Valid .black k (plug p (.node c l a r)))
    (hfuel : (plug p (.node c l a r)).toList.length < fuel) :
    ∃ S' T, rbErase fuel a S = some S' ∧ S'.Holds T ∧ (∃ k, Valid .black k T) ∧
      T.toList = p.before ++ l.toList ++ r.toList ++ p.after ∧
      S.Keeps S' (plug p (.node c l a r)).toList := by
  have hlist : (plug p (.node c l a r)).toList =
      p.before ++ (l.toList ++ a :: r.toList) ++ p.after := toList_plug ..
  have hlink : ∃ S' q t d, rbEraseLink fuel a S = some (t.root?, q.root?, d, S') ∧
      Unlinked S' q t d (p.before ++ l.toList ++ r.toList ++ p.after) ∧
      S.Keeps S' (plug p (.node c l a r)).toList := by
    by_cases hl : l = .leaf
    · subst hl
      obtain ⟨S', hrun, hun, hkeeps⟩ := rbEraseLink_one (s := .left) fuel h hvalid
      exact ⟨S', p, r, c, hrun, by simpa [toList] using hun, hkeeps⟩
    · by_cases hr : r = .leaf
      · subst hr
        obtain ⟨S', hrun, hun, hkeeps⟩ := rbEraseLink_one (s := .right) fuel h hvalid
        exact ⟨S', p, l, c, hrun, by simpa [toList] using hun, hkeeps⟩
      · apply rbEraseLink_two h hvalid hl hr
        simp only [hlist, List.length_append, List.length_cons] at hfuel
        omega
  obtain ⟨S₁, q, t, d, hrun, hun, hkeeps⟩ := hlink
  simp only [hlist, List.length_append, List.length_cons] at hfuel
  have hless : (p.before ++ l.toList ++ r.toList ++ p.after).length < fuel := by
    simp only [List.length_append]
    omega
  obtain ⟨S', T, hrepair, hholds, hT, htoList, hkeeps'⟩ := hun.repair hless
  refine ⟨S', T, ?_, hholds, hT, htoList, hkeeps.step hkeeps' ?_⟩
  · unfold rbErase
    rw [hrun]
    exact hrepair
  · intro x hx
    rw [hlist]
    simp only [List.mem_append, List.mem_cons] at hx ⊢
    tauto

theorem head?_without {xs : List Nat} (ys : List Nat) (hxs : a ∉ xs) :
    (if some a = (xs ++ a :: ys).head? then ys.head? else (xs ++ a :: ys).head?) =
      (xs ++ ys).head? := by
  cases xs with
  | nil => simp
  | cons x xs =>
    have hne : ¬ a = x := fun heq => hxs (by simp [heq])
    simp [hne]

theorem getLast?_without {xs ys : List Nat} (hys : a ∉ ys) :
    (if some a = (xs ++ a :: ys).getLast? then xs.getLast? else (xs ++ a :: ys).getLast?) =
      (xs ++ ys).getLast? := by
  have hout : a ∉ ys.reverse := by simpa using hys
  have hrev := head?_without xs.reverse hout
  simpa [← List.head?_reverse] using hrev

theorem rbRemoveEnds_spec {fuel : Nat} (h : S.Shelters (plug p (.node c l a r)))
    (hfuel : (plug p (.node c l a r)).toList.length < fuel) :
    ∃ first last, rbRemoveEnds fuel a S =
        some { S with root := { S.root with lastNode := last, firstNode := first } } ∧
      first = (p.before ++ l.toList ++ (r.toList ++ p.after)).head? ∧
      last = (p.before ++ l.toList ++ (r.toList ++ p.after)).getLast? := by
  have hlist : (plug p (.node c l a r)).toList =
      p.before ++ l.toList ++ a :: (r.toList ++ p.after) := by
    rw [toList_plug]
    simp [toList]
  obtain ⟨hxs, hys⟩ : a ∉ p.before ++ l.toList ∧ a ∉ r.toList ++ p.after := by
    have hnodup := h.holds.nodup
    rw [hlist, List.nodup_middle] at hnodup
    simpa [List.mem_append, not_or, and_assoc] using (List.nodup_cons.mp hnodup).1
  have hfirst := h.first
  have hlast := h.last
  have hcount := h.count
  rw [hlist] at hfirst hlast hcount
  unfold rbRemoveEnds
  by_cases hone : 1 < S.root.count
  · rw [if_pos hone, rbPrev_spec h.holds hfuel, rbNext_spec h.holds hfuel, hlast, hfirst]
    refine ⟨_, _, ?_, head?_without _ hxs, getLast?_without hys⟩
    split <;> split <;> rfl
  · rw [if_neg hone]
    have hle : S.root.count.toNat ≤ 1 := by
      rw [UInt32.lt_iff_toNat_lt] at hone
      simpa using hone
    rw [hcount, List.length_append, List.length_cons] at hle
    have hxs' : p.before ++ l.toList = [] := List.length_eq_zero_iff.mp (by omega)
    have hys' : r.toList ++ p.after = [] := List.length_eq_zero_iff.mp (by omega)
    rw [hxs', hys']
    exact ⟨none, none, rfl, rfl, rfl⟩

/-- The cached nodes change, and nothing else. In a tree of several nodes they are those next to
the removed one or stay; else both are NULL. -/
theorem rbRemoveEnds_eq {fuel : Nat} (h : S.Holds (plug p (.node c l a r)))
    (hfuel : (plug p (.node c l a r)).toList.length < fuel) :
    ∃ first last, rbRemoveEnds fuel a S =
        some { S with root := { S.root with lastNode := last, firstNode := first } } ∧
      (¬ 1 < S.root.count → first = none ∧ last = none) := by
  unfold rbRemoveEnds
  by_cases hone : 1 < S.root.count
  · rw [if_pos hone, rbPrev_spec h hfuel, rbNext_spec h hfuel]
    refine ⟨if some a = S.root.firstNode then (r.toList ++ p.after).head? else S.root.firstNode,
      if some a = S.root.lastNode then (p.before ++ l.toList).getLast? else S.root.lastNode, ?_,
      fun hfew => absurd hone hfew⟩
    split <;> split <;> rfl
  · rw [if_neg hone]
    exact ⟨none, none, rfl, fun _ => ⟨rfl, rfl⟩⟩

theorem rbRemoveNode_at {fuel : Nat} {first last : Option Nat}
    (h : S.Carries (plug p (.node c l a r)))
    (hends : rbRemoveEnds fuel a S =
      some { S with root := { S.root with lastNode := last, firstNode := first } })
    (hfuel : (plug p (.node c l a r)).toList.length < fuel) :
    ∃ S' T, rbRemoveNode fuel a S = some S' ∧ S'.Carries T ∧
      T.toList = p.before ++ l.toList ++ (r.toList ++ p.after) ∧
      T.toList = (plug p (.node c l a r)).toList.erase a ∧ (∀ x, S'.value x = S.value x) ∧
      (∀ x, x ∉ (plug p (.node c l a r)).toList → S'.node x = S.node x) ∧
      S'.root.firstNode = first ∧ S'.root.lastNode = last ∧
      S'.root.count = S.root.count - 1 := by
  obtain ⟨k, hvalid⟩ := h.valid
  let S₁ : Rb := { S with root := { S.root with lastNode := last, firstNode := first } }
  have h₁ : S₁.Holds (plug p (.node c l a r)) := h.holds.of_node rfl rfl
  obtain ⟨S₂, T, herase, hholds, hT, hlist, hkeeps⟩ := rbErase_spec h₁ hvalid hfuel
  have hold : (plug p (.node c l a r)).toList =
      p.before ++ l.toList ++ a :: (r.toList ++ p.after) := by
    rw [toList_plug]
    simp [toList]
  have hout : a ∉ p.before ++ l.toList := by
    have hnodup := h.holds.nodup
    rw [hold, List.nodup_append] at hnodup
    exact fun hmem => hnodup.2.2 a hmem a List.mem_cons_self rfl
  have hnew : T.toList = p.before ++ l.toList ++ (r.toList ++ p.after) := by
    rw [hlist, List.append_assoc]
  refine ⟨{ S₂ with root := { S₂.root with count := S₂.root.count - 1 } }, T, ?_,
    ⟨hholds.of_node rfl rfl, hT⟩, hnew, ?_, hkeeps.value, hkeeps.node, hkeeps.first, hkeeps.last,
    congrArg (· - 1) hkeeps.count⟩
  · unfold rbRemoveNode
    rw [hends]
    dsimp only [bind, Option.bind]
    rw [herase]
    rfl
  · rw [hnew, hold, List.erase_append_right _ hout, List.erase_cons_head]

theorem rbRemoveNode_spec {fuel : Nat} {T : ColorTree Nat} (h : S.Shelters T) (ha : a ∈ T.toList)
    (hfuel : T.toList.length < fuel) :
    ∃ S' T', rbRemoveNode fuel a S = some S' ∧ S'.Shelters T' ∧ T'.toList = T.toList.erase a ∧
      (∀ x, S'.value x = S.value x) ∧ ∀ x, x ∉ T.toList → S'.node x = S.node x := by
  obtain ⟨p, c, l, r, rfl⟩ := exists_plug_of_mem ha
  obtain ⟨first, last, hends, hfirst, hlast⟩ := rbRemoveEnds_spec h hfuel
  obtain ⟨S', T, hrun, hcarries, hnew, herase, hvalue, hnode, hfirst', hlast', hcount'⟩ :=
    rbRemoveNode_at h.carries hends hfuel
  refine ⟨S', T, hrun, ⟨hcarries.holds, hcarries.valid, ?_, ?_, ?_⟩, herase, hvalue, hnode⟩
  · rw [hfirst', hnew, hfirst]
  · rw [hlast', hnew, hlast]
  · have hcount := h.count
    have hpos : 1 ≤ S.root.count := by
      have hlen := List.length_pos_of_mem ha
      rw [UInt32.le_iff_toNat_le, hcount]
      exact hlen
    rw [hcount', UInt32.toNat_sub_of_le _ _ hpos, hcount, herase, List.length_erase_of_mem ha]
    rfl

/-- A call on a node of the tree goes through also where the cached nodes or the count are wrong. -/
theorem Rb.Carries.remove {fuel : Nat} {T : ColorTree Nat} (h : S.Carries T) (ha : a ∈ T.toList)
    (hfuel : T.toList.length < fuel) :
    ∃ S' T', rbRemoveNode fuel a S = some S' ∧ S'.Carries T' ∧ T'.toList = T.toList.erase a ∧
      (∀ x, S'.value x = S.value x) ∧ S'.root.count = S.root.count - 1 ∧
      (¬ 1 < S.root.count → S'.root.lastNode = none) := by
  obtain ⟨p, c, l, r, rfl⟩ := exists_plug_of_mem ha
  obtain ⟨first, last, hends, hnull⟩ := rbRemoveEnds_eq h.holds hfuel
  obtain ⟨S', T, hrun, hcarries, -, herase, hvalue, -, -, hlast, hcount⟩ :=
    rbRemoveNode_at h hends hfuel
  exact ⟨S', T, hrun, hcarries, herase, hvalue, hcount, fun hfew => hlast.trans (hnull hfew).2⟩

end CcRpc
