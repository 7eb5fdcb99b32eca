import CcRpc.Rbtree

/-!
# Trees in memory

What it means that the memory of nodes holds a tree, and what the single steps of the red-black tree
do to it: a new colour, a new link in place of another, a rotation.
-/

namespace CcRpc

open RedBlack RedBlack.ColorTree

namespace Rb

variable {S S' S'' : Rb} {a x : Nat} {q par : Option Nat} {c : Color} {s : Side}
  {t : ColorTree Nat} {p : Spine Nat}

theorem node_setNode {n : RbNode} : (S.setNode x n).node a = if a = x then n else S.node a :=
  Function.update_apply ..

theorem node_setParent_of_ne (hne : a ≠ x) : (S.setParent x q).node a = S.node a :=
  Function.update_of_ne hne ..

theorem node_setColor_of_ne (hne : a ≠ x) : (S.setColor x c).node a = S.node a :=
  Function.update_of_ne hne ..

theorem node_setChild_of_ne (hne : a ≠ x) : (S.setChild s x q).node a = S.node a :=
  Function.update_of_ne hne ..

@[simp] theorem parent_setParent :
    (S.setParent x q).parent a = if a = x then q else S.parent a := by
  simp only [setParent, parent, node_setNode]
  split <;> rfl

@[simp] theorem color_setParent : (S.setParent x q).color a = S.color a := by
  simp only [setParent, color, node_setNode]
  split <;> simp [*]

@[simp] theorem child_setParent : (S.setParent x q).child s a = S.child s a := by
  by_cases h : a = x <;> simp [setParent, child, node_setNode, h]

@[simp] theorem value_setParent : (S.setParent x q).value a = S.value a := by
  simp only [setParent, value, node_setNode]
  split <;> simp [*]

@[simp] theorem parent_setColor : (S.setColor x c).parent a = S.parent a := by
  simp only [setColor, parent, node_setNode]
  split <;> simp [*]

@[simp] theorem color_setColor : (S.setColor x c).color a = if a = x then c else S.color a := by
  simp only [setColor, color, node_setNode]
  split <;> rfl

@[simp] theorem child_setColor : (S.setColor x c).child s a = S.child s a := by
  by_cases h : a = x <;> simp [setColor, child, node_setNode, h]

@[simp] theorem value_setColor : (S.setColor x c).value a = S.value a := by
  simp only [setColor, value, node_setNode]
  split <;> simp [*]

@[simp] theorem parent_setChild : (S.setChild s x q).parent a = S.parent a := by
  cases s <;> simp only [setChild, parent, node_setNode] <;> split <;> simp [*]

@[simp] theorem color_setChild : (S.setChild s x q).color a = S.color a := by
  cases s <;> simp only [setChild, color, node_setNode] <;> split <;> simp [*]

@[simp] theorem child_setChild {s' : Side} :
    (S.setChild s x q).child s' a = if a = x ∧ s' = s then q else S.child s' a := by
  cases s <;> cases s' <;> simp only [setChild, child, node_setNode] <;> split <;> simp [*]

@[simp] theorem value_setChild : (S.setChild s x q).value a = S.value a := by
  cases s <;> simp only [setChild, value, node_setNode] <;> split <;> simp [*]

@[simp] theorem parent_setValue {v : UInt32} : (S.setValue x v).parent a = S.parent a := by
  simp only [setValue, parent, node_setNode]
  split <;> simp [*]

@[simp] theorem color_setValue {v : UInt32} : (S.setValue x v).color a = S.color a := by
  simp only [setValue, color, node_setNode]
  split <;> simp [*]

@[simp] theorem child_setValue {v : UInt32} : (S.setValue x v).child s a = S.child s a := by
  by_cases h : a = x <;> simp [setValue, child, node_setNode, h]

@[simp] theorem value_setValue {v : UInt32} :
    (S.setValue x v).value a = if a = x then v else S.value a := by
  simp only [setValue, value, node_setNode]
  split <;> rfl

theorem setValue_self : S.setValue a (S.value a) = S := by
  rw [setValue, setNode]
  exact congrArg (fun f => Rb.mk f S.root) (Function.update_eq_self a S.node)

@[simp] theorem parent_setRbNode : (S.setRbNode q).parent a = S.parent a := rfl
@[simp] theorem color_setRbNode : (S.setRbNode q).color a = S.color a := rfl
@[simp] theorem child_setRbNode : (S.setRbNode q).child s a = S.child s a := rfl
@[simp] theorem value_setRbNode : (S.setRbNode q).value a = S.value a := rfl
@[simp] theorem node_setRbNode : (S.setRbNode q).node a = S.node a := rfl

@[simp] theorem root_setParent : (S.setParent x q).root = S.root := rfl
@[simp] theorem root_setColor : (S.setColor x c).root = S.root := rfl
@[simp] theorem root_setChild : (S.setChild s x q).root = S.root := rfl

/-- The nodes of the tree are linked with each other, and its root to the given parent. -/
def Shows (S : Rb) : ColorTree Nat → Option Nat → Prop
  | .leaf, _ => True
  | .node c l a r, par => S.parent a = par ∧ S.color a = c ∧ S.child .left a = l.root? ∧
      S.child .right a = r.root? ∧ Shows S l (some a) ∧ Shows S r (some a)

/-- The nodes of the path are linked with each other, the lowest to the given child, and the highest
is the root's. -/
def ShowsPath (S : Rb) : Spine Nat → Option Nat → Prop
  | [], q => S.root.rbNode = q
  | f :: p, q => S.parent f.elem = Spine.root? p ∧ S.color f.elem = f.color ∧
      S.child f.side f.elem = q ∧ S.child f.side.other f.elem = f.sibling.root? ∧
      Shows S f.sibling (some f.elem) ∧ ShowsPath S p (some f.elem)

/-- The root holds the tree. -/
structure Holds (S : Rb) (T : ColorTree Nat) : Prop where
  nodup : T.toList.Nodup
  root : S.root.rbNode = T.root?
  shows : S.Shows T none

theorem shows_join {near far : ColorTree Nat} : S.Shows (join s c near a far) par ↔
    S.parent a = par ∧ S.color a = c ∧ S.child s a = near.root? ∧ S.child s.other a = far.root? ∧
      S.Shows near (some a) ∧ S.Shows far (some a) := by
  cases s with
  | left => exact Iff.rfl
  | right =>
    simp only [join, Shows, Side.other]
    tauto

/-- A tree is held where the subtree and the path above it are linked. -/
theorem holds_plug : S.Holds (plug p t) ↔
    S.ShowsPath p t.root? ∧ S.Shows t p.root? ∧ (plug p t).toList.Nodup := by
  induction p generalizing t with
  | nil =>
    constructor
    · intro h
      exact ⟨h.root, h.shows, h.nodup⟩
    · intro h
      exact ⟨h.2.2, h.1, h.2.1⟩
  | cons f p ih =>
    rw [plug, ih, Frame.fill, root?_join, shows_join]
    simp only [ShowsPath, Spine.root?]
    tauto

/-- Only nodes of the list change, and of the rest only the root's link. No value does. -/
structure Keeps (S S' : Rb) (l : List Nat) : Prop where
  node : ∀ a, a ∉ l → S'.node a = S.node a
  value : ∀ a, S'.value a = S.value a
  first : S'.root.firstNode = S.root.firstNode
  last : S'.root.lastNode = S.root.lastNode
  count : S'.root.count = S.root.count

theorem Keeps.refl (S : Rb) (l : List Nat) : S.Keeps S l :=
  ⟨fun _ _ => rfl, fun _ => rfl, rfl, rfl, rfl⟩

theorem Keeps.trans {l l' : List Nat} (h : S.Keeps S' l) (h' : S'.Keeps S'' l') :
    S.Keeps S'' (l ++ l') where
  node a ha := by
    rw [List.mem_append, not_or] at ha
    exact (h'.node a ha.2).trans (h.node a ha.1)
  value a := (h'.value a).trans (h.value a)
  first := h'.first.trans h.first
  last := h'.last.trans h.last
  count := h'.count.trans h.count

theorem Keeps.mono {l l' : List Nat} (h : S.Keeps S' l) (hsub : ∀ a ∈ l, a ∈ l') : S.Keeps S' l' :=
  { h with node := fun a ha => h.node a (fun hl => ha (hsub a hl)) }

theorem Keeps.step {l l' : List Nat} (h : S.Keeps S' l) (h' : S'.Keeps S'' l')
    (hsub : ∀ a ∈ l', a ∈ l) : S.Keeps S'' l :=
  (h.trans (h'.mono hsub)).mono (by simp)

theorem keeps_setParent : S.Keeps (S.setParent x q) [x] where
  node a ha := node_setParent_of_ne (by simpa using ha)
  value _ := value_setParent
  first := rfl
  last := rfl
  count := rfl

theorem keeps_setColor : S.Keeps (S.setColor x c) [x] where
  node a ha := node_setColor_of_ne (by simpa using ha)
  value _ := value_setColor
  first := rfl
  last := rfl
  count := rfl

theorem keeps_setChild : S.Keeps (S.setChild s x q) [x] where
  node a ha := node_setChild_of_ne (by simpa using ha)
  value _ := value_setChild
  first := rfl
  last := rfl
  count := rfl

theorem keeps_setRbNode : S.Keeps (S.setRbNode q) [] :=
  ⟨fun _ _ => rfl, fun _ => rfl, rfl, rfl, rfl⟩

theorem Keeps.parent {l : List Nat} (h : S.Keeps S' l) (ha : a ∉ l) : S'.parent a = S.parent a :=
  congrArg RbNode.rbParent (h.node a ha)

theorem Keeps.color {l : List Nat} (h : S.Keeps S' l) (ha : a ∉ l) : S'.color a = S.color a :=
  congrArg RbNode.rbColor (h.node a ha)

theorem Keeps.child {l : List Nat} (h : S.Keeps S' l) (ha : a ∉ l) :
    S'.child s a = S.child s a := by
  unfold Rb.child
  rw [h.node a ha]

theorem Shows.congr (h : S.Shows t par) (hnode : ∀ a ∈ t.toList, S'.node a = S.node a) :
    S'.Shows t par := by
  induction t generalizing par with
  | leaf => trivial
  | node c l a r ihl ihr =>
    simp only [ColorTree.toList, List.mem_append, List.mem_cons] at hnode
    have ha := hnode a (.inr (.inl rfl))
    obtain ⟨hparent, hcolor, hleft, hright, hl, hr⟩ := h
    simp only [Shows, Rb.parent, Rb.color, Rb.child, ha]
    exact ⟨hparent, hcolor, hleft, hright, ihl hl (fun b hb => hnode b (.inl hb)),
      ihr hr (fun b hb => hnode b (.inr (.inr hb)))⟩

theorem Shows.setValue {v : UInt32} (h : S.Shows t par) : (S.setValue x v).Shows t par := by
  induction t generalizing par with
  | leaf => trivial
  | node c l a r ihl ihr =>
    obtain ⟨hparent, hcolor, hleft, hright, hl, hr⟩ := h
    simp only [Shows, parent_setValue, color_setValue, child_setValue]
    exact ⟨hparent, hcolor, hleft, hright, ihl hl, ihr hr⟩

theorem Shows.keeps {l : List Nat} (h : S.Shows t par) (hk : S.Keeps S' l)
    (hl : ∀ a ∈ t.toList, a ∉ l) : S'.Shows t par :=
  h.congr (fun a ha => hk.node a (hl a ha))

theorem Holds.of_node {T : ColorTree Nat} (h : S.Holds T) (hnode : S'.node = S.node)
    (hroot : S'.root.rbNode = S.root.rbNode) : S'.Holds T where
  nodup := h.nodup
  root := hroot.trans h.root
  shows := h.shows.congr (fun a _ => congrFun hnode a)

theorem ShowsPath.congr (h : S.ShowsPath p q) (hroot : S'.root.rbNode = S.root.rbNode)
    (hnode : ∀ a ∈ p.before ++ p.after, S'.node a = S.node a) : S'.ShowsPath p q := by
  induction p generalizing q with
  | nil => exact hroot.trans h
  | cons f p ih =>
    have ha := hnode f.elem (mem_path.mpr (.inl rfl))
    obtain ⟨hparent, hcolor, hside, hother, hsib, hrest⟩ := h
    simp only [ShowsPath, Rb.parent, Rb.color, Rb.child, ha]
    exact ⟨hparent, hcolor, hside, hother,
      hsib.congr (fun b hb => hnode b (mem_path.mpr (.inr (.inl hb)))),
      ih hrest (fun b hb => hnode b (mem_path.mpr (.inr (.inr hb))))⟩

theorem ShowsPath.keeps {l : List Nat} (h : S.ShowsPath p q) (hk : S.Keeps S' l)
    (hroot : S'.root.rbNode = S.root.rbNode) (hl : ∀ a ∈ p.before ++ p.after, a ∉ l) :
    S'.ShowsPath p q :=
  h.congr hroot (fun a ha => hk.node a (hl a ha))

theorem Shows.unique {t' : ColorTree Nat} {par' : Option Nat} (h : S.Shows t par)
    (h' : S.Shows t' par') (hroot : t.root? = t'.root?) : t = t' := by
  induction t generalizing t' par par' with
  | leaf => exact (ColorTree.root?_eq_none.mp hroot.symm).symm
  | node c l a r ihl ihr =>
    cases t' with
    | leaf => cases hroot
    | node c' l' a' r' =>
      obtain rfl := Option.some.inj hroot
      obtain ⟨-, hcolor, hleft, hright, hl, hr⟩ := h
      obtain ⟨-, hcolor', hleft', hright', hl', hr'⟩ := h'
      rw [← hcolor, ← hcolor', ihl hl hl' (hleft.symm.trans hleft'),
        ihr hr hr' (hright.symm.trans hright')]

theorem Holds.unique {T T' : ColorTree Nat} (h : S.Holds T) (h' : S.Holds T') : T = T' :=
  h.shows.unique h'.shows (h.root.symm.trans h'.root)

theorem mem_before_after_of_root? (ha : p.root? = some a) : a ∈ p.before ++ p.after := by
  cases p with
  | nil => cases ha
  | cons f p =>
    cases ha
    exact mem_path.mpr (.inl rfl)

theorem Holds.read {near far : ColorTree Nat} (h : S.Holds (plug p (join s c near a far))) :
    S.parent a = p.root? ∧ S.color a = c ∧ S.child s a = near.root? ∧
      S.child s.other a = far.root? := by
  obtain ⟨-, htree, -⟩ := holds_plug.mp h
  obtain ⟨hparent, hcolor, hnear, hfar, -, -⟩ := shows_join.mp htree
  exact ⟨hparent, hcolor, hnear, hfar⟩

theorem Holds.isBlack (h : S.Holds (plug p t)) : S.isBlack t.root? = (t.color = .black : Bool) := by
  cases t with
  | leaf => rfl
  | node c l a r =>
    obtain ⟨-, htree, -⟩ := holds_plug.mp h
    have hcolor : S.color a = c := htree.2.1
    simp only [ColorTree.root?, Rb.isBlack, ColorTree.color, hcolor]
    rfl

/-- A step that keeps the elements in order and changes no node of another tree. -/
structure Moves (S S' : Rb) (T T' : ColorTree Nat) : Prop where
  holds : S'.Holds T'
  keeps : S.Keeps S' T.toList
  toList : T'.toList = T.toList

theorem Holds.moves {T : ColorTree Nat} (h : S.Holds T) : S.Moves S T T := ⟨h, .refl _ _, rfl⟩

theorem Moves.trans {T T' T'' : ColorTree Nat} (h : S.Moves S' T T') (h' : S'.Moves S'' T' T'') :
    S.Moves S'' T T'' where
  holds := h'.holds
  keeps := h.keeps.step h'.keeps (by rw [h.toList]; exact fun a ha => ha)
  toList := h'.toList.trans h.toList

theorem Holds.setColor (h : S.Holds (plug p t)) (ha : t.root? = some a) :
    S.Moves (S.setColor a c) (plug p t) (plug p (t.paint c)) := by
  obtain ⟨hpath, htree, hnodup⟩ := holds_plug.mp h
  obtain ⟨htnodup, -, hapart⟩ := nodup_plug.mp hnodup
  have hat := ColorTree.mem_of_root? ha
  have hlist : (plug p (t.paint c)).toList = (plug p t).toList := by
    rw [toList_plug, toList_paint, ← toList_plug]
  refine ⟨holds_plug.mpr ⟨?_, ?_, hlist ▸ hnodup⟩, ?_, hlist⟩
  · rw [root?_paint]
    apply hpath.keeps keeps_setColor rfl
    intro b hb hmem
    obtain rfl := List.mem_singleton.mp hmem
    exact hapart b hat hb
  · cases t with
    | leaf => cases ha
    | node d l x r =>
      cases ha
      obtain ⟨hl, hr, hal, har, -⟩ := nodup_join (s := .left) |>.mp htnodup
      obtain ⟨hparent, hcolor, hleft, hright, hsl, hsr⟩ := htree
      refine ⟨by simpa using hparent, by simp, by simpa using hleft, by simpa using hright, ?_, ?_⟩
      · exact hsl.keeps keeps_setColor (by grind)
      · exact hsr.keeps keeps_setColor (by grind)
  · apply keeps_setColor.mono
    intro b hb
    obtain rfl := List.mem_singleton.mp hb
    exact mem_plug.mpr (.inl hat)

theorem Holds.blacken (h : S.Holds (plug p t)) :
    S.Moves (S.blacken t.root?) (plug p t) (plug p (t.paint .black)) := by
  cases t with
  | leaf => exact h.moves
  | node c l a r => exact h.setColor rfl

theorem Holds.setColor_join {near far : ColorTree Nat} (h : S.Holds (plug p (join s c near a far)))
    (d : Color) : S.Moves (S.setColor a d) (plug p (join s c near a far))
      (plug p (join s d near a far)) := by
  rw [← paint_join s c d]
  exact h.setColor (root?_join ..)

theorem Holds.setColor_near {s' : Side} {c' : Color} {near far sib : ColorTree Nat} {b : Nat}
    (h : S.Holds (plug p (join s c (join s' c' near a far) b sib))) (d : Color) :
    S.Moves (S.setColor a d) (plug p (join s c (join s' c' near a far) b sib))
      (plug p (join s c (join s' d near a far) b sib)) :=
  Holds.setColor_join (p := ⟨s, c, b, sib⟩ :: p) h d

theorem Holds.setColor_far {s' : Side} {c' : Color} {near far sib : ColorTree Nat} {b : Nat}
    (h : S.Holds (plug p (join s c sib b (join s' c' near a far)))) (d : Color) :
    S.Moves (S.setColor a d) (plug p (join s c sib b (join s' c' near a far)))
      (plug p (join s c sib b (join s' d near a far))) := by
  rw [← plug_other] at h
  have hmoves := h.setColor_join d
  rw [plug_other, plug_other] at hmoves
  exact hmoves

theorem Holds.blacken_near {near far : ColorTree Nat} (h : S.Holds (plug p (join s c near a far))) :
    S.Moves (S.blacken near.root?) (plug p (join s c near a far))
      (plug p (join s c (near.paint .black) a far)) :=
  Holds.blacken (p := ⟨s, c, a, far⟩ :: p) h

theorem Holds.blacken_far {near far : ColorTree Nat} (h : S.Holds (plug p (join s c near a far))) :
    S.Moves (S.blacken far.root?) (plug p (join s c near a far))
      (plug p (join s c near a (far.paint .black))) := by
  rw [← plug_other] at h
  have hmoves := h.blacken
  rw [plug_other, plug_other] at hmoves
  exact hmoves

theorem Shows.adopt (h : S.Shows t par) (hnodup : t.toList.Nodup) :
    (S.adopt t.root? q).Shows t q := by
  cases t with
  | leaf => trivial
  | node c l a r =>
    obtain ⟨hl, hr, hal, har, -⟩ := nodup_join (s := .left) |>.mp hnodup
    obtain ⟨-, hcolor, hleft, hright, hsl, hsr⟩ := h
    change (S.setParent a q).Shows (.node c l a r) q
    refine ⟨by simp, by simpa using hcolor, by simpa using hleft, by simpa using hright, ?_, ?_⟩
    · exact hsl.keeps keeps_setParent (by grind)
    · exact hsr.keeps keeps_setParent (by grind)

@[simp] theorem color_adopt {r : Option Nat} : (S.adopt r q).color a = S.color a := by
  cases r with
  | none => rfl
  | some b => exact color_setParent

@[simp] theorem child_adopt {r : Option Nat} : (S.adopt r q).child s a = S.child s a := by
  cases r with
  | none => rfl
  | some b => exact child_setParent

theorem parent_adopt {r : Option Nat} (hne : r ≠ some a) : (S.adopt r q).parent a = S.parent a := by
  cases r with
  | none => rfl
  | some b =>
    have hab : a ≠ b := fun hab => hne (by rw [hab])
    simp [Rb.adopt, hab]

theorem keeps_adopt {r : Option Nat} : S.Keeps (S.adopt r q) r.toList := by
  cases r with
  | none => exact .refl _ _
  | some b => exact keeps_setParent

@[simp] theorem root_adopt {r : Option Nat} : (S.adopt r q).root = S.root := by
  cases r <;> rfl

@[simp] theorem parent_replaceChild {r : Option Nat} {b : Nat} :
    (S.replaceChild s r b q).parent a = S.parent a := by
  cases r with
  | none => rfl
  | some y =>
    unfold replaceChild
    dsimp only
    split <;> exact parent_setChild

@[simp] theorem color_replaceChild {r : Option Nat} {b : Nat} :
    (S.replaceChild s r b q).color a = S.color a := by
  cases r with
  | none => rfl
  | some y =>
    unfold replaceChild
    dsimp only
    split <;> exact color_setChild

theorem child_replaceChild {s' : Side} {r : Option Nat} {b : Nat} (hne : r ≠ some a) :
    (S.replaceChild s r b q).child s' a = S.child s' a := by
  cases r with
  | none => rfl
  | some y =>
    have hay : a ≠ y := fun hay => hne (by rw [hay])
    unfold replaceChild
    dsimp only
    split <;> simp [hay]

theorem keeps_replaceChild {r : Option Nat} {b : Nat} :
    S.Keeps (S.replaceChild s r b q) r.toList := by
  cases r with
  | none => exact keeps_setRbNode
  | some y =>
    unfold replaceChild
    dsimp only
    split <;> exact keeps_setChild

theorem ShowsPath.replaceChild {b : Nat} (h : S.ShowsPath p (some b))
    (hnodup : (p.before ++ p.after).Nodup) (hb : b ∉ p.before ++ p.after) :
    (S.replaceChild s p.root? b q).ShowsPath p q := by
  cases p with
  | nil => rfl
  | cons f p =>
    obtain ⟨hparent, hcolor, hside, hother, hsib, hrest⟩ := h
    have hbsib : f.sibling.root? ≠ some b :=
      fun hroot => hb (mem_path.mpr (.inr (.inl (ColorTree.mem_of_root? hroot))))
    have hset : S.replaceChild s (Spine.root? (f :: p)) b q = S.setChild f.side f.elem q := by
      simp only [Spine.root?, Rb.replaceChild]
      by_cases hs : s = f.side
      · rw [hs, if_pos hside]
      · rw [Side.eq_other_of_ne hs, Side.other_other, if_neg (by rw [hother]; exact hbsib)]
    obtain ⟨-, helem, -, hapart⟩ := nodup_path.mp hnodup
    rw [hset]
    refine ⟨by simpa using hparent, by simpa using hcolor, by simp, ?_, ?_, ?_⟩
    · rw [child_setChild, if_neg (fun h => f.side.other_ne h.2), hother]
    · exact hsib.keeps keeps_setChild (by grind)
    · exact hrest.keeps keeps_setChild rfl (by grind)

/-- A rotation of a held subtree. -/
theorem Holds.rotate {near m far : ColorTree Nat} {a b : Nat} {d : Color}
    (h : S.Holds (plug p (join s c near a (join s d m b far)))) :
    ∃ S', rbRotate s a S = some S' ∧ S.Moves S' (plug p (join s c near a (join s d m b far)))
      (plug p (join s d (join s c near a m) b far)) := by
  obtain ⟨hpath, htree, hnodup⟩ := holds_plug.mp h
  obtain ⟨htnodup, hpnodup, hapart⟩ := nodup_plug.mp hnodup
  obtain ⟨hparent, hcolor, hnear, hother, hsnear, hsright⟩ := shows_join.mp htree
  obtain ⟨-, hcolorb, hm, hfar, hsm, hsfar⟩ := shows_join.mp hsright
  obtain ⟨-, hrnodup, hanear, haright, hnearright⟩ := nodup_join.mp htnodup
  obtain ⟨hmnodup, -, hbm, hbfar, hmfar⟩ := nodup_join.mp hrnodup
  simp only [mem_join, not_or] at haright hnearright hapart
  obtain ⟨hab, ham, hafar⟩ := haright
  have hmroot : ∀ x, m.root? = some x → x ∈ m.toList := fun x => ColorTree.mem_of_root?
  have hproot : ∀ x, p.root? = some x → x ∈ p.before ++ p.after :=
    fun x => mem_before_after_of_root?
  have hap := hapart a (.inl rfl)
  have hbp := hapart b (.inr (.inr (.inl rfl)))
  have hma : m.root? ≠ some a := fun hroot => ham (hmroot a hroot)
  have hmb : m.root? ≠ some b := fun hroot => hbm (hmroot b hroot)
  have hpa : p.root? ≠ some a := fun hroot => hap (hproot a hroot)
  have hpb : p.root? ≠ some b := fun hroot => hbp (hproot b hroot)
  -- the six stores, one state for each
  let S₁ := S.setChild s.other a m.root?
  let S₂ := S₁.adopt m.root? (some a)
  let S₃ := S₂.setChild s b (some a)
  let S₄ := S₃.setParent b p.root?
  let S₅ := S₄.replaceChild s p.root? a (some b)
  let S₆ := S₅.setParent a (some b)
  have h₁ : S₁.child s.other a = m.root? := by simp [S₁]
  have h₃ : S₃.parent a = p.root? := by simp [S₃, S₂, S₁, parent_adopt hma, hparent]
  have h₄ : S₄.parent b = p.root? := by simp [S₄]
  have hrun : rbRotate s a S = some S₆ := by
    unfold rbRotate
    rw [hother, root?_join]
    dsimp only [bind, Option.bind]
    rw [hm]
    change some (((((S₁.adopt (S₁.child s.other a) (some a)).setChild s b (some a)).setParent b _
      ).replaceChild s _ a (some b)).setParent a (some b)) = some S₆
    rw [h₁]
    change some (((S₃.setParent b (S₃.parent a)).replaceChild s
      ((S₃.setParent b (S₃.parent a)).parent b) a (some b)).setParent a (some b)) = some S₆
    rw [h₃]
    change some ((S₄.replaceChild s (S₄.parent b) a (some b)).setParent a (some b)) = some S₆
    rw [h₄]
  have hk₁ : S.Keeps S₁ [a] := keeps_setChild
  have hk₂ : S₁.Keeps S₂ m.root?.toList := keeps_adopt
  have hk₃ : S₂.Keeps S₃ [b] := keeps_setChild
  have hk₄ : S₃.Keeps S₄ [b] := keeps_setParent
  have hk₅ : S₄.Keeps S₅ p.root?.toList := keeps_replaceChild
  have hk₆ : S₅.Keeps S₆ [a] := keeps_setParent
  have hk₀₄ := ((hk₁.trans hk₂).trans hk₃).trans hk₄
  have hk₂₅ := (hk₃.trans hk₄).trans hk₅
  have hk₀₆ := (hk₀₄.trans hk₅).trans hk₆
  have hlist : (plug p (join s d (join s c near a m) b far)).toList =
      (plug p (join s c near a (join s d m b far))).toList := by
    rw [← rotate_join, toList_plug, toList_plug, toList_rotate]
  have hroot₄ : S₄.root.rbNode = S.root.rbNode := by simp [S₄, S₃, S₂, S₁]
  have hpath₄ : S₄.ShowsPath p (some a) := by
    rw [root?_join] at hpath
    apply hpath.keeps hk₀₄ hroot₄
    intro x hx
    simp only [List.mem_append, List.mem_singleton, Option.mem_toList]
    grind
  refine ⟨S₆, hrun, holds_plug.mpr ⟨?_, ?_, hlist ▸ hnodup⟩, ?_, hlist⟩
  · have hpath₅ : S₅.ShowsPath p (some b) := hpath₄.replaceChild hpnodup hap
    rw [root?_join]
    apply hpath₅.keeps hk₆ rfl
    intro x hx
    simp only [List.mem_singleton]
    grind
  · have hsm₂ : S₂.Shows m (some a) := (hsm.keeps hk₁ (by grind)).adopt hmnodup
    have hba : b ≠ a := fun hba => hab hba.symm
    have hchild : ∀ s' x, p.root? ≠ some x → S₆.child s' x = S₄.child s' x := by
      intro s' x hx
      simp [S₆, S₅, child_replaceChild hx]
    apply shows_join.mpr
    refine ⟨?_, ?_, ?_, ?_, ?_, ?_⟩
    · simp [S₆, S₅, S₄, hba]
    · simp [S₆, S₅, S₄, S₃, S₂, S₁, hcolorb]
    · rw [hchild s b hpb, root?_join]
      simp [S₄, S₃]
    · rw [hchild s.other b hpb]
      simp [S₄, S₃, S₂, S₁, hba, s.other_ne, hfar]
    · apply shows_join.mpr
      refine ⟨?_, ?_, ?_, ?_, ?_, ?_⟩
      · simp [S₆]
      · simp [S₆, S₅, S₄, S₃, S₂, S₁, hcolor]
      · rw [hchild s a hpa]
        simp [S₄, S₃, S₂, S₁, hab, s.other_ne.symm, hnear]
      · rw [hchild s.other a hpa]
        simp [S₄, S₃, S₂, S₁, hab]
      · apply hsnear.keeps hk₀₆
        intro x hx
        simp only [List.mem_append, List.mem_singleton, Option.mem_toList]
        grind
      · apply hsm₂.keeps (hk₂₅.trans hk₆)
        intro x hx
        simp only [List.mem_append, List.mem_singleton, Option.mem_toList]
        grind
    · apply hsfar.keeps hk₀₆
      intro x hx
      simp only [List.mem_append, List.mem_singleton, Option.mem_toList]
      grind
  · apply hk₀₆.mono
    intro x hx
    simp only [List.mem_append, List.mem_singleton, Option.mem_toList] at hx
    simp only [mem_plug, mem_join]
    grind

theorem Holds.rotate_other {near m far : ColorTree Nat} {a b : Nat} {d : Color}
    (h : S.Holds (plug p (join s c (join s d near b m) a far))) :
    ∃ S', rbRotate s.other a S = some S' ∧ S.Moves S' (plug p (join s c (join s d near b m) a far))
      (plug p (join s d near b (join s c m a far))) := by
  have hrotate := @Holds.rotate S c s.other p far m near a b d
  simp only [join_other] at hrotate
  exact hrotate h

end Rb
end CcRpc
