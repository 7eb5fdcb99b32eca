import Mathlib.Data.List.Nodup
import Mathlib.Tactic.Common

/-!
# Red-black trees

Coloured binary trees, the paths from a subtree up to the root, and the two repairs that a
bottom-up implementation makes: after an insertion along the path above a red node, after a
deletion along the path above a subtree that lacks one black node.
-/

namespace RedBlack

inductive Color
  | red
  | black
  deriving DecidableEq, Repr

theorem Color.eq_black_of_ne {c : Color} (h : c ≠ .red) : c = .black := by
  cases c with
  | red => exact absurd rfl h
  | black => rfl

inductive Side
  | left
  | right
  deriving DecidableEq, Repr

def Side.other : Side → Side
  | .left => .right
  | .right => .left

@[simp] theorem Side.other_other (s : Side) : s.other.other = s := by
  cases s <;> rfl

theorem Side.other_ne (s : Side) : s.other ≠ s := by
  cases s <;> decide

theorem Side.eq_other_of_ne {s s' : Side} (hne : s ≠ s') : s = s'.other := by
  cases s <;> cases s' <;> first | rfl | exact absurd rfl hne

inductive ColorTree (α : Type)
  | leaf
  | node (c : Color) (l : ColorTree α) (a : α) (r : ColorTree α)

namespace ColorTree

variable {α : Type}

def root? : ColorTree α → Option α
  | leaf => none
  | node _ _ a _ => some a

/-- A leaf counts as black. -/
def color : ColorTree α → Color
  | leaf => .black
  | node c _ _ _ => c

def paint (c : Color) : ColorTree α → ColorTree α
  | leaf => leaf
  | node _ l a r => node c l a r

/-- The elements in order. -/
def toList : ColorTree α → List α
  | leaf => []
  | node _ l a r => l.toList ++ a :: r.toList

/-- The node with the subtree `near` on the side `s`. -/
def join (s : Side) (c : Color) (near : ColorTree α) (a : α) (far : ColorTree α) : ColorTree α :=
  match s with
  | .left => node c near a far
  | .right => node c far a near

/-- The child on the other side of `s` moves up, and the root down to the side `s`. -/
def rotate : Side → ColorTree α → ColorTree α
  | .left, node c l a (node d m b r) => node d (node c l a m) b r
  | .right, node c (node d l b m) a r => node d l b (node c m a r)
  | _, t => t

@[simp] theorem rotate_join (s : Side) (c d : Color) (near m far : ColorTree α) (a b : α) :
    rotate s (join s c near a (join s d m b far)) = join s d (join s c near a m) b far := by
  cases s <;> rfl

@[simp] theorem root?_join (s : Side) (c : Color) (near far : ColorTree α) (a : α) :
    (join s c near a far).root? = some a := by
  cases s <;> rfl

@[simp] theorem color_join (s : Side) (c : Color) (near far : ColorTree α) (a : α) :
    (join s c near a far).color = c := by
  cases s <;> rfl

@[simp] theorem paint_join (s : Side) (c d : Color) (near far : ColorTree α) (a : α) :
    (join s c near a far).paint d = join s d near a far := by
  cases s <;> rfl

theorem join_other (s : Side) (c : Color) (near far : ColorTree α) (a : α) :
    join s.other c near a far = join s c far a near := by
  cases s <;> rfl

@[simp] theorem root?_paint (c : Color) (t : ColorTree α) : (t.paint c).root? = t.root? := by
  cases t <;> rfl

@[simp] theorem paint_paint (c d : Color) (t : ColorTree α) : (t.paint c).paint d = t.paint d := by
  cases t <;> rfl

@[simp] theorem toList_paint (c : Color) (t : ColorTree α) : (t.paint c).toList = t.toList := by
  cases t <;> rfl

theorem exists_join (s : Side) {c : Color} {t : ColorTree α} (hne : t ≠ leaf) (hc : t.color = c) :
    ∃ near a far, t = join s c near a far := by
  cases t with
  | leaf => exact absurd rfl hne
  | node d l a r =>
    obtain rfl : d = c := hc
    cases s with
    | left => exact ⟨l, a, r, rfl⟩
    | right => exact ⟨r, a, l, rfl⟩

theorem ne_leaf_of_red {t : ColorTree α} (hred : t.color = .red) : t ≠ leaf := by
  intro hleaf
  rw [hleaf] at hred
  cases hred

@[simp] theorem toList_rotate (s : Side) (t : ColorTree α) : (rotate s t).toList = t.toList := by
  unfold rotate
  split <;> simp [toList]

@[simp] theorem mem_join {s : Side} {c : Color} {near far : ColorTree α} {a x : α} :
    x ∈ (join s c near a far).toList ↔ x = a ∨ x ∈ near.toList ∨ x ∈ far.toList := by
  cases s <;> simp [join, toList] <;> tauto

theorem nodup_join {s : Side} {c : Color} {near far : ColorTree α} {a : α} :
    (join s c near a far).toList.Nodup ↔ near.toList.Nodup ∧ far.toList.Nodup ∧ a ∉ near.toList ∧
      a ∉ far.toList ∧ ∀ x ∈ near.toList, x ∉ far.toList := by
  cases s with
  | left =>
    simp only [join, toList, List.nodup_append, List.nodup_cons, List.mem_cons]
    grind
  | right =>
    simp only [join, toList, List.nodup_append, List.nodup_cons, List.mem_cons]
    grind

theorem ne_leaf_of_root? {t : ColorTree α} {a : α} (ha : t.root? = some a) : t ≠ leaf := by
  intro hleaf
  rw [hleaf] at ha
  cases ha

theorem root?_eq_none {t : ColorTree α} : t.root? = none ↔ t = leaf := by
  cases t <;> simp [root?]

theorem mem_of_root? {t : ColorTree α} {a : α} (ha : t.root? = some a) : a ∈ t.toList := by
  cases t with
  | leaf => cases ha
  | node c l b r =>
    cases ha
    simp [toList]

end ColorTree

open ColorTree

variable {α : Type}

/-- A node without the subtree on one side. -/
structure Frame (α : Type) where
  side : Side
  color : Color
  elem : α
  sibling : ColorTree α

/-- The nodes above a subtree, from the lowest to the root. -/
abbrev Spine (α : Type) := List (Frame α)

def Frame.fill (f : Frame α) (t : ColorTree α) : ColorTree α :=
  join f.side f.color t f.elem f.sibling

/-- The whole tree with `t` under the path. -/
def plug : Spine α → ColorTree α → ColorTree α
  | [], t => t
  | f :: p, t => plug p (f.fill t)

namespace Spine

/-- The lowest node of a path. -/
def root? : Spine α → Option α
  | [] => none
  | f :: _ => some f.elem

/-- What the path has on the left of the subtree, in order. -/
def before : Spine α → List α
  | [] => []
  | f :: p => before p ++ if f.side = .left then [] else f.sibling.toList ++ [f.elem]

/-- What the path has on the right of the subtree, in order. -/
def after : Spine α → List α
  | [] => []
  | f :: p => (if f.side = .left then f.elem :: f.sibling.toList else []) ++ after p

end Spine

theorem toList_fill (f : Frame α) (t : ColorTree α) : (f.fill t).toList =
    (if f.side = .left then [] else f.sibling.toList ++ [f.elem]) ++ t.toList ++
      (if f.side = .left then f.elem :: f.sibling.toList else []) := by
  obtain ⟨s, c, a, sib⟩ := f
  cases s <;> simp [Frame.fill, join, toList]

theorem toList_plug (p : Spine α) (t : ColorTree α) :
    (plug p t).toList = p.before ++ t.toList ++ p.after := by
  induction p generalizing t with
  | nil => simp [plug, Spine.before, Spine.after]
  | cons f p ih => simp only [plug, ih, toList_fill, Spine.before, Spine.after, List.append_assoc]

theorem mem_plug {p : Spine α} {t : ColorTree α} {x : α} :
    x ∈ (plug p t).toList ↔ x ∈ t.toList ∨ x ∈ p.before ++ p.after := by
  simp only [toList_plug, List.mem_append]
  tauto

theorem nodup_plug {p : Spine α} {t : ColorTree α} : (plug p t).toList.Nodup ↔
    t.toList.Nodup ∧ (p.before ++ p.after).Nodup ∧ ∀ x ∈ t.toList, x ∉ p.before ++ p.after := by
  rw [toList_plug]
  simp only [List.nodup_append, List.mem_append]
  grind

theorem mem_path {f : Frame α} {p : Spine α} {x : α} :
    x ∈ Spine.before (f :: p) ++ Spine.after (f :: p) ↔
      x = f.elem ∨ x ∈ f.sibling.toList ∨ x ∈ Spine.before p ++ Spine.after p := by
  simp only [Spine.before, Spine.after, List.mem_append]
  by_cases hs : f.side = .left <;> simp [hs] <;> tauto

theorem nodup_path {f : Frame α} {p : Spine α} :
    (Spine.before (f :: p) ++ Spine.after (f :: p)).Nodup ↔
      f.sibling.toList.Nodup ∧ f.elem ∉ f.sibling.toList ∧ (Spine.before p ++ Spine.after p).Nodup ∧
        ∀ x, x = f.elem ∨ x ∈ f.sibling.toList → x ∉ Spine.before p ++ Spine.after p := by
  have hplug := nodup_plug (p := p) (t := f.fill leaf)
  have hlist : (plug p (f.fill leaf)).toList = Spine.before (f :: p) ++ Spine.after (f :: p) := by
    rw [← List.append_nil (Spine.before (f :: p))]
    exact toList_plug (f :: p) leaf
  rw [hlist, Frame.fill, nodup_join] at hplug
  rw [hplug]
  simp only [mem_join, toList, List.nodup_nil, List.not_mem_nil, false_or]
  tauto

theorem plug_append (p q : Spine α) (t : ColorTree α) : plug (p ++ q) t = plug q (plug p t) := by
  induction p generalizing t with
  | nil => rfl
  | cons f p ih => exact ih _

theorem plug_other {s : Side} {c : Color} {near far : ColorTree α} {a : α} {p : Spine α} :
    plug (⟨s.other, c, a, near⟩ :: p) far = plug p (join s c near a far) := by
  rw [plug, Frame.fill, join_other]

theorem root?_plug {p : Spine α} (hne : p ≠ []) (t : ColorTree α) :
    ∃ a, (plug p t).root? = some a ∧ a ∈ p.before ++ p.after := by
  induction p generalizing t with
  | nil => exact absurd rfl hne
  | cons f p ih =>
    by_cases hp : p = []
    · subst hp
      exact ⟨f.elem, root?_join .., mem_path.mpr (.inl rfl)⟩
    · obtain ⟨a, hroot, ha⟩ := ih hp (f.fill t)
      exact ⟨a, hroot, mem_path.mpr (.inr (.inr ha))⟩

theorem length_le_toList_plug (p : Spine α) (t : ColorTree α) :
    p.length + t.toList.length ≤ (plug p t).toList.length := by
  induction p generalizing t with
  | nil => simp [plug]
  | cons f p ih =>
    have hfill := ih (f.fill t)
    rw [toList_fill] at hfill
    simp only [plug, List.length_cons, List.length_append] at hfill ⊢
    split at hfill
    · simp only [List.length_cons, List.length_nil] at hfill
      omega
    · simp only [List.length_cons, List.length_append, List.length_nil] at hfill
      omega

theorem before_append (p q : Spine α) : Spine.before (p ++ q) = q.before ++ p.before := by
  induction p with
  | nil => simp [Spine.before]
  | cons f p ih => rw [List.cons_append, Spine.before, ih, Spine.before, List.append_assoc]

theorem exists_plug_of_mem {t : ColorTree α} {a : α} (ha : a ∈ t.toList) :
    ∃ p c l r, t = plug p (node c l a r) := by
  induction t with
  | leaf => cases ha
  | node c l b r ihl ihr =>
    simp only [toList, List.mem_append, List.mem_cons] at ha
    rcases ha with hl | heq | hr
    · obtain ⟨p, d, l', r', rfl⟩ := ihl hl
      exact ⟨p ++ [⟨.left, c, b, r⟩], d, l', r', by rw [plug_append]; rfl⟩
    · exact ⟨[], c, l, r, by rw [heq]; rfl⟩
    · obtain ⟨p, d, l', r', rfl⟩ := ihr hr
      exact ⟨p ++ [⟨.right, c, b, l⟩], d, l', r', by rw [plug_append]; rfl⟩

/-- The last element on the side `s`. -/
def ColorTree.endOf (s : Side) : ColorTree α → Option α
  | .leaf => none
  | .node _ l a r =>
    match s with
    | .left => (l.endOf s).or (some a)
    | .right => (r.endOf s).or (some a)

/-- The lowest node of a path that has the subtree on the other side of `s`. -/
def Spine.next (s : Side) : Spine α → Option α
  | [] => none
  | f :: p => if f.side = s then next s p else some f.elem

theorem ColorTree.endOf_join (s : Side) (c : Color) (near far : ColorTree α) (a : α) :
    (join s c near a far).endOf s = (near.endOf s).or (some a) := by
  cases s <;> rfl

theorem ColorTree.endOf_left (t : ColorTree α) : t.endOf .left = t.toList.head? := by
  induction t with
  | leaf => rfl
  | node c l a r ihl _ =>
    change (l.endOf .left).or (some a) = _
    rw [ihl, toList, List.head?_append]
    rfl

theorem ColorTree.endOf_right (t : ColorTree α) : t.endOf .right = t.toList.getLast? := by
  induction t with
  | leaf => rfl
  | node c l a r _ ihr =>
    change (r.endOf .right).or (some a) = _
    rw [ihr, toList, List.getLast?_append, List.getLast?_cons]
    cases r.toList.getLast? <;> simp

theorem Spine.next_left (p : Spine α) : Spine.next .left p = p.before.getLast? := by
  induction p with
  | nil => rfl
  | cons f p ih =>
    rw [next, before]
    split
    · rw [ih, List.append_nil]
    · simp [List.getLast?_append]

theorem Spine.next_right (p : Spine α) : Spine.next .right p = p.after.head? := by
  induction p with
  | nil => rfl
  | cons f p ih =>
    rw [next, after]
    cases f.side with
    | left => simp
    | right => simpa using ih

theorem ColorTree.endOf_plug {s : Side} {p : Spine α} {c : Color} {a : α} {far : ColorTree α}
    (hp : ∀ f ∈ p, f.side = s) : (plug p (join s c .leaf a far)).endOf s = some a := by
  suffices h : ∀ t : ColorTree α, t.endOf s = some a → (plug p t).endOf s = some a by
    apply h
    rw [endOf_join]
    rfl
  induction p with
  | nil => exact fun t ht => ht
  | cons f p ih =>
    intro t ht
    apply ih (fun f' hf' => hp f' (List.mem_cons_of_mem _ hf'))
    rw [Frame.fill, hp f List.mem_cons_self, endOf_join, ht]
    rfl

theorem Spine.before_of_left {p : Spine α} (hp : ∀ f ∈ p, f.side = .left) : p.before = [] := by
  induction p with
  | nil => rfl
  | cons f p ih =>
    rw [before, if_pos (hp f List.mem_cons_self), List.append_nil]
    exact ih (fun f' hf' => hp f' (List.mem_cons_of_mem _ hf'))

/-- The same shape and colours with other elements. -/
def ColorTree.map {β : Type} (f : α → β) : ColorTree α → ColorTree β
  | .leaf => .leaf
  | .node c l a r => .node c (l.map f) (f a) (r.map f)

theorem ColorTree.toList_map {β : Type} (f : α → β) (t : ColorTree α) :
    (t.map f).toList = t.toList.map f := by
  induction t with
  | leaf => rfl
  | node c l a r ihl ihr => simp [map, toList, ihl, ihr]

theorem ColorTree.map_eq_self {f : α → α} {t : ColorTree α} (h : ∀ x ∈ t.toList, f x = x) :
    t.map f = t := by
  induction t with
  | leaf => rfl
  | node c l a r ihl ihr =>
    simp only [toList, List.mem_append, List.mem_cons] at h
    rw [map, ihl (fun x hx => h x (.inl hx)), h a (.inr (.inl rfl)),
      ihr (fun x hx => h x (.inr (.inr hx)))]

theorem Frame.map_fill {f : α → α} {g : Frame α} (helem : f g.elem = g.elem)
    (hsib : ∀ x ∈ g.sibling.toList, f x = x) (t : ColorTree α) :
    (g.fill t).map f = g.fill (t.map f) := by
  have hsib := map_eq_self hsib
  unfold Frame.fill
  cases g.side with
  | left => simp only [join, map, helem, hsib]
  | right => simp only [join, map, helem, hsib]

theorem map_plug {f : α → α} {p : Spine α} (hp : ∀ x ∈ p.before ++ p.after, f x = x)
    (t : ColorTree α) : (plug p t).map f = plug p (t.map f) := by
  induction p generalizing t with
  | nil => rfl
  | cons g p ih =>
    have helem := hp g.elem (mem_path.mpr (.inl rfl))
    have hsib := fun x hx => hp x (mem_path.mpr (.inr (.inl hx)))
    rw [plug, ih (fun x hx => hp x (mem_path.mpr (.inr (.inr hx)))), Frame.map_fill helem hsib]
    rfl

/-- No red node has a red child, and `n` black nodes are on every path to a leaf. -/
inductive Valid : Color → Nat → ColorTree α → Prop
  | leaf : Valid .black 0 leaf
  | red {n l a r} : Valid .black n l → Valid .black n r → Valid .red n (node .red l a r)
  | black {n c d l a r} : Valid c n l → Valid d n r → Valid .black (n + 1) (node .black l a r)

/-- A valid tree of height `n` fits under the path if it is black, or if red is allowed. -/
inductive Hole : Bool → Nat → Spine α → Prop
  | root {n} : Hole false n []
  | red {n s a sib p} : Valid .black n sib → Hole true n p → Hole false n (⟨s, .red, a, sib⟩ :: p)
  | black {n b c s a sib p} : Valid c n sib → Hole b (n + 1) p →
      Hole true n (⟨s, .black, a, sib⟩ :: p)

theorem Valid.map {β : Type} {c : Color} {n : Nat} {t : ColorTree α} (h : Valid c n t)
    (f : α → β) : Valid c n (t.map f) := by
  induction h with
  | leaf => exact .leaf
  | red _ _ ihl ihr => exact .red ihl ihr
  | black _ _ ihl ihr => exact .black ihl ihr

theorem Hole.replace {n : Nat} {b : Bool} {s : Side} {c : Color} {a a' : α} {sib : ColorTree α}
    {p q : Spine α} (hole : Hole b n (q ++ ⟨s, c, a, sib⟩ :: p)) :
    Hole b n (q ++ ⟨s, c, a', sib⟩ :: p) := by
  induction q generalizing b n with
  | nil =>
    cases hole with
    | red hsib hole => exact .red hsib hole
    | black hsib hole => exact .black hsib hole
  | cons f q ih =>
    cases hole with
    | red hsib hole => exact .red hsib (ih hole)
    | black hsib hole => exact .black hsib (ih hole)

section Fitting

variable {n : Nat} {b : Bool} {c d : Color} {s : Side} {t near far : ColorTree α} {a : α}
  {p : Spine α}

theorem Valid.color (h : Valid c n t) : t.color = c := by
  cases h <;> rfl

theorem Valid.join_red (hnear : Valid .black n near) (hfar : Valid .black n far) :
    Valid .red n (join s .red near a far) := by
  cases s with
  | left => exact .red hnear hfar
  | right => exact .red hfar hnear

theorem Valid.join_black (hnear : Valid c n near) (hfar : Valid d n far) :
    Valid .black (n + 1) (join s .black near a far) := by
  cases s with
  | left => exact .black hnear hfar
  | right => exact .black hfar hnear

theorem Valid.of_color (h : Valid c n t) : Valid t.color n t := by
  rw [h.color]
  exact h

theorem valid_join_red (h : Valid c n (join s .red near a far)) :
    c = .red ∧ Valid .black n near ∧ Valid .black n far := by
  cases s with
  | left =>
    cases h with
    | red hl hr => exact ⟨rfl, hl, hr⟩
  | right =>
    cases h with
    | red hl hr => exact ⟨rfl, hr, hl⟩

theorem valid_join_black (h : Valid c n (join s .black near a far)) :
    c = .black ∧ ∃ k, n = k + 1 ∧ Valid near.color k near ∧ Valid far.color k far := by
  cases s with
  | left =>
    cases h with
    | black hl hr => exact ⟨rfl, _, rfl, hl.of_color, hr.of_color⟩
  | right =>
    cases h with
    | black hl hr => exact ⟨rfl, _, rfl, hr.of_color, hl.of_color⟩

/-- What fits under the path makes a valid tree with it. -/
theorem Hole.valid_plug (hole : Hole b n p) (ht : Valid c n t) (hfits : c = .red → b = true) :
    ∃ k, Valid .black k (plug p t) := by
  induction hole generalizing t c with
  | root =>
    cases c with
    | red => exact absurd (hfits rfl) (by decide)
    | black => exact ⟨_, ht⟩
  | red hsib _ ih =>
    cases c with
    | red => exact absurd (hfits rfl) (by decide)
    | black => exact ih (ht.join_red hsib) (fun _ => rfl)
  | black hsib _ ih =>
    apply ih (ht.join_black hsib)
    intro hred
    cases hred

/-- In a valid tree every path is one under which its subtree fits. -/
theorem Valid.unplug {k : Nat} (h : Valid .black k (plug p t)) :
    ∃ b n, Hole b n p ∧ Valid t.color n t ∧ (t.color = .red → b = true) := by
  induction p generalizing t with
  | nil =>
    change Valid .black k t at h
    refine ⟨false, k, .root, h.of_color, ?_⟩
    intro hred
    rw [h.color] at hred
    cases hred
  | cons f p ih =>
    obtain ⟨b, n, hole, hfill, hfits⟩ := ih h
    obtain ⟨s, c, a, sib⟩ := f
    have hcolor : (Frame.fill ⟨s, c, a, sib⟩ t).color = c := color_join ..
    rw [hcolor] at hfill hfits
    cases c with
    | red =>
      obtain ⟨-, ht, hsib⟩ := valid_join_red hfill
      have hb := hfits rfl
      subst hb
      refine ⟨false, n, .red hsib hole, ht.of_color, ?_⟩
      intro hred
      rw [ht.color] at hred
      cases hred
    | black =>
      obtain ⟨-, k, rfl, ht, hsib⟩ := valid_join_black hfill
      exact ⟨true, k, .black hsib hole, ht, fun _ => rfl⟩

theorem Valid.paint_black {k : Nat} (h : Valid .black k t) : t.paint .black = t := by
  cases h <;> rfl

theorem Valid.blacken {k : Nat} (h : Valid .red k t) : Valid .black (k + 1) (t.paint .black) := by
  cases h with
  | red hl hr => exact .black hl hr

theorem Valid.ne_leaf {k : Nat} (h : Valid c (k + 1) t) : t ≠ .leaf := by
  intro hleaf
  rw [hleaf] at h
  cases h

end Fitting

/-- No red node has a red child. -/
def ColorTree.RedsApart : ColorTree α → Prop
  | .leaf => True
  | .node c l _ r => (c = .red → l.color = .black ∧ r.color = .black) ∧ l.RedsApart ∧ r.RedsApart

/-- The number of black nodes on every path from the root to a leaf. -/
def ColorTree.blackCounts : ColorTree α → List Nat
  | .leaf => [0]
  | .node c l _ r => (l.blackCounts ++ r.blackCounts).map (· + if c = .black then 1 else 0)

theorem Valid.redsApart {n : Nat} {c : Color} {t : ColorTree α} (h : Valid c n t) :
    t.RedsApart := by
  induction h with
  | leaf => trivial
  | red hl hr ihl ihr => exact ⟨fun _ => ⟨hl.color, hr.color⟩, ihl, ihr⟩
  | black _ _ ihl ihr => exact ⟨fun hred => (nomatch hred), ihl, ihr⟩

theorem Valid.blackCounts {n : Nat} {c : Color} {t : ColorTree α} (h : Valid c n t) :
    ∀ k ∈ t.blackCounts, k = n := by
  induction h with
  | leaf => simp [ColorTree.blackCounts]
  | red _ _ ihl ihr =>
    simp only [ColorTree.blackCounts, List.mem_map, List.mem_append, reduceCtorEq, if_false,
      Nat.add_zero, exists_eq_right]
    intro k hk
    rcases hk with hk | hk
    · exact ihl k hk
    · exact ihr k hk
  | black _ _ ihl ihr =>
    simp only [ColorTree.blackCounts, List.mem_map, List.mem_append, if_true]
    intro k hk
    obtain ⟨j, hj, rfl⟩ := hk
    rcases hj with hj | hj
    · rw [ihl j hj]
    · rw [ihr j hj]

/-- `T` is what becomes of the tree with the red subtree `t` under the path `p`. A red uncle lends
its colour to the grandparent, where the repair goes on; else one or two rotations end it. -/
inductive Inserts : Spine α → ColorTree α → ColorTree α → Prop
  | stop {p t} (hparent : ∀ f ∈ p.head?, f.color = .black) : Inserts p t ((plug p t).paint .black)
  | recolor {s s' c a g sib uncle p t T} (hred : uncle.color = .red)
      (hrest : Inserts p (join s' .red (join s .black t a sib) g (uncle.paint .black)) T) :
      Inserts (⟨s, .red, a, sib⟩ :: ⟨s', c, g, uncle⟩ :: p) t T
  | outer {s c a g sib uncle p t} (hblack : uncle.color = .black) :
      Inserts (⟨s, .red, a, sib⟩ :: ⟨s, c, g, uncle⟩ :: p) t
        ((plug p (join s .black t a (join s .red sib g uncle))).paint .black)
  | inner {s c a g x sib uncle near far p} (hblack : uncle.color = .black) :
      Inserts (⟨s.other, .red, a, sib⟩ :: ⟨s, c, g, uncle⟩ :: p) (join s .red near x far)
        ((plug p (join s .black (join s .red sib a near) x (join s .red far g uncle))).paint .black)

theorem Inserts.toList {p : Spine α} {t T : ColorTree α} (h : Inserts p t T) :
    T.toList = (plug p t).toList := by
  induction h with
  | stop => exact toList_paint _ _
  | @recolor s s' =>
    next ih =>
    rw [ih, toList_plug, toList_plug]
    cases s <;> cases s' <;> simp [Spine.before, Spine.after, join, ColorTree.toList]
  | @outer s =>
    rw [toList_paint, toList_plug, toList_plug]
    cases s <;> simp [Spine.before, Spine.after, join, ColorTree.toList]
  | @inner s =>
    rw [toList_paint, toList_plug, toList_plug]
    cases s <;> simp [Spine.before, Spine.after, join, ColorTree.toList, Side.other]

/-- The repair ends in a valid tree with a black root. -/
theorem Inserts.valid {n : Nat} {b : Bool} {p : Spine α} {t T : ColorTree α} (h : Inserts p t T)
    (hole : Hole b n p) (ht : Valid .red n t) :
    ∃ k, Valid .black k T := by
  induction h generalizing b n with
  | @stop p t hparent =>
    cases hole with
    | root => exact ⟨n + 1, ht.blacken⟩
    | red => cases hparent _ rfl
    | black hsib hole =>
      obtain ⟨k, hplug⟩ := (Hole.black hsib hole).valid_plug ht (fun _ => rfl)
      exact ⟨k, by rw [hplug.paint_black]; exact hplug⟩
  | recolor hred _ ih =>
    cases hole with
    | red hsib hole =>
      cases hole with
      | black huncle hole =>
        rw [← huncle.color, hred] at huncle
        exact ih hole ((ht.join_black hsib).join_red huncle.blacken)
  | outer hblack =>
    cases hole with
    | red hsib hole =>
      cases hole with
      | black huncle hole =>
        rw [← huncle.color, hblack] at huncle
        obtain ⟨k, hplug⟩ := hole.valid_plug (ht.join_black (hsib.join_red huncle))
          (fun h => by cases h)
        exact ⟨k, by rw [hplug.paint_black]; exact hplug⟩
  | inner hblack =>
    cases hole with
    | red hsib hole =>
      cases hole with
      | black huncle hole =>
        rw [← huncle.color, hblack] at huncle
        obtain ⟨-, hnear, hfar⟩ := valid_join_red ht
        obtain ⟨k, hplug⟩ := hole.valid_plug
          ((hsib.join_red hnear).join_black (hfar.join_red huncle)) (fun h => by cases h)
        exact ⟨k, by rw [hplug.paint_black]; exact hplug⟩

/-- `T` is what becomes of the tree with the subtree `t` under the path `p`, when `t` lacks a black
node. A red sibling is first turned into a black one. A black sibling with black children gives up
its own colour, and the repair goes on above; one with a red child makes up for the missing node. -/
inductive Erases : Spine α → ColorTree α → ColorTree α → Prop
  | root {t} : Erases [] t (t.paint .black)
  | red {p t} (hred : t.color = .red) : Erases p t (plug p (t.paint .black))
  | rotate {s c a b near far p t T} (ht : t.color = .black)
      (hrest : Erases (⟨s, .red, a, near⟩ :: ⟨s, .black, b, far⟩ :: p) t T) :
      Erases (⟨s, c, a, join s .red near b far⟩ :: p) t T
  | recolor {s c a b near far p t T} (ht : t.color = .black) (hnear : near.color = .black)
      (hfar : far.color = .black)
      (hrest : Erases p (join s c t a (join s .red near b far)) T) :
      Erases (⟨s, c, a, join s .black near b far⟩ :: p) t T
  | far {s c a b near far p t} (ht : t.color = .black) (hfar : far.color = .red) :
      Erases (⟨s, c, a, join s .black near b far⟩ :: p) t
        (plug p (join s c (join s .black t a near) b (far.paint .black)))
  | near {s c a b x m near far p t} (ht : t.color = .black) (hfar : far.color = .black) :
      Erases (⟨s, c, a, join s .black (join s .red near x m) b far⟩ :: p) t
        (plug p (join s c (join s .black t a near) x (join s .black m b far)))

theorem Erases.toList {p : Spine α} {t T : ColorTree α} (h : Erases p t T) :
    T.toList = (plug p t).toList := by
  induction h with
  | root => exact toList_paint _ _
  | red => rw [toList_plug, toList_plug, toList_paint]
  | @rotate s =>
    next ih =>
    rw [ih, toList_plug, toList_plug]
    cases s <;> simp [Spine.before, Spine.after, join, ColorTree.toList]
  | @recolor s =>
    next ih =>
    rw [ih, toList_plug, toList_plug]
    cases s <;> simp [Spine.before, Spine.after, join, ColorTree.toList]
  | @far s =>
    rw [toList_plug, toList_plug]
    cases s <;> simp [Spine.before, Spine.after, join, ColorTree.toList]
  | @near s =>
    rw [toList_plug, toList_plug]
    cases s <;> simp [Spine.before, Spine.after, join, ColorTree.toList]

/-- A subtree that a repair takes for one of height `n + 1`: it is one once its root is black, or it
is a black one of height `n`. A red root may have red children. -/
def Lacks (n : Nat) (t : ColorTree α) : Prop :=
  match t.color with
  | .red => Valid .black (n + 1) (t.paint .black)
  | .black => Valid .black n t

theorem Valid.lacks {n : Nat} {t : ColorTree α} (h : Valid t.color n t) : Lacks n t := by
  unfold Lacks
  cases hcolor : t.color with
  | red =>
    rw [hcolor] at h
    exact h.blacken
  | black =>
    rw [hcolor] at h
    exact h

theorem Lacks.of_black {n : Nat} {t : ColorTree α} (h : Lacks n t) (hblack : t.color = .black) :
    Valid .black n t := by
  unfold Lacks at h
  rw [hblack] at h
  exact h

theorem Lacks.of_red {n : Nat} {t : ColorTree α} (h : Lacks n t) (hred : t.color = .red) :
    Valid .black (n + 1) (t.paint .black) := by
  unfold Lacks at h
  rw [hred] at h
  exact h

theorem Hole.valid_plug_join {n : Nat} {b : Bool} {s : Side} {c : Color} {a d : α}
    {sib near far : ColorTree α} {p : Spine α} (hole : Hole b n (⟨s, c, a, sib⟩ :: p)) (hnear : Valid .black n near)
    (hfar : Valid .black n far) : ∃ k, Valid .black k (plug p (join s c near d far)) := by
  cases hole with
  | red _ hole => exact hole.valid_plug (hnear.join_red hfar) (fun _ => rfl)
  | black _ hole => exact hole.valid_plug (hnear.join_black hfar) (fun h => by cases h)

theorem Hole.sibling {n : Nat} {b : Bool} {s : Side} {c : Color} {a : α} {sib : ColorTree α}
    {p : Spine α} (hole : Hole b n (⟨s, c, a, sib⟩ :: p)) : Valid sib.color n sib := by
  cases hole with
  | red hsib => exact hsib.of_color
  | black hsib => exact hsib.of_color

/-- When a black sibling gives up its colour, the parent is what the rest of the path takes for one
black node more. Under a red parent there are two red nodes in a row until its root is painted. -/
theorem Hole.recolor {n : Nat} {b : Bool} {s : Side} {c : Color} {a y : α}
    {t near far : ColorTree α} {p : Spine α} (hole : Hole b (n + 1) (⟨s, c, a, join s .black near y far⟩ :: p))
    (ht : Valid .black n t) (hnear : near.color = .black) (hfar : far.color = .black) :
    ∃ b' n', Hole b' (n' + 1) p ∧ Lacks n' (join s c t a (join s .red near y far)) := by
  obtain ⟨-, k, hk, hn, hf⟩ := valid_join_black hole.sibling
  obtain rfl := Nat.succ.inj hk
  rw [hnear] at hn
  rw [hfar] at hf
  have hjoin : Valid .black (n + 1) (join s .black t a (join s .red near y far)) :=
    ht.join_black (hn.join_red hf)
  cases hole with
  | red _ hole =>
    refine ⟨true, n, hole, ?_⟩
    unfold Lacks
    rw [color_join, paint_join]
    exact hjoin
  | black _ hole =>
    refine ⟨_, n + 1, hole, ?_⟩
    unfold Lacks
    rw [color_join]
    exact hjoin

theorem Hole.rotate {n : Nat} {b : Bool} {s : Side} {c : Color} {a y : α} {near far : ColorTree α}
    {p : Spine α} (hole : Hole b n (⟨s, c, a, join s .red near y far⟩ :: p)) :
    Hole false n (⟨s, .red, a, near⟩ :: ⟨s, .black, y, far⟩ :: p) := by
  cases hole with
  | red hsib => cases (valid_join_red hsib).1
  | black hsib hole =>
    obtain ⟨-, hnear, hfar⟩ := valid_join_red hsib
    exact .red hnear (.black hfar hole)

/-- The repair ends in a valid tree with a black root. -/
theorem Erases.valid {n : Nat} {b : Bool} {p : Spine α} {t T : ColorTree α} (h : Erases p t T)
    (hole : Hole b (n + 1) p) (ht : Lacks n t) : ∃ k, Valid .black k T := by
  induction h generalizing b n with
  | @root t =>
    cases hcolor : t.color with
    | red => exact ⟨n + 1, ht.of_red hcolor⟩
    | black => exact ⟨n, by rw [(ht.of_black hcolor).paint_black]; exact ht.of_black hcolor⟩
  | red hred => exact hole.valid_plug (ht.of_red hred) (fun h => by cases h)
  | rotate _ _ ih => exact ih hole.rotate ht
  | recolor hblack hnear hfar _ ih =>
    obtain ⟨b', n', hole', ht'⟩ := hole.recolor (ht.of_black hblack) hnear hfar
    exact ih hole' ht'
  | far hblack hfar =>
    have hsib := hole.sibling
    obtain ⟨-, k, hk, hn, hf⟩ := valid_join_black hsib
    obtain rfl := Nat.succ.inj hk
    rw [hfar] at hf
    exact hole.valid_plug_join ((ht.of_black hblack).join_black hn) hf.blacken
  | near hblack hfar =>
    have hsib := hole.sibling
    obtain ⟨-, k, hk, hn, hf⟩ := valid_join_black hsib
    obtain rfl := Nat.succ.inj hk
    rw [hfar] at hf
    obtain ⟨-, hnear, hm⟩ := valid_join_red hn
    exact hole.valid_plug_join ((ht.of_black hblack).join_black hnear) (hm.join_black hf)

/-- What is left for the repair when a node with one child at most makes way for it: nothing if it
was red, one black node if it was black. -/
theorem Hole.makesWay {n : Nat} {b : Bool} {s : Side} {c d : Color} {a : α} {far : ColorTree α}
    {p : Spine α} (hole : Hole b n p) (h : Valid d n (join s c .leaf a far)) :
    (c = .red ∧ Hole b n p ∧ Valid .black n far) ∨
      (c = .black ∧ ∃ k, Hole b (k + 1) p ∧ Lacks k far) := by
  cases c with
  | red => exact .inl ⟨rfl, hole, (valid_join_red h).2.2⟩
  | black =>
    obtain ⟨-, k, rfl, -, hfar⟩ := valid_join_black h
    exact .inr ⟨rfl, k, hole, hfar.lacks⟩

end RedBlack
