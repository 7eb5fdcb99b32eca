import Mathlib
import CcRpc.RbtreeRepair

/-!
# Inserting a node (`rb_insert_node`)

The descent ends at a free link between the nodes with values up to the new one and those with
greater values. The first and the last value tell whether the new node is at an end.
-/

namespace CcRpc

open RedBlack RedBlack.ColorTree Rb

variable {S : Rb} {p : Spine Nat} {s : Side} {c : Color} {a x : Nat} {t : ColorTree Nat}

/-- The values are in order. -/
def Rb.Sorted (S : Rb) (l : List Nat) : Prop := l.Pairwise fun a b => S.value a ≤ S.value b

theorem Rb.Sorted.insert {xs ys : List Nat} (h : S.Sorted (xs ++ ys))
    (hxs : ∀ x ∈ xs, S.value x ≤ S.value a) (hys : ∀ y ∈ ys, S.value a < S.value y) :
    S.Sorted (xs ++ a :: ys) := by
  obtain ⟨hx, hy, hxy⟩ := List.pairwise_append.mp h
  apply List.pairwise_append.mpr
  refine ⟨hx, List.pairwise_cons.mpr ⟨fun y hmem => UInt32.le_of_lt (hys y hmem), hy⟩, ?_⟩
  intro x hmem y hmem'
  rcases List.mem_cons.mp hmem' with rfl | hmem'
  · exact hxs x hmem
  · exact hxy x hmem y hmem'

theorem Rb.Sorted.congr {S' : Rb} {l : List Nat} (h : S.Sorted l)
    (hvalue : ∀ x ∈ l, S'.value x = S.value x) : S'.Sorted l := by
  apply List.Pairwise.imp_of_mem ?_ h
  intro x y hx hy hle
  rw [hvalue x hx, hvalue y hy]
  exact hle

/-- Below a node of a sorted tree the search finds the first greater value, and keeps the candidate
if there is none. -/
theorem rbFirstGreaterFrom_spec {fuel key : Nat} {candidate par : Option Nat}
    (hshows : S.Shows t par) (hsorted : S.Sorted t.toList) (hfuel : t.toList.length < fuel) :
    rbFirstGreaterFrom S key fuel t.root? candidate =
      some ((t.toList.find? fun x => key < (S.value x).toNat).or candidate) := by
  induction t generalizing fuel candidate par with
  | leaf =>
    cases fuel with
    | zero => cases hfuel
    | succ fuel => rfl
  | node c l a r ihl ihr =>
    cases fuel with
    | zero => cases hfuel
    | succ fuel =>
      obtain ⟨-, -, hleft, hright, hl, hr⟩ := hshows
      rw [ColorTree.toList] at hsorted hfuel ⊢
      rw [List.length_append, List.length_cons] at hfuel
      obtain ⟨hlsorted, hasorted, hla⟩ := List.pairwise_append.mp hsorted
      obtain ⟨-, hrsorted⟩ := List.pairwise_cons.mp hasorted
      dsimp only [ColorTree.root?]
      rw [rbFirstGreaterFrom, List.find?_append]
      by_cases hgreater : key < (S.value a).toNat
      · rw [if_pos hgreater, hleft, ihl hl hlsorted (by omega),
          List.find?_cons_of_pos (by simpa using hgreater), Option.or_assoc, Option.some_or]
      · have hlnone : (l.toList.find? fun x => key < (S.value x).toNat) = none := by
          apply List.find?_eq_none.mpr
          intro x hx
          have hle : (S.value x).toNat ≤ (S.value a).toNat := hla x hx a (by simp)
          simpa using (by omega : (S.value x).toNat ≤ key)
        rw [if_neg hgreater, hright, ihr hr hrsorted (by omega), hlnone,
          List.find?_cons_of_neg (by simpa using hgreater), Option.none_or]

theorem rbFirstGreater_spec {fuel key : Nat} (h : S.Holds t) (hsorted : S.Sorted t.toList)
    (hfuel : t.toList.length < fuel) :
    rbFirstGreater fuel key S = some (t.toList.find? fun x => key < (S.value x).toNat) := by
  rw [rbFirstGreater, h.root, rbFirstGreaterFrom_spec h.shows hsorted hfuel, Option.or_none]

/-- The link below a path. -/
def linkBelow : Spine Nat → RbLink
  | [] => .root
  | f :: _ => .child f.side f.elem

theorem linkBelow_load (h : S.Holds (plug p t)) : (linkBelow p).load S = t.root? := by
  cases p with
  | nil => exact h.root
  | cons f p => exact (Rb.Holds.read (p := p) h).2.2.1

/-- The path of a value: at each node to the left where it is less. -/
def Rb.Leads (S : Rb) (v : UInt32) (p : Spine Nat) : Prop :=
  ∀ f ∈ p, f.side = .left ↔ v < S.value f.elem

theorem rbInsertLink_spec {fuel : Nat} {v : UInt32} (h : S.Holds (plug p t)) (hp : S.Leads v p)
    (hfuel : t.toList.length < fuel) :
    ∃ q, rbInsertLink S v fuel (linkBelow p) p.root? = some (linkBelow q, q.root?) ∧
      plug p t = plug q .leaf ∧ S.Leads v q := by
  induction fuel generalizing p t with
  | zero => cases hfuel
  | succ fuel ih =>
    rw [rbInsertLink, linkBelow_load h]
    cases t with
    | leaf => exact ⟨p, rfl, rfl, hp⟩
    | node c l a r =>
      dsimp only [ColorTree.root?]
      simp only [ColorTree.toList, List.length_append, List.length_cons] at hfuel
      by_cases hv : v < S.value a
      · rw [if_pos hv]
        have hleads : S.Leads v (⟨.left, c, a, r⟩ :: p) :=
          List.forall_mem_cons.mpr ⟨iff_of_true rfl hv, hp⟩
        exact ih (p := ⟨.left, c, a, r⟩ :: p) h hleads (by omega)
      · rw [if_neg hv]
        have hleads : S.Leads v (⟨.right, c, a, l⟩ :: p) :=
          List.forall_mem_cons.mpr ⟨iff_of_false (fun h => by cases h) hv, hp⟩
        exact ih (p := ⟨.right, c, a, l⟩ :: p) h hleads (by omega)

/-- Between sorted values the descent finds the place: up to the value on the left, greater on the
right. -/
theorem Rb.Leads.splits {v : UInt32} (hp : S.Leads v p) (hsorted : S.Sorted (p.before ++ p.after)) :
    (∀ x ∈ p.before, S.value x ≤ v) ∧ ∀ x ∈ p.after, v < S.value x := by
  induction p with
  | nil =>
    constructor
    · intro x hx
      cases hx
    · intro x hx
      cases hx
  | cons f p ih =>
    obtain ⟨hf, hp⟩ := List.forall_mem_cons.mp hp
    cases hs : f.side with
    | left =>
      have hv := hf.mp hs
      simp only [Spine.before, Spine.after, hs, if_true, List.append_nil] at hsorted ⊢
      obtain ⟨hbefore, hafter⟩ := ih hp (hsorted.sublist (by simp))
      refine ⟨hbefore, ?_⟩
      obtain ⟨-, htail, -⟩ := List.pairwise_append.mp hsorted
      have hle := (List.pairwise_cons.mp htail).1
      intro x hx
      simp only [List.cons_append, List.mem_cons, List.mem_append] at hx
      rcases hx with rfl | hsib | hx
      · exact hv
      · exact UInt32.lt_of_lt_of_le hv (hle x (List.mem_append_left _ hsib))
      · exact hafter x hx
    | right =>
      have hv : S.value f.elem ≤ v := by
        apply UInt32.not_lt.mp
        intro hlt
        have hleft := hf.mpr hlt
        rw [hs] at hleft
        cases hleft
      simp only [Spine.before, Spine.after, hs, reduceCtorEq, if_false, List.nil_append]
        at hsorted ⊢
      obtain ⟨hbefore, hafter⟩ := ih hp (hsorted.sublist (by simp))
      refine ⟨?_, hafter⟩
      obtain ⟨hhead, -, -⟩ := List.pairwise_append.mp hsorted
      obtain ⟨-, hhead, -⟩ := List.pairwise_append.mp hhead
      obtain ⟨-, -, hle⟩ := List.pairwise_append.mp hhead
      intro x hx
      simp only [List.mem_append, List.mem_singleton] at hx
      rcases hx with hx | hsib | rfl
      · exact hbefore x hx
      · exact UInt32.le_trans (hle x hsib f.elem (by simp)) hv
      · exact hv

theorem keeps_store {q : Option Nat} :
    S.Keeps ((linkBelow p).store q S) p.root?.toList := by
  cases p with
  | nil => exact keeps_setRbNode
  | cons f p => exact keeps_setChild

theorem Rb.ShowsPath.store {q q' : Option Nat} (h : S.ShowsPath p q)
    (hnodup : (p.before ++ p.after).Nodup) : ((linkBelow p).store q' S).ShowsPath p q' := by
  cases p with
  | nil => rfl
  | cons f p =>
    obtain ⟨hparent, hcolor, -, hother, hsib, hrest⟩ := h
    obtain ⟨-, helem, -, hapart⟩ := nodup_path.mp hnodup
    change (S.setChild f.side f.elem q').ShowsPath (f :: p) q'
    refine ⟨by simpa using hparent, by simpa using hcolor, by simp, ?_, ?_, ?_⟩
    · rw [child_setChild, if_neg (fun h => f.side.other_ne h.2), hother]
    · exact hsib.keeps keeps_setChild (by grind)
    · exact hrest.keeps keeps_setChild rfl (by grind)

theorem keeps_rbLinkNode {q : Option Nat} : S.Keeps (rbLinkNode a q S) [a] := by
  unfold rbLinkNode
  exact ((keeps_setParent.step keeps_setColor (fun _ h => h)).step keeps_setChild
    (fun _ h => h)).step keeps_setChild (fun _ h => h)

theorem Rb.Holds.link (h : S.Holds (plug p .leaf)) (ha : a ∉ (plug p .leaf).toList) :
    let S₁ := (linkBelow p).store (some a) (rbLinkNode a p.root? S)
    S₁.Holds (plug p (.node .red .leaf a .leaf)) ∧
      S.Keeps S₁ (plug p (.node .red .leaf a .leaf)).toList := by
  intro S₁
  obtain ⟨hpath, -, hnodup⟩ := holds_plug.mp h
  obtain ⟨-, hpnodup, -⟩ := nodup_plug.mp hnodup
  have hap : a ∉ p.before ++ p.after := fun hmem => ha (mem_plug.mpr (.inr hmem))
  have hproot : a ∉ p.root?.toList :=
    fun hmem => hap (mem_before_after_of_root? (Option.mem_toList.mp hmem))
  have hk₁ : S.Keeps (rbLinkNode a p.root? S) [a] := keeps_rbLinkNode
  have hk₂ : (rbLinkNode a p.root? S).Keeps S₁ p.root?.toList := keeps_store
  refine ⟨holds_plug.mpr ⟨?_, ?_, ?_⟩, ?_⟩
  · have hpath₁ : (rbLinkNode a p.root? S).ShowsPath p (ColorTree.leaf : ColorTree Nat).root? := by
      apply hpath.keeps hk₁ rfl
      intro x hx hmem
      obtain rfl := List.mem_singleton.mp hmem
      exact hap hx
    exact hpath₁.store hpnodup
  · refine ⟨?_, ?_, ?_, ?_, trivial, trivial⟩
    · rw [hk₂.parent hproot]
      simp [rbLinkNode]
    · rw [hk₂.color hproot]
      simp [rbLinkNode]
    · rw [hk₂.child hproot]
      simp [rbLinkNode, ColorTree.root?]
    · rw [hk₂.child hproot]
      simp [rbLinkNode, ColorTree.root?]
  · rw [nodup_plug]
    refine ⟨by simp [ColorTree.toList], hpnodup, ?_⟩
    intro x hx
    obtain rfl : x = a := by simpa [ColorTree.toList] using hx
    exact hap
  · apply (hk₁.trans hk₂).mono
    intro x hx
    rw [mem_plug]
    rcases List.mem_append.mp hx with hx | hx
    · exact .inl (by simpa [ColorTree.toList] using hx)
    · exact .inr (mem_before_after_of_root? (Option.mem_toList.mp hx))

theorem head?_with {xs ys : List Nat} {w : Nat} {P : Nat → Prop} [DecidablePred P]
    (hw : (xs ++ ys).head? = some w) (hxs : ∀ x ∈ xs, ¬ P x) (hys : ∀ y ∈ ys, P y) :
    (if P w then some a else some w) = (xs ++ a :: ys).head? := by
  cases xs with
  | nil => exact if_pos (hys w (List.mem_of_head? hw))
  | cons x xs =>
    obtain rfl := Option.some.inj hw
    exact if_neg (hxs x List.mem_cons_self)

theorem getLast?_with {xs ys : List Nat} {z : Nat} {P : Nat → Prop} [DecidablePred P]
    (hz : (xs ++ ys).getLast? = some z) (hxs : ∀ x ∈ xs, P x) (hys : ∀ y ∈ ys, ¬ P y) :
    (if P z then some a else some z) = (xs ++ a :: ys).getLast? := by
  have hz' : (ys.reverse ++ xs.reverse).head? = some z := by
    simpa [← List.head?_reverse] using hz
  have hrev := head?_with (a := a) (P := P) hz' (by simpa using hys) (by simpa using hxs)
  simpa [← List.head?_reverse] using hrev

theorem rbInsertEnds_spec {xs ys : List Nat} (hfirst : S.root.firstNode = (xs ++ ys).head?)
    (hlast : S.root.lastNode = (xs ++ ys).getLast?)
    (hcount : S.root.count ≠ 0 ↔ xs ++ ys ≠ []) (hxs : ∀ x ∈ xs, S.value x ≤ S.value a)
    (hys : ∀ y ∈ ys, S.value a < S.value y) :
    ∃ first last, rbInsertEnds a S =
        some { S with root := { S.root with firstNode := first, lastNode := last } } ∧
      first = (xs ++ a :: ys).head? ∧ last = (xs ++ a :: ys).getLast? := by
  unfold rbInsertEnds
  by_cases hempty : S.root.count ≠ 0
  · rw [if_pos hempty]
    have hne := hcount.mp hempty
    obtain ⟨w, hw⟩ := Option.isSome_iff_exists.mp (List.isSome_head?.mpr hne)
    have hz : (xs ++ ys).getLast? = some ((xs ++ ys).getLast hne) :=
      List.getLast?_eq_some_getLast hne
    generalize (xs ++ ys).getLast hne = z at hz
    refine ⟨_, _, ?_, head?_with (P := fun x => S.value a < S.value x) hw
        (fun x hx => UInt32.not_lt.mpr (hxs x hx)) hys,
      getLast?_with (P := fun x => S.value x ≤ S.value a) hz hxs
        (fun y hy => UInt32.not_le.mpr (hys y hy))⟩
    rw [hlast, hz, hfirst, hw]
    rfl
  · rw [if_neg hempty]
    have hnil := not_not.mp (mt hcount.mpr hempty)
    obtain ⟨rfl, rfl⟩ := List.append_eq_nil_iff.mp hnil
    exact ⟨some a, some a, rfl, rfl, rfl⟩

theorem rbInsertEnds_eq {S₁ : Rb} (h : rbInsertEnds a S = some S₁) :
    ∃ first last,
      S₁ = { S with root := { S.root with firstNode := first, lastNode := last } } := by
  unfold rbInsertEnds at h
  split at h
  · obtain ⟨last, -, h⟩ := Option.bind_eq_some_iff.mp h
    obtain ⟨first, -, h⟩ := Option.bind_eq_some_iff.mp h
    exact ⟨_, _, (Option.some.inj h).symm⟩
  · exact ⟨_, _, (Option.some.inj h).symm⟩

theorem rbInsertNode_at {fuel : Nat} {first last : Option Nat}
    (h : S.Carries (plug p .leaf)) (ha : a ∉ (plug p .leaf).toList)
    (hdescent : rbInsertLink S (S.value a) fuel .root none = some (linkBelow p, p.root?))
    (hends : rbInsertEnds a S =
      some { S with root := { S.root with firstNode := first, lastNode := last } })
    (hfuel : p.length < fuel) :
    ∃ S' T, rbInsertNode fuel a S = some S' ∧ S'.Carries T ∧
      T.toList = p.before ++ a :: p.after ∧ (∀ x, S'.value x = S.value x) ∧
      (∀ x, x ∉ a :: (plug p .leaf).toList → S'.node x = S.node x) ∧
      S'.root.firstNode = first ∧ S'.root.lastNode = last ∧
      S'.root.count = S.root.count + 1 := by
  let S₁ : Rb := { S with root := { S.root with firstNode := first, lastNode := last } }
  have h₁ : S₁.Holds (plug p .leaf) := h.holds.of_node rfl rfl
  obtain ⟨h₂, hkeeps₂⟩ := h₁.link ha
  obtain ⟨k, hvalid⟩ := h.valid
  obtain ⟨b, n, hole, hleaf, -⟩ := hvalid.unplug
  obtain rfl : n = 0 := by
    cases hleaf
    rfl
  obtain ⟨S₃, T, hcolor, hT, hmoves⟩ := rbInsertColor_spec h₂ rfl rfl hole hfuel
  have hkeeps := hkeeps₂.step hmoves.keeps (fun _ h => h)
  have hnew : T.toList = p.before ++ a :: p.after := by
    rw [hmoves.toList, toList_plug]
    simp [ColorTree.toList]
  refine ⟨{ S₃ with root := { S₃.root with count := S₃.root.count + 1 } }, T, ?_,
    ⟨hmoves.holds.of_node rfl rfl, hT.valid hole (.red .leaf .leaf)⟩, hnew, hkeeps.value, ?_,
    hkeeps.first, hkeeps.last, congrArg (· + 1) hkeeps.count⟩
  · unfold rbInsertNode
    rw [hdescent]
    dsimp only [bind, Option.bind]
    rw [hends]
    dsimp only [bind, Option.bind]
    rw [hcolor]
    rfl
  · intro x hx
    apply hkeeps.node
    intro hmem
    apply hx
    rw [mem_plug] at hmem
    rw [List.mem_cons, mem_plug]
    simpa [ColorTree.toList] using hmem

theorem rbInsertLink_root {fuel : Nat} {T : ColorTree Nat} (h : S.Holds T)
    (hsorted : S.Sorted T.toList) (hfuel : T.toList.length < fuel) (v : UInt32) :
    ∃ p : Spine Nat, T = plug p .leaf ∧ T.toList = p.before ++ p.after ∧ p.length < fuel ∧
      rbInsertLink S v fuel .root none = some (linkBelow p, p.root?) ∧
      (∀ x ∈ p.before, S.value x ≤ v) ∧ ∀ y ∈ p.after, v < S.value y := by
  have hleads : S.Leads v [] := fun f hf => by cases hf
  obtain ⟨p, hdescent, hplug, hp⟩ := rbInsertLink_spec (p := []) h hleads hfuel
  obtain rfl : T = plug p .leaf := hplug
  have hlist : (plug p (.leaf : ColorTree Nat)).toList = p.before ++ p.after := by
    rw [toList_plug]
    simp [ColorTree.toList]
  have hlen := length_le_toList_plug p (.leaf : ColorTree Nat)
  rw [hlist] at hsorted
  exact ⟨p, rfl, hlist, by omega, hdescent, hp.splits hsorted⟩

theorem rbInsertNode_run {fuel : Nat} {T : ColorTree Nat} (h : S.Shelters T)
    (hsorted : S.Sorted T.toList) (ha : a ∉ T.toList) (hfuel : T.toList.length < fuel) :
    ∃ S' T' xs ys, rbInsertNode fuel a S = some S' ∧ S'.Carries T' ∧ T.toList = xs ++ ys ∧
      T'.toList = xs ++ a :: ys ∧ (∀ x ∈ xs, S.value x ≤ S.value a) ∧
      (∀ y ∈ ys, S.value a < S.value y) ∧ (∀ x, S'.value x = S.value x) ∧
      (∀ x, x ∉ a :: T.toList → S'.node x = S.node x) ∧
      S'.root.firstNode = T'.toList.head? ∧ S'.root.lastNode = T'.toList.getLast? ∧
      S'.root.count = S.root.count + 1 := by
  obtain ⟨p, rfl, hlist, hshort, hdescent, hbefore, hafter⟩ :=
    rbInsertLink_root h.holds hsorted hfuel (S.value a)
  have hnonempty : S.root.count ≠ 0 ↔ p.before ++ p.after ≠ [] := by
    rw [not_iff_not, ← UInt32.toNat_inj, h.count, hlist]
    exact List.length_eq_zero_iff
  obtain ⟨first, last, hends, hfirst, hlast⟩ :=
    rbInsertEnds_spec (hlist ▸ h.first) (hlist ▸ h.last) hnonempty hbefore hafter
  obtain ⟨S', T, hrun, hcarries, hnew, hvalue, hnode, hfirst', hlast', hcount⟩ :=
    rbInsertNode_at h.carries ha hdescent hends hshort
  refine ⟨S', T, p.before, p.after, hrun, hcarries, hlist, hnew, hbefore, hafter, hvalue, hnode,
    ?_, ?_, hcount⟩
  · rw [hfirst', hnew, hfirst]
  · rw [hlast', hnew, hlast]

theorem rbInsertNode_spec {fuel : Nat} {T : ColorTree Nat} (h : S.Shelters T)
    (hsorted : S.Sorted T.toList) (ha : a ∉ T.toList) (hroom : T.toList.length + 1 < 2 ^ 32)
    (hfuel : T.toList.length < fuel) :
    ∃ S' T' xs ys, rbInsertNode fuel a S = some S' ∧ S'.Shelters T' ∧ T.toList = xs ++ ys ∧
      T'.toList = xs ++ a :: ys ∧ (∀ x ∈ xs, S.value x ≤ S.value a) ∧
      (∀ y ∈ ys, S.value a < S.value y) ∧ (∀ x, S'.value x = S.value x) ∧
      ∀ x, x ∉ a :: T.toList → S'.node x = S.node x := by
  obtain ⟨S', T', xs, ys, hrun, hcarries, hold, hnew, hxs, hys, hvalue, hnode, hfirst, hlast,
    hcount⟩ := rbInsertNode_run h hsorted ha hfuel
  refine ⟨S', T', xs, ys, hrun, ⟨hcarries.holds, hcarries.valid, hfirst, hlast, ?_⟩, hold, hnew,
    hxs, hys, hvalue, hnode⟩
  have hone : (1 : UInt32).toNat = 1 := rfl
  rw [hcount, UInt32.toNat_add, h.count, hone, hnew]
  rw [hold] at hroom ⊢
  simp only [List.length_append, List.length_cons] at hroom ⊢
  omega

/-- A call that goes through does its work in the tree also where the cached nodes or the count are
wrong. -/
theorem Rb.Carries.insert {fuel : Nat} {T : ColorTree Nat} {S' : Rb} (h : S.Carries T)
    (hsorted : S.Sorted T.toList) (ha : a ∉ T.toList) (hfuel : T.toList.length < fuel)
    (hrun : rbInsertNode fuel a S = some S') :
    ∃ T' xs ys, S'.Carries T' ∧ T.toList = xs ++ ys ∧ T'.toList = xs ++ a :: ys ∧
      (∀ x ∈ xs, S.value x ≤ S.value a) ∧ (∀ y ∈ ys, S.value a < S.value y) ∧
      (∀ x, S'.value x = S.value x) ∧ S'.root.count = S.root.count + 1 := by
  obtain ⟨p, rfl, hlist, hshort, hdescent, hbefore, hafter⟩ :=
    rbInsertLink_root h.holds hsorted hfuel (S.value a)
  obtain ⟨S₁, hends⟩ : ∃ S₁, rbInsertEnds a S = some S₁ := by
    obtain ⟨link, -, hrun⟩ := Option.bind_eq_some_iff.mp hrun
    obtain ⟨S₁, hends, -⟩ := Option.bind_eq_some_iff.mp hrun
    exact ⟨S₁, hends⟩
  obtain ⟨first, last, rfl⟩ := rbInsertEnds_eq hends
  obtain ⟨S₂, T, hrun₂, hcarries, hnew, hvalue, -, -, -, hcount⟩ :=
    rbInsertNode_at h ha hdescent hends hshort
  obtain rfl := Option.some.inj (hrun.symm.trans hrun₂)
  exact ⟨T, p.before, p.after, hcarries, hlist, hnew, hbefore, hafter, hvalue, hcount⟩

end CcRpc
