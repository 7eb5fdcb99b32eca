import CcRpc.RbtreeRuns

/-!
# Replacing a node (`rb_replace_node`)

The new node takes the place, the colour, the value and the links of the victim. The cached first and
last node of the root are not looked at.
-/

namespace CcRpc

open RedBlack RedBlack.ColorTree Rb

variable {S S' : Rb} {p : Spine Nat} {c : Color} {a m : Nat} {l r T : ColorTree Nat}

/-- The node that stands where `x` stood. -/
def renamed (victim new x : Nat) : Nat := if x = victim then new else x

theorem renamed_self : renamed a m a = m := if_pos rfl

theorem renamed_of_ne {x : Nat} (hne : x ≠ a) : renamed a m x = x := if_neg hne

/-- The copy takes the place of the victim between its neighbours. -/
theorem Rb.Holds.replaceNode (h : S.Holds (plug p (.node c l a r)))
    (hm : m ∉ (plug p (.node c l a r)).toList) :
    (rbReplaceNode a m S).Holds (plug p (.node c l m r)) := by
  obtain ⟨hpath, htree, hnodup⟩ := holds_plug.mp h
  obtain ⟨htnodup, hpnodup, hapart⟩ := nodup_plug.mp hnodup
  obtain ⟨hparent, hcolor, hleft, hright, hsl, hsr⟩ := htree
  obtain ⟨hlnodup, hrnodup, hal, har, hlr⟩ := nodup_join (s := .left) |>.mp htnodup
  have hlroot : ∀ x, l.root? = some x → x ∈ l.toList := fun x => mem_of_root?
  have hrroot : ∀ x, r.root? = some x → x ∈ r.toList := fun x => mem_of_root?
  have hproot : ∀ x, p.root? = some x → x ∈ p.before ++ p.after :=
    fun x => mem_before_after_of_root?
  rw [mem_plug] at hm
  change ¬ (m ∈ (join .left c l a r).toList ∨ _) at hm
  change ∀ x ∈ (join .left c l a r).toList, _ at hapart
  simp only [mem_join, not_or] at hm hapart
  obtain ⟨⟨hma, hml, hmr⟩, hmp⟩ := hm
  have hpa : p.root? ≠ some a := fun hroot => hapart a (.inl rfl) (hproot a hroot)
  -- one state for each store
  let S₁ := S.replaceChild .left p.root? a (some m)
  let S₂ := S₁.adopt l.root? (some m)
  let S₃ := S₂.adopt r.root? (some m)
  have hchild₁ : ∀ s, S₁.child s a = S.child s a := fun s => child_replaceChild hpa
  have hstores : rbReplaceNode a m S = S₃.setNode m (S₃.node a) := by
    unfold rbReplaceNode
    simp only [hparent, child_adopt]
    rw [hchild₁, hchild₁, hleft, hright]
  have hk₁ : S.Keeps S₁ p.root?.toList := keeps_replaceChild
  have hk₂ : S₁.Keeps S₂ l.root?.toList := keeps_adopt
  have hk₃ : S₂.Keeps S₃ r.root?.toList := keeps_adopt
  have hnode : ∀ x, x ≠ m → (rbReplaceNode a m S).node x = S₃.node x := by
    intro x hx
    rw [hstores, node_setNode, if_neg hx]
  have hcopy : (rbReplaceNode a m S).node m = S₃.node a := by
    rw [hstores, node_setNode, if_pos rfl]
  have hroot : (rbReplaceNode a m S).root = S₃.root := by
    rw [hstores]
    rfl
  refine holds_plug.mpr ⟨?_, ?_, ?_⟩
  · have hpath₁ : S₁.ShowsPath p (some m) := hpath.replaceChild hpnodup (hapart a (.inl rfl))
    have hpath₃ : S₃.ShowsPath p (some m) := by
      apply hpath₁.keeps (hk₂.trans hk₃) (by simp [S₃, S₂])
      intro x hx
      simp only [List.mem_append, Option.mem_toList]
      grind
    apply hpath₃.congr (congrArg RbRoot.rbNode hroot)
    intro x hx
    apply hnode
    rintro rfl
    exact hmp hx
  · have hsl₂ : S₂.Shows l (some m) := by
      have hsl₁ : S₁.Shows l (some a) := by
        apply hsl.keeps hk₁
        intro x hx
        simp only [Option.mem_toList]
        grind
      exact hsl₁.adopt hlnodup
    have hsl₃ : S₃.Shows l (some m) := by
      apply hsl₂.keeps hk₃
      intro x hx
      simp only [Option.mem_toList]
      grind
    have hsr₃ : S₃.Shows r (some m) := by
      have hsr₂ : S₂.Shows r (some a) := by
        apply hsr.keeps (hk₁.trans hk₂)
        intro x hx
        simp only [List.mem_append, Option.mem_toList]
        grind
      exact hsr₂.adopt hrnodup
    have hparent₃ : S₃.parent a = p.root? := by
      have hal' : l.root? ≠ some a := fun hroot => hal (hlroot a hroot)
      have har' : r.root? ≠ some a := fun hroot => har (hrroot a hroot)
      simp only [S₃, S₂, S₁]
      rw [parent_adopt har', parent_adopt hal', parent_replaceChild, hparent]
    have hcolor₃ : S₃.color a = c := by simp [S₃, S₂, S₁, hcolor]
    have hchild₃ : ∀ s, S₃.child s a = S.child s a := by
      intro s
      simp only [S₃, S₂, child_adopt]
      exact hchild₁ s
    refine ⟨?_, ?_, ?_, ?_, ?_, ?_⟩
    · exact (congrArg RbNode.rbParent hcopy).trans hparent₃
    · exact (congrArg RbNode.rbColor hcopy).trans hcolor₃
    · exact (congrArg RbNode.rbLeft hcopy).trans ((hchild₃ .left).trans hleft)
    · exact (congrArg RbNode.rbRight hcopy).trans ((hchild₃ .right).trans hright)
    · exact hsl₃.congr (fun x hx => hnode x fun heq => hml (heq ▸ hx))
    · exact hsr₃.congr (fun x hx => hnode x fun heq => hmr (heq ▸ hx))
  · rw [nodup_plug]
    refine ⟨nodup_join (s := .left) |>.mpr ⟨hlnodup, hrnodup, hml, hmr, hlr⟩, hpnodup, ?_⟩
    change ∀ x ∈ (join .left c l m r).toList, _
    simp only [mem_join]
    grind

theorem value_rbReplaceNode (x : Nat) :
    (rbReplaceNode a m S).value x = if x = m then S.value a else S.value x := by
  have hstores : ∀ q q' : Option Nat, ∀ y, (((S.replaceChild .left (S.parent a) a (some m)).adopt q
      (some m)).adopt q' (some m)).value y = S.value y := by
    intro q q' y
    exact ((keeps_replaceChild.trans keeps_adopt).trans keeps_adopt).value y
  unfold rbReplaceNode
  dsimp only
  rw [Rb.value, node_setNode]
  split
  · exact hstores _ _ a
  · exact hstores _ _ x

theorem root_rbReplaceNode : (rbReplaceNode a m S).root.firstNode = S.root.firstNode ∧
    (rbReplaceNode a m S).root.lastNode = S.root.lastNode ∧
    (rbReplaceNode a m S).root.count = S.root.count := by
  have hroot : (rbReplaceNode a m S).root =
      (S.replaceChild .left (S.parent a) a (some m)).root := by
    unfold rbReplaceNode
    simp only [Rb.setNode, root_adopt]
  have hkeeps := keeps_replaceChild (S := S) (s := .left) (r := S.parent a) (b := a) (q := some m)
  rw [hroot]
  exact ⟨hkeeps.first, hkeeps.last, hkeeps.count⟩

theorem Rb.Holds.replaced (h : S.Holds T) (ha : a ∈ T.toList) (hm : m ∉ T.toList) :
    (rbReplaceNode a m S).Holds (T.map (renamed a m)) := by
  obtain ⟨p, c, l, r, rfl⟩ := exists_plug_of_mem ha
  obtain ⟨htnodup, -, hapart⟩ := nodup_plug.mp h.nodup
  obtain ⟨-, -, hal, har, -⟩ := nodup_join (s := .left) |>.mp htnodup
  have hpath : ∀ x ∈ p.before ++ p.after, renamed a m x = x := by
    intro x hx
    apply renamed_of_ne
    rintro rfl
    exact hapart x (by simp [toList]) hx
  have hl : l.map (renamed a m) = l :=
    map_eq_self (fun x hx => renamed_of_ne fun heq => hal (heq ▸ hx))
  have hr : r.map (renamed a m) = r :=
    map_eq_self (fun x hx => renamed_of_ne fun heq => har (heq ▸ hx))
  rw [map_plug hpath, ColorTree.map, hl, hr, renamed_self]
  exact h.replaceNode hm

theorem value_renamed (hm : m ∉ T.toList) {x : Nat} (hx : x ∈ T.toList) :
    (rbReplaceNode a m S).value (renamed a m x) = S.value x := by
  rw [value_rbReplaceNode]
  by_cases heq : x = a
  · rw [heq, renamed_self, if_pos rfl]
  · rw [renamed_of_ne heq, if_neg (fun hxm : x = m => hm (hxm ▸ hx))]

theorem Rb.Sorted.replaced (h : S.Sorted T.toList) (hm : m ∉ T.toList) :
    (rbReplaceNode a m S).Sorted (T.map (renamed a m)).toList := by
  rw [toList_map]
  apply List.pairwise_map.mpr
  apply List.Pairwise.imp_of_mem ?_ h
  intro x y hx hy hle
  rw [value_renamed hm hx, value_renamed hm hy]
  exact hle

theorem map_renamed_end {q : Option Nat} (hne : m ≠ a) :
    q.map (renamed a m) = q ↔ some a ≠ q := by
  cases q with
  | none => simp
  | some x =>
    by_cases heq : x = a
    · simp [heq, renamed_self, hne]
    · simp [renamed_of_ne heq, Ne.symm heq]

/-- The root stays right about the tree as long as the victim is neither the first nor the last
node. -/
theorem Rb.Shelters.replaced (h : S.Shelters T) (ha : a ∈ T.toList) (hm : m ∉ T.toList)
    (hfirst : some a ≠ S.root.firstNode) (hlast : some a ≠ S.root.lastNode) :
    (rbReplaceNode a m S).Shelters (T.map (renamed a m)) := by
  obtain ⟨hfirst', hlast', hcount⟩ := root_rbReplaceNode (S := S) (a := a) (m := m)
  have hne : m ≠ a := fun heq => hm (heq ▸ ha)
  obtain ⟨k, hvalid⟩ := h.valid
  rw [h.first] at hfirst
  rw [h.last] at hlast
  refine ⟨h.holds.replaced ha hm, ⟨k, hvalid.map _⟩, ?_, ?_, ?_⟩
  · rw [hfirst', h.first, toList_map, List.head?_map, (map_renamed_end hne).mpr hfirst]
  · rw [hlast', h.last, toList_map, List.getLast?_map, (map_renamed_end hne).mpr hlast]
  · rw [hcount, h.count, toList_map, List.length_map]

theorem Rb.Shelters.replaced_iff (h : S.Shelters T) (ha : a ∈ T.toList) (hm : m ∉ T.toList) :
    (rbReplaceNode a m S).Sound (T.map (renamed a m)) ↔
      some a ≠ S.root.firstNode ∧ some a ≠ S.root.lastNode := by
  constructor
  · intro hsound
    obtain ⟨hfirst', hlast', -⟩ := root_rbReplaceNode (S := S) (a := a) (m := m)
    have hne : m ≠ a := fun heq => hm (heq ▸ ha)
    have hfirst := hsound.first
    have hlast := hsound.last
    rw [hfirst', h.first, endOf_left, toList_map, List.head?_map] at hfirst
    rw [hlast', h.last, endOf_right, toList_map, List.getLast?_map] at hlast
    rw [h.first, h.last]
    exact ⟨(map_renamed_end hne).mp hfirst.symm, (map_renamed_end hne).mp hlast.symm⟩
  · rintro ⟨hfirst, hlast⟩
    exact (h.replaced ha hm hfirst hlast).sound

/-- A call, or a replacement. -/
inductive RbEdit
  | call (rb : RbCall)
  | replace (victim new : Nat)

namespace RbEdit

def run (fuel : Nat) (S : Rb) : RbEdit → Option Rb
  | call rb => rb.run fuel S
  | replace victim new => some (rbReplaceNode victim new S)

/-- The nodes in the tree after the step. -/
def nodes (l : List Nat) : RbEdit → List Nat
  | call rb => rb.nodes l
  | replace victim new => l.map (renamed victim new)

/-- A node in the tree is replaced by one outside it. -/
def Allowed (l : List Nat) : RbEdit → Prop
  | call rb => rb.Allowed l
  | replace victim new => victim ∈ l ∧ new ∉ l

/-- The victim of a replacement is neither the first nor the last node of the tree. -/
def Inner (S : Rb) : RbEdit → Prop
  | call _ => True
  | replace victim _ => some victim ≠ S.root.firstNode ∧ some victim ≠ S.root.lastNode

def nodesAfter (l : List Nat) (edits : List RbEdit) : List Nat := edits.foldl nodes l

def AllAllowed : List Nat → List RbEdit → Prop
  | _, [] => True
  | l, edit :: edits => edit.Allowed l ∧ AllAllowed (edit.nodes l) edits

theorem nodes_length_le (edit : RbEdit) (l : List Nat) : (edit.nodes l).length ≤ l.length + 1 := by
  cases edit with
  | call rb => exact rb.nodes_length_le l
  | replace victim new => simp [nodes]

theorem nodesAfter_few {edits edits' : List RbEdit} (hfew : edits.length < 2 ^ 32)
    (hpre : edits' <+: edits) : (nodesAfter [] edits').length < 2 ^ 32 := by
  have hle := foldl_length_le (fun l edit => nodes_length_le edit l) edits' []
  have hlen := hpre.length_le
  rw [List.length_nil] at hle
  change (edits'.foldl nodes []).length < _
  omega

end RbEdit

theorem Rb.Keeping.replaced {L : List Nat} (h : S.Keeping T L) (ha : a ∈ L) (hm : m ∉ L)
    (hfirst : some a ≠ S.root.firstNode) (hlast : some a ≠ S.root.lastNode) :
    (rbReplaceNode a m S).Keeping (T.map (renamed a m)) (L.map (renamed a m)) := by
  have hin : a ∈ T.toList := h.perm.mem_iff.mpr ha
  have hout : m ∉ T.toList := fun hmem => hm (h.perm.mem_iff.mp hmem)
  refine ⟨h.shelters.replaced hin hout hfirst hlast, h.sorted.replaced hout, ?_⟩
  rw [toList_map]
  exact h.perm.map _

theorem RbEdit.run_keeping {L : List Nat} {fuel : Nat} (h : S.Keeping T L) (edit : RbEdit)
    (hallowed : edit.Allowed L) (hinner : edit.Inner S) (hroom : (edit.nodes L).length < 2 ^ 32)
    (hfuel : L.length < fuel) :
    ∃ S' T', edit.run fuel S = some S' ∧ S'.Keeping T' (edit.nodes L) := by
  cases edit with
  | call rb => exact rb.run_keeping h hallowed hroom hfuel
  | replace victim new =>
    exact ⟨_, _, rfl, h.replaced hallowed.1 hallowed.2 hinner.1 hinner.2⟩

theorem edits_keeping {L : List Nat} {fuel : Nat} (h : S.Keeping T L) (edits : List RbEdit)
    (hallowed : RbEdit.AllAllowed L edits)
    (hinner : Runs.Along (RbEdit.run fuel) RbEdit.Inner S edits)
    (hroom : ∀ edits', edits' <+: edits → (RbEdit.nodesAfter L edits').length < 2 ^ 32)
    (hfuel : L.length + edits.length ≤ fuel) :
    ∃ S' T', Runs.run (RbEdit.run fuel) S edits = some S' ∧
      S'.Keeping T' (RbEdit.nodesAfter L edits) := by
  induction edits generalizing S T L with
  | nil => exact ⟨S, T, rfl, h⟩
  | cons edit edits ih =>
    rw [List.length_cons] at hfuel
    have hstep := edit.nodes_length_le L
    have hshort : L.length < fuel := by omega
    obtain ⟨S₁, T₁, hrun, h₁⟩ := edit.run_keeping h hallowed.1 hinner.1
      (hroom [edit] (List.prefix_append [edit] edits)) hshort
    have hroom₁ : ∀ edits', edits' <+: edits →
        (RbEdit.nodesAfter (edit.nodes L) edits').length < 2 ^ 32 :=
      fun edits' hpre => hroom (edit :: edits') ((List.prefix_cons_inj edit).mpr hpre)
    obtain ⟨S', T', hrest, h'⟩ := ih h₁ hallowed.2 (hinner.2 S₁ hrun) hroom₁ (by omega)
    exact ⟨S', T', Runs.run_cons.mpr ⟨S₁, hrun, hrest⟩, h'⟩

/-- In every run of insertions, removals and replacements of nodes that are neither first nor last
the tree stays valid. From each state that such a run leaves, a replacement keeps the links, the
shape, the colours and the values in order, and the root stays right about the tree exactly if the
victim is neither its first nor its last node. -/
theorem rbReplaceNode_staysValid (S : Rb) (edits : List RbEdit)
    (hallowed : RbEdit.AllAllowed [] edits)
    (hroom : ∀ edits', edits' <+: edits → (RbEdit.nodesAfter [] edits').length < 2 ^ 32) {fuel : Nat}
    (hfuel : edits.length ≤ fuel)
    (hinner : Runs.Along (RbEdit.run fuel) RbEdit.Inner (rbRootInit S) edits) :
    ∃ S' T, Runs.run (RbEdit.run fuel) (rbRootInit S) edits = some S' ∧ S'.Sound T ∧
      T.toList.Perm (RbEdit.nodesAfter [] edits) ∧ S'.Sorted T.toList ∧
      ∀ victim ∈ T.toList, ∀ new, new ∉ T.toList →
        (rbReplaceNode victim new S').Holds (T.map (renamed victim new)) ∧
        (∀ x ∈ T.toList,
          (rbReplaceNode victim new S').value (renamed victim new x) = S'.value x) ∧
        ((rbReplaceNode victim new S').Sound (T.map (renamed victim new)) ↔
          some victim ≠ S'.root.firstNode ∧ some victim ≠ S'.root.lastNode) := by
  have hlen : ([] : List Nat).length + edits.length ≤ fuel := by simpa using hfuel
  obtain ⟨S', T, hrun, h⟩ := edits_keeping (keeping_leaf (rfl : (rbRootInit S).root = _)) edits
    hallowed hinner hroom hlen
  refine ⟨S', T, hrun, h.shelters.sound, h.perm, h.sorted, ?_⟩
  intro victim hvictim new hnew
  exact ⟨h.shelters.holds.replaced hvictim hnew, fun x hx => value_renamed hnew hx,
    h.shelters.replaced_iff hvictim hnew⟩

/-- The node in the middle of three is replaced. -/
theorem rbReplaceNode_staysValid_three : ∃ S' T,
    Runs.run (RbEdit.run 4) (rbRootInit Rb.initial) [.call (.insert 8 1), .call (.insert 16 2),
        .call (.insert 24 3), .replace 16 32] = some S' ∧
      S'.Sound T ∧ T.toList.Perm [24, 32, 8] := by
  have hallowed : RbEdit.AllAllowed [] [.call (.insert 8 1), .call (.insert 16 2),
      .call (.insert 24 3), .replace 16 32] := by
    simp [RbEdit.AllAllowed, RbEdit.Allowed, RbCall.Allowed, RbEdit.nodes, RbCall.nodes]
  have hinner : Runs.Along (RbEdit.run 4) RbEdit.Inner (rbRootInit Rb.initial)
      [.call (.insert 8 1), .call (.insert 16 2), .call (.insert 24 3), .replace 16 32] := by
    refine ⟨trivial, fun S₁ h₁ => ⟨trivial, fun S₂ h₂ => ⟨trivial, fun S₃ h₃ => ⟨?_, fun _ _ =>
      trivial⟩⟩⟩⟩
    have hends : (Runs.run (RbEdit.run 4) (rbRootInit Rb.initial) [.call (.insert 8 1),
        .call (.insert 16 2), .call (.insert 24 3)]).map
          (fun S => (S.root.firstNode, S.root.lastNode)) = some (some 8, some 24) := by
      rfl
    have hrun : Runs.run (RbEdit.run 4) (rbRootInit Rb.initial) [.call (.insert 8 1),
        .call (.insert 16 2), .call (.insert 24 3)] = some S₃ :=
      Runs.run_cons.mpr ⟨S₁, h₁, Runs.run_cons.mpr ⟨S₂, h₂, Runs.run_cons.mpr ⟨S₃, h₃, rfl⟩⟩⟩
    rw [hrun, Option.map_some, Option.some_inj, Prod.mk.injEq] at hends
    change some 16 ≠ S₃.root.firstNode ∧ some 16 ≠ S₃.root.lastNode
    rw [hends.1, hends.2]
    decide
  obtain ⟨S', T, hrun, hsound, hperm, -⟩ := rbReplaceNode_staysValid Rb.initial _ hallowed
    (fun _ => RbEdit.nodesAfter_few (by decide)) (Nat.le_refl _) hinner
  exact ⟨S', T, hrun, hsound, hperm⟩

/-- The only node of a tree is replaced, and the root still has it as its first and last. -/
theorem rbReplaceNode_stale : ¬ ∀ (S : Rb) (edits : List RbEdit), RbEdit.AllAllowed [] edits →
    (∀ edits', edits' <+: edits → (RbEdit.nodesAfter [] edits').length < 2 ^ 32) →
    ∀ fuel, edits.length ≤ fuel →
      ∃ S' T, Runs.run (RbEdit.run fuel) (rbRootInit S) edits = some S' ∧ S'.Sound T := by
  intro hclaim
  have hallowed : RbEdit.AllAllowed [] [.call (.insert 8 5), .replace 8 16] := by
    simp [RbEdit.AllAllowed, RbEdit.Allowed, RbCall.Allowed, RbEdit.nodes, RbCall.nodes]
  obtain ⟨S', T', hrun, hsound⟩ := hclaim Rb.initial _ hallowed
    (fun _ => RbEdit.nodesAfter_few (by decide)) 2 (Nat.le_refl _)
  obtain ⟨S, T, hinsert, h⟩ := (RbCall.insert 8 5).run_keeping
    (keeping_leaf (rfl : (rbRootInit Rb.initial).root = _)) (by simp [RbCall.Allowed]) (by decide)
    (by decide : ([] : List Nat).length < 2)
  obtain ⟨S₁, hinsert₁, hrest⟩ := Runs.run_cons.mp hrun
  obtain rfl := Option.some.inj (hinsert.symm.trans hinsert₁)
  obtain ⟨S₂, hreplace, hrest⟩ := Runs.run_cons.mp hrest
  obtain rfl := Option.some.inj hreplace
  obtain rfl := Option.some.inj hrest
  have hlist : T.toList = [8] := List.perm_singleton.mp h.perm
  have hin : 8 ∈ T.toList := by simp [hlist]
  have hout : 16 ∉ T.toList := by simp [hlist]
  obtain rfl := hsound.holds.unique (h.shelters.holds.replaced hin hout)
  have hfirst := ((h.shelters.replaced_iff hin hout).mp hsound).1
  rw [h.shelters.first, hlist] at hfirst
  exact hfirst rfl

end CcRpc
