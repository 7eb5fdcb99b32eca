import CcRpc.Matching

/-!
# Sequence numbers

`rpc_next_seq` counts round the nonzero 32-bit numbers and stops at the first that no pending call
has. Its loop comes round within 2^32 - 1 steps, so it ends unless every number is taken, and the
number it returns is never that of a call in flight, however often the counter has wrapped.
-/

namespace CcRpc

variable {h : Host} {ω : Type} {E : Env}

/-- The `i`-th number from `g` on. After the last comes 1. -/
def seqFrom (g : UInt32) (i : Nat) : UInt32 := UInt32.ofNat ((g.toNat - 1 + i) % (2 ^ 32 - 1) + 1)

theorem seqFrom_toNat (g : UInt32) (i : Nat) :
    (seqFrom g i).toNat = (g.toNat - 1 + i) % (2 ^ 32 - 1) + 1 := by
  have hlt : (g.toNat - 1 + i) % (2 ^ 32 - 1) < 2 ^ 32 - 1 := Nat.mod_lt _ (by decide)
  have hsize : (g.toNat - 1 + i) % (2 ^ 32 - 1) + 1 < UInt32.size := by
    change _ < 2 ^ 32
    omega
  unfold seqFrom
  rw [UInt32.toNat_ofNat_of_lt' hsize]

theorem toNat_pos {g : UInt32} (hg : g ≠ 0) : 0 < g.toNat := by
  apply Nat.pos_of_ne_zero
  intro h0
  exact hg (UInt32.toNat_inj.mp h0)

theorem seqFrom_ne_zero (g : UInt32) (i : Nat) : seqFrom g i ≠ 0 := by
  intro h0
  have htoNat := seqFrom_toNat g i
  rw [h0] at htoNat
  simp at htoNat

theorem seqFrom_zero {g : UInt32} (hg : g ≠ 0) : seqFrom g 0 = g := by
  have hpos := toNat_pos hg
  have hlt := g.toNat_lt
  apply UInt32.toNat_inj.mp
  rw [seqFrom_toNat]
  omega

theorem seqFrom_succ (g : UInt32) (i : Nat) :
    (if seqFrom g i + 1 = 0 then 1 else seqFrom g i + 1) = seqFrom g (i + 1) := by
  have hi := seqFrom_toNat g i
  have hsucc := seqFrom_toNat g (i + 1)
  have hadd : (seqFrom g i + 1).toNat = ((seqFrom g i).toNat + 1) % 2 ^ 32 := UInt32.toNat_add _ _
  apply UInt32.toNat_inj.mp
  by_cases h0 : seqFrom g i + 1 = 0
  · rw [if_pos h0]
    rw [h0] at hadd
    change 1 = _
    change 0 = _ at hadd
    omega
  · rw [if_neg h0]
    have hpos := toNat_pos h0
    omega

/-- Every nonzero number comes up within one round. -/
theorem exists_seqFrom {g k : UInt32} (hg : g ≠ 0) (hk : k ≠ 0) :
    ∃ i, i < 2 ^ 32 - 1 ∧ seqFrom g i = k := by
  have hgpos := toNat_pos hg
  have hkpos := toNat_pos hk
  have hglt := g.toNat_lt
  have hklt := k.toNat_lt
  refine ⟨(k.toNat + (2 ^ 32 - 1) - g.toNat) % (2 ^ 32 - 1), Nat.mod_lt _ (by decide), ?_⟩
  apply UInt32.toNat_inj.mp
  rw [seqFrom_toNat]
  omega

/-- The loop passes over the taken numbers to the first free one. -/
theorem nextSeqLoop_seqFrom {pending : Hashmap (intKey h.word) Nat} {g : UInt32} {d i fuel : Nat}
    (htaken : ∀ j, i ≤ j → j < i + d → pending.get (seqFrom g j) ≠ none)
    (hfree : pending.get (seqFrom g (i + d)) = none) (hfuel : d < fuel) :
    nextSeqLoop pending fuel (seqFrom g i) =
      some (seqFrom g (i + d), seqFrom g (i + d + 1)) := by
  induction d generalizing i fuel with
  | zero =>
    obtain ⟨fuel, rfl⟩ := Nat.exists_eq_add_of_lt hfuel
    have hnot : pending.contains (seqFrom g i) = false := by simpa [Hashmap.contains] using hfree
    simp only [nextSeqLoop, hnot, Bool.false_eq_true, if_false, Nat.add_zero, seqFrom_succ]
  | succ d ih =>
    obtain ⟨fuel, rfl⟩ := Nat.exists_eq_add_of_lt (Nat.zero_lt_of_lt hfuel)
    have hin : pending.contains (seqFrom g i) = true := by
      have h0 := htaken i (Nat.le_refl i) (by omega)
      simpa [Hashmap.contains, Option.isSome_iff_ne_none] using h0
    have harith : i + (d + 1) = i + 1 + d := by omega
    rw [harith] at htaken hfree ⊢
    have hfuel' : d < 0 + fuel := by omega
    have hrest := ih (fun j hj hjd => htaken j (by omega) hjd) hfree hfuel'
    simp only [nextSeqLoop, hin, if_true, seqFrom_succ, hrest]

/-- `rpc_next_seq` ends unless every number is taken. It returns the first free number in cyclic
order from `g_next_seq` and leaves the one after it there. -/
theorem rpcNextSeq_eq {n : Node h ω} (hnext : n.nextSeq ≠ 0)
    (hfree : ∃ k, k ≠ 0 ∧ n.pending.get k = none) :
    ∃ i, i < 2 ^ 32 - 1 ∧ n.pending.get (seqFrom n.nextSeq i) = none ∧
      (∀ j, j < i → n.pending.get (seqFrom n.nextSeq j) ≠ none) ∧
      rpcNextSeq n = some (seqFrom n.nextSeq i,
        { n with nextSeq := seqFrom n.nextSeq (i + 1) }) := by
  classical
  obtain ⟨k, hk, hget⟩ := hfree
  obtain ⟨i₀, hlt, hi₀⟩ := exists_seqFrom hnext hk
  have hex : ∃ i, n.pending.get (seqFrom n.nextSeq i) = none := ⟨i₀, by rw [hi₀]; exact hget⟩
  have hle : Nat.find hex ≤ i₀ := Nat.find_min' hex (by rw [hi₀]; exact hget)
  have hfirst : ∀ j, j < Nat.find hex → n.pending.get (seqFrom n.nextSeq j) ≠ none :=
    fun j hj => Nat.find_min hex hj
  have hspec := Nat.find_spec hex
  refine ⟨Nat.find hex, by omega, hspec, hfirst, ?_⟩
  have hfuel : Nat.find hex < 2 ^ 32 := by omega
  have hloop := nextSeqLoop_seqFrom (i := 0) (fun j _ hj => hfirst j (by omega))
    (by rw [Nat.zero_add]; exact hspec) hfuel
  rw [seqFrom_zero hnext, Nat.zero_add] at hloop
  rw [rpcNextSeq, hloop]
  rfl

theorem nextSeqLoop_next_ne_zero {pending : Hashmap (intKey h.word) Nat} {fuel : Nat}
    {g s next : UInt32} (hloop : nextSeqLoop pending fuel g = some (s, next)) : next ≠ 0 := by
  induction fuel generalizing g with
  | zero => cases hloop
  | succ fuel ih =>
    rw [nextSeqLoop] at hloop
    split at hloop
    · exact ih hloop
    · cases hloop
      split
      · decide
      · assumption

theorem rpcCallWithTlv_nextSeq {a : CallArgs} {n n' : Node h ω} (hn : n.nextSeq ≠ 0)
    (hstep : rpcCallWithTlv E a n = some n') : n'.nextSeq ≠ 0 := by
  unfold rpcCallWithTlv at hstep
  split at hstep
  · cases hstep
    exact hn
  · next t ht =>
    split at hstep
    · cases hstep
    · obtain ⟨⟨seq, m⟩, hseq, rfl⟩ := Option.map_eq_some_iff.mp hstep
      obtain ⟨⟨s, next⟩, hloop, heq⟩ := Option.map_eq_some_iff.mp hseq
      cases heq
      have hne := nextSeqLoop_next_ne_zero hloop
      dsimp only [Node.heapMalloc]
      split
      · exact hne
      · split
        · exact hne
        · split
          · exact hne
          · next pending mallocs hput =>
            have hserve := rpcSendRequestTlv_serves (E := E) t seq a.name a.tlv
              ({ n with nextSeq := next, mallocs := mallocs, waiters := n.waiters + 1,
                        pending := pending } : Node h ω)
            have hsame := hserve.tables.nextSeq
            split
            · intro h0
              exact hne (hsame.symm.trans h0)
            · intro h0
              exact hne (hsame.symm.trans h0)

theorem Node.step_nextSeq {n n' : Node h ω} {a : Action ω} (hn : n.nextSeq ≠ 0)
    (hstep : n.step E a = some n') : n'.nextSeq ≠ 0 := by
  have hmove : ∀ {f : Call → Option Call} {c : Nat}, n.stepCall f c = some n' → n'.nextSeq ≠ 0 := by
    intro f c hmove
    obtain ⟨pc, -, hmove⟩ := Option.bind_eq_some_iff.mp hmove
    obtain ⟨pc', -, rfl⟩ := Option.map_eq_some_iff.mp hmove
    exact hn
  unfold Node.step at hstep
  split at hstep
  · cases hstep
  · cases a with
    | registerMethod name m =>
      change rpcRegisterMethod E name m n = some n' at hstep
      unfold rpcRegisterMethod at hstep
      dsimp only [Node.heapMalloc] at hstep
      split at hstep
      · cases hstep
        exact hn
      · split at hstep
        · cases hstep
        · split at hstep <;> cases hstep <;> exact hn
    | bindTransport name t =>
      change rpcBindTransport E name t n = some n' at hstep
      unfold rpcBindTransport at hstep
      dsimp only [Node.heapMalloc] at hstep
      split at hstep
      · cases hstep
        exact hn
      · split at hstep
        · cases hstep
        · split at hstep <;> cases hstep <;> exact hn
    | call a => exact rpcCallWithTlv_nextSeq hn hstep
    | wait c => exact hmove hstep
    | wake c => exact hmove hstep
    | expire c => exact hmove hstep
    | finish c =>
      change n.finishCall c = some n' at hstep
      unfold Node.finishCall at hstep
      split at hstep
      · cases hstep
      · obtain ⟨pc, -, hstep⟩ := Option.bind_eq_some_iff.mp hstep
        obtain ⟨pc', -, rfl⟩ := Option.map_eq_some_iff.mp hstep
        exact hn
    | onData t buf polled =>
      refine onData_keeps E (P := fun m : Node h ω => m.nextSeq ≠ 0) ?_ ?_ ?_ ?_ hn hstep
      · exact fun _ _ hm => hm
      · exact fun _ _ hm => hm
      · exact fun _ _ hm => hm
      · intro msg len m hm
        rw [(rpcDispatchMessage_spec E t msg len m).tables.nextSeq]
        exact hm

theorem initial_nextSeq_ne_zero (methodCap pendingCap transportCap : UInt8)
    (hasSend hasRecv : Nat → Bool) (world : ω) :
    (Node.initial h methodCap pendingCap transportCap hasSend hasRecv world).nextSeq ≠ 0 := by
  change (1 : UInt32) ≠ 0
  decide

theorem PendingOk.seq_inj {pending : Hashmap (intKey h.word) Nat} {calls : List Call}
    (hp : PendingOk pending calls) {i j : Nat} {pc pd : Call} (hi : calls[i]? = some pc)
    (hj : calls[j]? = some pd) (hpc : pc.phase.InFlight) (hpd : pd.phase.InFlight)
    (hseq : pc.seq = pd.seq) : i = j := by
  have hgi := (hp pc.seq i).mpr ⟨pc, hi, hpc, rfl⟩
  have hgj := (hp pc.seq j).mpr ⟨pd, hj, hpd, hseq.symm⟩
  rw [hgi] at hgj
  exact Option.some.inj hgj

/-- Sequence numbers are fresh. From every `g_next_seq` a node can have, which is never 0, and for
every pending table that leaves a nonzero number free, `rpc_next_seq` ends: it returns the first
free number in cyclic order, and `g_next_seq` is again not 0. After a run of any length the calls
in flight have different numbers. -/
theorem sequenceNumbers_fresh (E : Env) (methodCap pendingCap transportCap : UInt8)
    (hasSend hasRecv : Nat → Bool) (world : ω) :
    (∀ n : Node h ω, n.nextSeq ≠ 0 → (∃ k, k ≠ 0 ∧ n.pending.get k = none) →
      ∃ i, i < 2 ^ 32 - 1 ∧ rpcNextSeq n = some (seqFrom n.nextSeq i,
          { n with nextSeq := seqFrom n.nextSeq (i + 1) }) ∧
        seqFrom n.nextSeq i ≠ 0 ∧ n.pending.get (seqFrom n.nextSeq i) = none ∧
        (∀ j, j < i → n.pending.get (seqFrom n.nextSeq j) ≠ none) ∧
        seqFrom n.nextSeq (i + 1) ≠ 0) ∧
      ∀ (acts : List (Action ω)) (n : Node h ω), Runs.run (Node.step E)
          (Node.initial h methodCap pendingCap transportCap hasSend hasRecv world) acts = some n →
        n.nextSeq ≠ 0 ∧
          ∀ (i j : Nat) (pc pd : Call), n.calls[i]? = some pc → n.calls[j]? = some pd →
            pc.phase.InFlight → pd.phase.InFlight → pc.seq = pd.seq → i = j := by
  refine ⟨?_, ?_⟩
  · intro n hnext hfree
    obtain ⟨i, hi, hget, hfirst, heq⟩ := rpcNextSeq_eq hnext hfree
    exact ⟨i, hi, heq, seqFrom_ne_zero _ _, hget, hfirst, seqFrom_ne_zero _ _⟩
  · intro acts n hrun
    have hsound := run_sound (initial_sound _ _ _ _ _ world) hrun
    have hnext : n.nextSeq ≠ 0 :=
      Runs.run_invariant (P := fun m : Node h ω => m.nextSeq ≠ 0)
        (fun _ _ _ hm hstep => Node.step_nextSeq hm hstep)
        (initial_nextSeq_ne_zero methodCap pendingCap transportCap hasSend hasRecv world) hrun
    exact ⟨hnext, fun i j pc pd hi hj hpc hpd hseq => hsound.pending.seq_inj hi hj hpc hpd hseq⟩

/-- A node whose counter is about to wrap while a call with the last number is pending. -/
def wrappingNode : Node ⟨.little, .w64⟩ Unit :=
  { freshNode with
    nextSeq := 0xFFFFFFFF
    pending := (freshNode.pending.put true 0xFFFFFFFF 0).getD freshNode.pending }

/-- At the wrap 0 and the pending number are passed over, and a waiting call keeps its number. -/
theorem sequenceNumbers_fresh_wrap :
    (∃ i, i < 2 ^ 32 - 1 ∧
      (rpcNextSeq wrappingNode).map Prod.fst = some (seqFrom wrappingNode.nextSeq i) ∧
      seqFrom wrappingNode.nextSeq i ≠ 0 ∧
      wrappingNode.pending.get (seqFrom wrappingNode.nextSeq i) = none) ∧
    ∃ n, Runs.run (Node.step Env.granting) freshNode waitingActs = some n ∧ n.nextSeq ≠ 0 := by
  have hfresh := sequenceNumbers_fresh (h := ⟨.little, .w64⟩) (ω := Unit) Env.granting 16 16 4
    (fun _ => true) (fun _ => true) ()
  have hnext : wrappingNode.nextSeq ≠ 0 := by decide
  have hone : wrappingNode.pending.get 1 = none := by decide +kernel
  obtain ⟨i, hi, heq, hne, hget, -, -⟩ := hfresh.1 wrappingNode hnext ⟨1, by decide, hone⟩
  refine ⟨⟨i, hi, by rw [heq]; rfl, hne, hget⟩, ?_⟩
  have hsome : (Runs.run (Node.step Env.granting) freshNode waitingActs).isSome = true := by
    decide +kernel
  obtain ⟨n, hrun⟩ := Option.isSome_iff_exists.mp hsome
  exact ⟨n, hrun, (hfresh.2 waitingActs n hrun).1⟩

end CcRpc
