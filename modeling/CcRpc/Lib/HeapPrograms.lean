import Mathlib.Data.Multiset.AddSub
import Mathlib.Data.List.Pairwise
import CcRpc.Lib.Runs

/-!
# Programs that allocate and free

A program asks an allocator for blocks and gives blocks back. What it holds is a multiset of blocks,
so a rule for a program says which blocks it starts with and which it ends with, and the blocks of
everybody else are the frame. Objects that keep blocks between their operations then share an
allocator, in any order of operations, without losing a block or freeing one twice.
-/

namespace HeapPrograms

/-- The address of a block and the size that was asked for. -/
abbrev Block := Nat × Nat

/-- A program that calls an allocator. A request is answered by an address, or refused. -/
inductive Program (α : Type) where
  | done (a : α)
  | malloc (n : Nat) (next : Option Nat → Program α)
  | free (p : Nat) (next : Program α)
  /-- The program goes on with a request that was refused as if it had a block. -/
  | crash
  /-- What the program does here is not defined. -/
  | undefined

namespace Program

variable {α β : Type}

protected def bind : Program α → (α → Program β) → Program β
  | done a, f => f a
  | malloc n next, f => malloc n fun p => (next p).bind f
  | free p next, f => free p (next.bind f)
  | crash, _ => crash
  | undefined, _ => undefined

instance : Monad Program where
  pure := done
  bind := Program.bind

/-- A value that may be undefined. -/
def ofOption : Option α → Program α
  | some a => done a
  | none => undefined

/-- The blocks of a list are freed one after the other. -/
def freeAll : List Nat → Program Unit
  | [] => done ()
  | p :: ps => free p (freeAll ps)

@[simp] theorem pure_eq (a : α) : (pure a : Program α) = done a := rfl
@[simp] theorem done_bind (a : α) (f : α → Program β) : (done a >>= f) = f a := rfl
@[simp] theorem malloc_bind (n : Nat) (next : Option Nat → Program α) (f : α → Program β) :
    (malloc n next >>= f) = malloc n fun p => next p >>= f := rfl
@[simp] theorem free_bind (p : Nat) (next : Program α) (f : α → Program β) :
    (free p next >>= f) = free p (next >>= f) := rfl
@[simp] theorem crash_bind (f : α → Program β) : (crash >>= f) = crash := rfl
@[simp] theorem undefined_bind (f : α → Program β) : (undefined >>= f) = undefined := rfl

theorem bind_assoc {γ : Type} (c : Program α) (f : α → Program β) (g : β → Program γ) :
    (c >>= f) >>= g = c >>= fun a => f a >>= g := by
  induction c with
  | done a => rfl
  | malloc n next ih => simp [ih]
  | free p next ih => simp [ih]
  | crash => rfl
  | undefined => rfl

end Program

theorem Program.freeAll_append (ps qs : List Nat) :
    Program.freeAll (ps ++ qs) = Program.freeAll ps >>= fun _ => Program.freeAll qs := by
  induction ps with
  | nil => rfl
  | cons p ps ih => simp [Program.freeAll, ih]

/-- The two calls of an allocator. -/
structure Allocator (σ : Type) where
  malloc : σ → Nat → Option (σ × Option Nat)
  free : σ → Nat → Option σ

/-- What a program does on an allocator. -/
def Program.run {σ α : Type} (A : Allocator σ) : Program α → σ → Option (σ × α)
  | .done a, s => some (s, a)
  | .malloc n next, s => (A.malloc s n).bind fun x => (next x.2).run A x.1
  | .free p next, s => (A.free s p).bind fun s => next.run A s
  | .crash, _ => none
  | .undefined, _ => none

/-- A run of the program comes to a crash. -/
def Program.Crashes {σ α : Type} (A : Allocator σ) : Program α → σ → Prop
  | .done _, _ => False
  | .malloc n next, s => ∃ s' a, A.malloc s n = some (s', a) ∧ (next a).Crashes A s'
  | .free p next, s => ∃ s', A.free s p = some s' ∧ next.Crashes A s'
  | .crash, _ => True
  | .undefined, _ => False

theorem Program.Crashes.run {σ α : Type} {A : Allocator σ} {c : Program α} {s : σ} (h : c.Crashes A s) :
    c.run A s = none := by
  induction c generalizing s with
  | done a => exact h.elim
  | malloc n next ih =>
    obtain ⟨s', a, hmalloc, hnext⟩ := h
    simpa [Program.run, hmalloc] using ih a hnext
  | free p next ih =>
    obtain ⟨s', hfree, hnext⟩ := h
    simpa [Program.run, hfree] using ih hnext
  | crash => rfl
  | undefined => rfl

/-- What a program does when its requests are answered by a list, and refused after that. -/
def Program.replay {α : Type} : Program α → List (Option Nat) → Option (α × List (Option Nat))
  | .done a, answers => some (a, answers)
  | .malloc _ next, [] => (next none).replay []
  | .malloc _ next, a :: answers => (next a).replay answers
  | .free _ next, answers => next.replay answers
  | .crash, _ => none
  | .undefined, _ => none

/-- What an allocator and its users agree on: the sizes that may be asked for, the addresses that a
size can be granted at, when two blocks have nothing in common, and whether a program may crash. -/
structure Terms where
  asked : Nat → Prop
  grants : Nat → Nat → Prop
  apart : Block → Block → Prop
  crash : Prop

/-- `Holds s bs`: the blocks `bs` are in use in the state `s`. The allocator grants what has nothing in
common with them, and takes back any of them. -/
structure Allocator.Serves {σ : Type} (A : Allocator σ) (T : Terms) (Holds : σ → Multiset Block → Prop) :
    Prop where
  malloc : ∀ {s bs n}, Holds s bs → T.asked n → ∃ s' a, A.malloc s n = some (s', a) ∧
    (a = none ∧ Holds s' bs ∨
      ∃ p, a = some p ∧ T.grants n p ∧ (∀ b ∈ bs, T.apart (p, n) b) ∧ Holds s' ((p, n) ::ₘ bs))
  free : ∀ {s bs p n}, Holds s ((p, n) ::ₘ bs) → ∃ s', A.free s p = some s' ∧ Holds s' bs

/-- The program can be run by anyone who holds `own`, and ends with a result and blocks as in `post`. -/
def Program.Owns {α : Type} (T : Terms) : Program α → Multiset Block → (α → Multiset Block → Prop) → Prop
  | .done a, own, post => post a own
  | .malloc n next, own, post => T.asked n ∧ (next none).Owns T own post ∧
      ∀ p, T.grants n p → (∀ b ∈ own, T.apart (p, n) b) →
        (next (some p)).Owns T ((p, n) ::ₘ own) post
  | .free p next, own, post => ∃ n rest, own = (p, n) ::ₘ rest ∧ next.Owns T rest post
  | .crash, _, _ => T.crash
  | .undefined, _, _ => False

section Rules

variable {σ α β : Type} {T : Terms} {c : Program α} {own rest : Multiset Block}
  {post post' : α → Multiset Block → Prop}

theorem Program.Owns.mono (h : c.Owns T own post) (hpost : ∀ a bs, post a bs → post' a bs) :
    c.Owns T own post' := by
  induction c generalizing own with
  | done a => exact hpost a own h
  | malloc n next ih =>
    obtain ⟨hasked, hnull, hgranted⟩ := h
    exact ⟨hasked, ih none hnull, fun p hgrants hapart => ih (some p) (hgranted p hgrants hapart)⟩
  | free p next ih =>
    obtain ⟨n, rest, rfl, hnext⟩ := h
    exact ⟨n, rest, rfl, ih hnext⟩
  | crash => exact h
  | undefined => exact h

theorem Program.Owns.bind {f : α → Program β} {post' : β → Multiset Block → Prop}
    (h : c.Owns T own fun a bs => (f a).Owns T bs post') : (c >>= f).Owns T own post' := by
  induction c generalizing own with
  | done a => exact h
  | malloc n next ih =>
    obtain ⟨hasked, hnull, hgranted⟩ := h
    exact ⟨hasked, ih none hnull, fun p hgrants hapart => ih (some p) (hgranted p hgrants hapart)⟩
  | free p next ih =>
    obtain ⟨n, rest, rfl, hnext⟩ := h
    exact ⟨n, rest, rfl, ih hnext⟩
  | crash => exact h
  | undefined => exact h

/-- The frame rule: on an allocator where others hold blocks too, a program that does not crash does
what it does on its own blocks, and theirs are as before. -/
theorem Program.Owns.run {A : Allocator σ} {Holds : σ → Multiset Block → Prop} (hA : A.Serves T Holds)
    (h : c.Owns T own post) {s : σ} (hs : Holds s (own + rest)) (hcrash : T.crash → ¬ c.Crashes A s) :
    ∃ s' a own', c.run A s = some (s', a) ∧ post a own' ∧ Holds s' (own' + rest) := by
  induction c generalizing own s with
  | done a => exact ⟨s, a, own, rfl, h, hs⟩
  | malloc n next ih =>
    obtain ⟨hasked, hnull, hgranted⟩ := h
    obtain ⟨s₁, _, hmalloc, ⟨rfl, hs₁⟩ | ⟨p, rfl, hgrants, hapart, hs₁⟩⟩ := hA.malloc hs hasked
    · have hnext : T.crash → ¬ (next none).Crashes A s₁ := fun hc hfails =>
        hcrash hc ⟨s₁, none, hmalloc, hfails⟩
      obtain ⟨s', a, own', hrun, hpost, hs'⟩ := ih none hnull hs₁ hnext
      exact ⟨s', a, own', by simpa [Program.run, hmalloc] using hrun, hpost, hs'⟩
    · have hown : ∀ b ∈ own, T.apart (p, n) b := fun b hb => hapart b (Multiset.mem_add.mpr (.inl hb))
      rw [← Multiset.cons_add] at hs₁
      have hnext : T.crash → ¬ (next (some p)).Crashes A s₁ := fun hc hfails =>
        hcrash hc ⟨s₁, some p, hmalloc, hfails⟩
      obtain ⟨s', a, own', hrun, hpost, hs'⟩ := ih (some p) (hgranted p hgrants hown) hs₁ hnext
      exact ⟨s', a, own', by simpa [Program.run, hmalloc] using hrun, hpost, hs'⟩
  | free p next ih =>
    obtain ⟨n, mine, rfl, hnext⟩ := h
    rw [Multiset.cons_add] at hs
    obtain ⟨s₁, hfree, hs₁⟩ := hA.free hs
    obtain ⟨s', a, own', hrun, hpost, hs'⟩ := ih hnext hs₁ fun hc hfails => hcrash hc ⟨s₁, hfree, hfails⟩
    exact ⟨s', a, own', by simpa [Program.run, hfree] using hrun, hpost, hs'⟩
  | crash => exact absurd trivial (hcrash h)
  | undefined => exact h.elim

end Rules

/-- Objects that are made and used by programs. An operation leaves its object, or ends its life. -/
structure Objects (ω op : Type) where
  make : op → Program (Option ω)
  use : op → ω → Program (Option ω)
  owned : ω → List Block

/-- An operation that makes an object, or one on the object at an index. -/
inductive Act (op : Type) where
  | make (o : op)
  | use (i : Nat) (o : op)

section Sharing

variable {σ ω op : Type} (A : Allocator σ) (K : Objects ω op)

/-- One operation. The state is that of the allocator, and the objects there are. -/
def Objects.step (s : σ × List ω) : Act op → Option (σ × List ω)
  | .make o => ((K.make o).run A s.1).map fun x => (x.1, x.2.toList ++ s.2)
  | .use i o => s.2[i]?.bind fun a =>
      ((K.use o a).run A s.1).map fun x => (x.1, s.2.take i ++ (x.2.toList ++ s.2.drop (i + 1)))

/-- All blocks that objects keep. -/
def Objects.held (as : List ω) : List Block := as.flatMap K.owned

/-- Each operation, where it is legal, starts with the blocks of its object and ends with the blocks of
the object it leaves. -/
structure Objects.Keeps (T : Terms) (Ok : ω → Prop) (Legal : op → Option ω → Prop) : Prop where
  make : ∀ {o}, Legal o none → (K.make o).Owns T 0 fun a own =>
    own = (K.held a.toList : Multiset Block) ∧ ∀ x ∈ a, Ok x
  use : ∀ {o a}, Ok a → Legal o (some a) → (K.use o a).Owns T (K.owned a) fun a own =>
    own = (K.held a.toList : Multiset Block) ∧ ∀ x ∈ a, Ok x

/-- The operation is legal for the object it is called on. -/
def Act.Legal (legal : op → Option ω → Prop) (s : σ × List ω) : Act op → Prop
  | .make o => legal o none
  | .use i o => ∃ a, s.2[i]? = some a ∧ legal o (some a)

/-- The operation comes to a crash. -/
def Act.Crashes (s : σ × List ω) : Act op → Prop
  | .make o => (K.make o).Crashes A s.1
  | .use i o => ∃ a, s.2[i]? = some a ∧ (K.use o a).Crashes A s.1

variable {A K} {T : Terms} {Ok : ω → Prop} {legal : op → Option ω → Prop}
  {Holds : σ → Multiset Block → Prop}

theorem Act.Crashes.step {s : σ × List ω} {a : Act op} (h : a.Crashes A K s) : K.step A s a = none := by
  cases a with
  | make o => rw [Objects.step, Program.Crashes.run h, Option.map_none]
  | use i o =>
    obtain ⟨x, hx, hcrash⟩ := h
    rw [Objects.step, hx, Option.bind_some, hcrash.run, Option.map_none]

theorem Objects.held_append (as bs : List ω) : K.held (as ++ bs) = K.held as ++ K.held bs :=
  List.flatMap_append

/-- The allocator's blocks in use are those of the objects. -/
structure Objects.Shared (K : Objects ω op) (Holds : σ → Multiset Block → Prop) (Ok : ω → Prop)
    (s : σ × List ω) : Prop where
  holds : Holds s.1 (K.held s.2)
  ok : ∀ a ∈ s.2, Ok a

theorem Objects.Shared.step (hA : A.Serves T Holds) (hK : K.Keeps T Ok legal) {s : σ × List ω}
    (hs : K.Shared Holds Ok s) {a : Act op} (ha : a.Legal legal s) (hcrash : T.crash → ¬ a.Crashes A K s) :
    ∃ s', K.step A s a = some s' ∧ K.Shared Holds Ok s' := by
  cases a with
  | make o =>
    have hholds : Holds s.1 (0 + (K.held s.2 : Multiset Block)) := by
      rw [zero_add]
      exact hs.holds
    obtain ⟨s', x, own, hrun, ⟨rfl, hok⟩, hs'⟩ := (hK.make ha).run hA hholds hcrash
    refine ⟨(s', x.toList ++ s.2), ?_, ?_, ?_⟩
    · rw [Objects.step, hrun]
      rfl
    · rw [held_append, ← Multiset.coe_add]
      exact hs'
    · intro y hy
      rcases List.mem_append.mp hy with hnew | hold
      · exact hok y (Option.mem_toList.mp hnew)
      · exact hs.ok y hold
  | use i o =>
    obtain ⟨x, hx, hlegal⟩ := ha
    obtain ⟨hlt, rfl⟩ := List.getElem?_eq_some_iff.mp hx
    have hsplit : s.2 = s.2.take i ++ s.2[i] :: s.2.drop (i + 1) := by
      rw [← List.drop_eq_getElem_cons hlt, List.take_append_drop]
    have hholds : Holds s.1 ((K.owned s.2[i] : Multiset Block) +
        (K.held (s.2.take i ++ s.2.drop (i + 1)) : Multiset Block)) := by
      have hall := hs.holds
      rw [hsplit, held_append, Objects.held, Objects.held, List.flatMap_cons] at hall
      rw [held_append, Multiset.coe_add]
      convert hall using 1
      rw [Multiset.coe_eq_coe, ← List.append_assoc, ← List.append_assoc]
      exact List.perm_append_comm.append_right _
    obtain ⟨s', y, own, hrun, ⟨rfl, hok⟩, hs'⟩ :=
      (hK.use (hs.ok _ (List.getElem_mem hlt)) hlegal).run hA hholds
        fun hc hfails => hcrash hc ⟨_, hx, hfails⟩
    refine ⟨(s', s.2.take i ++ (y.toList ++ s.2.drop (i + 1))), ?_, ?_, ?_⟩
    · rw [Objects.step, hx, Option.bind_some, hrun]
      rfl
    · rw [held_append, held_append]
      rw [held_append, Multiset.coe_add] at hs'
      convert hs' using 1
      rw [Multiset.coe_eq_coe, ← List.append_assoc, ← List.append_assoc]
      exact List.perm_append_comm.append_right _
    · intro z hz
      simp only [List.mem_append] at hz
      rcases hz with hold | hnew | hold
      · exact hs.ok z (List.mem_of_mem_take hold)
      · exact hok z (Option.mem_toList.mp hnew)
      · exact hs.ok z (List.mem_of_mem_drop hold)

/-- Legal operations in any order, as long as none crashes, are defined, and at any time the blocks in
use are those that the objects keep. -/
theorem Objects.Shared.run (hA : A.Serves T Holds) (hK : K.Keeps T Ok legal) {s : σ × List ω}
    (hs : K.Shared Holds Ok s) {acts : List (Act op)}
    (hacts : Runs.Along (K.step A) (fun s a => a.Legal legal s ∧ (T.crash → ¬ a.Crashes A K s)) s acts) :
    ∃ s', Runs.run (K.step A) s acts = some s' ∧ K.Shared Holds Ok s' :=
  Runs.run_total (fun _ _ hs ha => hs.step hA hK ha.1 ha.2) hs hacts

end Sharing

end HeapPrograms
