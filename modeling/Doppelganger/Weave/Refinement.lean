import Doppelganger.Lib.Run
import Doppelganger.Weave.Pending

/-! Runs of a priority queue.  The ghosts of a `History` are the multiset of the pending elements,
and what was enqueued and dequeued so far, the latest first. -/

namespace Doppelganger.Weave

open Lib

/-- An element is a cycle with an object. -/
structure History (ι : Type*) where
  queue : PrioQueue ι
  pending : List (Nat × ι)
  enqueued : List (Nat × ι)
  dequeued : List (Nat × ι)

inductive QueueOp (ι : Type*)
  | enqueue (obj : ι) (cycle : Nat)
  | dequeue

namespace History

variable {ι : Type*}

def start : History ι := ⟨.init, [], [], []⟩

def step [DecidableEq ι] (B fuel : Nat) : QueueOp ι → History ι → Option (History ι)
  | .enqueue obj cycle, h => (h.queue.enqueue B obj cycle).map fun q =>
      ⟨q, (cycle, obj) :: h.pending, (cycle, obj) :: h.enqueued, h.dequeued⟩
  | .dequeue, h => (h.queue.dequeue B fuel).map fun (obj, cycle, q) =>
      ⟨q, h.pending.erase (cycle, obj), h.enqueued, (cycle, obj) :: h.dequeued⟩

/-- The callers enqueue objects that are not pending, for a cycle that is not before the last one
that was dequeued, and dequeue from a queue that is not empty. -/
def Allowed : QueueOp ι → History ι → Prop
  | .enqueue obj cycle, h => cycle < 2 ^ 64 ∧ obj ∉ h.pending.map Prod.snd ∧
      ∀ e ∈ h.dequeued.head?, e.1 ≤ cycle
  | .dequeue, h => h.pending ≠ []

/-- An object beyond the window has a cycle for which the word of `topCycle` is large enough. -/
def InReach (B : Nat) : QueueOp ι → History ι → Prop
  | .enqueue _ cycle, h =>
    cycle / 64 < h.queue.curBlock + B ∨ cycle / 64 + B / 2 < 2 ^ 58
  | .dequeue, _ => True

instance [DecidableEq ι] : ∀ (op : QueueOp ι) (h : History ι), Decidable (Allowed op h)
  | .enqueue .., _ => inferInstanceAs (Decidable (_ ∧ _ ∧ _))
  | .dequeue, h => decidable_of_iff (h.pending.isEmpty = false) (by simp [Allowed])

instance (B : Nat) : ∀ (op : QueueOp ι) (h : History ι), Decidable (InReach B op h)
  | .enqueue .., _ => inferInstanceAs (Decidable (_ ∨ _))
  | .dequeue, _ => inferInstanceAs (Decidable True)

/-- The queue holds what is pending, which comes after what was dequeued. -/
structure Inv (B : Nat) (h : History ι) : Prop where
  holds : ∃ slot, Holds B h.queue slot (h.queue.boundary B) h.pending
  cycles : ∀ e ∈ h.pending, e.1 < 2 ^ 64
  block : h.queue.curBlock = (h.dequeued.head?.elim 0 Prod.fst) / 64
  ordered : h.dequeued.Pairwise fun a b => b.1 ≤ a.1
  later : ∀ e ∈ h.dequeued.head?, ∀ e' ∈ h.pending, e.1 ≤ e'.1
  all : (h.dequeued ++ h.pending).Perm h.enqueued

end History

open History

section

variable {ι : Type*} {B fuel : Nat}

theorem History.start_inv (B : Nat) : Inv B (start : History ι) where
  holds := by
    refine ⟨fun _ => [], ⟨⟨by simp, fun c _ => rfl, fun c _ => ?_, by simp, by simp,
      fun _ _ => rfl⟩, by simp [start], ?_, ?_, ?_, ?_, rfl⟩⟩
    · simp [start, PrioQueue.init]
    all_goals simp [start, PrioQueue.init]
  cycles := by simp [start]
  block := by simp [start, PrioQueue.init]
  ordered := .nil
  later := by simp [start]
  all := .nil

theorem History.step_inv [DecidableEq ι] (hB : 2 ≤ B) (hfuel : 2 ^ 58 ≤ fuel) (op : QueueOp ι)
    (h : History ι) (hinv : Inv B h) (hop : Allowed op h ∧ InReach B op h) :
    ∃ h', step B fuel op h = some h' ∧ Inv B h' := by
  obtain ⟨slot, hholds⟩ := hinv.holds
  obtain ⟨hallowed, hreach⟩ := hop
  cases op with
  | enqueue x c =>
    obtain ⟨hc, hx, hlast⟩ := hallowed
    have hblock : h.queue.curBlock ≤ c / 64 := by
      rw [hinv.block]
      cases hd : h.dequeued with
      | nil => simp
      | cons e l => exact Nat.div_le_div_right (hlast e (by simp [hd]))
    obtain ⟨q, slot', hq, hholds', hcur⟩ := hholds.enqueue hblock hx hreach
    refine ⟨⟨q, (c, x) :: h.pending, (c, x) :: h.enqueued, h.dequeued⟩, by rw [step, hq]; rfl,
      ⟨slot', hholds'⟩, ?_, hcur.trans hinv.block, hinv.ordered, fun e he e' he' => ?_, ?_⟩
    · simpa using ⟨hc, fun d y hd => hinv.cycles (d, y) hd⟩
    · rcases List.mem_cons.mp he' with rfl | he'
      · exact hlast e he
      · exact hinv.later e he e' he'
    · exact List.perm_middle.trans (hinv.all.cons _)
  | dequeue =>
    obtain ⟨x, c, q, slot', hq, hfirst, hcur, hholds'⟩ :=
      hholds.dequeue hB hallowed hinv.cycles hfuel
    refine ⟨⟨q, h.pending.erase (c, x), h.enqueued, (c, x) :: h.dequeued⟩,
      by rw [step, hq]; rfl, ⟨slot', hholds'⟩, fun e he => ?_, hcur, ?_,
      fun e he e' he' => ?_, ?_⟩
    · exact hinv.cycles e (List.mem_of_mem_erase he)
    · refine List.pairwise_cons.mpr ⟨fun e he => ?_, hinv.ordered⟩
      -- The latest cycle that was dequeued is the greatest one.
      cases hd : h.dequeued with
      | nil => simp [hd] at he
      | cons d l =>
        have hdc := hinv.later d (by simp [hd]) (c, x) hfirst.1
        have hord := hinv.ordered
        rw [hd] at hord he
        rcases List.mem_cons.mp he with rfl | he
        · exact hdc
        · exact Nat.le_trans ((List.pairwise_cons.mp hord).1 e he) hdc
    · obtain rfl : (c, x) = e := by simpa using he
      exact hfirst.2 e' (List.mem_of_mem_erase he')
    · refine List.Perm.trans ?_ hinv.all
      exact List.perm_middle.symm.trans ((List.perm_cons_erase hfirst.1).symm.append_left _)

end

/-- As long as no object beyond the window is for one of the last cycles of a 64-bit word, the queue
is a multiset of cycles with objects: what was enqueued is what was dequeued and what is pending,
the cycles that were dequeued ascend, `size` is the number of pending elements, and `firstCycle`
the cycle that the next `dequeue` returns, with an element that has the least cycle. -/
theorem prioQueue_refines {ι : Type*} [DecidableEq ι] {B fuel : Nat} (hB : 2 ≤ B)
    (hfuel : 2 ^ 58 ≤ fuel) (ops : List (QueueOp ι))
    (hops : Along (step B fuel) (fun op h => Allowed op h ∧ InReach B op h) ops start) :
    ∃ h, run (step B fuel) ops start = some h ∧
      (h.dequeued ++ h.pending).Perm h.enqueued ∧
      h.dequeued.Pairwise (fun e e' => e'.1 ≤ e.1) ∧
      h.queue.size = h.pending.length ∧
      (h.pending ≠ [] → ∃ obj cycle q, h.queue.dequeue B fuel = some (obj, cycle, q) ∧
        h.queue.firstCycle B = some cycle ∧ (cycle, obj) ∈ h.pending ∧
        ∀ e ∈ h.pending, cycle ≤ e.1) := by
  obtain ⟨h, hrun, hinv⟩ := run_keeps (step_inv hB hfuel) ops (start_inv B) hops
  obtain ⟨slot, hholds⟩ := hinv.holds
  refine ⟨h, hrun, hinv.all, hinv.ordered, hholds.elems, fun hne => ?_⟩
  obtain ⟨x, c, q, -, hq, hfirst, -⟩ := hholds.dequeue hB hne hinv.cycles hfuel
  exact ⟨x, c, q, hq, hholds.firstCycle hB hfirst, hfirst⟩

/-- Two blocks: an object at the end of the first one, one behind the window, and one at the
boundary between the blocks that comes last. -/
theorem prioQueue_refines_small :
    ∃ h, run (step 2 (2 ^ 58)) [.enqueue 0 63, .enqueue 1 128, .dequeue, .enqueue 2 64, .dequeue,
        .enqueue 0 128] start = some h ∧
      (h.dequeued ++ h.pending).Perm h.enqueued ∧
      h.dequeued.Pairwise (fun e e' => e'.1 ≤ e.1) ∧
      h.queue.size = h.pending.length ∧
      (h.pending ≠ [] → ∃ (obj : Nat) (cycle : Nat) (q : PrioQueue Nat),
        h.queue.dequeue 2 (2 ^ 58) = some (obj, cycle, q) ∧ h.queue.firstCycle 2 = some cycle ∧
        (cycle, obj) ∈ h.pending ∧ ∀ e ∈ h.pending, cycle ≤ e.1) :=
  prioQueue_refines (by decide) (by decide) _ (by decide +kernel)

/-- An empty window never reaches an object of the last cycle: `topCycle` is a multiple of 64 below
it, or has wrapped around. -/
theorem findBlock_last {q : PrioQueue Unit} (hocc : ∀ i, (q.blocks i).occ = 0)
    (hfe : q.feMap = [(2 ^ 64 - 1, ())]) (fuel : Nat) : q.findBlock 2 fuel = none := by
  induction fuel generalizing q with
  | zero => rfl
  | succ fuel ih =>
    have htop : ¬2 ^ 64 - 1 < ((q.curBlock + 1) % 2 ^ 64 + 2) * 64 % 2 ^ 64 := by omega
    have hnext : q.nextBlock 2 = some { q with curBlock := (q.curBlock + 1) % 2 ^ 64 } := by
      rw [PrioQueue.nextBlock, hfe]
      simp only [PrioQueue.refill, if_neg htop]
      rw [← hfe]
      exact ite_self _
    rw [PrioQueue.findBlock, if_pos (hocc _), hnext]
    exact ih hocc hfe

/-- The object of the last cycle of a 64-bit word is enqueued, and `dequeue` does not return. -/
theorem dequeue_diverges :
    (∀ fuel, Along (step 2 fuel) Allowed [.enqueue () (2 ^ 64 - 1), .dequeue] start) ∧
      ¬∃ fuel s, run (step 2 fuel) [.enqueue () (2 ^ 64 - 1), .dequeue] start = some s := by
  have henq : ∀ fuel, step 2 fuel (.enqueue () (2 ^ 64 - 1)) start =
      some ⟨{ PrioQueue.init with feMap := [(2 ^ 64 - 1, ())], elems := 1 },
        [(2 ^ 64 - 1, ())], [(2 ^ 64 - 1, ())], []⟩ := fun _ => rfl
  refine ⟨fun fuel => ⟨by decide, fun h hstep => ⟨?_, fun _ _ => trivial⟩⟩, ?_⟩
  · rw [henq] at hstep
    obtain rfl := Option.some.inj hstep
    simp [Allowed]
  · rintro ⟨fuel, s, hrun⟩
    rw [run, henq, Option.bind_some, run, step, PrioQueue.dequeue, if_neg (by simp),
      findBlock_last (fun _ => rfl) rfl] at hrun
    exact absurd hrun (by simp)

end Doppelganger.Weave
