import Doppelganger.Core.OooRuns
import Doppelganger.Lib.InOrder

/-! The sizes of the queues of an out-of-order core: no uop takes an entry of the uop queue, the
reorder buffer, the load queue or the store queue before the one that had it has left. -/

namespace Doppelganger.Core

open Function Lib

/-- The uops of a type. -/
def ofType (type : UopType) (l : List Executed) : List Executed :=
  l.filter fun e => e.uop.type = type

/-- A uop waits for the ones whose entries it takes: the one 28 places before it to leave the uop
queue, the one 128 places before it to commit, and the 32nd load before a load, or store before a
store, to commit. -/
structure Executed.Buffered (e : Executed) (l : List Executed) : Prop where
  uopQueue : ∀ p, l[28 - 1]? = some p → p.left ≤ e.decoded
  rob : ∀ p, l[128 - 1]? = some p → p.commit + (DISPATCH_STAGE - ISSUE_STAGE) ≤ e.request
  loadQueue : e.uop.type = .LOAD → ∀ p, (ofType .LOAD l)[32 - 1]? = some p →
    p.commit ≤ e.dispatch
  storeQueue : e.uop.type = .STORE → ∀ p, (ofType .STORE l)[32 - 1]? = some p →
    p.commit ≤ e.dispatch

namespace OooCore

variable {μ : Type*} {s s' : OooCore μ} {c : Caches μ} {uop : DynUop} {e : Executed}
  {l : List Executed} {SZ W B : ℕ} {q : ReorderBuffer}

/-! ### A reorder buffer -/

/-- The entries of a buffer are not before the commits of `l`, and no later than there are entries
after the bound `B` of them. -/
structure Holds (SZ B : ℕ) (l : List Executed) (q : ReorderBuffer) : Prop where
  ring : Ring (fun e (b : UInt64) => e.commit ≤ b.toNat) SZ q.buf q.idx l
  le : q.curRetireCycle.toNat ≤ B + l.length

theorem holds_start (hSZ : 0 < SZ) : Holds SZ B [] .start := ⟨.nil hSZ, Nat.zero_le _⟩

theorem markRetire_eq (SZ W : ℕ) (x : UInt64) (q : ReorderBuffer) :
    (q.markRetire SZ W x).buf = update q.buf q.idx (q.retire W x).curRetireCycle ∧
      (q.markRetire SZ W x).idx = nextIdx SZ q.idx ∧
      (q.markRetire SZ W x).curRetireCycle = (q.retire W x).curRetireCycle := by
  unfold ReorderBuffer.markRetire ReorderBuffer.retire nextIdx
  dsimp only
  split
  · split <;> exact ⟨rfl, rfl, rfl⟩
  · exact ⟨rfl, rfl, rfl⟩

/-- An entry retires no earlier than it commits. -/
theorem Holds.retire (h : Holds SZ B l q) (hle : e.commit ≤ B)
    (hlen : B + (l.length + 1) < 2 ^ 64) :
    Holds SZ B (e :: l) (q.markRetire SZ W e.commit.toUInt64) := by
  have hcommit : e.commit.toUInt64.toNat = e.commit :=
    Nat.mod_eq_of_lt (show e.commit < 2 ^ 64 by omega)
  have hbound := h.le
  have hcycle : e.commit ≤ (q.retire W e.commit.toUInt64).curRetireCycle.toNat ∧
      (q.retire W e.commit.toUInt64).curRetireCycle.toNat ≤ B + (l.length + 1) := by
    unfold ReorderBuffer.retire
    split
    case isTrue hearly =>
      have hearly := UInt64.le_iff_toNat_le.mp hearly
      rw [hcommit] at hearly
      split
      · change e.commit ≤ (q.curRetireCycle + 1).toNat ∧ (q.curRetireCycle + 1).toNat ≤ _
        rw [ReorderBuffer.toNat_succ (by omega)]
        omega
      · exact ⟨hearly, by change q.curRetireCycle.toNat ≤ _; omega⟩
    case isFalse =>
      change e.commit ≤ e.commit.toUInt64.toNat ∧ e.commit.toUInt64.toNat ≤ _
      omega
  obtain ⟨hbuf, hidx, hcur⟩ := markRetire_eq SZ W e.commit.toUInt64 q
  refine ⟨?_, by rw [hcur]; exact hcycle.2⟩
  rw [hbuf, hidx]
  exact h.ring.push hcycle.1

theorem Holds.minAllocCycle (h : Holds SZ B l q) {p : Executed} (hp : l[SZ - 1]? = some p) :
    p.commit ≤ q.minAllocCycle.toNat :=
  h.ring.oldest hp

/-! ### One uop -/

/-- The queues, when the commits are bounded. -/
structure Queues (B : ℕ) (s : OooCore μ) : Prop where
  uopQueue : Ring (fun e b => e.left = b) 28 s.uopQueue.buf s.uopQueue.idx s.executed
  rob : Holds 128 B s.executed s.rob
  loadQueue : Holds 32 B (ofType .LOAD s.executed) s.loadQueue
  storeQueue : Holds 32 B (ofType .STORE s.executed) s.storeQueue
  each : Each Executed.Buffered s.executed

theorem queues_init (B : ℕ) (caches : μ) : Queues B (init caches) where
  uopQueue := .nil (by decide)
  rob := holds_start (by decide)
  loadQueue := holds_start (by decide)
  storeQueue := holds_start (by decide)
  each := trivial

theorem ofType_cons_of_ne {type : UopType} (h : e.uop.type ≠ type) :
    ofType type (e :: l) = ofType type l :=
  List.filter_cons_of_neg (by simpa using h)

theorem ofType_cons {type : UopType} (h : e.uop.type = type) :
    ofType type (e :: l) = e :: ofType type l :=
  List.filter_cons_of_pos (by simpa using h)

/-- A queue of a type of uops takes those of the type, when they wait for it. -/
theorem Holds.take {type : UopType} {q' : ReorderBuffer} (e : Executed)
    (h : Holds 32 B (ofType type l) q)
    (hq : e.uop.type = type ∧ q.minAllocCycle.toNat ≤ e.dispatch ∧
        q' = q.markRetire 32 4 e.commit.toUInt64 ∨ e.uop.type ≠ type ∧ q' = q)
    (hle : e.commit ≤ B) (hlen : B + (l.length + 1) < 2 ^ 64) :
    Holds 32 B (ofType type (e :: l)) q' ∧
      (e.uop.type = type → ∀ p, (ofType type l)[32 - 1]? = some p → p.commit ≤ e.dispatch) := by
  rcases hq with ⟨htype, hmin, rfl⟩ | ⟨htype, rfl⟩
  · have hfilter : (ofType type l).length ≤ l.length := List.length_filter_le ..
    rw [ofType_cons htype]
    exact ⟨h.retire hle (by omega), fun _ p hp => (h.minAllocCycle hp).trans hmin⟩
  · rw [ofType_cons_of_ne htype]
    exact ⟨h, fun ht => absurd ht htype⟩

/-- What the load-store unit does to its queues. -/
theorem access_queues {disp d m : ℕ} {addr : Address}
    (h : s.access c uop disp = some (s', d, m, addr)) :
    (uop.type = .LOAD ∧ s.loadQueue.minAllocCycle.toNat ≤ d ∧
        s'.loadQueue = s.loadQueue.markRetire 32 4 m.toUInt64 ∨
      uop.type ≠ .LOAD ∧ s'.loadQueue = s.loadQueue) ∧
    (uop.type = .STORE ∧ s.storeQueue.minAllocCycle.toNat ≤ d ∧
        s'.storeQueue = s.storeQueue.markRetire 32 4 m.toUInt64 ∨
      uop.type ≠ .STORE ∧ s'.storeQueue = s.storeQueue) := by
  unfold access at h
  split at h
  case h_2 htype =>
    unfold load at h
    split at h
    case h_1 => exact nomatch h
    case h_2 addr rest hlist =>
      simp only [Option.some.injEq, Prod.mk.injEq] at h
      obtain ⟨rfl, rfl, rfl, rfl⟩ := h
      obtain ⟨caches, recorded, heq, -⟩ := loadData_spec c addr (max
        (s.lastStoreAddrCommitCycle + 1) (max s.loadQueue.minAllocCycle.toNat disp)) s
      rw [htype, heq]
      refine ⟨.inl ⟨rfl, ?_, rfl⟩, .inr ⟨nofun, rfl⟩⟩
      exact (Nat.le_max_left ..).trans (Nat.le_max_right ..)
  case h_3 htype =>
    unfold store at h
    split at h
    case h_1 => exact nomatch h
    case h_2 addr rest hlist =>
      simp only [Option.some.injEq, Prod.mk.injEq] at h
      obtain ⟨rfl, rfl, rfl, rfl⟩ := h
      rw [htype]
      refine ⟨.inr ⟨nofun, rfl⟩, .inl ⟨rfl, ?_, rfl⟩⟩
      exact (Nat.le_max_left ..).trans (Nat.le_max_right ..)
  all_goals
    rename_i htype
    simp only [Option.some.injEq, Prod.mk.injEq] at h
    obtain ⟨rfl, -⟩ := h
    rw [htype]
    exact ⟨.inr ⟨nofun, rfl⟩, .inr ⟨nofun, rfl⟩⟩

theorem simulate_queues {prevDecCycle m : ℕ} (B : ℕ) (hpos : s.insWindow.curPos < 1024)
    (hsim : s.simulate c uop prevDecCycle = some (s', m)) :
    ∃ e, s'.executed = e :: s.executed ∧
      (Queues B s → e.commit ≤ B → B + (s.executed.length + 1) < 2 ^ 64 → Queues B s') := by
  obtain ⟨s1, s2, s3, stalled, cOps, s4, scheduled, s5, dispatchCycle, addr, hdecode, hissue,
    hreads, hdispatch, haccess, rfl⟩ := simulate_stages hsim
  obtain ⟨f1, -, hqueue1, hmin, -⟩ := decode_spec hpos hdecode
  obtain ⟨f2, -, hqueue2, hdec2, -⟩ := issue_spec f1.later.pos hissue
  obtain ⟨f3, hqueue3, hdec3, -⟩ := readRegs_spec f2.later.pos hreads
  obtain ⟨f4, -, hqueue4, -⟩ := dispatch_spec f3.later.pos hdispatch
  set e : Executed := ⟨uop, addr, s3.decodeCycle, s1.curCycle, stalled, s3.curCycle,
    s3.request cOps, dispatchCycle, m⟩
  have front : Front s s4 := ((f1.trans f2).trans f3).trans f4
  obtain ⟨-, -, -, hback⟩ := @access_spec _ _ _ _ c e _ _ _ _ .nil haccess rfl rfl rfl
  have hexec5 : s5.executed = s.executed := hback.executed.trans front.executed
  refine ⟨e, congrArg (e :: ·) hexec5, fun h hle hlen => ?_⟩
  have hrob3 : s3.rob = s.rob := ((f1.trans f2).trans f3).rob
  obtain ⟨hloads, hstores⟩ := access_queues haccess
  rw [front.loadQueue] at hloads
  rw [front.storeQueue] at hstores
  obtain ⟨hload, hload'⟩ := h.loadQueue.take e hloads hle hlen
  obtain ⟨hstore, hstore'⟩ := h.storeQueue.take e hstores hle hlen
  have hdecode3 : s3.decodeCycle = s1.decodeCycle := hdec3.trans hdec2
  have hqueue5 : s5.uopQueue = s.uopQueue.markLeave 28 s1.curCycle := by
    rw [hback.uopQueue, hqueue4, hqueue3, hqueue2, hqueue1]
  constructor
  case uopQueue =>
    rw [retire, hexec5, hqueue5]
    exact h.uopQueue.push rfl
  case rob =>
    rw [retire, hexec5, hback.rob, front.rob]
    exact h.rob.retire hle hlen
  case loadQueue =>
    rw [retire, hexec5]
    exact hload
  case storeQueue =>
    rw [retire, hexec5]
    exact hstore
  case each =>
    rw [retire, hexec5]
    refine ⟨⟨fun p hp => ?_, fun p hp => ?_, hload', hstore'⟩, h.each⟩
    · have hleft : p.left = s.uopQueue.minAllocCycle := h.uopQueue.oldest hp
      change p.left ≤ s3.decodeCycle
      omega
    · have hcommit := h.rob.minAllocCycle hp
      change _ ≤ s3.request cOps
      unfold request
      rw [hrob3]
      omega

/-! ### A run -/

/-- The queues are right as long as the commits and the uops are bounded. -/
def Bounded (B : ℕ) (s : OooCore μ) : Prop :=
  (∀ e ∈ s.executed, e.commit ≤ B) → B + s.executed.length < 2 ^ 64 → Queues B s

theorem Bounded.simulateAll {uops : List DynUop} {prevDecCycle m m' : ℕ} (hgood : s.Good)
    (h : Bounded B s) (hsim : OooCore.simulateAll c uops prevDecCycle m s = some (s', m')) :
    Bounded B s' := by
  induction uops generalizing prevDecCycle m s with
  | nil =>
    obtain ⟨rfl, -⟩ := Prod.mk.inj (Option.some.inj hsim)
    exact h
  | cons uop uops ih =>
    obtain ⟨⟨s1, m1⟩, h1, hrest⟩ := Option.bind_eq_some_iff.mp hsim
    refine ih (hgood.simulate h1) (fun hle hlen => ?_) hrest
    obtain ⟨e, hexec, hqueues⟩ := simulate_queues B hgood.pos h1
    rw [hexec, List.forall_mem_cons] at hle
    rw [hexec, List.length_cons] at hlen
    exact hqueues (h hle.2 (by omega)) hle.1 hlen

theorem Idle.bounded (h : Idle s s') (hs : Bounded B s) : Bounded B s' := by
  have hbackend := h.backend
  simp only [OooCore.backend, Prod.mk.injEq] at hbackend
  obtain ⟨-, -, -, -, -, -, hqueue, hrob, hload, hstore, hexec⟩ := hbackend
  unfold Bounded
  rw [hexec]
  intro hle hlen
  obtain ⟨h1, h2, h3, h4, h5⟩ := hs hle hlen
  constructor
  case uopQueue =>
    rw [hqueue, hexec]
    exact h1
  case rob =>
    rw [hrob, hexec]
    exact h2
  case loadQueue =>
    rw [hload, hexec]
    exact h3
  case storeQueue =>
    rw [hstore, hexec]
    exact h4
  case each =>
    rw [hexec]
    exact h5

theorem Bounded.step {lineSize : ℕ} (hgood : s.Good) (h : Bounded B s) (op : CoreOp)
    (hs' : coreStep c lineSize op s = some s') : Bounded B s' := by
  obtain hidle | ⟨s1, uops, s2, m, h1, hsim, h2⟩ | ⟨targetCycle, hadv⟩ := step_cases hs'
  · exact hidle.bounded h
  · exact h2.bounded ((h1.bounded h).simulateAll (h1.good hgood) hsim)
  · unfold advance at hadv
    split at hadv
    case isFalse => exact nomatch hadv
    case isTrue =>
      obtain ⟨w, hw, rfl⟩ := Option.map_eq_some_iff.mp hadv
      intro hle hlen
      obtain ⟨h1, h2, h3, h4, h5⟩ := h hle hlen
      exact ⟨h1, h2, h3, h4, h5⟩

end OooCore

open OooCore

/-- In every run whose cycles fit 64 bits, a uop is decoded after the one 28 places before it has
left the uop queue, wants to be dispatched after the one 128 places before it has committed, and, as
the 33rd load or store, is dispatched after the first one has committed. -/
theorem uops_have_room {μ : Type*} (c : Caches μ) (lineSize : ℕ) (caches : μ) (ops : List CoreOp)
    (B : ℕ) {s : OooCore μ} (hrun : run (coreStep c lineSize) ops (.init caches) = some s)
    (hcommit : ∀ e ∈ s.executed, e.commit ≤ B) (hlen : B + s.executed.length < 2 ^ 64) :
    Each Executed.Buffered s.executed := by
  have h : s.Good ∧ Bounded B s := @run_preserves _ _ (coreStep c lineSize) (fun _ _ => True)
    (fun s => s.Good ∧ Bounded B s) ops _ _
    (fun op _ _ h _ hs' => ⟨h.1.step op hs', h.2.step h.1 op hs'⟩)
    ⟨⟨show 0 < 1024 by decide, fun _ => inv_init caches⟩, fun _ _ => queues_init B caches⟩
    (along_of_forall (fun _ _ => trivial) ops _) hrun
  exact (h.2 hcommit hlen).each

/-- More uops than the uop queue holds, the first of which takes long. -/
def longBbl : BblInfo := ⟨30, 64, 0, ⟨0, 0, 1, 0, 50, 1, .GENERAL, 0x01, 0⟩ ::
  List.replicate 29 ⟨1, 0, 0, 0, 1, 1, .GENERAL, 0x23, 0⟩⟩

theorem uops_have_room_long : ∃ s,
    run (coreStep flatCaches 64) (simulated longBbl []) (.init ()) = some s ∧
    s.executed.length = 30 ∧ Each Executed.Buffered s.executed := by
  obtain ⟨s, hrun, hs⟩ := Option.map_eq_some_iff.mp (show
    (run (coreStep flatCaches 64) (simulated longBbl []) (.init ())).map
      (fun s => (decide (∀ e ∈ s.executed, e.commit ≤ 100), s.executed.length)) =
      some (true, 30) by decide +kernel)
  obtain ⟨hcommit, hlen⟩ := Prod.mk.inj hs
  refine ⟨s, hrun, hlen, ?_⟩
  exact uops_have_room flatCaches 64 () _ 100 hrun (of_decide_eq_true hcommit)
    (by rw [hlen]; decide)

end Doppelganger.Core
