import Doppelganger.Timing.Ports
import Doppelganger.Weave.TimingEvent
import Mathlib.Data.List.Nodup
import Mathlib.Data.List.Perm.Subperm

/-! The miss status registers of a `TimingCache`.  While all of them are in use, hits and misses are
held in `pendingQueue`; the next writeback that succeeds frees one and queues all that are held.
Latencies and statistics are left out; an operation is `none` when an assertion fails. -/

namespace Doppelganger.Timing

open Function Lib Weave

/-- The events of a cache: its hits, and the three events of each of its misses. -/
inductive CacheEvent
  | hit (n : Nat)
  | missStart (n : Nat)
  | missResponse (n : Nat)
  | missWriteback (n : Nat)
deriving DecidableEq, Repr

/-- The cache, with ghosts: the events that are done, and the events held and those queued again,
each with the number of writebacks that were done. -/
structure TimingCache where
  ports : Ports
  activeMisses : Nat
  pendingQueue : List CacheEvent
  state : CacheEvent → EventState
  finished : List CacheEvent
  parked : List (CacheEvent × Nat)
  woken : List (CacheEvent × Nat)

def CacheEvent.isStart : CacheEvent → Bool
  | .missStart _ => true
  | _ => false

def CacheEvent.isWriteback : CacheEvent → Bool
  | .missWriteback _ => true
  | _ => false

/-- The start of the miss that is written back. -/
def CacheEvent.startOf : CacheEvent → CacheEvent
  | .missWriteback n => .missStart n
  | ev => ev

namespace TimingCache

def init : TimingCache := ⟨⟨0, 0⟩, 0, [], fun _ => .NONE, [], [], []⟩

variable (numMSHRs : Nat) (s : TimingCache)

def writebacks : Nat := s.finished.countP CacheEvent.isWriteback

def setState (ev : CacheEvent) (state : EventState) : TimingCache :=
  { s with state := update s.state ev state }

/-! ### `TimingEvent` -/

def hold (ev : CacheEvent) : Option TimingCache :=
  if s.state ev = .RUNNING then some (s.setState ev .HELD) else none

/-- `done`. -/
def finish (ev : CacheEvent) : Option TimingCache :=
  if s.state ev = .RUNNING then some { s.setState ev .DONE with finished := ev :: s.finished }
  else none

def requeue (ev : CacheEvent) : Option TimingCache :=
  if s.state ev = .RUNNING ∨ s.state ev = .HELD then some (s.setState ev .QUEUED) else none

/-! ### `TimingCache` -/

/-- `hold` and the `push_back` that follows it. -/
def park (ev : CacheEvent) : Option TimingCache :=
  (s.hold ev).map fun s =>
    { s with
      pendingQueue := s.pendingQueue ++ [ev]
      parked := s.parked ++ [(ev, s.writebacks)] }

def simulateHit (n cycle : Nat) : Option TimingCache :=
  if s.activeMisses < numMSHRs then
    (s.ports.highPrioAccess cycle).bind fun (_, ports) => { s with ports := ports }.finish (.hit n)
  else s.park (.hit n)

def simulateMissStart (n cycle : Nat) : Option TimingCache :=
  if s.activeMisses < numMSHRs then
    (s.ports.highPrioAccess cycle).bind fun (_, ports) =>
      { s with ports := ports, activeMisses := s.activeMisses + 1 }.finish (.missStart n)
  else s.park (.missStart n)

def simulateMissResponse (n : Nat) : Option TimingCache := s.finish (.missResponse n)

/-- The loop over `pendingQueue`, and its `clear`. -/
def wakeAll : Option TimingCache :=
  (s.pendingQueue.foldlM requeue s).map fun s =>
    { s with
      pendingQueue := []
      woken := s.woken ++ s.pendingQueue.map fun ev => (ev, s.writebacks) }

def simulateMissWriteback (n cycle : Nat) : Option TimingCache :=
  let (lookupCycle, ports) := s.ports.tryLowPrioAccess cycle
  if lookupCycle ≠ 0 then
    if s.activeMisses = 0 then none
    else
      { s with ports := ports, activeMisses := s.activeMisses - 1 }.wakeAll.bind fun s =>
        s.finish (.missWriteback n)
  else s.requeue (.missWriteback n)

def simulate (cycle : Nat) : CacheEvent → TimingCache → Option TimingCache
  | .hit n, s => s.simulateHit numMSHRs n cycle
  | .missStart n, s => s.simulateMissStart numMSHRs n cycle
  | .missResponse n, s => s.simulateMissResponse n
  | .missWriteback n, s => s.simulateMissWriteback n cycle

/-- `TimingEvent::run`. -/
def runEvent (ev : CacheEvent) (cycle : Nat) : Option TimingCache :=
  if s.state ev = .NONE ∨ s.state ev = .QUEUED then
    (s.setState ev .RUNNING).simulate numMSHRs cycle ev
  else none

/-- An event is queued for the first time, an event runs, or a `ReplAccessEvent` uses the port. -/
inductive Op
  | queue (ev : CacheEvent)
  | run (ev : CacheEvent) (cycle : Nat)
  | repl (cycle : Nat)

def step : Op → TimingCache → Option TimingCache
  | .queue ev, s => if s.state ev = .NONE then some (s.setState ev .QUEUED) else none
  | .run ev cycle, s => s.runEvent numMSHRs ev cycle
  | .repl cycle, s => some { s with ports := (s.ports.tryLowPrioAccess cycle).2 }

/-- The parents of an event in the graph of its miss are done. -/
def ParentsDone : CacheEvent → TimingCache → Prop
  | .hit _, _ => True
  | .missStart _, _ => True
  | .missResponse n, s => s.state (.missStart n) = .DONE
  | .missWriteback n, s => s.state (.missResponse n) = .DONE

/-- The order of the event graph. -/
def Allowed : Op → TimingCache → Prop
  | .queue ev, s => ParentsDone ev s
  | .run ev _, s => s.state ev = .QUEUED
  | .repl _, _ => True

instance decidableParentsDone : ∀ ev s, Decidable (ParentsDone ev s)
  | .hit _, _ => inferInstanceAs (Decidable True)
  | .missStart _, _ => inferInstanceAs (Decidable True)
  | .missResponse n, s => inferInstanceAs (Decidable (s.state (.missStart n) = .DONE))
  | .missWriteback n, s => inferInstanceAs (Decidable (s.state (.missResponse n) = .DONE))

instance decidableAllowed : ∀ op s, Decidable (Allowed op s)
  | .queue ev, s => inferInstanceAs (Decidable (ParentsDone ev s))
  | .run ev _, s => inferInstanceAs (Decidable (s.state ev = .QUEUED))
  | .repl _, _ => inferInstanceAs (Decidable True)

/-- The writeback of a miss has succeeded. -/
def isWritten : CacheEvent → Bool
  | .missStart n => .missWriteback n ∈ s.finished
  | _ => false

/-- The misses that were started and are not written back. -/
def outstanding : List CacheEvent :=
  (s.finished.filter CacheEvent.isStart).filter fun ev => !s.isWritten ev

structure Inv (s : TimingCache) : Prop where
  settled : ∀ ev, s.state ev ≠ .RUNNING
  pending : ∀ ev, s.state ev = .HELD ↔ ev ∈ s.pendingQueue
  nodup : s.pendingQueue.Nodup
  full : s.pendingQueue ≠ [] → s.activeMisses = numMSHRs
  bound : s.activeMisses ≤ numMSHRs
  count : s.activeMisses + s.writebacks = s.finished.countP CacheEvent.isStart
  finished : s.finished.Nodup ∧ ∀ ev, ev ∈ s.finished ↔ s.state ev = .DONE
  parents : ∀ ev, s.state ev ≠ .NONE → ParentsDone ev s
  account : s.parked = s.woken ++ s.pendingQueue.map fun ev => (ev, s.writebacks)

section

variable {numMSHRs : Nat} {s s' : TimingCache} {ev : CacheEvent} {n cycle active : Nat}
  {ports : Ports}

theorem init_inv : Inv numMSHRs init := by
  constructor <;> simp [init, ParentsDone, writebacks]

@[simp] theorem setState_state (st : EventState) (ev' : CacheEvent) :
    (s.setState ev st).state ev' = if ev' = ev then st else s.state ev' := update_apply _ _ _ _

theorem ParentsDone.mono (h : ParentsDone ev s)
    (hdone : ∀ ev', s.state ev' = .DONE → s'.state ev' = .DONE) : ParentsDone ev s' := by
  cases ev with
  | hit n => trivial
  | missStart n => trivial
  | missResponse n => exact hdone _ h
  | missWriteback n => exact hdone _ h

/-- The port may change. -/
theorem Inv.setPorts (h : Inv numMSHRs s) (ports : Ports) :
    Inv numMSHRs { s with ports := ports } :=
  ⟨h.settled, h.pending, h.nodup, h.full, h.bound, h.count, h.finished,
    fun ev hne => (h.parents ev hne).mono fun _ => id, h.account⟩

/-- An event is queued. -/
theorem Inv.queue (h : Inv numMSHRs s) (hev : s.state ev = .NONE ∨ s.state ev = .QUEUED)
    (hparents : ParentsDone ev s) : Inv numMSHRs (s.setState ev .QUEUED) := by
  have hkeep : ∀ ev' st, st = .HELD ∨ st = .DONE →
      ((s.setState ev .QUEUED).state ev' = st ↔ s.state ev' = st) := by
    intro ev' st hst
    rw [setState_state]
    split
    case isTrue heq =>
      rw [heq]
      obtain rfl | rfl := hst <;> obtain hev | hev := hev <;> rw [hev] <;> decide
    case isFalse => rfl
  refine ⟨fun ev' => ?_, fun ev' => (hkeep ev' _ (.inl rfl)).trans (h.pending ev'), h.nodup, h.full,
    h.bound, h.count, ⟨h.finished.1, fun ev' => (h.finished.2 ev').trans
      (hkeep ev' _ (.inr rfl)).symm⟩, fun ev' hne => ?_, h.account⟩
  · rw [setState_state]
    split
    · decide
    · exact h.settled ev'
  · have hold : ParentsDone ev' s := by
      rw [setState_state] at hne
      split at hne
      case isTrue heq => exact heq ▸ hparents
      case isFalse => exact h.parents ev' hne
    exact hold.mono fun ev'' => (hkeep ev'' _ (.inr rfl)).mpr

theorem Inv.not_pending (h : Inv numMSHRs s) (hev : s.state ev = .QUEUED) : ev ∉ s.pendingQueue :=
  fun hmem => by
    rw [(h.pending ev).mpr hmem] at hev
    cases hev

/-- When a queued event changes its state, the parents of the events that are not new are done. -/
theorem Inv.parents_of (h : Inv numMSHRs s) (hev : s.state ev = .QUEUED) {st : EventState}
    {ev' : CacheEvent} (hne : (s.setState ev st).state ev' ≠ .NONE) : ParentsDone ev' s := by
  by_cases heq : ev' = ev
  · exact h.parents ev' (by rw [heq, hev]; decide)
  · exact h.parents ev' fun hnone => hne
      ((setState_state _ _).trans (by rw [if_neg heq, hnone]))

/-- An event is done, and the registers in use are counted anew. -/
theorem Inv.finish (h : Inv numMSHRs s) (hev : s.state ev = .QUEUED)
    (hcount : active + (ev :: s.finished).countP CacheEvent.isWriteback =
      (ev :: s.finished).countP CacheEvent.isStart)
    (hbound : active ≤ numMSHRs) (hfull : s.pendingQueue ≠ [] → active = numMSHRs)
    (hwriteback : ev.isWriteback = true → s.pendingQueue = []) (ports : Ports) :
    Inv numMSHRs { s.setState ev .DONE with
      finished := ev :: s.finished, activeMisses := active, ports := ports } := by
  have hnew : ev ∉ s.finished := fun hmem => by
    rw [(h.finished.2 ev).mp hmem] at hev
    cases hev
  refine ⟨fun ev' => ?_, fun ev' => ?_, h.nodup, hfull, hbound, hcount,
    ⟨List.nodup_cons.mpr ⟨hnew, h.finished.1⟩, fun ev' => ?_⟩, fun ev' hne => ?_, ?_⟩
  · refine (setState_state _ _).trans_ne ?_
    split
    · decide
    · exact h.settled ev'
  · refine Iff.trans (Eq.congr_left (setState_state _ _)) ?_
    split
    case isTrue heq =>
      rw [heq]
      exact iff_of_false (by decide) (h.not_pending hev)
    case isFalse => exact h.pending ev'
  · refine Iff.trans ?_ (Eq.congr_left (setState_state _ _)).symm
    split
    case isTrue heq => exact iff_of_true (heq ▸ List.mem_cons_self) rfl
    case isFalse hother => rw [List.mem_cons, or_iff_right hother, h.finished.2]
  · refine (h.parents_of hev hne).mono fun ev'' hdone => (setState_state _ _).trans ?_
    split
    · rfl
    · exact hdone
  · by_cases hwb : ev.isWriteback = true
    · have haccount := h.account
      rw [hwriteback hwb] at haccount
      refine haccount.trans ?_
      rw [List.map_nil]
      show _ = s.woken ++ s.pendingQueue.map _
      rw [hwriteback hwb, List.map_nil]
    · have hsame : (ev :: s.finished).countP CacheEvent.isWriteback = s.writebacks :=
        List.countP_cons_of_neg hwb
      refine h.account.trans ?_
      show _ = s.woken ++ s.pendingQueue.map fun ev' =>
        (ev', (ev :: s.finished).countP CacheEvent.isWriteback)
      rw [hsame]

/-- An event is held while all registers are in use. -/
theorem Inv.park (h : Inv numMSHRs s) (hev : s.state ev = .QUEUED)
    (hall : s.activeMisses = numMSHRs) :
    Inv numMSHRs { s.setState ev .HELD with
      pendingQueue := s.pendingQueue ++ [ev], parked := s.parked ++ [(ev, s.writebacks)] } := by
  have hnew := h.not_pending hev
  have hdone : ∀ ev', (s.setState ev .HELD).state ev' = .DONE ↔ s.state ev' = .DONE := by
    intro ev'
    rw [setState_state]
    split
    case isTrue heq =>
      rw [heq, hev]
      decide
    case isFalse => rfl
  refine ⟨fun ev' => ?_, fun ev' => ?_, ?_, fun _ => hall, h.bound, h.count,
    ⟨h.finished.1, fun ev' => (h.finished.2 ev').trans (hdone ev').symm⟩, fun ev' hne => ?_, ?_⟩
  · refine (setState_state _ _).trans_ne ?_
    split
    · decide
    · exact h.settled ev'
  · refine Iff.trans (Eq.congr_left (setState_state _ _)) ?_
    rw [List.mem_append, List.mem_singleton]
    split
    case isTrue heq => exact iff_of_true rfl (.inr heq)
    case isFalse hother => rw [or_iff_left hother, h.pending]
  · exact List.nodup_append.mpr ⟨h.nodup, List.pairwise_singleton _ _, fun a ha b hb hab =>
      hnew (List.mem_singleton.mp hb ▸ hab ▸ ha)⟩
  · exact (h.parents_of hev hne).mono fun ev'' => (hdone ev'').mpr
  · show s.parked ++ _ = s.woken ++ (s.pendingQueue ++ [ev]).map _
    rw [h.account, List.map_append, List.append_assoc]
    rfl

/-- The cache after the loop over `pendingQueue`. -/
def wakened (s : TimingCache) : TimingCache :=
  { s with
    state := fun ev => if ev ∈ s.pendingQueue then .QUEUED else s.state ev
    pendingQueue := []
    woken := s.woken ++ s.pendingQueue.map fun ev => (ev, s.writebacks) }

theorem requeue_all : ∀ {l : List CacheEvent} {s : TimingCache}, l.Nodup →
    (∀ ev ∈ l, s.state ev = .HELD) → l.foldlM requeue s =
      some { s with state := fun ev => if ev ∈ l then .QUEUED else s.state ev }
  | [], s, _, _ => by simp
  | ev :: l, s, hnodup, hheld => by
    obtain ⟨hnew, hrest⟩ := List.nodup_cons.mp hnodup
    have hfirst : s.requeue ev = some (s.setState ev .QUEUED) :=
      if_pos (.inr (hheld ev List.mem_cons_self))
    rw [List.foldlM_cons, hfirst]
    refine (requeue_all hrest fun ev' hev' => ?_).trans ?_
    · rw [setState_state, if_neg fun heq : ev' = ev => hnew (heq ▸ hev')]
      exact hheld ev' (List.mem_cons_of_mem _ hev')
    · congr 2
      funext ev'
      rw [setState_state]
      by_cases heq : ev' = ev <;> simp [heq]

/-- The events that were held are queued, whatever event runs. -/
theorem Inv.wakeAll_eq (h : Inv numMSHRs s) (hev : s.state ev = .QUEUED) (active : Nat)
    (ports : Ports) :
    wakeAll { s.setState ev .RUNNING with ports := ports, activeMisses := active } =
      some { s.wakened.setState ev .RUNNING with ports := ports, activeMisses := active } := by
  have hnew := h.not_pending hev
  have hheld : ∀ ev' ∈ s.pendingQueue, ({ s.setState ev .RUNNING with
      ports := ports, activeMisses := active } : TimingCache).state ev' = .HELD := by
    intro ev' hmem
    refine (setState_state _ _).trans ?_
    rw [if_neg fun heq : ev' = ev => hnew (heq ▸ hmem)]
    exact (h.pending ev').mpr hmem
  refine (congrArg (Option.map _) (requeue_all h.nodup hheld)).trans ?_
  simp only [Option.map_some, TimingCache.wakened, setState, writebacks]
  congr 2
  funext ev'
  by_cases heq : ev' = ev
  · simp [heq, hnew]
  · simp [heq]

theorem Inv.wakened (h : Inv numMSHRs s) : Inv numMSHRs s.wakened := by
  have hkeep : ∀ ev st, st ≠ .QUEUED → st ≠ .HELD →
      (s.wakened.state ev = st ↔ s.state ev = st) := by
    intro ev st hqueued hheld
    show (if ev ∈ s.pendingQueue then .QUEUED else s.state ev) = st ↔ _
    split
    case isTrue hmem =>
      rw [(h.pending ev).mpr hmem]
      exact iff_of_false hqueued.symm hheld.symm
    case isFalse => rfl
  refine ⟨fun ev hrun => h.settled ev ((hkeep ev _ (by decide) (by decide)).mp hrun), fun ev => ?_,
    List.nodup_nil, fun hne => absurd rfl hne, h.bound, h.count, ⟨h.finished.1, fun ev =>
    (h.finished.2 ev).trans (hkeep ev _ (by decide) (by decide)).symm⟩, fun ev hne => ?_, ?_⟩
  · refine iff_of_false ?_ List.not_mem_nil
    show (if ev ∈ s.pendingQueue then .QUEUED else s.state ev) ≠ .HELD
    split
    · decide
    case isFalse hout => exact fun hheld => hout ((h.pending ev).mp hheld)
  · have hold : s.state ev ≠ .NONE := fun hnone =>
      hne ((hkeep ev _ (by decide) (by decide)).mpr hnone)
    exact (h.parents ev hold).mono fun ev' => (hkeep ev' _ (by decide) (by decide)).mpr
  · exact h.account.trans (List.append_nil _).symm

/-! ### Steps -/

theorem running_state : (s.setState ev .RUNNING).state ev = .RUNNING := by
  rw [setState_state, if_pos rfl]

theorem setState_setState (st st' : EventState) :
    (s.setState ev st).setState ev st' = s.setState ev st' := by
  unfold setState
  rw [update_idem]

theorem finish_running (active : Nat) (ports : Ports) :
    finish { s.setState ev .RUNNING with ports := ports, activeMisses := active } ev =
      some { s.setState ev .DONE with
        finished := ev :: s.finished, activeMisses := active, ports := ports } := by
  refine (if_pos running_state).trans ?_
  simp only [setState, update_idem]

theorem park_running : park (s.setState ev .RUNNING) ev = some { s.setState ev .HELD with
    pendingQueue := s.pendingQueue ++ [ev], parked := s.parked ++ [(ev, s.writebacks)] } := by
  unfold park hold
  rw [if_pos running_state, setState_setState]
  rfl

theorem Inv.none_pending (h : Inv numMSHRs s) (hfree : s.activeMisses < numMSHRs) :
    s.pendingQueue = [] := by
  by_contra hne
  have hall := h.full hne
  omega

theorem Inv.writeback_finished (h : Inv numMSHRs s) (hn : s.state (.missWriteback n) ≠ .NONE) :
    .missStart n ∈ s.finished := by
  have hresponse : s.state (.missResponse n) = .DONE := h.parents _ hn
  have hstart : s.state (.missStart n) = .DONE :=
    h.parents (.missResponse n) (by rw [hresponse]; decide)
  exact (h.finished.2 _).mpr hstart

/-- The misses that are written back are the starts of the writebacks. -/
theorem Inv.written_perm (h : Inv numMSHRs s) :
    ((s.finished.filter CacheEvent.isWriteback).map CacheEvent.startOf).Perm
      ((s.finished.filter CacheEvent.isStart).filter s.isWritten) := by
  have hkind : ∀ ev ∈ s.finished.filter CacheEvent.isWriteback,
      ∃ m, ev = .missWriteback m ∧ .missWriteback m ∈ s.finished := by
    intro ev hmem
    obtain ⟨hdone, hwb⟩ := List.mem_filter.mp hmem
    cases ev with
    | missWriteback m => exact ⟨m, rfl, hdone⟩
    | hit m => cases hwb
    | missStart m => cases hwb
    | missResponse m => cases hwb
  have hnodup : ((s.finished.filter CacheEvent.isWriteback).map CacheEvent.startOf).Nodup := by
    refine List.Nodup.map_on (fun a ha b hb hab => ?_) (h.finished.1.filter _)
    obtain ⟨m, rfl, -⟩ := hkind a ha
    obtain ⟨m', rfl, -⟩ := hkind b hb
    obtain rfl : m = m' := CacheEvent.missStart.inj hab
    rfl
  apply (List.perm_ext_iff_of_nodup hnodup ((h.finished.1.filter _).filter _)).mpr
  intro ev
  rw [List.mem_map, List.mem_filter, List.mem_filter]
  constructor
  · rintro ⟨ev', hev', rfl⟩
    obtain ⟨m, rfl, hdone⟩ := hkind ev' hev'
    refine ⟨⟨h.writeback_finished ?_, rfl⟩, decide_eq_true hdone⟩
    rw [(h.finished.2 _).mp hdone]
    decide
  · rintro ⟨⟨-, hstart⟩, hwritten⟩
    cases ev with
    | missStart m =>
      exact ⟨.missWriteback m, List.mem_filter.mpr ⟨of_decide_eq_true hwritten, rfl⟩, rfl⟩
    | hit m => cases hstart
    | missResponse m => cases hstart
    | missWriteback m => cases hstart

/-- Each miss that is started and not written back has a register. -/
theorem Inv.outstanding_length (h : Inv numMSHRs s) :
    s.activeMisses = s.outstanding.length := by
  have hcount := h.count
  have hperm := h.written_perm.length_eq
  have hsplit := List.length_eq_length_filter_add (l := s.finished.filter CacheEvent.isStart)
    s.isWritten
  unfold writebacks at hcount
  rw [List.countP_eq_length_filter, List.countP_eq_length_filter] at hcount
  rw [List.length_map] at hperm
  unfold outstanding
  omega

theorem Inv.active_pos (h : Inv numMSHRs s) (hev : s.state (.missWriteback n) = .QUEUED) :
    0 < s.activeMisses := by
  have hstart := h.writeback_finished (show s.state (.missWriteback n) ≠ .NONE by rw [hev]; decide)
  have hopen : .missWriteback n ∉ s.finished := fun hmem => by
    rw [(h.finished.2 _).mp hmem] at hev
    cases hev
  rw [h.outstanding_length]
  apply List.length_pos_of_mem (a := .missStart n)
  refine List.mem_filter.mpr ⟨List.mem_filter.mpr ⟨hstart, rfl⟩, ?_⟩
  simpa [isWritten] using hopen

/-- A high-priority access, after which the event is done. -/
theorem Inv.grant (h : Inv numMSHRs s) (hev : s.state ev = .QUEUED)
    (hwriteback : ev.isWriteback = false) (hpending : s.pendingQueue = [])
    (hcount : active + s.writebacks = (ev :: s.finished).countP CacheEvent.isStart)
    (hbound : active ≤ numMSHRs) {r : Option TimingCache}
    (hr : r = (s.ports.highPrioAccess cycle).bind fun (_, ports) =>
      TimingCache.finish { s.setState ev .RUNNING with
        ports := ports, activeMisses := active } ev) :
    (∃ s', r = some s' ∧ Inv numMSHRs s') ∨ r = none ∧ cycle < s.ports.lastFreeCycle := by
  subst hr
  by_cases hassert : s.ports.lastFreeCycle ≤ cycle
  · refine .inl ⟨_, Option.bind_eq_some_iff.mpr ⟨_, if_pos hassert, finish_running _ _⟩, ?_⟩
    refine h.finish hev ?_ hbound (fun hne => absurd hpending hne) (fun _ => hpending) _
    rw [List.countP_cons_of_neg (by rw [hwriteback]; decide)]
    exact hcount
  · refine .inr ⟨?_, Nat.lt_of_not_le hassert⟩
    have hnone : s.ports.highPrioAccess cycle = none := if_neg hassert
    rw [hnone]
    rfl

/-- A queued event runs, unless the assertion of a high-priority access fails. -/
theorem Inv.runEvent (h : Inv numMSHRs s) (hev : s.state ev = .QUEUED) (cycle : Nat) :
    (∃ s', s.runEvent numMSHRs ev cycle = some s' ∧ Inv numMSHRs s') ∨
      s.runEvent numMSHRs ev cycle = none ∧ cycle < s.ports.lastFreeCycle := by
  have hcount := h.count
  have hbound := h.bound
  unfold TimingCache.runEvent
  rw [if_pos (.inr hev)]
  cases ev with
  | hit n =>
    by_cases hfree : s.activeMisses < numMSHRs
    · exact h.grant hev rfl (h.none_pending hfree) (by rw [hcount]; rfl) hbound (if_pos hfree)
    · exact .inl ⟨_, (if_neg hfree).trans park_running, h.park hev (by omega)⟩
  | missStart n =>
    by_cases hfree : s.activeMisses < numMSHRs
    · refine h.grant hev rfl (h.none_pending hfree) ?_ hfree (if_pos hfree)
      rw [List.countP_cons_of_pos rfl]
      omega
    · exact .inl ⟨_, (if_neg hfree).trans park_running, h.park hev (by omega)⟩
  | missResponse n =>
    refine .inl ⟨_, finish_running s.activeMisses s.ports, ?_⟩
    exact h.finish hev hcount hbound h.full
      (fun hwb => absurd hwb Bool.false_ne_true) _
  | missWriteback n =>
    left
    have hactive := h.active_pos hev
    generalize hlow : s.ports.tryLowPrioAccess cycle = low
    obtain ⟨lookupCycle, ports⟩ := low
    have hrun : (s.setState (.missWriteback n) .RUNNING).simulateMissWriteback n cycle =
        if lookupCycle ≠ 0 then
          if s.activeMisses = 0 then none
          else (wakeAll { s.setState (.missWriteback n) .RUNNING with
            ports := ports, activeMisses := s.activeMisses - 1 }).bind fun s =>
              s.finish (.missWriteback n)
        else (s.setState (.missWriteback n) .RUNNING).requeue (.missWriteback n) := by
      unfold simulateMissWriteback
      have hports : (s.setState (.missWriteback n) .RUNNING).ports = s.ports := rfl
      rw [hports, hlow]
      rfl
    show ∃ s', (s.setState (.missWriteback n) .RUNNING).simulateMissWriteback n cycle = some s' ∧ _
    rw [hrun]
    split
    · rw [if_neg (by omega), h.wakeAll_eq hev]
      have hev' : s.wakened.state (.missWriteback n) = .QUEUED := by
        show (if _ then _ else s.state _) = _
        rw [hev, ite_self]
      refine ⟨_, finish_running _ _, h.wakened.finish hev' ?_ (by omega) (fun hne => absurd rfl hne)
        (fun _ => rfl) _⟩
      show s.activeMisses - 1 + List.countP _ (_ :: s.finished) =
        List.countP _ (_ :: s.finished)
      unfold writebacks at hcount
      rw [List.countP_cons_of_pos rfl, List.countP_cons_of_neg Bool.false_ne_true]
      omega
    · refine ⟨_, if_pos (.inl running_state), ?_⟩
      rw [setState_setState]
      exact h.queue (.inr hev) (h.parents _ (by rw [hev]; decide))

theorem step_inv (op : Op) (s s' : TimingCache) (h : Inv numMSHRs s) (hop : Allowed op s)
    (hs : step numMSHRs op s = some s') : Inv numMSHRs s' := by
  cases op with
  | queue ev =>
    obtain ⟨hev, hs⟩ := Option.ite_none_right_eq_some.mp hs
    obtain rfl := Option.some.inj hs
    exact h.queue (.inl hev) hop
  | run ev cycle =>
    obtain ⟨s1, h1, hinv⟩ | ⟨hnone, -⟩ := h.runEvent hop cycle
    · obtain rfl := Option.some.inj (h1.symm.trans hs)
      exact hinv
    · exact absurd (hnone.symm.trans hs) (by simp)
  | repl cycle =>
    obtain rfl := Option.some.inj hs
    exact h.setPorts _

/-- In every run in the order of the event graph: a register is in use for each miss that is started
and not written back, of which there are no more than registers; events are held only while all
registers are in use; an event is done once, and each time that it is held it is queued again once,
by the next writeback that succeeds; a queued event runs, so that no register too many is freed. -/
theorem misses_accounted (numMSHRs : Nat) (ops : List Op)
    (hops : Along (step numMSHRs) Allowed ops init) {s : TimingCache}
    (hrun : Lib.run (step numMSHRs) ops init = some s) :
    s.activeMisses = s.outstanding.length ∧ s.activeMisses ≤ numMSHRs ∧
      (s.pendingQueue ≠ [] → s.activeMisses = numMSHRs) ∧
      s.finished.Nodup ∧ (∀ ev, ev ∈ s.finished ↔ s.state ev = .DONE) ∧
      s.pendingQueue.Nodup ∧ (∀ ev, ev ∈ s.pendingQueue ↔ s.state ev = .HELD) ∧
      s.parked = s.woken ++ s.pendingQueue.map (fun ev => (ev, s.writebacks)) ∧
      ∀ ev cycle, s.state ev = .QUEUED → s.ports.lastFreeCycle ≤ cycle →
        ∃ s', step numMSHRs (.run ev cycle) s = some s' := by
  have h : Inv numMSHRs s := run_preserves step_inv init_inv hops hrun
  refine ⟨h.outstanding_length, h.bound, h.full, h.finished.1, h.finished.2, h.nodup,
    fun ev => (h.pending ev).symm, h.account, fun ev cycle hev hassert => ?_⟩
  obtain ⟨s', hs', -⟩ | ⟨-, hlt⟩ := h.runEvent hev cycle
  · exact ⟨s', hs'⟩
  · omega

/-- One register: a hit that comes during a miss is held until the writeback. -/
def oneMiss : List Op :=
  [.queue (.missStart 0), .run (.missStart 0) 5, .queue (.hit 0), .run (.hit 0) 6,
    .queue (.missResponse 0), .run (.missResponse 0) 8, .queue (.missWriteback 0),
    .run (.missWriteback 0) 9, .run (.hit 0) 10]

theorem misses_accounted_one :
    ∃ s, Lib.run (step 1) oneMiss init = some s ∧ s.woken = [(.hit 0, 0)] ∧
      s.activeMisses = s.outstanding.length ∧ s.activeMisses ≤ 1 ∧
      (s.pendingQueue ≠ [] → s.activeMisses = 1) ∧
      s.finished.Nodup ∧ (∀ ev, ev ∈ s.finished ↔ s.state ev = .DONE) ∧
      s.pendingQueue.Nodup ∧ (∀ ev, ev ∈ s.pendingQueue ↔ s.state ev = .HELD) ∧
      s.parked = s.woken ++ s.pendingQueue.map (fun ev => (ev, s.writebacks)) ∧
      ∀ ev cycle, s.state ev = .QUEUED → s.ports.lastFreeCycle ≤ cycle →
        ∃ s', step 1 (.run ev cycle) s = some s' := by
  have hrun : ∃ s, Lib.run (step 1) oneMiss init = some s ∧ s.woken = [(.hit 0, 0)] := ⟨_, rfl, rfl⟩
  obtain ⟨s, hs, hwoken⟩ := hrun
  exact ⟨s, hs, hwoken, misses_accounted 1 oneMiss (by decide) hs⟩

end

end TimingCache

end Doppelganger.Timing
