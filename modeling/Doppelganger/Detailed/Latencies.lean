import Mathlib.Algebra.Group.Int.Defs
import Doppelganger.Detailed.SchedulerQueues

/-! The cycles at which `MemControllerBase` lets events respond, with the scheduler and without.
The differences of 64 bits that it makes are integers here, so that one that wraps around is
negative; while none does, the integers are the words. -/

namespace Doppelganger.Detailed

open Lib MemAccessType

/-- The constants of a controller. -/
structure MemControllerBase where
  mParam : MemParam
  sysFreqKHz : Nat
  memFreqKHz : Nat
  sys_pos : 0 < sysFreqKHz
  mem_pos : 0 < memFreqKHz

/-- The channels of a controller and their schedulers. -/
structure MemController where
  chnls : Nat → MemChannel
  sches : Nat → MemSchedulerDefault

/-- A call of `done`: the cycle at which the controller executes, what its subtractions of
`preDelay` and `minLatency` give, and the argument.  For a read from the queue, `hitCycle` is when a
hit responds that was enqueued with it. -/
structure Done where
  cycle : Nat
  differences : List Int
  doneCycle : Int
  postDelay : Nat
  hitCycle : Option Int
deriving DecidableEq, Repr

namespace MemControllerBase

variable (m : MemControllerBase)

def sysToMemCycle (sysCycle : Nat) : Nat := sysCycle * m.memFreqKHz % 2 ^ 64 / m.sysFreqKHz

def memToSysCycle (memCycle : Nat) : Nat := memCycle * m.sysFreqKHz % 2 ^ 64 / m.memFreqKHz

/-! ### The constructor -/

def controllerLatency : Nat := m.mParam.controllerLatency.toNat

def memMinLatency (type : MemAccessType) : Nat :=
  m.memToSysCycle (m.mParam.getDataLatency type) % 2 ^ 32

/-- A hit in the queue of the scheduler takes one memory cycle. -/
def minLatency (type : MemAccessType) : Nat :=
  (m.memToSysCycle (if m.mParam.schedulerQueueCount = 0 then m.mParam.getDataLatency type else 1) +
    m.controllerLatency) % 2 ^ 32

def preDelay (type : MemAccessType) : Nat := m.minLatency type / 2

def postDelay (type : MemAccessType) : Nat := m.minLatency type - m.preDelay type

def init : MemController := ⟨fun i => .init (UInt32.ofNat i), fun _ => .init m.mParam⟩

/-! ### Requests -/

/-- `LatencySimulate`; an argument that wrapped around is taken as a word. -/
def latencySimulate (lineAddr : UInt64) (sysCycle : Int) (type : MemAccessType)
    (chnls : Nat → MemChannel) : Option ((Nat → MemChannel) × Nat) :=
  (m.mParam.returnChannel lineAddr).bind fun channel =>
    ((chnls channel.toNat).latencySimulate m.mParam lineAddr
      (m.sysToMemCycle (sysCycle % 2 ^ 64).toNat) type).bind fun (chnl, memLatency) =>
        let sysLatency := m.memToSysCycle memLatency
        if m.memMinLatency type ≤ sysLatency then
          some (Function.update chnls channel.toNat chnl, sysLatency)
        else none

/-- The argument of `done` for a write, or a read that hits. -/
def queueCycle (type : MemAccessType) (cycle : Nat) : Int :=
  (cycle : Int) - m.minLatency type + m.controllerLatency

def enqueue (ev : MemAccessEvent) (cycle : Nat) (s : MemController) :
    Option (MemController × Option Done) :=
  if m.mParam.schedulerQueueCount = 0 then
    let beforeDelay : Int := cycle - m.preDelay ev.type
    (m.latencySimulate ev.addr (beforeDelay + m.controllerLatency) ev.type s.chnls).map
      fun (chnls, latency) =>
        let beforeLatency : Int := cycle + latency - m.minLatency ev.type
        ({ s with chnls }, some
          { cycle
            differences := [beforeDelay, beforeLatency]
            doneCycle := beforeLatency + m.controllerLatency
            postDelay := m.postDelay ev.type
            hitCycle := none })
  else
    (m.mParam.returnChannel ev.addr).map fun channel =>
      let checked := (s.sches channel.toNat).checkSetEvent ev
      ({ s with sches := Function.update s.sches channel.toNat checked.1 },
        if ev.type = WRITE ∨ checked.2 = true then some
          { cycle
            differences := [cycle - m.minLatency ev.type]
            doneCycle := m.queueCycle ev.type cycle
            postDelay := m.postDelay ev.type
            hitCycle := none }
        else none)

/-- The cycle at which an event is enqueued, `preDelay` after its parents are done. -/
def startCycle (ev : MemAccessEvent) : Nat := ev.cycle + m.preDelay ev.type

/-- The body of the loop of `TickScheduler`. -/
def tickChannel (channel sysCycle : Nat) (s : MemController) :
    Option (MemController × Option Done) :=
  ((s.sches channel).getEvent m.mParam (s.chnls channel)).bind fun (sched, got) =>
    let sches := Function.update s.sches channel sched
    match got with
    | none => some ({ s with sches }, none)
    | some (ev, addr, type) =>
      (m.latencySimulate addr sysCycle type s.chnls).bind fun (chnls, latency) =>
        match type with
        | WRITE => some (⟨chnls, sches⟩, none)
        | READ => ev.map fun ev =>
            let beforeLatency : Int := sysCycle - m.minLatency READ
            (⟨chnls, sches⟩, some
              { cycle := sysCycle
                differences := [beforeLatency]
                doneCycle := beforeLatency + latency
                postDelay := m.postDelay ev.type
                hitCycle := some (m.queueCycle READ (m.startCycle ev) + m.postDelay READ) })

/-! ### Runs -/

/-- An event is enqueued, or a tick gets to a channel. -/
inductive Op
  | enqueue (ev : MemAccessEvent)
  | tick (channel sysCycle : Nat)

def handle : Op → MemController → Option (MemController × Option Done)
  | .enqueue ev, s => m.enqueue ev (m.startCycle ev) s
  | .tick channel sysCycle, s =>
    if m.mParam.schedulerQueueCount ≠ 0 then m.tickChannel channel sysCycle s else some (s, none)

def step (op : Op) (s : MemController) : Option MemController := (m.handle op s).map Prod.fst

def done (op : Op) (s : MemController) : List Done :=
  (m.handle op s).elim [] fun r => r.2.toList

end MemControllerBase

/-- No subtraction wraps around, the event responds when the controller executes or later, and a
read from the queue not before a hit. -/
structure Done.Good (d : Done) : Prop where
  noWrap : ∀ x ∈ d.differences, 0 ≤ x
  inTime : (d.cycle : Int) ≤ d.doneCycle + d.postDelay
  afterHit : ∀ hit ∈ d.hitCycle, hit ≤ d.doneCycle + d.postDelay

namespace MemControllerBase

variable {m : MemControllerBase} {s s' : MemController} {d : Option Done}

/-! ### When it is good -/

/-- The event is answered when it is enqueued: it is a write, or hits. -/
def answered (m : MemControllerBase) (ev : MemAccessEvent) (s : MemController) : Bool :=
  (m.mParam.returnChannel ev.addr).any fun channel =>
    decide (ev.type = WRITE) || (s.sches channel.toNat).hits ev.addr

/-- The latency of an event that does not go through the scheduler. -/
def directLatency (m : MemControllerBase) (ev : MemAccessEvent) (s : MemController) : Option Nat :=
  (m.latencySimulate ev.addr (ev.cycle + m.controllerLatency) ev.type s.chnls).map Prod.snd

/-- The read that a tick takes from the queue of a channel, and its latency. -/
def scheduledRead (m : MemControllerBase) (channel sysCycle : Nat) (s : MemController) :
    Option (MemAccessEvent × Nat) :=
  ((s.sches channel).getEvent m.mParam (s.chnls channel)).bind fun
    | (_, some (some ev, addr, READ)) =>
      (m.latencySimulate addr sysCycle READ s.chnls).map fun r => (ev, r.2)
    | _ => none

/-- What an operation has to meet for its event to respond at a good cycle. -/
def Timely (m : MemControllerBase) : Op → MemController → Prop
  | .enqueue ev, s =>
    if m.mParam.schedulerQueueCount = 0 then
      ∀ latency ∈ m.directLatency ev s, m.minLatency ev.type ≤ m.startCycle ev + latency
    else m.answered ev s = true →
      m.minLatency ev.type ≤ m.startCycle ev ∧ m.preDelay ev.type ≤ m.controllerLatency
  | .tick channel sysCycle, s =>
    m.mParam.schedulerQueueCount ≠ 0 → ∀ r ∈ m.scheduledRead channel sysCycle s,
      m.minLatency READ ≤ sysCycle ∧ m.preDelay READ ≤ r.2 ∧
        m.startCycle r.1 + m.controllerLatency ≤ sysCycle + r.2

instance (m : MemControllerBase) : ∀ (op : Op) (s : MemController), Decidable (m.Timely op s)
  | .enqueue _, _ => inferInstanceAs (Decidable (ite _ _ _))
  | .tick _ _, _ => inferInstanceAs (Decidable (_ → _))

theorem preDelay_add_postDelay (type : MemAccessType) :
    m.preDelay type + m.postDelay type = m.minLatency type := by
  unfold postDelay preDelay
  omega

theorem minLatency_le (type : MemAccessType) (h : m.mParam.schedulerQueueCount = 0) :
    m.minLatency type ≤ m.memMinLatency type + m.controllerLatency := by
  rw [minLatency, if_pos h, ← Nat.mod_add_mod]
  exact Nat.mod_le _ _

theorem latencySimulate_le {lineAddr : UInt64} {sysCycle : Int} {type : MemAccessType}
    {chnls chnls' : Nat → MemChannel} {latency : Nat}
    (h : m.latencySimulate lineAddr sysCycle type chnls = some (chnls', latency)) :
    m.memMinLatency type ≤ latency := by
  obtain ⟨channel, -, h⟩ := Option.bind_eq_some_iff.mp h
  obtain ⟨⟨chnl, memLatency⟩, -, h⟩ := Option.bind_eq_some_iff.mp h
  obtain ⟨hle, h⟩ := Option.ite_none_right_eq_some.mp h
  rw [← (Prod.mk.inj (Option.some.inj h)).2]
  exact hle

/-- Without the scheduler only the subtraction of `minLatency` can go wrong, while there is less
time since the start than the controller takes. -/
theorem enqueue_direct (hqueue : m.mParam.schedulerQueueCount = 0) {ev : MemAccessEvent}
    (h : m.enqueue ev (m.startCycle ev) s = some (s', d)) :
    (∀ x ∈ d, x.Good) ↔ m.Timely (.enqueue ev) s := by
  rw [enqueue, if_pos hqueue] at h
  obtain ⟨⟨s1, latency⟩, hlatency, heq⟩ := Option.map_eq_some_iff.mp h
  obtain ⟨-, rfl⟩ := Prod.mk.inj heq
  have hdelay : (m.startCycle ev : Int) - m.preDelay ev.type = ev.cycle := by
    unfold startCycle
    omega
  have hdirect : m.directLatency ev s = some latency := by
    rw [directLatency, ← hdelay, hlatency]
    rfl
  have hmin := latencySimulate_le hlatency
  have hcontroller := minLatency_le ev.type hqueue
  have hpost := m.preDelay_add_postDelay ev.type
  rw [Timely, if_pos hqueue, hdirect]
  simp only [Option.mem_some_iff, forall_eq']
  constructor
  case mp =>
    rintro ⟨hwrap, -, -⟩
    have := hwrap (m.startCycle ev + latency - m.minLatency ev.type) (by simp)
    omega
  case mpr =>
    intro hle
    constructor
    case noWrap =>
      intro x hx
      rcases List.mem_cons.mp hx with rfl | hx
      · omega
      · obtain rfl := List.mem_singleton.mp hx
        omega
    case inTime =>
      dsimp only
      omega
    case afterHit => nofun

/-- What a hit in the queue, or a write, needs: the controller takes no less time than the first
half of the latency. -/
theorem enqueue_queue (hqueue : m.mParam.schedulerQueueCount ≠ 0) {ev : MemAccessEvent}
    (h : m.enqueue ev (m.startCycle ev) s = some (s', d)) :
    (∀ x ∈ d, x.Good) ↔ m.Timely (.enqueue ev) s := by
  rw [enqueue, if_neg hqueue] at h
  obtain ⟨channel, hchannel, heq⟩ := Option.map_eq_some_iff.mp h
  obtain ⟨-, rfl⟩ := Prod.mk.inj heq
  have hanswered : m.answered ev s = true ↔
      ev.type = WRITE ∨ ((s.sches channel.toNat).checkSetEvent ev).2 = true := by
    rw [answered, hchannel, MemSchedulerDefault.checkSetEvent_snd]
    simp
  have hpost := m.preDelay_add_postDelay ev.type
  rw [Timely, if_neg hqueue, hanswered]
  split
  case isFalse hheld => exact iff_of_true nofun fun h => absurd h hheld
  case isTrue hdone =>
    simp only [Option.mem_some_iff, forall_eq', hdone, true_imp_iff]
    constructor
    case mp =>
      rintro ⟨hwrap, htime, -⟩
      have := hwrap (m.startCycle ev - m.minLatency ev.type) (by simp)
      dsimp only [queueCycle] at htime
      omega
    case mpr =>
      rintro ⟨hlate, hcontroller⟩
      constructor
      case noWrap =>
        intro x hx
        obtain rfl := List.mem_singleton.mp hx
        omega
      case inTime =>
        dsimp only [queueCycle]
        omega
      case afterHit => nofun

/-- What a read from the queue needs: a latency no less than the first half of the latency, and
than what the controller takes after the cycles that the read has waited. -/
theorem read_good (m : MemControllerBase) (sysCycle latency hit : Nat) :
    Done.Good ⟨sysCycle, [(sysCycle : Int) - m.minLatency READ],
      (sysCycle : Int) - m.minLatency READ + latency, m.postDelay READ,
      some (m.queueCycle READ hit + m.postDelay READ)⟩ ↔
    m.minLatency READ ≤ sysCycle ∧ m.preDelay READ ≤ latency ∧
      hit + m.controllerLatency ≤ sysCycle + latency := by
  have hpost := m.preDelay_add_postDelay READ
  constructor
  case mp =>
    rintro ⟨hwrap, htime, hhit⟩
    have hlate := hwrap (sysCycle - m.minLatency READ) (by simp)
    have hafter := hhit _ rfl
    dsimp only [queueCycle] at htime hafter
    omega
  case mpr =>
    rintro ⟨hlate, htime, hafter⟩
    constructor
    case noWrap =>
      intro x hx
      obtain rfl := List.mem_singleton.mp hx
      omega
    case inTime =>
      dsimp only
      omega
    case afterHit =>
      rintro hit ⟨⟩
      dsimp only [queueCycle]
      omega

theorem tick_good {channel sysCycle : Nat}
    (h : m.tickChannel channel sysCycle s = some (s', d))
    (hqueue : m.mParam.schedulerQueueCount ≠ 0) :
    (∀ x ∈ d, x.Good) ↔ m.Timely (.tick channel sysCycle) s := by
  obtain ⟨⟨sched, got⟩, hgot, h⟩ := Option.bind_eq_some_iff.mp h
  have hnone (hd : d = none) (hread : m.scheduledRead channel sysCycle s = none) :
      (∀ x ∈ d, x.Good) ↔ m.Timely (.tick channel sysCycle) s := by
    rw [Timely, hread, hd]
    exact iff_of_true nofun fun _ => nofun
  obtain ⟨-, hserved⟩ := MemSchedulerDefault.getEvent_cases hgot
  cases hserved with
  | idle =>
    exact hnone (Prod.mk.inj (Option.some.inj h)).2.symm (by rw [scheduledRead, hgot]; rfl)
  | write =>
    obtain ⟨r, -, h⟩ := Option.bind_eq_some_iff.mp h
    exact hnone (Prod.mk.inj (Option.some.inj h)).2.symm (by rw [scheduledRead, hgot]; rfl)
  | read idx ev addr =>
    obtain ⟨⟨chnls, latency⟩, hlatency, h⟩ := Option.bind_eq_some_iff.mp h
    generalize htype : ev.type = type at h hgot hlatency
    cases type with
    | WRITE =>
      exact hnone (Prod.mk.inj (Option.some.inj h)).2.symm (by rw [scheduledRead, hgot]; rfl)
    | READ =>
      obtain ⟨-, rfl⟩ := Prod.mk.inj (Option.some.inj h)
      have hread : m.scheduledRead channel sysCycle s = some (ev, latency) := by
        rw [scheduledRead, hgot]
        change (m.latencySimulate ev.addr sysCycle READ s.chnls).map _ = _
        rw [hlatency]
        rfl
      rw [Timely, hread, htype]
      simp only [Option.mem_some_iff, forall_eq', ne_eq, hqueue, not_false_eq_true, true_imp_iff]
      exact m.read_good sysCycle latency (m.startCycle ev)

theorem handle_good {op : Op} (h : m.handle op s = some (s', d)) :
    (∀ x ∈ d, x.Good) ↔ m.Timely op s := by
  cases op with
  | enqueue ev =>
    by_cases hqueue : m.mParam.schedulerQueueCount = 0
    case pos => exact enqueue_direct hqueue h
    case neg => exact enqueue_queue hqueue h
  | tick channel sysCycle =>
    rw [handle] at h
    split at h
    case isTrue hqueue => exact tick_good h hqueue
    case isFalse hqueue =>
      obtain ⟨-, rfl⟩ := Prod.mk.inj (Option.some.inj h)
      exact iff_of_true nofun fun h => absurd h hqueue

/-- In any run of a controller, of any configuration and from any state, all events respond at good
cycles if and only if each operation is timely. -/
theorem responses_good_iff (m : MemControllerBase) (ops : List Op) (s : MemController)
    (hrun : (run m.step ops s).isSome) :
    (∀ x ∈ emitted m.step m.done ops s, x.Good) ↔ Along m.step m.Timely ops s := by
  obtain ⟨s', hs'⟩ := Option.isSome_iff_exists.mp hrun
  let AllGood : List Done → Prop := fun log => ∀ x ∈ log, x.Good
  have hprefix (log more : List Done) (h : AllGood (log ++ more)) : AllGood log :=
    fun x hx => h x (List.mem_append_left _ hx)
  have hany : Along m.step (fun _ _ => True) ops s := along_of_forall (fun _ _ => trivial) ops s
  have hnil : AllGood [] := fun _ => nofun
  let Any : List Done → MemController → Prop := fun _ _ => True
  have hInv : Any [] s := trivial
  refine emits_iff_along hprefix (fun log op s s' _ _ hstep => ?_) hInv hnil hany hs'
  obtain ⟨⟨s1, d⟩, hhandle, rfl⟩ := Option.map_eq_some_iff.mp hstep
  refine ⟨trivial, fun hlog => ?_⟩
  have hdone : m.done op s = d.toList := by
    rw [done, hhandle]
    rfl
  rw [← handle_good hhandle, hdone]
  change (∀ x ∈ log ++ d.toList, x.Good) ↔ _
  simp only [List.mem_append, Option.mem_toList]
  exact ⟨fun h x hx => h x (.inr hx), fun h x hx => hx.elim (hlog x) (h x)⟩

/-- A controller at 2 GHz with a queue of four. -/
def queueOfFour (memFreqKHz : Nat) (mem_pos : 0 < memFreqKHz) (controllerLatency : UInt32) :
    MemControllerBase :=
  ⟨{ MemParam.defaults with schedulerQueueCount := 4, controllerLatency, tREFI := 3000 },
    2000000, memFreqKHz, by decide, mem_pos⟩

/-- A write, and a read that a tick takes from the queue. -/
theorem responses_good_example :
    let m := queueOfFour 1000000 (by decide) 4
    let responses := emitted m.step m.done [.enqueue ⟨0, READ, 0, 94⟩, .enqueue ⟨1, WRITE, 4, 95⟩,
      .tick 0 104] m.init
    responses.length = 2 ∧ ∀ x ∈ responses, x.Good :=
  let m := queueOfFour 1000000 (by decide) 4
  ⟨by decide, (responses_good_iff m [.enqueue ⟨0, READ, 0, 94⟩, .enqueue ⟨1, WRITE, 4, 95⟩,
    .tick 0 104] m.init (by decide)).mpr (by decide)⟩

/-- A write that is enqueued at 95 responds at 94, when the controller takes no time. -/
theorem responses_not_good :
    let m := queueOfFour 666666 (by decide) 0
    emitted m.step m.done [.enqueue ⟨0, WRITE, 0, 94⟩] m.init = [⟨95, [92], 92, 2, none⟩] ∧
    ¬ ∀ x ∈ emitted m.step m.done [.enqueue ⟨0, WRITE, 0, 94⟩] m.init, x.Good := by
  intro m
  have hdone : emitted m.step m.done [.enqueue ⟨0, WRITE, 0, 94⟩] m.init =
      [⟨95, [92], 92, 2, none⟩] := by decide
  refine ⟨hdone, fun hgood => ?_⟩
  rw [hdone] at hgood
  exact absurd (hgood _ List.mem_cons_self).inTime (by decide)

end MemControllerBase

end Doppelganger.Detailed
