import Doppelganger.Weave.Pending

/-! The contention simulation of `contention_sim.cpp`: a bound phase enqueues events in the queues
of the domains, and in a weave phase each simulation thread runs the events of its domains, in one
loop if it has one domain and in two nested ones if it has several.  The queue of a domain is the
multiset of what is pending in it.  A thread takes one round of its loops at a time, and touches
only its own domains: the children of an event are in its domain, since `produceCrossings` puts
an event of the domain in the place of the others.  An operation is `none` when an assertion
fails, or when the thread cannot take it. -/

namespace Doppelganger.Weave

open Function

/-- What the constructor is given. -/
structure Config where
  numDomains : Nat
  numSimThreads : Nat
  phaseLength : Nat
  pos : 0 < numSimThreads
  dvd : numDomains % numSimThreads = 0

namespace Config

def firstDomain (cfg : Config) (thid : Nat) : Nat := thid * cfg.numDomains / cfg.numSimThreads

def supDomain (cfg : Config) (thid : Nat) : Nat := (thid + 1) * cfg.numDomains / cfg.numSimThreads

def thDomains (cfg : Config) (thid : Nat) : Nat := cfg.supDomain thid - cfg.firstDomain thid

end Config

/-- What is recorded of a domain: the values of `curCycle`, and the cycles of its events. -/
inductive Mark
  | stored (cycle : Nat)
  | simulated (cycle : Nat)
deriving DecidableEq, Repr

/-- `DomainData`.  The ghost `arrived` has the events of the phase, those that are pending when it
starts and those that are triggered, and `ran` those that were simulated in it; `marks` has what
happened in all phases, the latest first. -/
structure DomainData (ι : Type*) where
  pq : List (Nat × ι)
  curCycle : Nat
  prio : Nat
  queuePrio : Nat
  arrived : List (Nat × ι)
  ran : List (Nat × ι)
  marks : List Mark

/-- How a round goes: the domain at the top of `domPq`, the event that `dequeue` returns, the
events that its `run` enqueues with their cycles, and the priority that it sets. -/
structure Choice (ι : Type*) where
  top : Nat
  event : Nat × ι
  triggered : List (Nat × ι)
  prio : Option Nat

namespace DomainData

variable {ι : Type*}

def init : DomainData ι := ⟨[], 0, 0, 0, [], [], []⟩

/-- `firstCycle`, or `none` for an empty queue. -/
def firstCycle (dom : DomainData ι) : Option Nat := (dom.pq.map Prod.fst).min?

def store (cycle : Nat) (dom : DomainData ι) : DomainData ι :=
  { dom with curCycle := cycle, marks := .stored cycle :: dom.marks }

def storeNew (cycle : Nat) (dom : DomainData ι) : DomainData ι :=
  if cycle ≠ dom.curCycle then dom.store cycle else dom

/-- `ContentionSim::enqueue` of an event of the domain. -/
def enqueue (cfg : Config) (lastLimit : Nat) (dom : DomainData ι) (e : Nat × ι) :
    Option (DomainData ι) :=
  if lastLimit ≤ e.1 ∧ e.1 < lastLimit + 10 * cfg.phaseLength + 1000000 ∧ dom.curCycle ≤ e.1 then
    some { dom with pq := e :: dom.pq, arrived := e :: dom.arrived }
  else none

/-- The event leaves the queue. -/
def dequeue [DecidableEq ι] (e : Nat × ι) (dom : DomainData ι) : DomainData ι :=
  { dom with
    pq := dom.pq.erase e
    ran := e :: dom.ran
    marks := .simulated e.1 :: dom.marks }

def setPrio (prio : Option Nat) (dom : DomainData ι) : DomainData ι :=
  { dom with prio := prio.getD dom.prio }

/-- `dequeue`, the first store, and `run`. -/
def runFirst [DecidableEq ι] (cfg : Config) (lastLimit : Nat) (ch : Choice ι)
    (dom : DomainData ι) : Option (DomainData ι) :=
  (ch.triggered.foldlM (enqueue cfg lastLimit)
    ((dom.storeNew ch.event.1).dequeue ch.event)).map (setPrio ch.prio)

/-- The cycle after an event. -/
def newCycle (limit : Nat) (dom : DomainData ι) : Nat := dom.firstCycle.getD limit

/-- A round of the loop over one domain. -/
def roundSingle [DecidableEq ι] (cfg : Config) (lastLimit limit : Nat) (ch : Choice ι)
    (dom : DomainData ι) : Option (DomainData ι) :=
  if dom.curCycle ≤ ch.event.1 then
    (dom.runFirst cfg lastLimit ch).bind fun dom =>
      if ch.event.1 ≤ dom.newCycle limit then some (dom.storeNew (dom.newCycle limit)) else none
  else none

/-- The event of a round of the loops over several domains. -/
def roundMany [DecidableEq ι] (cfg : Config) (lastLimit limit : Nat) (ch : Choice ι)
    (dom : DomainData ι) : Option (DomainData ι) :=
  (dom.runFirst cfg lastLimit ch).map fun dom =>
    { dom.store (dom.newCycle limit) with queuePrio := dom.newCycle limit }

/-- `pq.size() && pq.firstCycle() < limit` -/
def dueSingle (limit : Nat) (dom : DomainData ι) : Bool := dom.firstCycle.any (· < limit)

/-- `!(!pq.size() || pq.firstCycle() > limit)` -/
def dueMany (limit : Nat) (dom : DomainData ι) : Bool := !dom.firstCycle.all (limit < ·)

end DomainData

/-- Where a thread is: at the test of the outer loop, or in one of the two inner ones. -/
inductive Loop
  | outer
  | domains
  | stalled
deriving DecidableEq, Repr

/-- The variables of the loops over several domains.  The back of a vector comes first. -/
structure Loops where
  loop : Loop
  domPq : List Nat
  stalledQueue : List Nat
  nextStalledQueue : List Nat
  numFinished : Nat
deriving DecidableEq, Repr

namespace Loops

def init (cfg : Config) (thid : Nat) : Loops :=
  ⟨.outer, (List.range' (cfg.firstDomain thid) (cfg.thDomains thid)), [], [], 0⟩

/-- A domain without an event up to the limit. -/
def finish (l : Loops) : Loops := { l with numFinished := l.numFinished + 1 }

/-- A domain goes back to a queue. -/
def push (d prio : Nat) (l : Loops) : Loops :=
  if prio = 0 then { l with domPq := d :: l.domPq }
  else match l.loop with
    | .stalled => { l with nextStalledQueue := d :: l.nextStalledQueue }
    | _ => { l with stalledQueue := d :: l.stalledQueue }

/-- The end of the inner loops. -/
def swap (l : Loops) : Loops :=
  match l.stalledQueue with
  | [] => { l with loop := .outer, stalledQueue := l.nextStalledQueue, nextStalledQueue := [] }
  | _ :: _ => { l with loop := .outer }

/-- After a round of an inner loop: the one over `stalledQueue` breaks when `domPq` has a domain. -/
def next (l : Loops) : Loops :=
  if l.loop = .stalled ∧ l.domPq ≠ [] then l.swap else l

end Loops

inductive SimThread
  | asleep
  | single
  | many (l : Loops)
  | done
deriving DecidableEq, Repr

structure ContentionSim (ι : Type*) where
  domains : Nat → DomainData ι
  simThreads : Nat → SimThread
  limit : Nat
  lastLimit : Nat
  inCSim : Bool

/-- The steps of the bound phases and of the weave phases, in any order of the threads. -/
inductive SimOp (ι : Type*)
  | enqueueSynced (domain : Nat) (ev : ι) (cycle : Nat)
  | start (limit : Nat)
  | round (thid : Nat) (ch : Choice ι)
  | finish

namespace ContentionSim

variable {ι : Type*}

def init : ContentionSim ι := ⟨fun _ => .init, fun _ => .asleep, 0, 0, false⟩

def setDomain (d : Nat) (dom : DomainData ι) (s : ContentionSim ι) : ContentionSim ι :=
  { s with domains := update s.domains d dom }

def setThread (thid : Nat) (th : SimThread) (s : ContentionSim ι) : ContentionSim ι :=
  { s with simThreads := update s.simThreads thid th }

def enqueueSynced (cfg : Config) (d : Nat) (ev : ι) (cycle : Nat) (s : ContentionSim ι) :
    Option (ContentionSim ι) :=
  if s.inCSim = false ∧ d < cfg.numDomains ∧ s.lastLimit ≤ cycle ∧
      cycle < s.lastLimit + 10 * cfg.phaseLength + 10000 then
    some (s.setDomain d { s.domains d with pq := (cycle, ev) :: (s.domains d).pq })
  else none

/-- `simulatePhase` up to the wakeup of the threads. -/
def start (cfg : Config) (limit : Nat) (s : ContentionSim ι) : Option (ContentionSim ι) :=
  if s.inCSim = false ∧ s.lastLimit ≤ limit then
    some { s with
      limit := limit
      inCSim := true
      domains := fun d => { s.domains d with arrived := (s.domains d).pq, ran := [] }
      simThreads := fun thid => if thid < cfg.numSimThreads then
          if cfg.thDomains thid = 1 then .single else .many (.init cfg thid)
        else .asleep }
  else none

/-- The inner loops look at a domain that they have taken from a queue. -/
def visit [DecidableEq ι] (cfg : Config) (thid d : Nat) (l : Loops) (ch : Choice ι)
    (s : ContentionSim ι) : Option (ContentionSim ι) :=
  if (s.domains d).dueMany s.limit then
    ((s.domains d).roundMany cfg s.lastLimit s.limit ch).map fun dom =>
      (s.setDomain d dom).setThread thid (.many (l.push d dom.prio).next)
  else some ((s.setDomain d ((s.domains d).store s.limit)).setThread thid (.many l.finish.next))

/-- A round of `simulatePhaseThread`. -/
def round [DecidableEq ι] (cfg : Config) (thid : Nat) (ch : Choice ι) (s : ContentionSim ι) :
    Option (ContentionSim ι) :=
  match s.simThreads thid with
  | .asleep | .done => none
  | .single =>
    let d := cfg.firstDomain thid
    if (s.domains d).dueSingle s.limit then
      ((s.domains d).roundSingle cfg s.lastLimit s.limit ch).map fun dom => s.setDomain d dom
    else some ((s.setDomain d ((s.domains d).store s.limit)).setThread thid .done)
  | .many l =>
    match l.loop with
    | .outer => some (s.setThread thid
        (if l.numFinished < cfg.thDomains thid then .many { l with loop := .domains } else .done))
    | .domains =>
      if l.domPq = [] then some (s.setThread thid (.many { l with loop := .stalled }))
      else s.visit cfg thid ch.top { l with domPq := l.domPq.erase ch.top } ch
    | .stalled =>
      match l.stalledQueue with
      | [] => some (s.setThread thid (.many l.swap))
      | d :: stalled => s.visit cfg thid d { l with stalledQueue := stalled } ch

/-- The last thread is done, and `simulatePhase` returns. -/
def finish (cfg : Config) (s : ContentionSim ι) : Option (ContentionSim ι) :=
  if s.inCSim = true ∧ ∀ thid < cfg.numSimThreads, s.simThreads thid = .done then
    some { s with inCSim := false, lastLimit := s.limit, simThreads := fun _ => .asleep }
  else none

def step [DecidableEq ι] (cfg : Config) : SimOp ι → ContentionSim ι → Option (ContentionSim ι)
  | .enqueueSynced d ev cycle, s => s.enqueueSynced cfg d ev cycle
  | .start limit, s => s.start cfg limit
  | .round thid ch, s => s.round cfg thid ch
  | .finish, s => s.finish cfg

/-- The domain whose event a round runs. -/
def runs (cfg : Config) (thid : Nat) (ch : Choice ι) (s : ContentionSim ι) : Option Nat :=
  match s.simThreads thid with
  | .asleep | .done => none
  | .single => (some (cfg.firstDomain thid)).filter fun d => (s.domains d).dueSingle s.limit
  | .many l =>
    let d := match l.loop with
      | .outer => none
      | .domains => if l.domPq = [] then none else some ch.top
      | .stalled => l.stalledQueue.head?
    d.filter fun d => (s.domains d).dueMany s.limit

/-- The top of `domPq` is a domain with the least `queuePrio`. -/
def Top (ch : Choice ι) (s : ContentionSim ι) : SimThread → Prop
  | .many l => l.loop = .domains → l.domPq ≠ [] → ch.top ∈ l.domPq ∧
      ∀ d ∈ l.domPq, (s.domains ch.top).queuePrio ≤ (s.domains d).queuePrio
  | _ => True

/-- What the callers promise: cores enqueue in a bound phase, and not before the last limit; the
limits ascend; a round takes the first event of its domain, which triggers events that are not
before it; and none of them is too far into the future. -/
def Allowed (cfg : Config) : SimOp ι → ContentionSim ι → Prop
  | .enqueueSynced d _ cycle, s => s.inCSim = false ∧ d < cfg.numDomains ∧ s.lastLimit ≤ cycle ∧
      cycle < s.lastLimit + 10 * cfg.phaseLength + 10000
  | .start limit, s => s.inCSim = false ∧ s.lastLimit ≤ limit
  | .round thid ch, s => thid < cfg.numSimThreads ∧ s.simThreads thid ≠ .asleep ∧
      s.simThreads thid ≠ .done ∧ Top ch s (s.simThreads thid) ∧
      ∀ d ∈ s.runs cfg thid ch, Earliest (s.domains d).pq ch.event ∧
        ∀ e ∈ ch.triggered, ch.event.1 ≤ e.1 ∧
          e.1 < s.lastLimit + 10 * cfg.phaseLength + 1000000
  | .finish, s => s.inCSim = true ∧ ∀ thid < cfg.numSimThreads, s.simThreads thid = .done

instance [DecidableEq ι] (pending : List (Nat × ι)) (e : Nat × ι) :
    Decidable (Earliest pending e) :=
  inferInstanceAs (Decidable (_ ∧ _))

instance (ch : Choice ι) (s : ContentionSim ι) : ∀ th, Decidable (Top ch s th)
  | .many _ => inferInstanceAs (Decidable (_ → _))
  | .asleep | .single | .done => isTrue trivial

instance [DecidableEq ι] (cfg : Config) :
    ∀ (op : SimOp ι) (s : ContentionSim ι), Decidable (Allowed cfg op s)
  | .enqueueSynced .., _ => inferInstanceAs (Decidable (_ ∧ _))
  | .start _, _ => inferInstanceAs (Decidable (_ ∧ _))
  | .round .., _ => inferInstanceAs (Decidable (_ ∧ _))
  | .finish, _ => inferInstanceAs (Decidable (_ ∧ _))

end ContentionSim

end Doppelganger.Weave
