import Doppelganger.Weave.SimThreads
import Doppelganger.Weave.TimingEvent

/-! The crossings between domains.  A core that records an access makes a `CrossingEvent` for each
edge of its graph that leads to another domain.  `enqueueCrossing` chains a response to the parent
of its request, chains a request to the last one between the same domains when that has not run yet,
and queues it in the other case.  The weave phases are those of `ContentionSim`; the events that
wake others, and when they do, are given. -/

namespace Doppelganger.Weave

open Function List Lib

inductive EventName (ι : Type*)
  | crossing (c : ι)
  | other (e : ι)
deriving DecidableEq, Repr

/-- The fields of a `CrossingEvent`, with `domain` the one that it leads to. -/
structure Crossing (ι : Type*) where
  srcId : Nat
  srcDomain : Nat
  domain : Nat
  minStartCycle : Nat
  parentEv : EventName ι
deriving DecidableEq, Repr

/-- The index of `lastCrossing`. -/
structure LastKey where
  srcId : Nat
  srcDomain : Nat
  dstDomain : Nat
deriving DecidableEq, Repr

namespace Crossing

variable {ι : Type*}

def key (x : Crossing ι) : LastKey := ⟨x.srcId, x.srcDomain, x.domain⟩

/-- The domains of a response are those of its request, the other way round. -/
def Answers (y x : Crossing ι) : Prop := y.srcDomain = x.domain ∧ y.domain = x.srcDomain

instance (y x : Crossing ι) : Decidable (y.Answers x) := inferInstanceAs (Decidable (_ ∧ _))

end Crossing

/-- `CrossingEventInfo` -/
structure CrossingEventInfo (ι : Type*) where
  cycle : Nat
  ev : Option ι

/-- The simulation with the crossings: the state of each event, `lastCrossing`, and of each source
its `crossingStack`, the back first.  The ghosts are the events that were simulated with their
cycles, the requests of each source that are not answered, the innermost first, the request that a
crossing answers, and the pairs that `enqueueCrossing` made. -/
structure CrossingSim (ι : Type*) where
  sim : ContentionSim (EventName ι)
  state : EventName ι → EventState
  crossing : ι → Option (Crossing ι)
  last : LastKey → CrossingEventInfo ι
  stack : Nat → List ι
  simulated : List (Nat × EventName ι)
  unanswered : Nat → List ι
  answers : ι → Option ι
  paired : List (ι × ι)

/-- A round: the event that runs, the cycle at which it is queued again, whether it is held, and its
calls of `parentDone` or `requeue` that queue another event. -/
structure Turn (ι : Type*) where
  top : Nat
  event : Nat × EventName ι
  requeued : Option Nat
  held : Bool
  woken : List (Nat × EventName ι)
  prio : Option Nat

inductive CrossingOp (ι : Type*)
  | queue (domain : Nat) (ev : ι) (cycle : Nat)
  | crossing (c : ι) (x : Crossing ι) (answers : Option ι)
  | recorded (srcId : Nat)
  | start (limit : Nat)
  | round (thid : Nat) (t : Turn ι)
  | finish

namespace CrossingSim

variable {ι : Type*} [DecidableEq ι]

def init : CrossingSim ι :=
  ⟨.init, fun _ => .NONE, fun _ => none, fun _ => ⟨0, none⟩, fun _ => [], [], fun _ => [],
    fun _ => none, []⟩

/-- The assertion of `addChild` on the state of the parent. -/
def Open (s : CrossingSim ι) (e : EventName ι) : Prop := s.state e = .NONE ∨ s.state e = .QUEUED

instance (s : CrossingSim ι) (e : EventName ι) : Decidable (s.Open e) :=
  inferInstanceAs (Decidable (_ ∨ _))

/-- `TimingEvent::queue` -/
def queue (cfg : Config) (d : Nat) (ev : ι) (cycle : Nat) (s : CrossingSim ι) :
    Option (CrossingSim ι) :=
  if s.state (.other ev) = .NONE then
    (s.sim.enqueueSynced cfg d (.other ev) cycle).map fun sim =>
      { s with sim := sim, state := update s.state (.other ev) .QUEUED }
  else none

/-- The back of the stack is the request of this crossing, as its domains tell. -/
def response (s : CrossingSim ι) (x : Crossing ι) : Option (ι × Crossing ι) :=
  (s.stack x.srcId).head?.bind fun b => (s.crossing b).bind fun y =>
    if y.Answers x then some (b, y) else none

/-- The crossing is the last request between its domains, and the back of the stack. -/
def pushRequest (c : ι) (x : Crossing ι) (cycle : Nat) (s : CrossingSim ι) : CrossingSim ι :=
  { s with
    stack := update s.stack x.srcId (c :: s.stack x.srcId)
    last := update s.last x.key ⟨cycle, some c⟩ }

/-- `enqueueCrossing` of a request: it is chained, or queued at once. -/
def enqueueRequest (cfg : Config) (c : ι) (x : Crossing ι) (cycle : Nat) (s : CrossingSim ι) :
    Option (CrossingSim ι) :=
  let last := s.last x.key
  let srcDomCycle := (s.sim.domains x.srcDomain).curCycle
  if srcDomCycle < last.cycle ∧ last.cycle ≤ cycle then
    last.ev.bind fun e => if s.Open (.crossing e) then some (s.pushRequest c x cycle) else none
  else if srcDomCycle ≤ cycle then
    (s.sim.enqueueSynced cfg x.domain (.crossing c) cycle).map fun sim =>
      { s with sim := sim }.pushRequest c x cycle
  else none

/-- `enqueueCrossing` -/
def enqueueCrossing (cfg : Config) (c : ι) (x : Crossing ι) (cycle : Nat) (s : CrossingSim ι) :
    Option (CrossingSim ι) :=
  match s.response x with
  | some (req, y) =>
    if s.Open y.parentEv then
      some { s with
        stack := update s.stack x.srcId (s.stack x.srcId).tail
        paired := (c, req) :: s.paired }
    else none
  | none => s.enqueueRequest cfg c x cycle

/-- The requests that are not answered after a crossing. -/
def unansweredAfter (c : ι) (answers : Option ι) (requests : List ι) : List ι :=
  match answers with
  | some r => requests.erase r
  | none => c :: requests

/-- The fields of a new `CrossingEvent`. -/
def withCrossing (c : ι) (x : Crossing ι) (answers : Option ι) (s : CrossingSim ι) :
    CrossingSim ι :=
  { s with
    state := update s.state (.crossing c) .NONE
    crossing := update s.crossing c (some x)
    answers := update s.answers c answers
    unanswered := update s.unanswered x.srcId
      (unansweredAfter c answers (s.unanswered x.srcId)) }

/-- The constructor of `CrossingEvent`. -/
def newCrossing (cfg : Config) (c : ι) (x : Crossing ι) (answers : Option ι) (s : CrossingSim ι) :
    Option (CrossingSim ι) :=
  if x.srcDomain ≠ x.domain then
    (s.withCrossing c x answers).enqueueCrossing cfg c x (max s.sim.lastLimit x.minStartCycle)
  else none

/-- The end of `recordAccess`, which clears the stack. -/
def recorded (srcId : Nat) (s : CrossingSim ι) : CrossingSim ι :=
  { s with stack := update s.stack srcId [], unanswered := update s.unanswered srcId [] }

/-- `parentDone`: a crossing is not queued before its `minStartCycle`. -/
def startCycle (s : CrossingSim ι) (cycle : Nat) : EventName ι → Nat
  | .crossing c => max cycle (((s.crossing c).map Crossing.minStartCycle).getD 0)
  | .other _ => cycle

/-- The events that a turn queues. -/
def triggered (s : CrossingSim ι) (t : Turn ι) : List (Nat × EventName ι) :=
  t.requeued.toList.map (fun cycle => (cycle, t.event.2)) ++
    t.woken.map fun e => (s.startCycle e.1 e.2, e.2)

def choice (s : CrossingSim ι) (t : Turn ι) : Choice (EventName ι) :=
  ⟨t.top, t.event, s.triggered t, t.prio⟩

/-- The states after a turn. -/
def states (s : CrossingSim ι) (t : Turn ι) (e : EventName ι) : EventState :=
  if e ∈ t.woken.map Prod.snd then .QUEUED
  else if e = t.event.2 then
    if t.requeued.isSome then .QUEUED else if t.held then .HELD else .DONE
  else s.state e

/-- A round of a simulation thread; it may run no event. -/
def round (cfg : Config) (thid : Nat) (t : Turn ι) (s : CrossingSim ι) : Option (CrossingSim ι) :=
  (s.sim.round cfg thid (s.choice t)).bind fun sim =>
    if (s.sim.runs cfg thid (s.choice t)).isSome then
      if s.Open t.event.2 ∧ ∀ e ∈ t.woken, s.state e.2 = .NONE ∨ s.state e.2 = .HELD then
        some { s with sim := sim, state := s.states t, simulated := t.event :: s.simulated }
      else none
    else some { s with sim := sim }

def step (cfg : Config) : CrossingOp ι → CrossingSim ι → Option (CrossingSim ι)
  | .queue d ev cycle, s => s.queue cfg d ev cycle
  | .crossing c x answers, s => s.newCrossing cfg c x answers
  | .recorded srcId, s => some (s.recorded srcId)
  | .start limit, s => (s.sim.start cfg limit).map fun sim => { s with sim := sim }
  | .round thid t, s => s.round cfg thid t
  | .finish, s => (s.sim.finish cfg).map fun sim => { s with sim := sim }

/-- A crossing has been made. -/
def Known (s : CrossingSim ι) : EventName ι → Prop
  | .crossing c => (s.crossing c).isSome = true
  | .other _ => True

instance (s : CrossingSim ι) : ∀ e, Decidable (s.Known e)
  | .crossing _ => inferInstanceAs (Decidable (_ = _))
  | .other _ => inferInstanceAs (Decidable True)

/-- What the callers promise: a core makes crossings for an access that it records in a bound phase,
whose events have not run; a response goes back to the domain of a request that is not answered; no
access is being recorded when a weave phase starts; events run, and wake others, as `ContentionSim`
and `TimingEvent` have it; and no event is too far into the future. -/
def Allowed (cfg : Config) (numCores : Nat) : CrossingOp ι → CrossingSim ι → Prop
  | .queue d ev cycle, s => s.state (.other ev) = .NONE ∧
      ContentionSim.Allowed cfg (.enqueueSynced d (.other ev) cycle) s.sim
  | .crossing c x answers, s => s.sim.inCSim = false ∧ x.srcId < numCores ∧
      x.srcDomain < cfg.numDomains ∧ x.domain < cfg.numDomains ∧ x.srcDomain ≠ x.domain ∧
      s.crossing c = none ∧ s.Open x.parentEv ∧
      max s.sim.lastLimit x.minStartCycle < s.sim.lastLimit + 10 * cfg.phaseLength + 10000 ∧
      ∀ r ∈ answers, r ∈ s.unanswered x.srcId ∧ ∃ y ∈ s.crossing r, y.Answers x
  | .recorded srcId, s => s.sim.inCSim = false ∧ srcId < numCores
  | .start limit, s => ContentionSim.Allowed cfg (.start limit) s.sim ∧
      ∀ i < numCores, s.stack i = []
  | .round thid t, s => ContentionSim.Allowed cfg (.round thid (s.choice t)) s.sim ∧
      ((s.sim.runs cfg thid (s.choice t)).isSome = true → s.Open t.event.2 ∧
        ∀ e ∈ t.woken, (s.state e.2 = .NONE ∨ s.state e.2 = .HELD) ∧ s.Known e.2)
  | .finish, s => ContentionSim.Allowed cfg .finish s.sim

/-- Accesses are nested: no request goes from the domain of the innermost request that is not
answered straight back to its source domain, and a response answers that request. -/
def Nested : CrossingOp ι → CrossingSim ι → Prop
  | .crossing _ x (some r), s => (s.unanswered x.srcId).head? = some r
  | .crossing _ x none, s =>
    ∀ b ∈ (s.unanswered x.srcId).head?, ∀ y ∈ s.crossing b, ¬ y.Answers x
  | _, _ => True

instance (cfg : Config) (numCores : Nat) :
    ∀ (op : CrossingOp ι) (s : CrossingSim ι), Decidable (Allowed cfg numCores op s)
  | .queue .., _ => inferInstanceAs (Decidable (_ ∧ _))
  | .crossing .., _ => inferInstanceAs (Decidable (_ ∧ _))
  | .recorded _, _ => inferInstanceAs (Decidable (_ ∧ _))
  | .start _, _ => inferInstanceAs (Decidable (_ ∧ _))
  | .round .., _ => inferInstanceAs (Decidable (_ ∧ _))
  | .finish, s => inferInstanceAs (Decidable (ContentionSim.Allowed cfg .finish s.sim))

instance : ∀ (op : CrossingOp ι) (s : CrossingSim ι), Decidable (Nested op s)
  | .crossing _ _ (some _), _ => inferInstanceAs (Decidable (_ = _))
  | .crossing _ _ none, _ => inferInstanceAs (Decidable (∀ _ ∈ _, _))
  | .queue .., _ | .recorded _, _ | .start _, _ | .round .., _ | .finish, _ => isTrue trivial

/-- What the chains promise. -/
structure Chained (cfg : Config) (s : CrossingSim ι) : Prop where
  /-- A crossing to which a request may be chained has not run. -/
  last : s.sim.inCSim = false → ∀ key : LastKey, key.srcDomain < cfg.numDomains →
    (s.sim.domains key.srcDomain).curCycle < (s.last key).cycle →
    ∃ e ∈ (s.last key).ev, s.Open (.crossing e) ∧ ∀ r ∈ s.simulated, r.2 ≠ .crossing e
  /-- No crossing runs before its `minStartCycle`. -/
  minStart : ∀ cycle c, (cycle, .crossing c) ∈ s.simulated →
    ∃ x ∈ s.crossing c, x.minStartCycle ≤ cycle

/-! ### The rounds of the simulation -/

section

variable {κ : Type*} [DecidableEq κ] {cfg : Config} {sim sim' : ContentionSim κ} {thid d : Nat}
  {ch : Choice κ} {e : Nat × κ} {dom dom' : DomainData κ} {limit lastLimit : Nat}

theorem runFirst_pq (h : dom.runFirst cfg lastLimit ch = some dom') (he : e ∈ dom'.pq) :
    e ∈ ch.triggered ∨ e ∈ dom.pq := by
  obtain ⟨dom1, hall, rfl⟩ := Option.map_eq_some_iff.mp h
  have hfold : ∀ (es : List (Nat × κ)) {dom dom1 : DomainData κ},
      es.foldlM (DomainData.enqueue cfg lastLimit) dom = some dom1 → e ∈ dom1.pq →
      e ∈ es ∨ e ∈ dom.pq := by
    intro es
    induction es with
    | nil =>
      intro dom dom1 hall hmem
      obtain rfl := Option.some.inj hall
      exact .inr hmem
    | cons e' es ih =>
      intro dom dom1 hall hmem
      rw [foldlM_cons] at hall
      obtain ⟨dom2, h2, hrest⟩ := Option.bind_eq_some_iff.mp hall
      rcases ih hrest hmem with hes | hpq
      · exact .inl (mem_cons_of_mem _ hes)
      · rw [DomainData.enqueue, Option.ite_none_right_eq_some] at h2
        obtain ⟨-, h2⟩ := h2
        obtain rfl := Option.some.inj h2
        rcases mem_cons.mp hpq with rfl | hpq
        · exact .inl (mem_cons_self ..)
        · exact .inr hpq
  rcases hfold ch.triggered hall he with htrig | hpq
  · exact .inl htrig
  · exact .inr (by simpa using mem_of_mem_erase hpq)

omit [DecidableEq κ] in
theorem mem_update_pq {p : Prop} (dom : DomainData κ)
    (h : ∀ e ∈ dom.pq, p ∧ e ∈ ch.triggered ∨ e ∈ (sim.domains d).pq) (d' : Nat)
    (he : e ∈ (update sim.domains d dom d').pq) :
    p ∧ e ∈ ch.triggered ∨ e ∈ (sim.domains d').pq := by
  by_cases hd : d' = d
  · subst hd
    rw [update_self] at he
    exact h e he
  · rw [update_of_ne hd] at he
    exact .inr he

/-- What a round leaves: the limits, and in the queues what was there and, when an event runs, what
it queued. -/
structure Frame (ch : Choice κ) (runs : Prop) (sim sim' : ContentionSim κ) : Prop where
  limit : sim'.limit = sim.limit
  lastLimit : sim'.lastLimit = sim.lastLimit
  inCSim : sim'.inCSim = sim.inCSim
  pq : ∀ d, ∀ e ∈ (sim'.domains d).pq, runs ∧ e ∈ ch.triggered ∨ e ∈ (sim.domains d).pq

theorem visit_frame {l : Loops} (h : sim.visit cfg thid d l ch = some sim') :
    Frame ch ((sim.domains d).dueMany sim.limit = true) sim sim' := by
  rw [ContentionSim.visit] at h
  split at h
  case isTrue hdue =>
    obtain ⟨dom, hround, rfl⟩ := Option.map_eq_some_iff.mp h
    obtain ⟨dom1, hfirst, rfl⟩ := Option.map_eq_some_iff.mp hround
    refine ⟨rfl, rfl, rfl, fun d' e he => mem_update_pq _ ?_ d' he⟩
    exact fun _ he => (runFirst_pq hfirst he).imp (fun ht => ⟨hdue, ht⟩) id
  case isFalse =>
    obtain rfl := Option.some.inj h
    refine ⟨rfl, rfl, rfl, fun d' e he => mem_update_pq _ ?_ d' he⟩
    exact fun _ he => .inr he

theorem round_frame (h : sim.round cfg thid ch = some sim') :
    Frame ch ((sim.runs cfg thid ch).isSome = true) sim sim' := by
  have hsame {p : Prop} {th : SimThread} : Frame ch p sim (sim.setThread thid th) :=
    ⟨rfl, rfl, rfl, fun _ _ he => .inr he⟩
  rw [ContentionSim.round] at h
  rw [ContentionSim.runs]
  cases hth : sim.simThreads thid with
  | asleep =>
    rw [hth] at h
    cases h
  | done =>
    rw [hth] at h
    cases h
  | single =>
    simp only [hth] at h
    split at h
    case isTrue hdue =>
      obtain ⟨dom, hround, rfl⟩ := Option.map_eq_some_iff.mp h
      rw [DomainData.roundSingle, Option.ite_none_right_eq_some] at hround
      obtain ⟨dom1, hfirst, hnew⟩ := Option.bind_eq_some_iff.mp hround.2
      rw [Option.ite_none_right_eq_some] at hnew
      obtain rfl := Option.some.inj hnew.2
      refine ⟨rfl, rfl, rfl, fun d' e he => mem_update_pq _ (fun e he => ?_) d' he⟩
      exact (runFirst_pq hfirst (by simpa using he)).imp
        (fun ht => ⟨by simp [Option.filter_some, hdue], ht⟩) id
    case isFalse =>
      obtain rfl := Option.some.inj h
      refine ⟨rfl, rfl, rfl, fun d' e he => mem_update_pq _ ?_ d' he⟩
      exact fun _ he => .inr he
  | many l =>
    simp only [hth] at h
    -- the domain that is visited is the one whose event runs
    have hvisit {d : Nat} {l : Loops} (hv : sim.visit cfg thid d l ch = some sim') :
        Frame ch (((some d).filter fun d => (sim.domains d).dueMany sim.limit).isSome = true)
          sim sim' := by
      obtain ⟨hlimit, hlast, hin, hpq⟩ := visit_frame hv
      refine ⟨hlimit, hlast, hin, fun d' e he => (hpq d' e he).imp (fun ht => ⟨?_, ht.2⟩) id⟩
      simp [Option.filter_some, ht.1]
    cases hloop : l.loop with
    | outer =>
      simp only [hloop] at h
      obtain rfl := Option.some.inj h
      exact hsame
    | domains =>
      simp only [hloop] at h ⊢
      split at h
      case isTrue =>
        obtain rfl := Option.some.inj h
        exact hsame
      case isFalse hne =>
        rw [if_neg hne]
        exact hvisit h
    | stalled =>
      simp only [hloop] at h ⊢
      cases hq : l.stalledQueue with
      | nil =>
        rw [hq] at h
        obtain rfl := Option.some.inj h
        exact hsame
      | cons d stalled =>
        rw [hq] at h
        exact hvisit h

omit [DecidableEq κ] in
/-- The domain whose event runs has one up to the limit. -/
theorem runs_due (h : d ∈ sim.runs cfg thid ch) : ∃ e ∈ (sim.domains d).pq, e.1 ≤ sim.limit := by
  rw [ContentionSim.runs] at h
  split at h
  case h_1 => cases h
  case h_2 => cases h
  case h_3 =>
    obtain ⟨-, hdue⟩ := Option.filter_eq_some_iff.mp h
    obtain ⟨e, he, hlt⟩ := DomainData.dueSingle_iff.mp hdue
    exact ⟨e, he, Nat.le_of_lt hlt⟩
  case h_4 =>
    obtain ⟨-, hdue⟩ := Option.filter_eq_some_iff.mp h
    exact DomainData.dueMany_iff.mp hdue

end

end CrossingSim

end Doppelganger.Weave
