import Doppelganger.Events.EventQueue

/-! The adaptive event of `event_queue.h`, which should fire at the end of the first phase at which
a measurement has reached its target.  Its first period counts from within a phase, in which the
measurement may grow as well; the theorem says when the event is right nonetheless. -/

namespace Doppelganger.Events

open Lib EventQueue

/-- `get` has the value of the measurement at the end of each phase. -/
structure AdaptiveEvent where
  get : Nat → Nat
  target : Nat
  maxRate : Nat
  period : Nat

namespace AdaptiveEvent

def periodFor (distance maxRate : Nat) : Nat :=
  let period := distance / maxRate
  if period = 0 then 1 else period

/-- The constructor, which asserts that the target is not behind, and divides by the rate. -/
def makeAdaptiveEvent (get : Nat → Nat) (start target maxRate : Nat) : Option AdaptiveEvent :=
  if start ≤ target then
    if maxRate = 0 then none else some ⟨get, target, maxRate, periodFor (target - start) maxRate⟩
  else none

/-- It fires when the period is 0 afterwards. -/
def callback (phase : Nat) (ev : AdaptiveEvent) : Option AdaptiveEvent :=
  let cur := ev.get phase
  if ev.target ≤ cur then
    if cur - ev.target ≤ ev.maxRate then some { ev with period := 0 } else none
  else some { ev with period := periodFor (ev.target - cur) ev.maxRate }

/-- A queue of adaptive events and others, whose callbacks return. -/
def callbacks {α : Type*} (others : Nat → α → α) (phase : Nat) :
    AdaptiveEvent ⊕ α → Option (AdaptiveEvent ⊕ α)
  | .inl ev => (callback phase ev).map .inl
  | .inr x => some (.inr (others phase x))

def periods {α : Type*} (otherPeriod : α → Nat) : AdaptiveEvent ⊕ α → Nat
  | .inl ev => ev.period
  | .inr x => otherPeriod x

/-- An operation on the other events. -/
def other {α : Type*} : Op α → Op (AdaptiveEvent ⊕ α)
  | .insert x startDelay => .insert (.inr x) startDelay
  | .endPhase => .endPhase

section

variable {α : Type*} {others : Nat → α → α} {otherPeriod : α → Nat} 
  {q q' : EventQueue (AdaptiveEvent ⊕ α)}
  {ev ev' : AdaptiveEvent} {phase due bound i p : Nat} {calls : List (Call (AdaptiveEvent ⊕ α))}
  {next : Option (Nat × (AdaptiveEvent ⊕ α))} {x : AdaptiveEvent ⊕ α}

/-- The phases in which it fires. -/
def fires (otherPeriod : α → Nat) (calls : List (Call (AdaptiveEvent ⊕ α))) : List Nat :=
  (calls.filter fun c => periods otherPeriod c.ev = 0).map Call.phase

/-- The first phase of those from `p` to before `bound` at which the measurement has reached the
target. -/
def reaches (get : Nat → Nat) (target p bound : Nat) : List Nat :=
  ((List.range' p (bound - p)).find? fun phase => target ≤ get phase).toList

/-- The measurement has not reached the target in the phases from `p` to before `due`. -/
def Below (ev : AdaptiveEvent) (p due : Nat) : Prop := ∀ j, p ≤ j → j < due → ev.get j < ev.target

/-- The measurement does not shrink, and grows by `maxRate` in a phase at most. -/
def Grows (get : Nat → Nat) (maxRate p : Nat) : Prop :=
  ∀ j, p ≤ j → get j ≤ get (j + 1) ∧ get (j + 1) ≤ get j + maxRate

theorem Grows.mono {get : Nat → Nat} {maxRate : Nat} (h : Grows get maxRate p) {j : Nat}
    (hj : p ≤ j)
    (k : Nat) : get j ≤ get (j + k) ∧ get (j + k) ≤ get j + k * maxRate := by
  induction k with
  | zero => simp
  | succ k ih =>
    obtain ⟨hmono, hrate⟩ := h (j + k) (by omega)
    rw [Nat.succ_mul, ← Nat.add_assoc j k 1]
    omega

theorem periodFor_pos (distance maxRate : Nat) : 0 < periodFor distance maxRate := by
  unfold periodFor
  dsimp only
  split
  · exact Nat.one_pos
  case isFalse hne => exact Nat.pos_of_ne_zero hne

/-- Until the last phase before the next call the target stays out of reach. -/
theorem periodFor_mul {distance maxRate : Nat} (hdistance : 0 < distance) {k : Nat}
    (hk : k < periodFor distance maxRate) : k * maxRate < distance := by
  unfold periodFor at hk
  dsimp only at hk
  split at hk
  · obtain rfl : k = 0 := by omega
    omega
  case isFalse hne =>
    have hrate : 0 < maxRate := Nat.pos_of_ne_zero fun h => hne (by simp [h])
    calc k * maxRate < (distance / maxRate) * maxRate := Nat.mul_lt_mul_of_pos_right hk hrate
      _ ≤ distance := Nat.div_mul_le_self _ _

/-! ### Callbacks -/

/-- A callback before the target is reached puts the event to a phase before which it is
not either. -/
theorem callback_early (hgrows : Grows ev.get ev.maxRate p) (hp : p ≤ due)
    (hbelow : Below ev p due) (hcur : ev.get due < ev.target) :
    Below ev p (due + periodFor (ev.target - ev.get due) ev.maxRate) := by
  intro j hpj hj
  by_cases hlt : j < due
  · exact hbelow j hpj hlt
  · obtain ⟨k, rfl⟩ := Nat.exists_eq_add_of_le (Nat.le_of_not_lt hlt)
    have hlt : k < periodFor (ev.target - ev.get due) ev.maxRate := by omega
    have hk := periodFor_mul (by omega) hlt
    have hrate := (hgrows.mono hp k).2
    omega

/-- When the target was not reached in the phase before, the assertion holds. -/
theorem callback_isSome (hgrows : Grows ev.get ev.maxRate p) (hp : p < due)
    (hbelow : Below ev p due) : (callback due ev).isSome := by
  have hbefore := hbelow (due - 1) (by omega) (by omega)
  have hrate := (hgrows (due - 1) (by omega)).2
  rw [Nat.sub_add_cancel (by omega)] at hrate
  unfold callback
  dsimp only
  split
  · rw [if_pos (by omega)]
    rfl
  · rfl

theorem callback_eq (h : callback due ev = some ev') : ev' = { ev with
    period := if ev.target ≤ ev.get due then 0
      else periodFor (ev.target - ev.get due) ev.maxRate } := by
  unfold callback at h
  dsimp only at h
  split at h
  case isTrue hreach =>
    split at h
    · rw [if_pos hreach]
      exact (Option.some.inj h).symm
    · cases h
  case isFalse hreach =>
    rw [if_neg hreach]
    exact (Option.some.inj h).symm

/-- The calls of an adaptive event: it is called without firing as long as the target is not
reached, and fires in the phase that it is. -/
theorem timetable_fires (hp : p < due) (hgrows : Grows ev.get ev.maxRate p)
    (hbelow : Below ev p due)
    (h : Timetable (callbacks others) (periods otherPeriod) due (.inl ev) calls next) :
    (∃ phase ev', next = some (phase, .inl ev') ∧ p < phase ∧ Below ev p phase ∧
      ev'.get = ev.get ∧ ev'.target = ev.target ∧ ev'.maxRate = ev.maxRate ∧
      fires otherPeriod calls = []) ∨
    next = none ∧ ∃ c ∈ calls, p < c.phase ∧ Below ev p c.phase ∧ ev.target ≤ ev.get c.phase ∧
      fires otherPeriod calls = [c.phase] := by
  induction calls generalizing due ev with
  | nil => exact .inl ⟨due, ev, h, hp, hbelow, rfl, rfl, rfl, rfl⟩
  | cons c calls ih =>
    obtain ⟨rfl, hcall, hrest⟩ := h
    obtain ⟨ev1, hev1, hc⟩ := Option.map_eq_some_iff.mp hcall
    have heq := callback_eq hev1
    have hget : ev1.get = ev.get := by rw [heq]
    have htarget : ev1.target = ev.target := by rw [heq]
    have hrate : ev1.maxRate = ev.maxRate := by rw [heq]
    have hperiod := congrArg AdaptiveEvent.period heq
    dsimp only at hperiod
    by_cases hreach : ev.target ≤ ev.get c.phase
    · rw [if_pos hreach] at hperiod
      have hzero : periods otherPeriod c.ev = 0 := by rw [← hc]; exact hperiod
      rw [if_pos hzero] at hrest
      obtain ⟨rfl, rfl⟩ := hrest
      refine .inr ⟨rfl, c, List.mem_singleton_self c, hp, hbelow, hreach, ?_⟩
      simp [fires, hzero]
    · rw [if_neg hreach] at hperiod
      have hnext : periods otherPeriod c.ev =
          periodFor (ev.target - ev.get c.phase) ev.maxRate := by rw [← hc]; exact hperiod
      have hpos := periodFor_pos (ev.target - ev.get c.phase) ev.maxRate
      have hne : ¬periods otherPeriod c.ev = 0 := by omega
      rw [if_neg hne, hnext, ← hc] at hrest
      have hfires : fires otherPeriod (c :: calls) = fires otherPeriod calls := by
        simp [fires, hne]
      have hearly := callback_early hgrows hp.le hbelow (Nat.lt_of_not_le hreach)
      have hsame : ∀ {bound}, Below ev1 p bound ↔ Below ev p bound := by
        intro bound
        unfold Below
        rw [hget, htarget]
      rw [← hget, ← hrate] at hgrows
      rw [hfires]
      obtain ⟨phase, ev', hnext', hphase, hbelow', hget', htarget', hrate', hnone⟩ |
        ⟨hnone, d, hd, hpd, hbelow', hreach', hfire⟩ :=
          ih (by omega) hgrows (hsame.mpr hearly) hrest
      · exact .inl ⟨phase, ev', hnext', hphase, hsame.mp hbelow', hget'.trans hget,
          htarget'.trans htarget, hrate'.trans hrate, hnone⟩
      · rw [hget, htarget] at hreach'
        exact .inr ⟨hnone, d, List.mem_cons_of_mem _ hd, hpd, hsame.mp hbelow', hreach', hfire⟩

/-- The other events stay other events. -/
theorem timetable_other {y : α}
    (h : Timetable (callbacks others) (periods otherPeriod) due (.inr y) calls (some (phase, x))) :
    ∃ z, x = .inr z := by
  induction calls generalizing due y with
  | nil =>
    obtain ⟨-, rfl⟩ := Prod.mk.inj (Option.some.inj h)
    exact ⟨y, rfl⟩
  | cons c calls ih =>
    obtain ⟨-, hcall, hrest⟩ := h
    split at hrest
    · exact absurd hrest.2 (Option.some_ne_none _)
    · rw [← Option.some.inj hcall] at hrest
      exact ih hrest

/-! ### Runs -/

theorem reaches_nil {get : Nat → Nat} {target : Nat} :
    reaches get target p bound = [] ↔ ∀ j, p ≤ j → j < bound → get j < target := by
  unfold reaches
  rw [Option.toList_eq_nil_iff, List.find?_eq_none]
  refine ⟨fun h j hj hlt => ?_, fun h j hj => ?_⟩
  · have hmem : j ∈ List.range' p (bound - p) := List.mem_range'_1.mpr ⟨hj, by omega⟩
    simpa using h j hmem
  · obtain ⟨hle, hlt⟩ := List.mem_range'_1.mp hj
    simpa using h j hle (by omega)

theorem reaches_eq (hp : p ≤ phase) (hbound : phase < bound) (hbelow : Below ev p phase)
    (hreach : ev.target ≤ ev.get phase) : reaches ev.get ev.target p bound = [phase] := by
  have hfind : (List.range' p (bound - p)).find? (fun j => ev.target ≤ ev.get j) = some phase := by
    refine List.find?_range'_eq_some.mpr ⟨decide_eq_true hreach,
      List.mem_range'_1.mpr ⟨hp, by omega⟩, fun j hj hlt => ?_⟩
    simpa using hbelow j hj hlt
  rw [reaches, hfind]
  rfl

/-- Event `i` is the adaptive event `ev`, due first in phase `due`; the rest are others. -/
structure Placed (others : Nat → α → α) (otherPeriod : α → Nat) (i due : Nat) (ev : AdaptiveEvent)
    (q : EventQueue (AdaptiveEvent ⊕ α)) : Prop where
  inv : EventQueue.Inv (callbacks others) (periods otherPeriod) q.numPhases q
  placed : q.inserted[i]? = some (due, .inl ev)
  rest : ∀ j d x, q.inserted[j]? = some (d, x) → j ≠ i → ∃ y, x = .inr y

/-- The adaptive event is not in the queue yet. -/
structure NotPlaced (others : Nat → α → α) (otherPeriod : α → Nat)
    (q : EventQueue (AdaptiveEvent ⊕ α)) : Prop where
  inv : EventQueue.Inv (callbacks others) (periods otherPeriod) q.numPhases q
  rest : ∀ d x, (d, x) ∈ q.inserted → ∃ y, x = .inr y

theorem step_other {op : Op α}
    (h : step (callbacks others) (periods otherPeriod) (other op) q = some q') :
    q'.inserted = q.inserted ∨ ∃ d y, q'.inserted = q.inserted ++ [(d, .inr y)] := by
  cases op with
  | insert y startDelay =>
    obtain rfl := Option.some.inj h
    exact .inr ⟨_, y, rfl⟩
  | endPhase => exact .inl (endPhase_eq h).2

theorem NotPlaced.step {op : Op α} (h : NotPlaced others otherPeriod q)
    (hq : step (callbacks others) (periods otherPeriod) (other op) q = some q') :
    NotPlaced others otherPeriod q' := by
  refine ⟨step_inv _ _ _ h.inv hq, fun d x hx => ?_⟩
  obtain hins | ⟨d', y, hins⟩ := step_other hq
  · exact h.rest d x (hins ▸ hx)
  · rw [hins] at hx
    obtain hx | hx := List.mem_append.mp hx
    · exact h.rest d x hx
    · obtain ⟨-, rfl⟩ := Prod.mk.inj (List.mem_singleton.mp hx)
      exact ⟨y, rfl⟩

theorem NotPlaced.insert (h : NotPlaced others otherPeriod q) (ev : AdaptiveEvent) :
    Placed others otherPeriod q.inserted.length (q.numPhases + ev.period) ev
      (q.insert (periods otherPeriod) (.inl ev) none) := by
  refine ⟨h.inv.insert _ _, List.getElem?_concat_length, fun j d x hx hj => ?_⟩
  have hmem : (d, x) ∈ q.inserted := by
    rw [show (q.insert (periods otherPeriod) (.inl ev) none).inserted =
      q.inserted ++ [(q.numPhases + ev.period, .inl ev)] from rfl, List.getElem?_append] at hx
    split at hx
    · exact List.mem_of_getElem? hx
    · rw [List.getElem?_singleton] at hx
      split at hx
      · omega
      · cases hx
  exact h.rest d x hmem

theorem Placed.step {op : Op α} (h : Placed others otherPeriod i due ev q)
    (hq : step (callbacks others) (periods otherPeriod) (other op) q = some q') :
    Placed others otherPeriod i due ev q' := by
  obtain hins | ⟨d', y, hins⟩ := step_other hq
  · exact ⟨step_inv _ _ _ h.inv hq, hins ▸ h.placed, hins ▸ h.rest⟩
  · obtain ⟨hi, -⟩ := List.getElem?_eq_some_iff.mp h.placed
    refine ⟨step_inv _ _ _ h.inv hq, ?_, fun j d x hx hj => ?_⟩
    · rw [hins, List.getElem?_append_left hi]
      exact h.placed
    · rw [hins, List.getElem?_append] at hx
      split at hx
      · exact h.rest j d x hx hj
      · rw [List.getElem?_singleton] at hx
        split at hx
        · obtain ⟨-, rfl⟩ := Prod.mk.inj (Option.some.inj hx)
          exact ⟨y, rfl⟩
        · cases hx

/-- No callback fails of an event that is due. -/
theorem Placed.progress (h : Placed others otherPeriod i due ev q) (hp : p < due)
    (hgrows : Grows ev.get ev.maxRate p) (hbelow : Below ev p due) (op : Op α) :
    ∃ q', EventQueue.step (callbacks others) (periods otherPeriod) (other op) q = some q' ∧
      Placed others otherPeriod i due ev q' := by
  obtain ⟨q', hq', -⟩ | ⟨-, ⟨phase, j, x⟩, he, rfl, hnone⟩ := h.inv.step (other op)
  · exact ⟨q', hq', h.step hq'⟩
  · obtain ⟨d, y, hj⟩ : ∃ d y, q.inserted[j]? = some (d, y) :=
      ⟨_, _, List.getElem?_eq_getElem (h.inv.known _ he)⟩
    obtain ⟨next, htable, hnext⟩ := h.inv.timetable j d y hj
    obtain rfl := (hnext q.numPhases x).mpr he
    by_cases hji : j = i
    · subst hji
      obtain ⟨rfl, rfl⟩ := Prod.mk.inj (Option.some.inj (hj.symm.trans h.placed))
      obtain ⟨_, ev', hsome, hlt, hbelow', hget, htarget, hrate, -⟩ | ⟨hfalse, -⟩ :=
        timetable_fires hp hgrows hbelow htable
      · obtain ⟨rfl, rfl⟩ := Prod.mk.inj (Option.some.inj hsome)
        rw [← hget, ← hrate] at hgrows
        have hbelow : Below ev' p q.numPhases := by
          unfold Below
          rw [hget, htarget]
          exact hbelow'
        have hok := callback_isSome hgrows hlt hbelow
        rw [Option.map_eq_none_iff.mp hnone] at hok
        cases hok
      · cases hfalse
    · obtain ⟨y', rfl⟩ := h.rest j d y hj hji
      obtain ⟨z, rfl⟩ := timetable_other htable
      cases hnone

/-- In a run of the others' operations the adaptive event fires as the measurement says. -/
theorem Placed.fires (h : Placed others otherPeriod i due ev q) (hp : p < due)
    (hgrows : Grows ev.get ev.maxRate p) (hbelow : Below ev p due) :
    fires otherPeriod (q.callsOf i) = reaches ev.get ev.target p q.numPhases := by
  obtain ⟨next, htable, hnext⟩ := h.inv.timetable i due _ h.placed
  obtain ⟨phase, ev', rfl, -, hbelow', -, -, -, hnone⟩ |
    ⟨-, c, hc, hpc, hbelow', hreach, hfires⟩ := timetable_fires hp hgrows hbelow htable
  · have hlate := h.inv.due _ ((hnext _ _).mp rfl)
    rw [hnone, reaches_nil.mpr fun j hj hlt => hbelow' j hj (hlt.trans_le hlate)]
  · have hearly := (h.inv.called c (List.mem_of_mem_filter hc)).2
    rw [hfires, reaches_eq hpc.le hearly hbelow' hreach]

theorem others_along {ops : List (Op α)} (q : EventQueue (AdaptiveEvent ⊕ α)) :
    Along (EventQueue.step (callbacks others) (periods otherPeriod)) (fun o _ => ∃ op, o = other op)
      (ops.map other) q :=
  along_of_mem (fun o ho => by
    obtain ⟨op, -, rfl⟩ := List.mem_map.mp ho
    exact ⟨op, rfl⟩) q

theorem NotPlaced.run (ops : List (Op α))
    (hrun : run (EventQueue.step (callbacks others) (periods otherPeriod)) (ops.map other) q =
      some q')
    (h : NotPlaced others otherPeriod q) : NotPlaced others otherPeriod q' := by
  refine run_preserves ?_ h (others_along q) hrun
  rintro _ s s' hs ⟨op, rfl⟩ hstep
  exact hs.step hstep

theorem Placed.run (h : Placed others otherPeriod i due ev q) (ops : List (Op α))
    (hrun : run (EventQueue.step (callbacks others) (periods otherPeriod)) (ops.map other) q =
      some q') :
    Placed others otherPeriod i due ev q' := by
  refine run_preserves ?_ h (others_along q) hrun
  rintro _ s s' hs ⟨op, rfl⟩ hstep
  exact hs.step hstep

theorem Placed.run_isSome (h : Placed others otherPeriod i due ev q) (hp : p < due)
    (hgrows : Grows ev.get ev.maxRate p) (hbelow : Below ev p due) (ops : List (Op α)) :
    ∃ q', Lib.run (EventQueue.step (callbacks others) (periods otherPeriod)) (ops.map other) q =
      some q' ∧ Placed others otherPeriod i due ev q' := by
  refine run_keeps ?_ _ h (others_along q)
  rintro _ s hs ⟨op, rfl⟩
  exact hs.progress hp hgrows hbelow op

/-- It is not called before it is due. -/
theorem Placed.callsOf_nil (h : Placed others otherPeriod i due ev q) (hdue : q.numPhases ≤ due) :
    q.callsOf i = [] := by
  obtain ⟨next, htable, -⟩ := h.inv.timetable i due _ h.placed
  cases hcalls : q.callsOf i with
  | nil => rfl
  | cons c calls =>
    rw [hcalls] at htable
    have hc : c ∈ q.callsOf i := hcalls ▸ List.mem_cons_self
    have hearly := (h.inv.called c (List.mem_of_mem_filter hc)).2
    have hphase := htable.1
    omega

theorem run_endPhases (n : Nat)
    (h : run (step (callbacks others) (periods otherPeriod)) (List.replicate n .endPhase) q =
      some q') :
    q'.numPhases = q.numPhases + n := by
  induction n generalizing q with
  | zero =>
    obtain rfl := Option.some.inj h
    rfl
  | succ n ih =>
    obtain ⟨q1, h1, hrest⟩ := Option.bind_eq_some_iff.mp h
    have hone := (endPhase_eq h1).1
    have hmore := ih hrest
    omega

theorem periodFor_eq (distance maxRate : Nat) :
    periodFor distance maxRate = max 1 (distance / maxRate) := by
  unfold periodFor
  dsimp only
  split
  case isTrue hzero => rw [hzero, Nat.max_eq_left (Nat.zero_le 1)]
  case isFalse hne => rw [Nat.max_eq_right (Nat.pos_of_ne_zero hne)]

end

/-- An adaptive event that is inserted into a queue of other events fires once, at the end of the
first phase at which the measurement has reached the target, and its assertion holds, exactly when
the measurement has not reached the target in a phase before its first call. -/
theorem adaptive_fires_iff {α : Type*} (others : Nat → α → α) (otherPeriod : α → Nat)
    (before : List (Op α)) {q : EventQueue (AdaptiveEvent ⊕ α)}
    (hq : run (step (callbacks others) (periods otherPeriod)) (before.map other) EventQueue.start =
      some q) (get : Nat → Nat) {start target maxRate : Nat} (htarget : start ≤ target)
    (hgrows : Grows get maxRate q.numPhases) :
    (∃ ev, makeAdaptiveEvent get start target maxRate = some ev ∧ ∀ ops : List (Op α), ∃ q',
        run (step (callbacks others) (periods otherPeriod))
          (.insert (.inl ev) none :: ops.map other)
          q = some q' ∧
        fires otherPeriod (q'.callsOf q.inserted.length) =
          reaches get target q.numPhases q'.numPhases) ↔
      0 < maxRate ∧ get (q.numPhases + max 1 ((target - start) / maxRate) - 1) < target := by
  have hnot : NotPlaced others otherPeriod q :=
    NotPlaced.run before hq ⟨start_inv, fun d x hx => absurd hx List.not_mem_nil⟩
  have hpos := periodFor_pos (target - start) maxRate
  rw [← periodFor_eq]
  constructor
  · rintro ⟨ev, hev, hops⟩
    rw [makeAdaptiveEvent, if_pos htarget] at hev
    split at hev
    · cases hev
    case isFalse hrate =>
      refine ⟨Nat.pos_of_ne_zero hrate, ?_⟩
      obtain rfl := Option.some.inj hev
      -- The others do nothing until the phase before the first call is over.
      obtain ⟨q', hrun, hfires⟩ := hops
        (List.replicate (periodFor (target - start) maxRate) .endPhase)
      have hplaced := (hnot.insert _).run _ hrun
      rw [List.map_replicate] at hrun
      have hphases : run (step (callbacks others) (periods otherPeriod))
          (List.replicate (periodFor (target - start) maxRate) .endPhase)
          (q.insert (periods otherPeriod) (.inl ⟨get, target, maxRate, _⟩) none) = some q' := hrun
      have hnum := run_endPhases _ hphases
      change q'.numPhases = q.numPhases + _ at hnum
      rw [hplaced.callsOf_nil hnum.le] at hfires
      exact reaches_nil.mp hfires.symm _ (by omega) (by omega)
  · rintro ⟨hrate, hbefore⟩
    refine ⟨⟨get, target, maxRate, periodFor (target - start) maxRate⟩, ?_, fun ops => ?_⟩
    · rw [makeAdaptiveEvent, if_pos htarget, if_neg hrate.ne']
    have hbelow : Below ⟨get, target, maxRate, periodFor (target - start) maxRate⟩ q.numPhases
        (q.numPhases + periodFor (target - start) maxRate) := by
      intro j hj hlt
      have hmono := (hgrows.mono hj
        (q.numPhases + periodFor (target - start) maxRate - 1 - j)).1
      rw [Nat.add_sub_of_le (by omega)] at hmono
      exact hmono.trans_lt hbefore
    have hdue : q.numPhases < q.numPhases + periodFor (target - start) maxRate :=
      Nat.lt_add_of_pos_right hpos
    obtain ⟨q', hrun, hplaced⟩ := (hnot.insert _).run_isSome hdue hgrows hbelow ops
    exact ⟨q', hrun, hplaced.fires hdue hgrows hbelow⟩

/-- Alone in the queue, with a target that takes more than two phases. -/
theorem adaptive_fires_far :
    (∃ ev, makeAdaptiveEvent (fun phase => 8 * phase) 0 25 10 = some ev ∧
      ∀ ops : List (Op Nat), ∃ q',
        run (step (callbacks fun _ n => n) (periods id)) (.insert (.inl ev) none :: ops.map other)
          EventQueue.start = some q' ∧
        fires id (q'.callsOf 0) = reaches (fun phase => 8 * phase) 25 0 q'.numPhases) ↔
      0 < 10 ∧ 8 * (0 + max 1 ((25 - 0) / 10) - 1) < 25 := by
  refine adaptive_fires_iff (fun _ n => n) id [] rfl (fun phase => 8 * phase) (by decide) ?_
  intro j _
  dsimp only
  omega

/-- Inserted in phase 0 with a target below the rate: the measurement passes the target within that
phase, and at the call in phase 1 the assertion fails. -/
theorem adaptive_overshoots : ¬∀ (get : Nat → Nat) (start target maxRate : Nat), start ≤ target →
    start ≤ get 0 ∧ get 0 ≤ start + maxRate → Grows get maxRate 0 →
    ∃ ev, makeAdaptiveEvent get start target maxRate = some ev ∧ ∀ ops : List (Op Nat), ∃ q',
      run (step (callbacks fun _ n => n) (periods id)) (.insert (.inl ev) none :: ops.map other)
        EventQueue.start = some q' ∧
      fires id (q'.callsOf 0) = reaches get target 0 q'.numPhases := by
  intro h
  obtain ⟨ev, hev, hops⟩ := h (fun phase => 10 * phase + 10) 0 5 10 (by decide) (by decide)
    (fun j _ => by dsimp only; omega)
  obtain rfl := Option.some.inj hev
  obtain ⟨q', hrun, -⟩ := hops [.endPhase, .endPhase]
  have hfails : run (step (callbacks fun _ n => n) (periods id))
      [.insert (.inl ⟨fun phase => 10 * phase + 10, 5, 10, 1⟩) none, .endPhase, .endPhase]
        (EventQueue.start (E := AdaptiveEvent ⊕ Nat)) = none := rfl
  exact absurd (hfails.symm.trans hrun) (Option.some_ne_none _).symm

end AdaptiveEvent

end Doppelganger.Events
