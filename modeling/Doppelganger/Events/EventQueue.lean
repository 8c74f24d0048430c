import Doppelganger.Lib.Run
import Mathlib.Data.List.Sort

/-! The event queue of `event_queue.h`, which ends each phase.  In every run each event is called in
the phase that it is due, and again as many phases after each call as it says then, until it says 0.
Phases are natural numbers. -/

namespace Doppelganger.Events

open Lib

/-- An entry of `evMap`.  `id` is the number of events inserted before, and stands for the address
of the event. -/
structure Entry (E : Type*) where
  phase : Nat
  id : Nat
  ev : E
deriving DecidableEq, Repr

/-- A call of `callback`, with the event as it is afterwards. -/
structure Call (E : Type*) where
  id : Nat
  phase : Nat
  ev : E
deriving DecidableEq, Repr

/-- The queue and `numPhases`, with ghosts: the events inserted so far, each with the phase that it
is due first, and the calls. -/
structure EventQueue (E : Type*) where
  numPhases : Nat
  evMap : List (Entry E)
  inserted : List (Nat × E)
  calls : List (Call E)

/-- `insert` comes with its `startDelay`, which is `none` for the default; `endPhase` is `tick`,
after which the scheduler counts the phase. -/
inductive Op (E : Type*)
  | insert (ev : E) (startDelay : Option Nat)
  | endPhase

namespace EventQueue

variable {E : Type*}

def start : EventQueue E := ⟨0, [], [], []⟩

/-- `insert` of a multimap: after the entries with the same key. -/
def mapInsert (e : Entry E) (evMap : List (Entry E)) : List (Entry E) :=
  evMap.orderedInsert (fun a b => a.phase < b.phase) e

variable (callback : Nat → E → Option E) (getPeriod : E → Nat)

/-- What the loop of `tick` does after a callback. -/
def afterCallback (id : Nat) (ev : E) (rest : List (Entry E)) (q : EventQueue E) : EventQueue E :=
  { q with
    evMap := if getPeriod ev ≠ 0 then mapInsert ⟨q.numPhases + getPeriod ev, id, ev⟩ rest else rest
    calls := q.calls ++ [⟨id, q.numPhases, ev⟩] }

/-- The loop of `tick`, for at most `fuel` events; it panics on an overdue event. -/
def tickLoop : Nat → EventQueue E → Option (EventQueue E)
  | fuel, q =>
    match q.evMap with
    | [] => some q
    | e :: rest =>
      if e.phase ≤ q.numPhases then
        if e.phase ≠ q.numPhases then none
        else
          match fuel with
          | 0 => none
          | fuel + 1 => (callback q.numPhases e.ev).bind fun ev =>
              tickLoop fuel (q.afterCallback getPeriod e.id ev rest)
      else some q

/-- No event is called twice in a phase, so as many rounds as there are entries do. -/
def tick (q : EventQueue E) : Option (EventQueue E) :=
  tickLoop callback getPeriod q.evMap.length q

def insert (ev : E) (startDelay : Option Nat) (q : EventQueue E) : EventQueue E :=
  let eventPhase := q.numPhases + startDelay.getD (getPeriod ev)
  { q with
    evMap := mapInsert ⟨eventPhase, q.inserted.length, ev⟩ q.evMap
    inserted := q.inserted ++ [(eventPhase, ev)] }

def step : Op E → EventQueue E → Option (EventQueue E)
  | .insert ev startDelay, q => some (q.insert getPeriod ev startDelay)
  | .endPhase, q => (q.tick callback getPeriod).map fun q => { q with numPhases := q.numPhases + 1 }

def callsOf (id : Nat) (q : EventQueue E) : List (Call E) := q.calls.filter fun c => c.id = id

/-- The calls of an event that is due in phase `due`, and when it is due next: it is called as it
was left by the call before, in the phase that it said then. -/
def Timetable (due : Nat) (ev : E) : List (Call E) → Option (Nat × E) → Prop
  | [], next => next = some (due, ev)
  | c :: calls, next => c.phase = due ∧ callback due ev = some c.ev ∧
      if getPeriod c.ev = 0 then calls = [] ∧ next = none
      else Timetable (due + getPeriod c.ev) c.ev calls next

/-- The calls so far are in phases before `bound`. -/
structure Inv (bound : Nat) (q : EventQueue E) : Prop where
  sorted : q.evMap.Pairwise fun a b => a.phase ≤ b.phase
  due : ∀ e ∈ q.evMap, q.numPhases ≤ e.phase
  ids : (q.evMap.map Entry.id).Nodup
  known : ∀ e ∈ q.evMap, e.id < q.inserted.length
  called : ∀ c ∈ q.calls, c.id < q.inserted.length ∧ c.phase < bound
  timetable : ∀ i due ev, q.inserted[i]? = some (due, ev) →
    ∃ next, Timetable callback getPeriod due ev (q.callsOf i) next ∧
      ∀ phase x, next = some (phase, x) ↔ ⟨phase, i, x⟩ ∈ q.evMap

section

variable {callback : Nat → E → Option E} {getPeriod : E → Nat} {q : EventQueue E} {e : Entry E}
  {l : List (Entry E)} {due bound phase : Nat} {ev x : E} {calls : List (Call E)}

theorem mapInsert_perm : (mapInsert e l).Perm (e :: l) := List.perm_orderedInsert _ _ _

theorem mapInsert_sorted (h : l.Pairwise fun a b => a.phase ≤ b.phase) :
    (mapInsert e l).Pairwise fun a b => a.phase ≤ b.phase := by
  induction l with
  | nil => exact List.pairwise_singleton _ _
  | cons f l ih =>
    obtain ⟨hf, hl⟩ := List.pairwise_cons.mp h
    unfold mapInsert List.orderedInsert
    split
    case isTrue hlt =>
      refine List.pairwise_cons.mpr ⟨fun b hb => ?_, h⟩
      obtain rfl | hb := List.mem_cons.mp hb
      · exact hlt.le
      · exact hlt.le.trans (hf b hb)
    case isFalse hle =>
      refine List.pairwise_cons.mpr ⟨fun b hb => ?_, ih hl⟩
      obtain rfl | hb := List.mem_cons.mp (mapInsert_perm.mem_iff.mp hb)
      · exact Nat.le_of_not_lt hle
      · exact hf b hb

/-- One call more. -/
theorem Timetable.append (h : Timetable callback getPeriod due ev calls (some (phase, x))) {y : E}
    (hy : callback phase x = some y) (id : Nat) :
    Timetable callback getPeriod due ev (calls ++ [⟨id, phase, y⟩])
      (if getPeriod y = 0 then none else some (phase + getPeriod y, y)) := by
  induction calls generalizing due ev with
  | nil =>
    obtain ⟨rfl, rfl⟩ := Prod.mk.inj (Option.some.inj h)
    refine ⟨rfl, hy, ?_⟩
    split
    · exact ⟨rfl, rfl⟩
    · rfl
  | cons c calls ih =>
    obtain ⟨hphase, hcall, hrest⟩ := h
    refine ⟨hphase, hcall, ?_⟩
    split at hrest
    · exact absurd hrest.2 (Option.some_ne_none _)
    case isFalse hne =>
      rw [if_neg hne]
      exact ih hrest

theorem start_inv : Inv callback getPeriod 0 (start (E := E)) := by
  constructor <;> simp [start]

/-! ### `tick` -/

theorem callsOf_append (q q' : EventQueue E) (c : Call E) (h : q'.calls = q.calls ++ [c])
    (i : Nat) :
    q'.callsOf i = q.callsOf i ++ if c.id = i then [c] else [] := by
  unfold callsOf
  rw [h, List.filter_append]
  congr 1
  by_cases hi : c.id = i <;> simp [hi]

/-- The event at the head of the queue is called. -/
theorem Inv.afterCallback (h : Inv callback getPeriod (q.numPhases + 1) q) (hq : q.evMap = e :: l)
    (hphase : e.phase = q.numPhases) {y : E} (hy : callback q.numPhases e.ev = some y) :
    Inv callback getPeriod (q.numPhases + 1) (q.afterCallback getPeriod e.id y l) := by
  have hsorted := h.sorted
  have hids := h.ids
  rw [hq] at hsorted hids
  have hrest := (List.pairwise_cons.mp hsorted).2
  obtain ⟨hnew, hnodup⟩ := List.nodup_cons.mp hids
  have hmem : ∀ f, f ∈ (q.afterCallback getPeriod e.id y l).evMap ↔
      f ∈ l ∨ getPeriod y ≠ 0 ∧ f = ⟨q.numPhases + getPeriod y, e.id, y⟩ := by
    intro f
    show f ∈ (if _ then _ else _) ↔ _
    split
    case isTrue hne =>
      rw [mapInsert_perm.mem_iff, List.mem_cons, or_comm, and_iff_right hne]
    case isFalse hzero => rw [or_iff_left fun hf => hzero hf.1]
  have hl : ∀ f ∈ l, f ∈ q.evMap := fun f hf => hq ▸ List.mem_cons_of_mem _ hf
  have he : e ∈ q.evMap := hq ▸ List.mem_cons_self
  constructor
  case sorted =>
    show List.Pairwise _ (if _ then _ else _)
    split
    · exact mapInsert_sorted hrest
    · exact hrest
  case due =>
    intro f hf
    obtain hf | ⟨-, rfl⟩ := (hmem f).mp hf
    · exact h.due f (hl f hf)
    · exact Nat.le_add_right _ _
  case ids =>
    show (List.map _ (if _ then _ else _)).Nodup
    split
    · exact (mapInsert_perm.map _).nodup_iff.mpr (List.nodup_cons.mpr ⟨hnew, hnodup⟩)
    · exact hnodup
  case known =>
    intro f hf
    obtain hf | ⟨-, rfl⟩ := (hmem f).mp hf
    · exact h.known f (hl f hf)
    · exact h.known e he
  case called =>
    intro c hc
    obtain hc | hc := List.mem_append.mp hc
    · exact h.called c hc
    · rw [List.mem_singleton.mp hc]
      exact ⟨h.known e he, Nat.lt_succ_self _⟩
  case timetable =>
    intro i due ev hi
    obtain ⟨next, htable, hnext⟩ := h.timetable i due ev hi
    rw [callsOf_append q (q.afterCallback getPeriod e.id y l) _ rfl]
    by_cases heq : e.id = i
    · subst heq
      have hdue : next = some (q.numPhases, e.ev) := by
        rw [hnext, ← hphase]
        exact he
      rw [hdue] at htable
      rw [if_pos rfl]
      refine ⟨_, htable.append hy e.id, fun phase x => ?_⟩
      have hout : ⟨phase, e.id, x⟩ ∉ l := fun hin => hnew (List.mem_map.mpr ⟨_, hin, rfl⟩)
      rw [hmem, or_iff_right hout]
      split
      case isTrue hzero => simp [hzero]
      case isFalse hne => simp [hne, eq_comm]
    · rw [if_neg heq, List.append_nil]
      refine ⟨next, htable, fun phase x => ?_⟩
      rw [hnext, hmem, hq, List.mem_cons]
      constructor
      · rintro (hin | hin)
        · exact absurd (congrArg Entry.id hin).symm heq
        · exact .inl hin
      · rintro (hin | ⟨-, hin⟩)
        · exact .inr hin
        · exact absurd (congrArg Entry.id hin).symm heq

/-- The entries that are due in this phase. -/
def dueNow (q : EventQueue E) : Nat := q.evMap.countP fun e => e.phase ≤ q.numPhases

theorem dueNow_afterCallback (getPeriod : E → Nat) (hq : q.evMap = e :: l)
    (hphase : e.phase = q.numPhases) (y : E) :
    (q.afterCallback getPeriod e.id y l).dueNow + 1 = q.dueNow := by
  have hold : q.dueNow = l.countP (fun f => f.phase ≤ q.numPhases) + 1 := by
    rw [dueNow, hq, List.countP_cons_of_pos (by simpa using hphase.le)]
  rw [hold, Nat.add_right_cancel_iff]
  show List.countP _ (if _ then _ else _) = _
  split
  case isTrue hne =>
    rw [mapInsert_perm.countP_eq]
    refine List.countP_cons_of_neg ?_
    rw [decide_eq_true_eq]
    exact Nat.not_le_of_lt (Nat.lt_add_of_pos_right (Nat.pos_of_ne_zero hne))
  case isFalse => rfl

/-- The loop calls the events that are due, each of which it puts to a later phase, or stops at a
callback that fails. -/
theorem Inv.tickLoop {fuel : Nat} (h : Inv callback getPeriod (q.numPhases + 1) q)
    (hfuel : q.dueNow ≤ fuel) :
    (∃ q', tickLoop callback getPeriod fuel q = some q' ∧
      Inv callback getPeriod (q.numPhases + 1) q' ∧ q'.numPhases = q.numPhases ∧
      q'.inserted = q.inserted ∧ ∀ e ∈ q'.evMap, q.numPhases < e.phase) ∨
    tickLoop callback getPeriod fuel q = none ∧
      ∃ e ∈ q.evMap, e.phase = q.numPhases ∧ callback q.numPhases e.ev = none := by
  induction fuel generalizing q with
  | zero =>
    refine .inl ⟨q, ?_, h, rfl, rfl, ?_⟩
    · unfold EventQueue.tickLoop
      split
      · rfl
      case h_2 e l hq =>
        have hnone := List.countP_eq_zero.mp (Nat.le_zero.mp hfuel) e (hq ▸ List.mem_cons_self)
        rw [if_neg (by simpa using hnone)]
    · intro e he
      have hnone := List.countP_eq_zero.mp (Nat.le_zero.mp hfuel) e he
      simpa using hnone
  | succ fuel ih =>
    unfold EventQueue.tickLoop
    split
    case h_1 hq =>
      exact .inl ⟨q, rfl, h, rfl, rfl, fun e he => absurd (hq ▸ he) List.not_mem_nil⟩
    case h_2 e l hq =>
      have he : e ∈ q.evMap := hq ▸ List.mem_cons_self
      by_cases hle : e.phase ≤ q.numPhases
      · have hphase : e.phase = q.numPhases := le_antisymm hle (h.due e he)
        rw [if_pos hle, if_neg (not_not.mpr hphase)]
        cases hcall : callback q.numPhases e.ev with
        | none => exact .inr ⟨rfl, e, he, hphase, hcall⟩
        | some y =>
          have hdue := dueNow_afterCallback getPeriod hq hphase y
          have hrest : (q.afterCallback getPeriod e.id y l).dueNow ≤ fuel := by omega
          obtain ⟨q', hq', hinv, hnum, hins, hlate⟩ | ⟨hq', f, hf, hfphase, hnone⟩ :=
            ih (h.afterCallback hq hphase hcall) hrest
          · exact .inl ⟨q', hq', hinv, hnum, hins, hlate⟩
          · refine .inr ⟨hq', f, ?_, hfphase, hnone⟩
            -- An event that was put back is not due in this phase.
            have hmem : f ∈ (if getPeriod y ≠ 0 then
                mapInsert ⟨q.numPhases + getPeriod y, e.id, y⟩ l else l) := hf
            rw [hq]
            split at hmem
            case isTrue hne =>
              obtain rfl | hmem := List.mem_cons.mp (mapInsert_perm.mem_iff.mp hmem)
              · have hfphase : q.numPhases + getPeriod y = q.numPhases := hfphase
                omega
              · exact List.mem_cons_of_mem _ hmem
            case isFalse => exact List.mem_cons_of_mem _ hmem
      · rw [if_neg hle]
        refine .inl ⟨q, rfl, h, rfl, rfl, fun f hf => ?_⟩
        have hsorted := h.sorted
        rw [hq] at hsorted hf
        obtain rfl | hf := List.mem_cons.mp hf
        · exact Nat.lt_of_not_le hle
        · exact (Nat.lt_of_not_le hle).trans_le ((List.pairwise_cons.mp hsorted).1 f hf)

theorem tickLoop_keeps {fuel : Nat} {q' : EventQueue E}
    (h : EventQueue.tickLoop callback getPeriod fuel q = some q') :
    q'.numPhases = q.numPhases ∧ q'.inserted = q.inserted := by
  induction fuel generalizing q with
  | zero =>
    unfold EventQueue.tickLoop at h
    split at h
    · obtain rfl := Option.some.inj h
      exact ⟨rfl, rfl⟩
    · split at h
      · split at h <;> cases h
      · obtain rfl := Option.some.inj h
        exact ⟨rfl, rfl⟩
  | succ fuel ih =>
    unfold EventQueue.tickLoop at h
    split at h
    · obtain rfl := Option.some.inj h
      exact ⟨rfl, rfl⟩
    · split at h
      · split at h
        · cases h
        · obtain ⟨y, -, hrest⟩ := Option.bind_eq_some_iff.mp h
          have hkeeps := ih hrest
          exact hkeeps
      · obtain rfl := Option.some.inj h
        exact ⟨rfl, rfl⟩

/-! ### Steps -/

theorem endPhase_eq {q' : EventQueue E} (h : step callback getPeriod .endPhase q = some q') :
    q'.numPhases = q.numPhases + 1 ∧ q'.inserted = q.inserted := by
  obtain ⟨q1, h1, rfl⟩ := Option.map_eq_some_iff.mp h
  obtain ⟨hnum, hins⟩ := tickLoop_keeps h1
  exact ⟨congrArg (· + 1) hnum, hins⟩

theorem Inv.insert (h : Inv callback getPeriod q.numPhases q) (ev : E) (startDelay : Option Nat) :
    Inv callback getPeriod q.numPhases (q.insert getPeriod ev startDelay) := by
  have hmem : ∀ f, f ∈ (q.insert getPeriod ev startDelay).evMap ↔
      f = ⟨q.numPhases + startDelay.getD (getPeriod ev), q.inserted.length, ev⟩ ∨ f ∈ q.evMap :=
    fun f => mapInsert_perm.mem_iff.trans List.mem_cons
  have hlength : (q.insert getPeriod ev startDelay).inserted.length = q.inserted.length + 1 :=
    List.length_append
  have hnew : q.inserted.length ∉ q.evMap.map Entry.id := by
    intro hin
    obtain ⟨f, hf, hid⟩ := List.mem_map.mp hin
    have hlt := h.known f hf
    omega
  constructor
  case sorted => exact mapInsert_sorted h.sorted
  case due =>
    intro f hf
    obtain rfl | hf := (hmem f).mp hf
    · exact Nat.le_add_right _ _
    · exact h.due f hf
  case ids => exact (mapInsert_perm.map _).nodup_iff.mpr (List.nodup_cons.mpr ⟨hnew, h.ids⟩)
  case known =>
    intro f hf
    rw [hlength]
    obtain rfl | hf := (hmem f).mp hf
    · exact Nat.lt_succ_self _
    · exact (h.known f hf).trans (Nat.lt_succ_self _)
  case called =>
    intro c hc
    rw [hlength]
    exact ⟨(h.called c hc).1.trans (Nat.lt_succ_self _), (h.called c hc).2⟩
  case timetable =>
    intro i due x hi
    by_cases hlt : i < q.inserted.length
    · obtain ⟨next, htable, hnext⟩ :=
        h.timetable i due x ((List.getElem?_append_left hlt).symm.trans hi)
      refine ⟨next, htable, fun phase y => ?_⟩
      rw [hnext, hmem]
      refine ⟨.inr, fun hin => hin.resolve_left fun heq => ?_⟩
      have hid : i = q.inserted.length := congrArg Entry.id heq
      omega
    · have hi := (List.getElem?_append_right (Nat.le_of_not_lt hlt)).symm.trans hi
      obtain ⟨hidx, hval⟩ := List.getElem?_eq_some_iff.mp hi
      have hidx : i - q.inserted.length < 1 := hidx
      obtain rfl : i = q.inserted.length := by omega
      obtain ⟨rfl, rfl⟩ : q.numPhases + startDelay.getD (getPeriod ev) = due ∧ ev = x := by
        simpa using hi
      have hcalls : (q.insert getPeriod ev startDelay).callsOf q.inserted.length = [] := by
        refine List.filter_eq_nil_iff.mpr fun c hc => ?_
        have hid := (h.called c hc).1
        simpa using (ne_of_lt hid)
      rw [hcalls]
      refine ⟨_, rfl, fun phase y => ?_⟩
      rw [hmem]
      constructor
      · intro heq
        obtain ⟨rfl, rfl⟩ := Prod.mk.inj (Option.some.inj heq)
        exact .inl rfl
      · rintro (heq | hin)
        · cases heq
          rfl
        · exact absurd (List.mem_map.mpr ⟨_, hin, rfl⟩) hnew

/-- An operation succeeds, or a callback fails of an event that is due. -/
theorem Inv.step (h : Inv callback getPeriod q.numPhases q) (op : Op E) :
    (∃ q', step callback getPeriod op q = some q' ∧ Inv callback getPeriod q'.numPhases q') ∨
    step callback getPeriod op q = none ∧
      ∃ e ∈ q.evMap, e.phase = q.numPhases ∧ callback q.numPhases e.ev = none := by
  cases op with
  | insert ev startDelay => exact .inl ⟨_, rfl, h.insert ev startDelay⟩
  | endPhase =>
    have hnext : Inv callback getPeriod (q.numPhases + 1) q :=
      ⟨h.sorted, h.due, h.ids, h.known, fun c hc =>
        ⟨(h.called c hc).1, (h.called c hc).2.trans (Nat.lt_succ_self _)⟩, h.timetable⟩
    obtain ⟨q', hq', hinv, hnum, hins, hlate⟩ | ⟨hq', hfail⟩ :=
      hnext.tickLoop List.countP_le_length
    · refine .inl ⟨{ q' with numPhases := q'.numPhases + 1 }, Option.map_eq_some_iff.mpr
        ⟨q', hq', rfl⟩, ?_⟩
      rw [← hnum] at hinv hlate
      exact ⟨hinv.sorted, hlate, hinv.ids, hinv.known, hinv.called, hinv.timetable⟩
    · exact .inr ⟨Option.map_eq_none_iff.mpr hq', hfail⟩

theorem step_inv (op : Op E) (q q' : EventQueue E) (h : Inv callback getPeriod q.numPhases q)
    (hq : step callback getPeriod op q = some q') : Inv callback getPeriod q'.numPhases q' := by
  obtain ⟨q1, h1, hinv⟩ | ⟨hnone, -⟩ := h.step op
  · obtain rfl := Option.some.inj (h1.symm.trans hq)
    exact hinv
  · exact absurd (hnone.symm.trans hq) (Option.some_ne_none _).symm

end

end EventQueue

open EventQueue

/-- When the callbacks return, no run of insertions and phases panics.  Each event is called in the
phase that it is due, and then as its period says after each call; what is still due is in the
queue, for a phase that is not over. -/
theorem events_on_time {E : Type*} (callback : Nat → E → Option E) (getPeriod : E → Nat)
    (hcallback : ∀ phase ev, (callback phase ev).isSome) (ops : List (Op E)) :
    ∃ q, run (step callback getPeriod) ops start = some q ∧
      ∀ i due ev, q.inserted[i]? = some (due, ev) →
        ∃ next, Timetable callback getPeriod due ev (q.callsOf i) next ∧
          (∀ phase x, next = some (phase, x) ↔ ⟨phase, i, x⟩ ∈ q.evMap) ∧
          (∀ phase x, next = some (phase, x) → q.numPhases ≤ phase) ∧
          ∀ c ∈ q.callsOf i, c.phase < q.numPhases := by
  have hstep : ∀ op (q : EventQueue E), Inv callback getPeriod q.numPhases q →
      ∃ q', step callback getPeriod op q = some q' ∧ Inv callback getPeriod q'.numPhases q' := by
    intro op q h
    obtain hok | ⟨-, e, -, -, hnone⟩ := h.step op
    · exact hok
    · have hsome := hcallback q.numPhases e.ev
      rw [hnone] at hsome
      cases hsome
  have hstart : EventQueue.Inv callback getPeriod (start (E := E)).numPhases start := start_inv
  obtain ⟨q, hrun, hinv⟩ := run_always hstep ops hstart
  refine ⟨q, hrun, fun i due ev hi => ?_⟩
  obtain ⟨next, htable, hnext⟩ := hinv.timetable i due ev hi
  exact ⟨next, htable, hnext, fun phase x hx => hinv.due _ ((hnext phase x).mp hx),
    fun c hc => (hinv.called c (List.mem_of_mem_filter hc)).2⟩

/-- Events that are called as often as their value says, each time after that many phases. -/
theorem events_on_time_countdown : ∃ q, run (step (fun _ n => some (n - 1)) id)
      [.insert 2 none, .endPhase, .insert 0 (some 0), .endPhase, .endPhase, .endPhase] start =
        some q ∧
    ∀ i due ev, q.inserted[i]? = some (due, ev) →
      ∃ next, Timetable (fun _ n => some (n - 1)) id due ev (q.callsOf i) next ∧
        (∀ phase x, next = some (phase, x) ↔ ⟨phase, i, x⟩ ∈ q.evMap) ∧
        (∀ phase x, next = some (phase, x) → q.numPhases ≤ phase) ∧
        ∀ c ∈ q.callsOf i, c.phase < q.numPhases :=
  events_on_time (fun _ n => some (n - 1)) id (fun _ _ => rfl) _

end Doppelganger.Events
