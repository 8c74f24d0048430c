import Doppelganger.Procs.Ffi
import Mathlib

/-! Runs of instruction-based fast-forwarding.  When one thread at a time is in fast-forward and
only the queued event enters it, the intervals alternate, each ends with one call of `FFIAdvance`,
and no instruction is counted twice, or lost but by a core. -/

namespace Doppelganger.Procs.Ffi

open Lib State

/-- A step as a partial function. -/
def next (ffiPoints : List Nat) (op : Op) (s : State) : Option State :=
  (step ffiPoints op s).toOption

/-- The instructions of the detailed interval that the next `FFIEntryBasicBlock` adds. -/
def uncounted (s : State) : Nat :=
  s.processInstrs -
    (if s.inFastForward ∧ s.ffiNFF then s.ffiPrevFFStartInstrs else s.ffiFFStartInstrs)

/-- The instructions of the blocks that the cores have not counted. -/
def held (s : State) : Nat := (s.cores.map Core.held).sum

/-- The history of intervals that alternate from a fast-forward on: at the end of a fast-forward,
the process advances and exits; at the end of a detailed interval it enters and advances. -/
def mark (n : Nat) : Mark :=
  match n % 4 with
  | 1 => .exit
  | 2 => .enter
  | _ => .advance

def offset (startFF : Bool) : Nat := if startFF then 0 else 2

def Alternates (startFF : Bool) (history : List Mark) : Prop :=
  ∀ n < history.length, history[n]? = some (mark (n + offset startFF))

/-- The sum of the points up to point `k`. -/
def upTo (ffiPoints : List Nat) (k : Nat) : Nat := (ffiPoints.take (k + 1)).foldl (· + ·) 0

/-- No thread is in fast-forward. -/
def Alone (s : State) : Prop := .ffi ∉ s.threads ∧ .ffiEntry ∉ s.threads

instance (s : State) : Decidable (Alone s) := inferInstanceAs (Decidable (_ ∧ _))

/-- A thread goes into fast-forward only when no other one is in it, and fast-forward is switched by
the event and `FFIBasicBlock` alone. -/
def Allowed : Op → State → Prop
  | .takeBarrier _, s | .threadStart _, s => s.inFastForward → Alone s
  | .syscallExit tid, s => s.inFastForward → s.threads[tid]? = some .join → Alone s
  | .roiBegin, _ | .roiEnd, _ => False
  | _, _ => True

instance : ∀ (op : Op) (s : State), Decidable (Allowed op s)
  | .takeBarrier _, s | .threadStart _, s => inferInstanceAs (Decidable (s.inFastForward → Alone s))
  | .syscallExit tid, s =>
    inferInstanceAs (Decidable (s.inFastForward → s.threads[tid]? = some .join → Alone s))
  | .roiBegin, _ | .roiEnd, _ => isFalse id
  | .bbl _ _, _ | .sync _, _ | .callback _, _ | .endPhase, _ | .threadFini _, _
  | .contextSwitch _ _, _ | .syscallEnter _, _ => isTrue trivial

/-- Where the process is, by its history. -/
inductive Interval (startFF : Bool) (s : State) : Prop
  | fastForward (inFF : s.inFastForward = true) (nff : s.ffiNFF = false)
      (turn : (s.history.length + offset startFF) % 4 = 0) (events : s.events = [])
      (entry : s.threads.count .ffiEntry = 0)
  | detailed (inFF : s.inFastForward = false) (nff : s.ffiNFF = true)
      (turn : (s.history.length + offset startFF) % 4 = 2)
      (events : s.events = [(s.ffiFFStartInstrs, s.ffiInstrsLimit - s.ffiInstrsDone)])
      (ffi : s.threads.count .ffi = 0) (entry : s.threads.count .ffiEntry = 0)
  | entering (inFF : s.inFastForward = true) (nff : s.ffiNFF = true)
      (turn : (s.history.length + offset startFF) % 4 = 3) (events : s.events = [])
      (ffi : s.threads.count .ffi = 0)

structure Inv (ffiPoints : List Nat) (startFF : Bool) (s : State) : Prop where
  limit : s.ffiInstrsLimit = upTo ffiPoints s.ffiPoint
  point : s.ffiPoint = s.history.count .advance
  alternates : Alternates startFF s.history
  starts : s.ffiPrevFFStartInstrs ≤ s.ffiFFStartInstrs ∧ s.ffiFFStartInstrs ≤ s.processInstrs
  executed : s.executed = s.ffiInstrsDone + uncounted s + held s + s.dropped
  single : s.threads.count .ffi + s.threads.count .ffiEntry ≤ 1
  interval : Interval startFF s

/-- An operation returns a state that meets `P`, or stops without a failed assertion. -/
def Fine (P : State → Prop) : Except Stop State → Prop
  | .ok s => P s
  | .error e => e ≠ .assertion

section

variable {ffiPoints : List Nat} {startFF : Bool} {s : State} {tid instrs p : Nat} {t t' x : Thread}
  {l : List Thread} {history : List Mark}

theorem upTo_succ (hp : ffiPoints[s.ffiPoint + 1]? = some p) :
    upTo ffiPoints (s.ffiPoint + 1) = upTo ffiPoints s.ffiPoint + p := by
  unfold upTo
  rw [List.take_add_one, hp, List.foldl_append]
  rfl

/-- The next mark is that of the turn. -/
theorem Alternates.append {k : Nat} (h : Alternates startFF history)
    (hturn : (history.length + offset startFF) % 4 = k) :
    Alternates startFF (history ++ [mark k]) := by
  intro n hn
  rw [List.length_append] at hn
  by_cases hlt : n < history.length
  · rw [List.getElem?_append_left hlt]
    exact h n hlt
  · obtain rfl : n = history.length := by
      have hone : [mark k].length = 1 := rfl
      omega
    have hmark : mark (history.length + offset startFF) = mark k := by
      unfold mark
      rw [hturn, show k % 4 = k by omega]
    rw [hmark]
    exact List.getElem?_concat_length

theorem count_set (ht : l[tid]? = some t) :
    (l.set tid t').count x + (if t = x then 1 else 0) = l.count x + if t' = x then 1 else 0 := by
  obtain ⟨htid, rfl⟩ := List.getElem?_eq_some_iff.mp ht
  have hpos : l[tid] = x → 0 < l.count x := fun heq =>
    List.count_pos_iff.mpr (heq ▸ List.getElem_mem htid)
  rw [List.count_set htid]
  simp only [beq_iff_eq]
  by_cases heq : l[tid] = x
  · have hpos := hpos heq
    rw [if_pos heq]
    omega
  · rw [if_neg heq]
    omega

theorem count_set_le : (l.set tid t').count x ≤ l.count x + if t' = x then 1 else 0 := by
  cases ht : l[tid]? with
  | none =>
    rw [List.set_eq_of_length_le (List.getElem?_eq_none_iff.mp ht)]
    exact Nat.le_add_right _ _
  | some t =>
    have hset : (l.set tid t').count x + _ = l.count x + _ := count_set ht
    omega

/-! ### Threads -/

/-- A change of the threads, of which one may go into fast-forward when none is in it. -/
theorem Inv.rethread (h : Inv ffiPoints startFF s) (threads : List Thread)
    (hsingle : threads.count .ffi + threads.count .ffiEntry ≤ 1)
    (hffi : threads.count .ffi ≤ s.threads.count .ffi ∨ s.inFastForward ∧ ¬s.ffiNFF)
    (hentry : threads.count .ffiEntry ≤ s.threads.count .ffiEntry ∨ s.inFastForward ∧ s.ffiNFF) :
    Inv ffiPoints startFF { s with threads := threads } := by
  refine ⟨h.limit, h.point, h.alternates, h.starts, h.executed, hsingle, ?_⟩
  cases h.interval with
  | fastForward inFF nff turn events entry =>
    refine .fastForward inFF nff turn events ?_
    obtain hle | ⟨-, hnff⟩ := hentry
    · exact Nat.le_zero.mp (hle.trans entry.le)
    · exact absurd (nff.symm.trans hnff) Bool.false_ne_true
  | detailed inFF nff turn events ffi entry =>
    have hout : ¬s.inFastForward := by rw [inFF]; exact Bool.false_ne_true
    refine .detailed inFF nff turn events ?_ ?_
    · exact Nat.le_zero.mp ((hffi.resolve_right fun hin => hout hin.1).trans ffi.le)
    · exact Nat.le_zero.mp ((hentry.resolve_right fun hin => hout hin.1).trans entry.le)
  | entering inFF nff turn events ffi =>
    refine .entering inFF nff turn events ?_
    exact Nat.le_zero.mp ((hffi.resolve_right fun hin => hin.2 nff).trans ffi.le)

theorem Inv.setThread (h : Inv ffiPoints startFF s) (ht : t ≠ .ffi ∧ t ≠ .ffiEntry) :
    Inv ffiPoints startFF (s.setThread tid t) := by
  have hffi : (s.threads.set tid t).count .ffi ≤ _ := count_set_le
  have hentry : (s.threads.set tid t).count .ffiEntry ≤ _ := count_set_le
  rw [if_neg ht.1] at hffi
  rw [if_neg ht.2] at hentry
  have hsingle := h.single
  exact h.rethread _ (by omega) (.inl hffi) (.inl hentry)

/-- A thread goes into fast-forward. -/
theorem Inv.enter (h : Inv ffiPoints startFF s) (hFF : s.inFastForward = true) (halone : Alone s)
    (threads : List Thread)
    (hcount : ∀ x, (x = .ffi ∨ x = .ffiEntry) →
      threads.count x ≤ s.threads.count x + if s.getFFPtrs = x then 1 else 0) :
    Inv ffiPoints startFF { s with threads := threads } := by
  have hffi := hcount .ffi (.inl rfl)
  have hentry := hcount .ffiEntry (.inr rfl)
  rw [List.count_eq_zero.mpr halone.1] at hffi
  rw [List.count_eq_zero.mpr halone.2] at hentry
  by_cases hnff : s.ffiNFF
  · have hptrs : s.getFFPtrs = .ffiEntry := if_pos hnff
    rw [hptrs, if_neg (by decide)] at hffi
    rw [hptrs, if_pos rfl] at hentry
    exact h.rethread threads (by omega) (.inl (by omega)) (.inr ⟨hFF, hnff⟩)
  · have hptrs : s.getFFPtrs = .ffi := if_neg hnff
    rw [hptrs, if_pos rfl] at hffi
    rw [hptrs, if_neg (by decide)] at hentry
    exact h.rethread threads (by omega) (.inr ⟨hFF, hnff⟩) (.inl (by omega))

/-- The thread is in fast-forward as the process is. -/
theorem Inv.ffi_interval (h : Inv ffiPoints startFF s) (ht : s.threads[tid]? = some .ffi) :
    s.inFastForward = true ∧ s.ffiNFF = false ∧ (s.history.length + offset startFF) % 4 = 0 ∧
      s.events = [] := by
  have hpos : 0 < s.threads.count .ffi := List.count_pos_iff.mpr (List.mem_of_getElem? ht)
  cases h.interval with
  | fastForward inFF nff turn events entry => exact ⟨inFF, nff, turn, events⟩
  | detailed inFF nff turn events ffi entry => omega
  | entering inFF nff turn events ffi => omega

theorem Inv.entry_interval (h : Inv ffiPoints startFF s) (ht : s.threads[tid]? = some .ffiEntry) :
    s.inFastForward = true ∧ s.ffiNFF = true ∧ (s.history.length + offset startFF) % 4 = 3 ∧
      s.events = [] := by
  have hpos : 0 < s.threads.count .ffiEntry := List.count_pos_iff.mpr (List.mem_of_getElem? ht)
  cases h.interval with
  | fastForward inFF nff turn events entry => omega
  | detailed inFF nff turn events ffi entry => omega
  | entering inFF nff turn events ffi => exact ⟨inFF, nff, turn, events⟩

/-! ### Basic blocks -/

/-- `FFIBasicBlock` in a fast-forward interval: it counts, and ends the interval at the point. -/
theorem Inv.ffiBasicBlock (h : Inv ffiPoints startFF s) (ht : s.threads[tid]? = some .ffi)
    (instrs : Nat) : Fine (Inv ffiPoints startFF) (s.ffiBasicBlock ffiPoints tid instrs) := by
  obtain ⟨hFF, hnff, hturn, hevents⟩ := h.ffi_interval ht
  have hsingle := h.single
  have hexecuted := h.executed
  have huncounted : uncounted s = s.processInstrs - s.ffiFFStartInstrs := by
    rw [uncounted, hnff, if_neg (by simp)]
  have hpos : 0 < s.threads.count .ffi := List.count_pos_iff.mpr (List.mem_of_getElem? ht)
  unfold State.ffiBasicBlock
  dsimp only
  split
  case isFalse hless =>
    refine ⟨h.limit, h.point, h.alternates, h.starts, ?_, hsingle,
      .fastForward hFF hnff hturn hevents (by show s.threads.count _ = 0; omega)⟩
    show s.executed + instrs = s.ffiInstrsDone + instrs + uncounted s + held s + s.dropped
    omega
  case isTrue hreach =>
    unfold State.ffiAdvance
    dsimp only
    cases hp : ffiPoints[s.ffiPoint + 1]? with
    | none => exact fun hstop => by cases hstop
    | some p =>
      have hffi : (s.threads.set tid .join).count .ffi + _ = _ := count_set ht
      have hentry : (s.threads.set tid .join).count .ffiEntry + _ = _ := count_set ht
      rw [if_pos rfl, if_neg (by decide)] at hffi
      rw [if_neg (by decide), if_neg (by decide)] at hentry
      show Fine _ (if s.inFastForward then _ else _)
      rw [if_pos hFF]
      show Fine _ (Except.bind (if s.inFastForward then _ else _) _)
      rw [if_pos hFF]
      show Fine _ (Except.map _ (if s.ffiInstrsDone + instrs < s.ffiInstrsLimit + p then _ else _))
      split
      case isFalse => exact fun hstop => by cases hstop
      case isTrue hless =>
        have hlength : (s.history ++ [Mark.advance]).length = s.history.length + 1 :=
          List.length_append
        have hadvance : Alternates startFF (s.history ++ [.advance]) := h.alternates.append hturn
        have hnext : ((s.history ++ [Mark.advance]).length + offset startFF) % 4 = 1 := by
          rw [hlength]
          omega
        have hexit : Alternates startFF (s.history ++ [.advance] ++ [.exit]) :=
          hadvance.append hnext
        refine ⟨?limit, ?point, hexit, h.starts, ?executed, ?single,
          .detailed rfl rfl ?turn ?events ?ffi ?entry⟩
        case limit =>
          show s.ffiInstrsLimit + p = _
          rw [h.limit]
          exact (upTo_succ hp).symm
        case point =>
          show s.ffiPoint + 1 = List.count _ (s.history ++ [.advance] ++ [.exit])
          rw [List.count_append, List.count_append, ← h.point]
          rfl
        case executed =>
          show s.executed + instrs = s.ffiInstrsDone + instrs +
            (s.processInstrs - s.ffiFFStartInstrs) + held s + s.dropped
          omega
        case single =>
          show List.count _ (s.threads.set tid .join) + List.count _ (s.threads.set tid .join) ≤ 1
          omega
        case turn =>
          show ((s.history ++ [Mark.advance] ++ [Mark.exit]).length + _) % 4 = 2
          rw [List.length_append, hlength]
          show (s.history.length + 1 + 1 + _) % 4 = 2
          omega
        case events =>
          show s.events ++ [_] = _
          rw [hevents]
          rfl
        case ffi =>
          show List.count _ (s.threads.set tid .join) = 0
          omega
        case entry =>
          show List.count _ (s.threads.set tid .join) = 0
          omega

/-- `FFIEntryBasicBlock`, by the only thread in fast-forward: it counts the detailed interval that
has ended. -/
theorem Inv.ffiEntryBasicBlock (h : Inv ffiPoints startFF s) (ht : s.threads[tid]? = some .ffiEntry)
    (instrs : Nat) : Fine (Inv ffiPoints startFF) (s.ffiEntryBasicBlock ffiPoints tid instrs) := by
  obtain ⟨hFF, hnff, hturn, hevents⟩ := h.entry_interval ht
  have hsingle := h.single
  have hexecuted := h.executed
  have hstarts := h.starts
  have huncounted : uncounted s = s.processInstrs - s.ffiPrevFFStartInstrs := by
    rw [uncounted, if_pos ⟨hFF, hnff⟩]
  unfold State.ffiEntryBasicBlock
  dsimp only
  unfold State.ffiAdvance
  dsimp only
  cases hp : ffiPoints[s.ffiPoint + 1]? with
  | none => exact fun hstop => by cases hstop
  | some p =>
    show Fine _ (if s.ffiNFF then _ else _)
    rw [if_pos hnff]
    have hffi : (s.threads.set tid .ffi).count .ffi + _ = _ := count_set ht
    have hentry : (s.threads.set tid .ffi).count .ffiEntry + _ = _ := count_set ht
    rw [if_neg (by decide), if_pos rfl] at hffi
    rw [if_pos rfl, if_neg (by decide)] at hentry
    refine Inv.ffiBasicBlock ?_ ?_ instrs
    · refine ⟨?limit, ?point, ?alternates, hstarts, ?executed, ?single,
        .fastForward hFF rfl ?turn hevents ?entry⟩
      case limit =>
        show s.ffiInstrsLimit + p = _
        rw [h.limit]
        exact (upTo_succ hp).symm
      case point =>
        show s.ffiPoint + 1 = List.count _ (s.history ++ [.advance])
        rw [List.count_append, ← h.point]
        rfl
      case alternates => exact h.alternates.append hturn
      case executed =>
        show s.executed = s.ffiInstrsDone + (s.ffiFFStartInstrs - s.ffiPrevFFStartInstrs) +
          (s.processInstrs - if s.inFastForward ∧ false = true then _ else s.ffiFFStartInstrs) +
            held s + s.dropped
        rw [if_neg fun hfalse => Bool.false_ne_true hfalse.2]
        omega
      case single =>
        show List.count _ (s.threads.set tid .ffi) + List.count _ (s.threads.set tid .ffi) ≤ 1
        omega
      case turn =>
        show ((s.history ++ [Mark.advance]).length + _) % 4 = 0
        rw [List.length_append]
        show (s.history.length + 1 + _) % 4 = 0
        omega
      case entry =>
        show List.count _ (s.threads.set tid .ffi) = 0
        omega
    · show (s.threads.set tid .ffi)[tid]? = some .ffi
      rw [List.getElem?_set_self (List.getElem?_eq_some_iff.mp ht).1]

theorem held_set {cores : List Core} {core : Core} (h : tid < cores.length ∨ core.held = 0) :
    ((cores.set tid core).map Core.held).sum + (cores.getD tid .simple).held =
      (cores.map Core.held).sum + core.held := by
  induction cores generalizing tid with
  | nil =>
    have hnone : core.held = 0 := h.resolve_left (Nat.not_lt_zero tid)
    rw [hnone]
    rfl
  | cons c cores ih =>
    cases tid with
    | zero =>
      show core.held + (cores.map Core.held).sum + c.held =
        c.held + (cores.map Core.held).sum + core.held
      omega
    | succ tid =>
      have hrest := ih (h.imp_left Nat.lt_of_succ_lt_succ)
      show c.held + ((cores.set tid core).map Core.held).sum + (cores.getD tid .simple).held =
        c.held + (cores.map Core.held).sum + core.held
      omega

/-- A core counts a block, or holds it and counts the one that it held. -/
theorem bbl_held (core : Core) (instrs : Nat) :
    (core.bbl instrs).1 + (core.bbl instrs).2.held = core.held + instrs := by
  cases core with
  | simple => exact Nat.add_comm instrs 0
  | ooo prevBbl => rfl

theorem held_fresh (isOoo : Bool) : (Core.fresh isOoo).held = 0 := by
  cases isOoo <;> rfl

/-- A basic block on a core. -/
theorem Inv.simulate (h : Inv ffiPoints startFF s) (tid instrs : Nat) :
    Inv ffiPoints startFF (s.simulate tid instrs) := by
  have hset : Inv ffiPoints startFF (s.setThread tid .core) := h.setThread (by decide)
  have hstarts := h.starts
  have hexecuted := h.executed
  have hbbl := bbl_held (s.core tid) instrs
  have hrange : tid < s.cores.length ∨ ((s.core tid).bbl instrs).2.held = 0 := by
    by_cases hlt : tid < s.cores.length
    · exact .inl hlt
    · right
      have hnone : s.core tid = .simple := by
        rw [State.core, List.getD_eq_getElem?_getD, List.getElem?_eq_none (Nat.le_of_not_lt hlt),
          Option.getD_none]
      rw [hnone]
      rfl
  have hheld : held (s.simulate tid instrs) + (s.core tid).held =
      held s + ((s.core tid).bbl instrs).2.held := held_set hrange
  refine ⟨hset.limit, hset.point, hset.alternates, ⟨hstarts.1, ?_⟩, ?_, hset.single, ?_⟩
  · exact hstarts.2.trans (Nat.le_add_right _ _)
  · have hsince :
        (if s.inFastForward ∧ s.ffiNFF then s.ffiPrevFFStartInstrs else s.ffiFFStartInstrs) ≤
          s.processInstrs := by
      split <;> omega
    show s.executed + instrs = s.ffiInstrsDone +
      (s.processInstrs + ((s.core tid).bbl instrs).1 -
        if s.inFastForward ∧ s.ffiNFF then s.ffiPrevFFStartInstrs else s.ffiFFStartInstrs) +
      held (s.simulate tid instrs) + s.dropped
    unfold uncounted at hexecuted
    omega
  · cases hset.interval with
    | fastForward inFF nff turn events entry => exact .fastForward inFF nff turn events entry
    | detailed inFF nff turn events ffi entry => exact .detailed inFF nff turn events ffi entry
    | entering inFF nff turn events ffi => exact .entering inFF nff turn events ffi

/-- The cores change, and the instructions that they hold or have dropped are as many as before. -/
theorem Inv.recore {cores : List Core} {dropped : Nat} (h : Inv ffiPoints startFF s)
    (hsame : (cores.map Core.held).sum + dropped = held s + s.dropped) :
    Inv ffiPoints startFF { s with cores := cores, dropped := dropped } := by
  have hexecuted := h.executed
  refine ⟨h.limit, h.point, h.alternates, h.starts, ?_, h.single, ?_⟩
  · show s.executed = s.ffiInstrsDone + uncounted s + (cores.map Core.held).sum + dropped
    omega
  · cases h.interval with
    | fastForward inFF nff turn events entry => exact .fastForward inFF nff turn events entry
    | detailed inFF nff turn events ffi entry => exact .detailed inFF nff turn events ffi entry
    | entering inFF nff turn events ffi => exact .entering inFF nff turn events ffi

theorem Inv.contextSwitch (h : Inv ffiPoints startFF s) (tid : Nat) (isOoo : Bool) :
    Inv ffiPoints startFF (s.contextSwitch tid isOoo) := by
  have hfresh := held_fresh isOoo
  have hheld : ((s.cores.set tid (.fresh isOoo)).map Core.held).sum + (s.core tid).held =
      held s + (Core.fresh isOoo).held := held_set (.inr hfresh)
  exact h.recore (by omega)

/-- The event is there in a detailed interval only, and enters fast-forward. -/
theorem Inv.callback (h : Inv ffiPoints startFF s) (i : Nat) :
    Fine (Inv ffiPoints startFF) (s.callback i) := by
  have hstarts := h.starts
  have hexecuted := h.executed
  unfold State.callback
  cases hev : s.events[i]? with
  | none => exact fun hstop => by cases hstop
  | some ev =>
    obtain ⟨startInstrs, target⟩ := ev
    dsimp only
    split
    case isFalse => exact h
    case isTrue hreach =>
      cases h.interval with
      | fastForward inFF nff turn events entry =>
        rw [events] at hev
        cases hev
      | entering inFF nff turn events ffi =>
        rw [events] at hev
        cases hev
      | detailed inFF nff turn events ffi entry =>
        have hout : ¬s.inFastForward := by rw [inFF]; exact Bool.false_ne_true
        rw [State.enterFastForward, if_neg hout]
        rw [uncounted, if_neg fun hin => hout hin.1] at hexecuted
        refine ⟨h.limit, ?point, ?alternates, ⟨hstarts.2, le_rfl⟩, ?executed, h.single,
          .entering rfl nff ?turn ?events ffi⟩
        case point =>
          show s.ffiPoint = List.count _ (s.history ++ [.enter])
          rw [List.count_append, ← h.point]
          rfl
        case alternates => exact h.alternates.append turn
        case executed =>
          show s.executed = s.ffiInstrsDone +
            (s.processInstrs - ite (true = true ∧ s.ffiNFF) _ _) + held s + s.dropped
          rw [if_pos ⟨rfl, nff⟩]
          exact hexecuted
        case turn =>
          show ((s.history ++ [Mark.enter]).length + _) % 4 = 3
          rw [List.length_append]
          show (s.history.length + 1 + _) % 4 = 3
          omega
        case events =>
          show s.events.eraseIdx i = []
          obtain ⟨hi, -⟩ := List.getElem?_eq_some_iff.mp hev
          rw [events] at hi ⊢
          obtain rfl : i = 0 := Nat.lt_one_iff.mp hi
          rfl

/-! ### Runs -/

theorem Inv.step {op : Op} (h : Inv ffiPoints startFF s) (hop : Allowed op s) :
    Fine (Inv ffiPoints startFF) (State.step ffiPoints op s) ∨
      State.step ffiPoints op s = .error .disabled := by
  cases op with
  | bbl tid instrs =>
    unfold State.step
    dsimp only
    split
    case h_1 => exact .inl (h.simulate tid instrs)
    case h_2 => exact .inl (h.simulate tid instrs)
    case h_3 ht => exact .inl (h.ffiBasicBlock ht instrs)
    case h_4 ht => exact .inl (h.ffiEntryBasicBlock ht instrs)
    case h_5 => exact .inr rfl
  | sync tid =>
    unfold State.step
    dsimp only
    split
    · exact .inl (h.setThread (by decide))
    · exact .inr rfl
  | callback i =>
    unfold State.step
    dsimp only
    split
    · exact .inl (h.callback i)
    · exact .inr rfl
  | endPhase =>
    unfold State.step
    dsimp only
    split
    · have hcount : ∀ x, (x = .ffi ∨ x = .ffiEntry) →
          (s.threads.map fun t => if t = .sync then .synced else t).count x =
            s.threads.count x := by
        intro x hx
        unfold List.count
        rw [List.countP_map]
        refine List.countP_congr fun t _ => ?_
        obtain rfl | rfl := hx <;> cases t <;> decide
      have hffi := hcount .ffi (.inl rfl)
      have hentry := hcount .ffiEntry (.inr rfl)
      have hsingle := h.single
      exact .inl (h.rethread _ (by omega) (.inl hffi.le) (.inl hentry.le))
    · exact .inr rfl
  | takeBarrier tid =>
    unfold State.step
    dsimp only
    split
    · left
      split
      case isTrue hFF => exact h.enter hFF (hop hFF) _ fun x _ => count_set_le
      case isFalse => exact h.setThread (by decide)
    · exact .inr rfl
  | threadStart isOoo =>
    left
    have hheld : ((s.cores ++ [Core.fresh isOoo]).map Core.held).sum = held s := by
      rw [List.map_append, List.sum_append, List.map_singleton, List.sum_singleton, held_fresh]
      rfl
    have hthreads : Inv ffiPoints startFF { s with
        threads := s.threads ++ [if s.inFastForward then s.getFFPtrs else .join] } := by
      split
      case isTrue hFF =>
        refine h.enter hFF (hop hFF) _ fun x _ => ?_
        rw [List.count_append, List.count_singleton]
        simp only [beq_iff_eq, le_refl]
      case isFalse =>
        have hcount : ∀ x, x ≠ .join →
            (s.threads ++ [Thread.join]).count x = s.threads.count x := by
          intro x hx
          rw [List.count_append, List.count_singleton, if_neg (by simpa using hx.symm),
            Nat.add_zero]
        have hffi := hcount .ffi (by decide)
        have hentry := hcount .ffiEntry (by decide)
        have hsingle := h.single
        exact h.rethread _ (by omega) (.inl hffi.le) (.inl hentry.le)
    exact hthreads.recore (congrArg (· + s.dropped) hheld)
  | threadFini tid => exact .inl (h.setThread (by decide))
  | contextSwitch tid isOoo =>
    unfold State.step
    dsimp only
    split
    · exact .inr rfl
    · exact .inl (h.contextSwitch tid isOoo)
  | syscallEnter tid =>
    unfold State.step
    dsimp only
    split
    · exact .inl (h.setThread (by decide))
    · exact .inr rfl
  | syscallExit tid =>
    left
    unfold State.step
    dsimp only
    split
    case isTrue hin => exact h.enter hin.2 (hop hin.2 hin.1) _ fun x _ => count_set_le
    case isFalse => exact h
  | roiBegin => exact hop.elim
  | roiEnd => exact hop.elim

theorem Inv.next {op : Op} {s' : State} (h : Inv ffiPoints startFF s) (hop : Allowed op s)
    (hs : next ffiPoints op s = some s') : Inv ffiPoints startFF s' := by
  have hstep := h.step hop
  unfold Ffi.next at hs
  cases hres : State.step ffiPoints op s with
  | error e =>
    rw [hres] at hs
    cases hs
  | ok s1 =>
    rw [hres] at hs hstep
    obtain rfl := Option.some.inj hs
    obtain hinv | hdisabled := hstep
    · exact hinv
    · cases hdisabled

theorem ffiInit_inv (hinit : ffiInit ffiPoints startFF = .ok s) : Inv ffiPoints startFF s := by
  unfold ffiInit at hinit
  split at hinit
  · cases hinit
  case h_2 point points =>
    dsimp only at hinit
    have hpoint : point = upTo (point :: points) 0 := (Nat.zero_add point).symm
    split at hinit
    case isTrue hstart =>
      subst hstart
      cases hinit
      exact ⟨hpoint, rfl, fun n hn => absurd hn (Nat.not_lt_zero n), ⟨le_rfl, le_rfl⟩, rfl,
        Nat.zero_le 1, .fastForward rfl rfl rfl rfl rfl⟩
    case isFalse hstart =>
      obtain rfl := Bool.eq_false_iff.mpr hstart
      unfold State.ffiTrackNFFInterval at hinit
      rw [if_neg Bool.false_ne_true] at hinit
      split at hinit
      · cases hinit
        exact ⟨hpoint, rfl, fun n hn => absurd hn (Nat.not_lt_zero n), ⟨le_rfl, le_rfl⟩, rfl,
          Nat.zero_le 1, .detailed rfl rfl rfl rfl rfl rfl⟩
      · cases hinit

end

/-! ### Cores that count at once -/

/-- No thread is going to run on an `OOOCore`. -/
def AtOnce : Op → Prop
  | .threadStart isOoo | .contextSwitch _ isOoo => isOoo = false
  | _ => True

instance : DecidablePred AtOnce
  | .threadStart isOoo | .contextSwitch _ isOoo => inferInstanceAs (Decidable (isOoo = false))
  | .bbl _ _ | .sync _ | .callback _ | .endPhase | .takeBarrier _ | .threadFini _ | .syscallEnter _
  | .syscallExit _ | .roiBegin | .roiEnd => isTrue trivial

section

variable {ffiPoints : List Nat} {s s' : State} {tid instrs : Nat}

/-! What runs outside the cores leaves them alone. -/

theorem ffiAdvance_cores (hs : s.ffiAdvance ffiPoints = .ok s') :
    s'.cores = s.cores ∧ s'.dropped = s.dropped := by
  unfold State.ffiAdvance at hs
  split at hs
  · cases hs
  · cases hs
    exact ⟨rfl, rfl⟩

theorem ffiTrackNFFInterval_cores (hs : s.ffiTrackNFFInterval = .ok s') :
    s'.cores = s.cores ∧ s'.dropped = s.dropped := by
  unfold State.ffiTrackNFFInterval at hs
  split at hs
  · cases hs
  · split at hs
    · cases hs
      exact ⟨rfl, rfl⟩
    · cases hs

theorem exitFastForward_cores (hs : s.exitFastForward = .ok s') :
    s'.cores = s.cores ∧ s'.dropped = s.dropped := by
  unfold State.exitFastForward at hs
  split at hs
  · cases hs
    exact ⟨rfl, rfl⟩
  · cases hs

theorem enterFastForward_cores (hs : s.enterFastForward = .ok s') :
    s'.cores = s.cores ∧ s'.dropped = s.dropped := by
  unfold State.enterFastForward at hs
  split at hs
  · cases hs
  · cases hs
    exact ⟨rfl, rfl⟩

theorem bind_eq_ok {α : Type} {x : Except Stop α} {f : α → Except Stop State}
    (h : x.bind f = .ok s) : ∃ a, x = .ok a ∧ f a = .ok s := by
  cases x with
  | error e => cases h
  | ok a => exact ⟨a, rfl, h⟩

theorem map_eq_ok {α : Type} {x : Except Stop α} {f : α → State} (h : x.map f = .ok s) :
    ∃ a, x = .ok a ∧ f a = s := by
  cases x with
  | error e => cases h
  | ok a => exact ⟨a, rfl, Except.ok.inj h⟩

theorem ffiBasicBlock_cores (hs : s.ffiBasicBlock ffiPoints tid instrs = .ok s') :
    s'.cores = s.cores ∧ s'.dropped = s.dropped := by
  unfold State.ffiBasicBlock at hs
  dsimp only at hs
  split at hs
  · obtain ⟨s1, hs1, hs⟩ := bind_eq_ok hs
    split at hs
    · obtain ⟨s2, hs2, hs⟩ := bind_eq_ok hs
      obtain ⟨s3, hs3, rfl⟩ := map_eq_ok hs
      have h1 := ffiAdvance_cores hs1
      have h2 := exitFastForward_cores hs2
      have h3 := ffiTrackNFFInterval_cores hs3
      exact ⟨h3.1.trans (h2.1.trans h1.1), h3.2.trans (h2.2.trans h1.2)⟩
    · cases hs
  · cases hs
    exact ⟨rfl, rfl⟩

theorem ffiEntryBasicBlock_cores (hs : s.ffiEntryBasicBlock ffiPoints tid instrs = .ok s') :
    s'.cores = s.cores ∧ s'.dropped = s.dropped := by
  unfold State.ffiEntryBasicBlock at hs
  dsimp only at hs
  obtain ⟨s1, hs1, hs⟩ := bind_eq_ok hs
  split at hs
  · have h1 := ffiAdvance_cores hs1
    have h2 := ffiBasicBlock_cores hs
    exact ⟨h2.1.trans h1.1, h2.2.trans h1.2⟩
  · cases hs

theorem callback_cores {i : Nat} (hs : s.callback i = .ok s') :
    s'.cores = s.cores ∧ s'.dropped = s.dropped := by
  unfold State.callback at hs
  split at hs
  · cases hs
  · split at hs
    · obtain ⟨s1, hs1, rfl⟩ := map_eq_ok hs
      have h1 := enterFastForward_cores hs1
      exact ⟨h1.1, h1.2⟩
    · cases hs
      exact ⟨rfl, rfl⟩

/-- The cores count at once, and so none has dropped a block. -/
structure Prompt (s : State) : Prop where
  simple : ∀ core ∈ s.cores, core = .simple
  dropped : s.dropped = 0

theorem Prompt.congr (h : Prompt s) (hcores : s'.cores = s.cores ∧ s'.dropped = s.dropped) :
    Prompt s' :=
  ⟨fun core hcore => h.simple core (hcores.1 ▸ hcore), hcores.2.trans h.dropped⟩

theorem Prompt.core (h : Prompt s) (tid : Nat) : s.core tid = .simple := by
  rw [State.core, List.getD_eq_getElem?_getD]
  cases hcore : s.cores[tid]? with
  | none => rfl
  | some core => exact h.simple core (List.mem_of_getElem? hcore)

theorem Prompt.set (h : Prompt s) : ∀ core ∈ s.cores.set tid .simple, core = .simple := by
  intro core hcore
  obtain hold | rfl := List.mem_or_eq_of_mem_set hcore
  · exact h.simple core hold
  · rfl

theorem Prompt.held (h : Prompt s) : held s = 0 := by
  refine List.sum_eq_zero_iff_forall_eq_nat.mpr fun n hn => ?_
  obtain ⟨core, hcore, rfl⟩ := List.mem_map.mp hn
  rw [h.simple core hcore]
  rfl

theorem Prompt.next {op : Op} (h : Prompt s) (hop : AtOnce op)
    (hs : next ffiPoints op s = some s') : Prompt s' := by
  have hs : State.step ffiPoints op s = .ok s' := by
    unfold Ffi.next at hs
    cases hstep : State.step ffiPoints op s with
    | error e =>
      rw [hstep] at hs
      cases hs
    | ok s1 =>
      rw [hstep] at hs
      rw [Option.some.inj hs]
  have hsimulate : ∀ tid instrs, Prompt (s.simulate tid instrs) := by
    intro tid instrs
    refine ⟨?_, h.dropped⟩
    show ∀ core ∈ s.cores.set tid ((s.core tid).bbl instrs).2, core = .simple
    rw [h.core]
    exact h.set
  cases op with
  | bbl tid instrs =>
    unfold State.step at hs
    dsimp only at hs
    split at hs
    · cases hs
      exact hsimulate tid instrs
    · cases hs
      exact hsimulate tid instrs
    · exact h.congr (ffiBasicBlock_cores hs)
    · exact h.congr (ffiEntryBasicBlock_cores hs)
    · cases hs
  | callback i =>
    unfold State.step at hs
    dsimp only at hs
    split at hs
    · exact h.congr (callback_cores hs)
    · cases hs
  | threadStart isOoo =>
    cases hs
    refine ⟨fun core hcore => ?_, h.dropped⟩
    obtain hold | hnew := List.mem_append.mp hcore
    · exact h.simple core hold
    · rw [List.mem_singleton.mp hnew, show isOoo = false from hop]
      rfl
  | contextSwitch tid isOoo =>
    unfold State.step at hs
    dsimp only at hs
    split at hs
    · cases hs
    · cases hs
      refine ⟨?_, ?_⟩
      · show ∀ core ∈ s.cores.set tid (.fresh isOoo), core = .simple
        rw [show isOoo = false from hop]
        exact h.set
      · show s.dropped + (s.core tid).held = 0
        rw [h.core, h.dropped]
        rfl
  | roiBegin =>
    unfold State.step at hs
    dsimp only at hs
    split at hs
    · exact h.congr (exitFastForward_cores hs)
    · cases hs
      exact h
  | roiEnd =>
    unfold State.step at hs
    dsimp only at hs
    split at hs
    · cases hs
      exact h
    · exact h.congr (enterFastForward_cores hs)
  | threadFini tid =>
    cases hs
    exact h.congr ⟨rfl, rfl⟩
  | syscallExit tid =>
    unfold State.step at hs
    dsimp only at hs
    split at hs <;> cases hs <;> exact h.congr ⟨rfl, rfl⟩
  | sync tid | endPhase | takeBarrier tid | syscallEnter tid =>
    unfold State.step at hs
    dsimp only at hs
    split at hs
    · cases hs
      exact h.congr ⟨rfl, rfl⟩
    · cases hs

theorem ffiInit_prompt {startFF : Bool} (hinit : ffiInit ffiPoints startFF = .ok s) :
    Prompt s := by
  unfold ffiInit at hinit
  split at hinit
  · cases hinit
  case h_2 point points =>
    have hstart : ∀ s' : State, s'.cores = [] ∧ s'.dropped = 0 → Prompt s' := fun s' hs' =>
      ⟨fun core hcore => absurd (hs'.1 ▸ hcore) List.not_mem_nil, hs'.2⟩
    dsimp only at hinit
    split at hinit
    · cases hinit
      exact hstart _ ⟨rfl, rfl⟩
    · exact hstart _ (ffiTrackNFFInterval_cores hinit)

end

/-- A fast-forward, a detailed interval, and another fast-forward. -/
def oneThread : List Op :=
  [.threadStart false, .bbl 0 12, .bbl 0 9, .sync 0, .callback 0, .endPhase, .takeBarrier 0,
    .bbl 0 1, .bbl 0 9]

/-- Two threads come from a detailed interval. -/
def twoThreads : List Op :=
  [.threadStart false, .threadStart false, .bbl 0 5, .bbl 1 6, .sync 0, .sync 1, .callback 0,
    .endPhase, .takeBarrier 0, .takeBarrier 1, .bbl 0 1]

/-- A thread loses its `OOOCore` at the end of a detailed interval. -/
def oooThread : List Op :=
  [.threadStart true, .bbl 0 12, .bbl 0 5, .sync 0, .contextSwitch 0 true, .callback 0, .endPhase,
    .takeBarrier 0, .bbl 0 1]

end Doppelganger.Procs.Ffi
