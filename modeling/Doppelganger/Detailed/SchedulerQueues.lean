import Doppelganger.Detailed.Scheduler
import Doppelganger.Lib.Run
import Mathlib.Data.List.Perm.Basic

/-! What the queues of a scheduler hold in any run of events and ticks: each read that waits, once,
and each write that was not issued, once.  The queues of writes stay as small as they should be
while no new write comes to full ones: only the write that fills them has an old one dropped. -/

namespace Doppelganger.Detailed

open Lib MemAccessType

namespace MemSchedulerDefault

variable {p : MemParam} {chnl : MemChannel} {s s' : MemSchedulerDefault} {ev : MemAccessEvent}
  {queue : List MemSchedQueueElem} {addr : UInt64} {chosen : Chosen} {idx : Nat}

/-! ### Events -/

def addrs (queue : List MemSchedQueueElem) : List UInt64 := queue.map Prod.snd

/-- The addresses over both queues of writes. -/
def writes (s : MemSchedulerDefault) : List UInt64 := addrs s.wrQueue ++ addrs s.wrDoneQueue

def hits (s : MemSchedulerDefault) (addr : UInt64) : Bool :=
  hasAddr s.wrQueue addr || hasAddr s.wrDoneQueue addr

theorem addrs_append (queue queue' : List MemSchedQueueElem) :
    addrs (queue ++ queue') = addrs queue ++ addrs queue' := List.map_append

theorem length_writes (s : MemSchedulerDefault) : s.writes.length = s.wrCount := by
  rw [writes, addrs, addrs, List.length_append, List.length_map, List.length_map, wrCount]

theorem hasAddr_iff : hasAddr queue addr = true ↔ addr ∈ addrs queue := by
  simp [hasAddr, addrs]

theorem hits_iff : s.hits addr = true ↔ addr ∈ s.writes := by
  rw [hits, Bool.or_eq_true, hasAddr_iff, hasAddr_iff, writes, List.mem_append]

theorem addrs_eraseAddr (h : hasAddr queue addr = true) :
    (addrs queue).Perm (addr :: addrs (eraseAddr queue addr)) := by
  obtain ⟨e, he, heq⟩ := List.any_eq_true.mp h
  obtain ⟨found, before, after, -, hfound, rfl, herase⟩ :=
    List.exists_of_eraseP (p := fun e => e.2 == addr) he heq
  obtain rfl := beq_iff_eq.mp hfound
  rw [eraseAddr, herase, addrs, addrs, List.map_append, List.map_append, List.map_cons]
  exact List.perm_middle

theorem checkSetEvent_snd (s : MemSchedulerDefault) (ev : MemAccessEvent) :
    (s.checkSetEvent ev).2 = s.hits ev.addr := by
  unfold checkSetEvent hits
  cases hasAddr s.wrQueue ev.addr <;> cases hasAddr s.wrDoneQueue ev.addr <;> rfl

/-- An event that hits moves a write at most, and a write to the queue of those to be issued. -/
structure Moved (ev : MemAccessEvent) (s s' : MemSchedulerDefault) : Prop where
  rdQueue : s'.rdQueue = s.rdQueue
  size : s'.wrQueueSize = s.wrQueueSize
  writes : s'.writes.Perm s.writes
  kept : ∀ addr ∈ addrs s.wrQueue, addr ∈ addrs s'.wrQueue
  queued : ev.type = WRITE → ev.addr ∈ addrs s'.wrQueue

theorem checkSetEvent_hit (h : s.hits ev.addr = true) : Moved ev s (s.checkSetEvent ev).1 := by
  have hlast (queue : List MemSchedQueueElem) :
      (addrs (queue ++ [(none, ev.addr)])).Perm (ev.addr :: addrs queue) := by
    rw [addrs_append]
    exact List.perm_append_singleton _ _
  unfold checkSetEvent
  by_cases hwr : hasAddr s.wrQueue ev.addr = true
  case pos =>
    rw [if_pos hwr]
    cases htype : ev.type with
    | READ => exact ⟨rfl, rfl, .refl _, fun _ h => h, by simp [htype]⟩
    | WRITE =>
      have hperm : (addrs (eraseAddr s.wrQueue ev.addr ++ [(none, ev.addr)])).Perm
          (addrs s.wrQueue) := (hlast _).trans (addrs_eraseAddr hwr).symm
      exact ⟨rfl, rfl, hperm.append_right _, fun addr haddr => hperm.mem_iff.mpr haddr,
        fun _ => (hlast _).mem_iff.mpr List.mem_cons_self⟩
  case neg =>
    have hdone : hasAddr s.wrDoneQueue ev.addr = true := by
      rcases Bool.or_eq_true_iff.mp h with h | h
      · exact absurd h hwr
      · exact h
    have herase := addrs_eraseAddr hdone
    rw [if_neg hwr, if_pos hdone]
    cases htype : ev.type with
    | READ =>
      have hperm := (hlast (eraseAddr s.wrDoneQueue ev.addr)).trans herase.symm
      exact ⟨rfl, rfl, hperm.append_left _, fun _ h => h, by simp [htype]⟩
    | WRITE =>
      have hmoved : (addrs (s.wrQueue ++ [(none, ev.addr)]) ++
          addrs (eraseAddr s.wrDoneQueue ev.addr)).Perm s.writes :=
        ((hlast _).append_right _).trans
          (List.perm_middle.symm.trans (herase.symm.append_left _))
      exact ⟨rfl, rfl, hmoved,
        fun addr haddr => (hlast _).mem_iff.mpr (List.mem_cons_of_mem _ haddr),
        fun _ => (hlast _).mem_iff.mpr List.mem_cons_self⟩

theorem checkSetEvent_miss (h : s.hits ev.addr = false) :
    (s.checkSetEvent ev).1 = match ev.type with
      | READ => { s with rdQueue := s.rdQueue ++ [(some ev, ev.addr)] }
      | WRITE => checkOverflow { s with wrQueue := s.wrQueue ++ [(none, ev.addr)] } := by
  obtain ⟨hwr, hdone⟩ := Bool.or_eq_false_iff.mp h
  cases htype : ev.type with
  | READ => simp [checkSetEvent, hwr, hdone, htype]
  | WRITE => simp [checkSetEvent, hwr, hdone, htype]

theorem checkOverflow_rdQueue (s : MemSchedulerDefault) : s.checkOverflow.rdQueue = s.rdQueue := by
  unfold checkOverflow
  split <;> rfl

theorem checkOverflow_wrQueue (s : MemSchedulerDefault) : s.checkOverflow.wrQueue = s.wrQueue := by
  unfold checkOverflow
  split <;> rfl

theorem checkOverflow_size (s : MemSchedulerDefault) :
    s.checkOverflow.wrQueueSize = s.wrQueueSize := by
  unfold checkOverflow
  split <;> rfl

theorem checkOverflow_writes (s : MemSchedulerDefault) :
    s.checkOverflow.writes.Sublist s.writes := by
  unfold checkOverflow
  split
  case isTrue =>
    exact ((List.tail_sublist _).map _).append_left _
  case isFalse => exact List.Sublist.refl _

/-- The check holds a count to the size only when it is not above it yet. -/
theorem checkOverflow_bounded (s : MemSchedulerDefault) :
    s.checkOverflow.wrCount ≤ s.wrQueueSize.toNat ↔ s.wrCount ≤ s.wrQueueSize.toNat := by
  unfold checkOverflow
  split
  case isTrue hfull =>
    refine iff_of_true ?_ hfull.le
    rw [← hfull, wrCount, wrCount, List.length_tail]
    exact Nat.add_le_add_left (Nat.sub_le _ _) _
  case isFalse => exact Iff.rfl

/-! ### Choices -/

/-- What `GetEvent` does to the queues. -/
inductive Served (s s' : MemSchedulerDefault) : Option Chosen → Prop
  | idle (rd : s'.rdQueue = s.rdQueue) (wr : s'.wrQueue = s.wrQueue)
      (done : s'.wrDoneQueue = s.wrDoneQueue) : Served s s' none
  | read (idx : Nat) (ev : MemAccessEvent) (addr : UInt64)
      (found : s.rdQueue[idx]? = some (some ev, addr)) (rd : s'.rdQueue = s.rdQueue.eraseIdx idx)
      (wr : s'.wrQueue = s.wrQueue) (done : s'.wrDoneQueue = s.wrDoneQueue) :
      Served s s' (some (some ev, ev.addr, ev.type))
  | write (idx : Nat) (ev : Option MemAccessEvent) (addr : UInt64)
      (found : s.wrQueue[idx]? = some (ev, addr)) (rd : s'.rdQueue = s.rdQueue)
      (wr : s'.wrQueue = s.wrQueue.eraseIdx idx)
      (done : s'.wrDoneQueue = s.wrDoneQueue ++ [(none, addr)]) :
      Served s s' (some (none, addr, WRITE))

variable {got : Option Chosen}

theorem getRead_cases (h : s.getRead p chnl = some (s', got)) :
    s'.wrQueueSize = s.wrQueueSize ∧ Served s s' got ∧ (got = none → s' = s) := by
  obtain ⟨best, -, h⟩ := Option.bind_eq_some_iff.mp h
  cases best with
  | none =>
    obtain ⟨rfl, rfl⟩ := Prod.mk.inj (Option.some.inj h)
    exact ⟨rfl, .idle rfl rfl rfl, fun _ => rfl⟩
  | some idx =>
    obtain ⟨ev, hev, h⟩ := Option.map_eq_some_iff.mp h
    obtain ⟨⟨found, addr⟩, hfound, rfl⟩ := Option.bind_eq_some_iff.mp hev
    obtain ⟨rfl, rfl⟩ := Prod.mk.inj h
    exact ⟨rfl, .read idx ev addr hfound rfl rfl rfl, nofun⟩

theorem getWrite_cases (h : s.getWrite p chnl = some (s', got)) :
    s'.wrQueueSize = s.wrQueueSize ∧ Served s s' got := by
  obtain ⟨best, -, h⟩ := Option.bind_eq_some_iff.mp h
  cases best with
  | none =>
    obtain ⟨rfl, rfl⟩ := Prod.mk.inj (Option.some.inj h)
    exact ⟨rfl, .idle rfl rfl rfl⟩
  | some idx =>
    obtain ⟨⟨ev, addr⟩, hfound, h⟩ := Option.map_eq_some_iff.mp h
    obtain ⟨rfl, rfl⟩ := Prod.mk.inj h
    exact ⟨rfl, .write idx ev addr hfound rfl rfl rfl⟩

theorem checkPriority_eq (s : MemSchedulerDefault) :
    ∃ type, s.checkPriority = { s with prioritizedAccessType := type } := by
  unfold checkPriority
  split
  · exact ⟨WRITE, rfl⟩
  · split
    · exact ⟨READ, rfl⟩
    · exact ⟨s.prioritizedAccessType, rfl⟩

theorem getEvent_cases (h : s.getEvent p chnl = some (s', got)) :
    s'.wrQueueSize = s.wrQueueSize ∧ Served s s' got := by
  obtain ⟨type, hpriority⟩ := s.checkPriority_eq
  have hsame {s' : MemSchedulerDefault}
      (h : Served { s with prioritizedAccessType := type } s' got) : Served s s' got := by
    cases h with
    | idle rd wr done => exact .idle rd wr done
    | read idx ev addr found rd wr done => exact .read idx ev addr found rd wr done
    | write idx ev addr found rd wr done => exact .write idx ev addr found rd wr done
  unfold getEvent at h
  rw [hpriority] at h
  cases type with
  | READ =>
    obtain ⟨⟨s1, got1⟩, hread, h⟩ := Option.bind_eq_some_iff.mp h
    obtain ⟨hsize, hserved, hnone⟩ := getRead_cases hread
    cases got1 with
    | some chosen =>
      obtain ⟨rfl, rfl⟩ := Prod.mk.inj (Option.some.inj h)
      exact ⟨hsize, hsame hserved⟩
    | none =>
      obtain rfl := hnone rfl
      obtain ⟨hsize, hserved⟩ := getWrite_cases h
      exact ⟨hsize, hsame hserved⟩
  | WRITE =>
    obtain ⟨hsize, hserved⟩ := getWrite_cases h
    exact ⟨hsize, hsame hserved⟩

/-- The element at a place of a queue, and those that stay when it is erased. -/
theorem addrs_eraseIdx {e : MemSchedQueueElem} (h : queue[idx]? = some e) :
    (addrs queue).Perm (e.2 :: addrs (queue.eraseIdx idx)) := by
  obtain ⟨hlt, rfl⟩ := List.getElem?_eq_some_iff.mp h
  exact (List.getElem_cons_eraseIdx_perm hlt).symm.map Prod.snd

end MemSchedulerDefault

/-! ### Runs -/

open MemSchedulerDefault

/-- A scheduler, the number of events so far, the reads that wait and the addresses whose last write
was not issued yet. -/
structure Scheduling where
  sched : MemSchedulerDefault
  count : Nat
  held : List MemAccessEvent
  unissued : List UInt64

namespace Scheduling

/-- An event comes, or `GetEvent` is called with the channel as it is then. -/
inductive Op
  | event (type : MemAccessType) (addr : UInt64) (cycle : Nat)
  | tick (chnl : MemChannel)

def init (p : MemParam) : Scheduling := ⟨.init p, 0, [], []⟩

/-- What `enqueue` does with the event. -/
def enqueue (type : MemAccessType) (addr : UInt64) (cycle : Nat) (s : Scheduling) : Scheduling :=
  let ev : MemAccessEvent := ⟨s.count, type, addr, cycle⟩
  let checked := s.sched.checkSetEvent ev
  { sched := checked.1
    count := s.count + 1
    held := if type = READ ∧ checked.2 = false then s.held ++ [ev] else s.held
    unissued := if type = WRITE then addr :: s.unissued else s.unissued }

/-- What `TickScheduler` does with the request that was chosen. -/
def issue (sched : MemSchedulerDefault) (s : Scheduling) : Option Chosen → Scheduling
  | none => { s with sched }
  | some (ev, addr, type) => { s with
      sched
      held := if type = READ then ev.elim s.held s.held.erase else s.held
      unissued := if type = WRITE then s.unissued.filter fun a => a ≠ addr else s.unissued }

def step (p : MemParam) : Op → Scheduling → Option Scheduling
  | .event type addr cycle, s => some (s.enqueue type addr cycle)
  | .tick chnl, s => (s.sched.getEvent p chnl).map fun (sched, got) => s.issue sched got

/-- Each read that is held is queued once, each address is written in one place, and what was not
issued is still to be written. -/
structure Queued (s : Scheduling) : Prop where
  held : ∀ ev ∈ s.held, (s.sched.rdQueue.map Prod.fst).count (some ev) = 1
  once : s.sched.writes.Nodup
  unissued : ∀ addr ∈ s.unissued, addr ∈ addrs s.sched.wrQueue

def Bounded (s : Scheduling) : Prop := s.sched.wrCount ≤ s.sched.wrQueueSize.toNat

/-- A write to an address that neither queue has comes to queues that are not full. -/
def RoomForWrite : Op → Scheduling → Prop
  | .event WRITE addr _, s => s.sched.hits addr = true ∨ s.sched.wrCount < s.sched.wrQueueSize.toNat
  | _, _ => True

structure Inv (s : Scheduling) : Prop where
  reads : s.sched.rdQueue = s.held.map fun ev => (some ev, ev.addr)
  type : ∀ ev ∈ s.held, ev.type = READ
  fresh : ∀ ev ∈ s.held, ev.id < s.count
  held : s.held.Nodup
  once : s.sched.writes.Nodup
  unissued : ∀ addr ∈ s.unissued, addr ∈ addrs s.sched.wrQueue

variable {p : MemParam} {s s' : Scheduling}

theorem init_inv : Inv (init p) := by
  refine ⟨rfl, ?_, ?_, .nil, .nil, ?_⟩ <;> simp [init]

theorem Inv.queued (h : Inv s) : Queued s := by
  refine ⟨fun ev hev => ?_, h.once, h.unissued⟩
  have hreads : s.sched.rdQueue.map Prod.fst = s.held.map some := by
    rw [h.reads, List.map_map]
    rfl
  rw [hreads]
  exact List.count_eq_one_of_mem (h.held.map (Option.some_injective _)) (List.mem_map_of_mem hev)

theorem enqueue_hit (h : Inv s) (type : MemAccessType) {addr : UInt64} (cycle : Nat)
    (hhit : s.sched.hits addr = true) :
    Inv (s.enqueue type addr cycle) ∧ (Bounded (s.enqueue type addr cycle) ↔ Bounded s) := by
  have hmoved : Moved ⟨s.count, type, addr, cycle⟩ _ _ := checkSetEvent_hit hhit
  have hheld : (s.enqueue type addr cycle).held = s.held :=
    if_neg fun h => by simp [checkSetEvent_snd, hhit] at h
  constructor
  case left =>
    constructor
    case reads => rw [hheld]; exact hmoved.rdQueue.trans h.reads
    case type => rw [hheld]; exact h.type
    case fresh => rw [hheld]; exact fun ev hev => Nat.lt_succ_of_lt (h.fresh ev hev)
    case held => rw [hheld]; exact h.held
    case once => exact hmoved.writes.nodup_iff.mpr h.once
    case unissued =>
      intro a ha
      cases type with
      | READ => exact hmoved.kept a (h.unissued a ha)
      | WRITE =>
        rcases List.mem_cons.mp ha with rfl | ha
        · exact hmoved.queued rfl
        · exact hmoved.kept a (h.unissued a ha)
  case right =>
    have hcount := hmoved.writes.length_eq
    rw [length_writes, length_writes] at hcount
    change _ ≤ _ ↔ _ ≤ _
    rw [← hmoved.size, ← hcount]
    exact Iff.rfl

/-- A read that misses waits behind the others. -/
theorem enqueue_read (h : Inv s) {addr : UInt64} (cycle : Nat)
    (hmiss : s.sched.hits addr = false) :
    Inv (s.enqueue READ addr cycle) ∧ (Bounded (s.enqueue READ addr cycle) ↔ Bounded s) := by
  let ev : MemAccessEvent := ⟨s.count, READ, addr, cycle⟩
  have hsched : (s.sched.checkSetEvent ev).1 = _ := checkSetEvent_miss hmiss
  have henqueue : s.enqueue READ addr cycle =
      ⟨{ s.sched with rdQueue := s.sched.rdQueue ++ [(some ev, addr)] }, s.count + 1,
        s.held ++ [ev], s.unissued⟩ := by
    have hsnd : (s.sched.checkSetEvent ev).2 = false := (checkSetEvent_snd _ _).trans hmiss
    simp only [enqueue, ev, hsched, hsnd]
    rfl
  rw [henqueue]
  refine ⟨?_, Iff.rfl⟩
  have hmem : ∀ e ∈ s.held ++ [ev], e ∈ s.held ∨ e = ev := by simp
  constructor
  case reads =>
    change s.sched.rdQueue ++ _ = _
    rw [h.reads, List.map_append]
    rfl
  case type =>
    intro e he
    rcases hmem e he with he | rfl
    · exact h.type e he
    · rfl
  case fresh =>
    intro e he
    rcases hmem e he with he | rfl
    · exact Nat.lt_succ_of_lt (h.fresh e he)
    · exact Nat.lt_succ_self _
  case held =>
    refine List.nodup_append.mpr ⟨h.held, List.nodup_singleton _, fun e he e' he' heq => ?_⟩
    obtain rfl := List.mem_singleton.mp he'
    have : e.id < s.count := h.fresh e he
    rw [heq] at this
    exact Nat.lt_irrefl _ this
  case once => exact h.once
  case unissued => exact h.unissued

/-- A write that misses is queued, and at most a write that is done is forgotten. -/
theorem enqueue_write (h : Inv s) {addr : UInt64} (cycle : Nat)
    (hmiss : s.sched.hits addr = false) :
    Inv (s.enqueue WRITE addr cycle) ∧
      (Bounded (s.enqueue WRITE addr cycle) ↔ s.sched.wrCount < s.sched.wrQueueSize.toNat) := by
  let sched : MemSchedulerDefault :=
    { s.sched with wrQueue := s.sched.wrQueue ++ [(none, addr)] }
  have hsched : (s.sched.checkSetEvent ⟨s.count, WRITE, addr, cycle⟩).1 = sched.checkOverflow :=
    checkSetEvent_miss hmiss
  have henqueue : s.enqueue WRITE addr cycle =
      ⟨sched.checkOverflow, s.count + 1, s.held, addr :: s.unissued⟩ := by
    rw [enqueue, hsched]
    rfl
  have hwrites : sched.writes.Perm (addr :: s.sched.writes) := by
    change (addrs (s.sched.wrQueue ++ [(none, addr)]) ++ _).Perm _
    rw [addrs_append]
    exact (List.perm_append_singleton _ _).append_right _
  rw [henqueue]
  constructor
  case left =>
    constructor
    case reads => exact sched.checkOverflow_rdQueue.trans h.reads
    case type => exact h.type
    case fresh => exact fun ev hev => Nat.lt_succ_of_lt (h.fresh ev hev)
    case held => exact h.held
    case once =>
      refine List.Nodup.sublist sched.checkOverflow_writes (hwrites.nodup_iff.mpr ?_)
      exact List.nodup_cons.mpr ⟨fun hmem => by simp [hits_iff.mpr hmem] at hmiss, h.once⟩
    case unissued =>
      intro a ha
      have hqueue : addrs sched.checkOverflow.wrQueue = addrs s.sched.wrQueue ++ [addr] := by
        rw [checkOverflow_wrQueue, addrs_append]
        rfl
      rw [hqueue, List.mem_append, List.mem_singleton]
      rcases List.mem_cons.mp ha with rfl | ha
      · exact .inr rfl
      · exact .inl (h.unissued a ha)
  case right =>
    have hcount := hwrites.length_eq
    rw [List.length_cons, length_writes, length_writes] at hcount
    change sched.checkOverflow.wrCount ≤ sched.checkOverflow.wrQueueSize.toNat ↔ _
    rw [checkOverflow_size, checkOverflow_bounded, hcount]
    exact Iff.rfl

theorem enqueue_inv (h : Inv s) (type : MemAccessType) (addr : UInt64) (cycle : Nat) :
    Inv (s.enqueue type addr cycle) ∧ (Bounded s →
      (Bounded (s.enqueue type addr cycle) ↔ RoomForWrite (.event type addr cycle) s)) := by
  by_cases hhit : s.sched.hits addr = true
  case pos =>
    obtain ⟨hInv, hbounded⟩ := enqueue_hit h type cycle hhit
    refine ⟨hInv, fun hb => iff_of_true (hbounded.mpr hb) ?_⟩
    cases type with
    | READ => trivial
    | WRITE => exact .inl hhit
  case neg =>
    have hmiss := Bool.eq_false_iff.mpr hhit
    cases type with
    | READ =>
      obtain ⟨hInv, hbounded⟩ := enqueue_read h cycle hmiss
      exact ⟨hInv, fun hb => iff_of_true (hbounded.mpr hb) trivial⟩
    | WRITE =>
      obtain ⟨hInv, hbounded⟩ := enqueue_write h cycle hmiss
      exact ⟨hInv, fun _ => hbounded.trans (or_iff_right hhit).symm⟩

/-- The read that is returned was held, and no longer is. -/
theorem held_eraseIdx (h : Inv s) {idx : Nat} {ev : MemAccessEvent} {addr : UInt64}
    (hfound : s.sched.rdQueue[idx]? = some (some ev, addr)) :
    ev ∈ s.held ∧
      s.sched.rdQueue.eraseIdx idx = (s.held.erase ev).map fun ev => (some ev, ev.addr) := by
  rw [h.reads, List.getElem?_map] at hfound
  obtain ⟨e, he, heq⟩ := Option.map_eq_some_iff.mp hfound
  obtain rfl := Option.some.inj (Prod.mk.inj heq).1
  obtain ⟨hlt, rfl⟩ := List.getElem?_eq_some_iff.mp he
  refine ⟨List.getElem_mem hlt, ?_⟩
  rw [h.reads, List.eraseIdx_map, h.held.erase_getElem idx hlt]

theorem issue_inv (h : Inv s) {sched : MemSchedulerDefault} {got : Option Chosen}
    (hsize : sched.wrQueueSize = s.sched.wrQueueSize) (hserved : Served s.sched sched got) :
    Inv (s.issue sched got) ∧ (Bounded s → Bounded (s.issue sched got)) := by
  have hbounded (hwrites : sched.writes.Perm s.sched.writes) (hb : Bounded s) :
      sched.wrCount ≤ sched.wrQueueSize.toNat := by
    have hcount := hwrites.length_eq
    rw [length_writes, length_writes] at hcount
    rw [hcount, hsize]
    exact hb
  cases hserved with
  | idle rd wr done =>
    have hwrites : sched.writes = s.sched.writes := by rw [writes, writes, wr, done]
    refine ⟨⟨rd.trans h.reads, h.type, h.fresh, h.held, ?_, ?_⟩, hbounded (hwrites ▸ .refl _)⟩
    · exact hwrites.symm ▸ h.once
    · change ∀ addr ∈ s.unissued, addr ∈ addrs sched.wrQueue
      rw [wr]
      exact h.unissued
  | read idx ev addr found rd wr done =>
    obtain ⟨hheld, herase⟩ := held_eraseIdx h found
    have hissue : s.issue sched (some (some ev, ev.addr, ev.type)) =
        { s with sched, held := s.held.erase ev } := by
      simp [issue, h.type ev hheld]
    have hwrites : sched.writes = s.sched.writes := by rw [writes, writes, wr, done]
    have hmem : ∀ e ∈ s.held.erase ev, e ∈ s.held := fun e he => List.mem_of_mem_erase he
    rw [hissue]
    refine ⟨⟨rd.trans herase, fun e he => h.type e (hmem e he), fun e he => h.fresh e (hmem e he),
      h.held.erase ev, ?_, ?_⟩, hbounded (hwrites ▸ .refl _)⟩
    · exact hwrites.symm ▸ h.once
    · change ∀ addr ∈ s.unissued, addr ∈ addrs sched.wrQueue
      rw [wr]
      exact h.unissued
  | write idx ev addr found rd wr done =>
    have hperm : (addrs s.sched.wrQueue).Perm (addr :: addrs sched.wrQueue) :=
      wr ▸ addrs_eraseIdx found
    have hwrites : sched.writes.Perm s.sched.writes := by
      rw [writes, writes, done, addrs_append]
      refine (((List.perm_append_singleton addr _).append_left _).trans ?_)
      exact List.perm_middle.trans (hperm.symm.append_right _)
    refine ⟨⟨rd.trans h.reads, h.type, h.fresh, h.held, ?_, fun a ha => ?_⟩, hbounded hwrites⟩
    · exact hwrites.nodup_iff.mpr h.once
    · obtain ⟨ha, hne⟩ := List.mem_filter.mp ha
      rcases List.mem_cons.mp (hperm.mem_iff.mp (h.unissued a ha)) with heq | hmem
      · exact absurd heq (of_decide_eq_true hne)
      · exact hmem

theorem step_spec (h : Inv s) (op : Op) : (step p op s = none ∧ RoomForWrite op s) ∨
    ∃ s', step p op s = some s' ∧ Inv s' ∧ (Bounded s → (Bounded s' ↔ RoomForWrite op s)) := by
  cases op with
  | event type addr cycle => exact .inr ⟨_, rfl, enqueue_inv h type addr cycle⟩
  | tick chnl =>
    cases hgot : s.sched.getEvent p chnl with
    | none => exact .inl ⟨by rw [step, hgot]; rfl, trivial⟩
    | some r =>
      obtain ⟨hsize, hserved⟩ := getEvent_cases hgot
      obtain ⟨hInv, hbounded⟩ := issue_inv h hsize hserved
      exact .inr ⟨_, by rw [step, hgot]; rfl, hInv, fun hb => iff_of_true (hbounded hb) trivial⟩

theorem init_bounded : Bounded (init p) := Nat.zero_le _

/-- Reads and writes are never lost or doubled, and the queues of writes keep their size as long as
they are not full when a new write comes. -/
theorem queues_hold_iff (p : MemParam) (ops : List Op) :
    Always (step p) Queued ops (init p) ∧
    (Always (step p) Bounded ops (init p) ↔ Along (step p) RoomForWrite ops (init p)) := by
  have hany : Along (step p) (fun _ _ => True) ops (init p) :=
    along_of_forall (fun _ _ => trivial) ops _
  constructor
  case left =>
    refine (always_iff_along (fun op s (h : Inv s) _ _ => ?_) ops init_inv init_inv.queued
      hany).mpr hany
    obtain ⟨hnone, -⟩ | ⟨s', hs', hInv, -⟩ := step_spec h op
    · exact .inl ⟨hnone, trivial⟩
    · exact .inr ⟨s', hs', hInv, iff_of_true hInv.queued trivial⟩
  case right =>
    refine always_iff_along (fun op s (h : Inv s) hb _ => ?_) ops init_inv init_bounded hany
    obtain hnone | ⟨s', hs', hInv, hiff⟩ := step_spec h op
    · exact .inl hnone
    · exact .inr ⟨s', hs', hInv, hiff hb⟩

/-- Four writes fill a scheduler for four, and nothing is done that could be dropped. -/
theorem queues_not_bounded :
    ¬ Always (step { MemParam.defaults with schedulerQueueCount := 4 }) Bounded
      [.event WRITE 0 10, .event WRITE 2 11, .event WRITE 4 12, .event WRITE 6 13,
        .event WRITE 8 14]
      (init { MemParam.defaults with schedulerQueueCount := 4 }) := by
  intro hall
  exact absurd (hall.last rfl) (by unfold Bounded; decide)

end Scheduling

end Doppelganger.Detailed
