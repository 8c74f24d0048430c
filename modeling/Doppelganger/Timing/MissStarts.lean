import Doppelganger.Weave.Storage

/-! The start of a miss, read after it is done.  A `MissStartEvent` stores the cycle at which it is
simulated in itself; the `MissResponseEvent` and the `MissWritebackEvent` of the miss have a pointer
to it and read that cycle when they are simulated, when the `MissStartEvent` was already freed.  The
model follows the word in memory: a constructor overwrites the bytes of its object, and an event
stores only into itself. -/

namespace Doppelganger.Timing

open Function List Lib Weave EventHeap

/-- `sizeof` of `MissStartEvent`, `MissResponseEvent` and `MissWritebackEvent`. -/
abbrev missSize : Nat := 96

/-- The offset of `startCycle` in a `MissStartEvent`. -/
abbrev startOffset : Nat := 88

/-- The events, the words that were stored in memory and not overwritten since, and of each response
and writeback its pointer `mse`.  The ghosts are the event that `mse` pointed to and the cycle that
each `MissStartEvent` stored. -/
structure MissHeap (ι : Type*) where
  heap : EventHeap ι
  words : Nat → Option Nat
  mse : ι → Option (ι × Nat)
  started : ι → Option Nat

inductive MissOp (ι : Type*)
  | heap (op : HeapOp ι)
  | reader (e m : ι) (fresh : Nat)
  | start (m : ι) (cycle : Nat)

namespace MissHeap

variable {ι : Type*} [DecidableEq ι]

def init (fresh : Nat) : MissHeap ι := ⟨.init fresh, fun _ => none, fun _ => none, fun _ => none⟩

/-- The object has a byte of the eight from `p` on. -/
def Covers (o : Obj) (p : Nat) : Prop := o.addr < p + 8 ∧ p < o.addr + o.size

instance (o : Obj) (p : Nat) : Decidable (Covers o p) := inferInstanceAs (Decidable (_ ∧ _))

/-- The objects that an operation of the heap allocated. -/
def added (h h1 : EventHeap ι) : List (Name ι × Obj) := h1.live.take
    (h1.live.length - h.live.length)

def overwrite (news : List (Name ι × Obj)) (words : Nat → Option Nat) (p : Nat) : Option Nat :=
  if ∃ o ∈ news, Covers o.2 p then none else words p

def heapStep (op : HeapOp ι) (s : MissHeap ι) : Option (MissHeap ι) :=
  (EventHeap.step op s.heap).map fun h =>
    { s with heap := h, words := overwrite (added s.heap h) s.words }

/-- A `MissResponseEvent` or a `MissWritebackEvent` that gets the address of `m` as `mse`. -/
def reader (e m : ι) (fresh : Nat) (s : MissHeap ι) : Option (MissHeap ι) :=
  (s.heap.events m).bind fun evm =>
    (s.heapStep (.new e fresh missSize none)).map fun s =>
      { s with mse := update s.mse e (some (m, evm.addr)) }

/-- `ev->startCycle = cycle` in `simulateMissStart`. -/
def start (m : ι) (cycle : Nat) (s : MissHeap ι) : Option (MissHeap ι) :=
  (s.heap.events m).bind fun evm =>
    if evm.state = .RUNNING then
      some { s with
        words := update s.words (evm.addr + startOffset) (some cycle)
        started := update s.started m (some cycle) }
    else none

def step : MissOp ι → MissHeap ι → Option (MissHeap ι)
  | .heap op, s => s.heapStep op
  | .reader e m fresh, s => s.reader e m fresh
  | .start m cycle, s => s.start m cycle

/-- What `TimingCache` does: `mse` is of a `MissStartEvent` that was not simulated yet, and only a
running one stores its cycle. -/
def Allowed : MissOp ι → MissHeap ι → Prop
  | .heap op, s => EventHeap.Allowed op s.heap
  | .reader e m fresh, s => EventHeap.Allowed (.new e fresh missSize none) s.heap ∧
      s.started m = none ∧ ∃ evm ∈ s.heap.events m, (.event m, ⟨evm.addr, missSize⟩) ∈ s.heap.live
  | .start m _, s => ∃ evm ∈ s.heap.events m, evm.state = .RUNNING ∧
      (.event m, ⟨evm.addr, missSize⟩) ∈ s.heap.live

/-- No source event of a crossing gets done, and a response or a writeback fits in the slab of its
`MissStartEvent`. -/
def SameSlab : MissOp ι → MissHeap ι → Prop
  | .heap op, s => NoSrcDone op s.heap
  | .reader _ m _, s =>
    (s.heap.slabAlloc.slabs s.heap.slabAlloc.curSlab).usedBytes + missSize < bufSize ∧
      ∃ evm ∈ s.heap.events m, evm.addr / slabSize = s.heap.slabAlloc.curSlab
  | .start .., _ => True

instance : ∀ (op : MissOp ι) (s : MissHeap ι), Decidable (Allowed op s)
  | .heap op, s => inferInstanceAs (Decidable (EventHeap.Allowed op s.heap))
  | .reader .., _ => inferInstanceAs (Decidable (_ ∧ _ ∧ ∃ evm ∈ _, _))
  | .start .., _ => inferInstanceAs (Decidable (∃ evm ∈ _, _))

instance : ∀ (op : MissOp ι) (s : MissHeap ι), Decidable (SameSlab op s)
  | .heap op, s => inferInstanceAs (Decidable (NoSrcDone op s.heap))
  | .reader .., _ => inferInstanceAs (Decidable (_ ∧ ∃ evm ∈ _, _))
  | .start .., _ => isTrue trivial

/-- What the responses and writebacks that are simulated read is what their `MissStartEvent` stored.
-/
def Reads (s : MissHeap ι) : Prop :=
  ∀ e m ptr c, ∀ ev ∈ s.heap.events e, s.mse e = some (m, ptr) → ev.state = .RUNNING →
    s.started m = some c → s.words (ptr + startOffset) = some c

/-- The storage of each `MissStartEvent` is kept until its responses and writebacks are done. -/
structure Inv (s : MissHeap ι) : Prop where
  heap : s.heap.Inv
  pointer : ∀ e m ptr, s.mse e = some (m, ptr) → ∃ evm ∈ s.heap.events m, evm.addr = ptr
  kept : ∀ e m ptr, s.mse e = some (m, ptr) → ∃ ev ∈ s.heap.events e, ev.state ≠ .DONE →
    ev.addr / slabSize = ptr / slabSize ∧ s.heap.Kept m ⟨ptr, missSize⟩ ∧
      ∀ c ∈ s.started m, s.words (ptr + startOffset) = some c

section

variable {s s1 : MissHeap ι} {h h1 : EventHeap ι} {e m : ι} {ev : HeapEvent} {ptr : Nat}

omit [DecidableEq ι] in
theorem Inv.reads (hs : s.Inv) : s.Reads := by
  intro e m ptr c ev hev hmse hstate hc
  obtain ⟨ev', hev', hkept⟩ := hs.kept e m ptr hmse
  obtain rfl := Option.some.inj (hev.symm.trans hev')
  exact (hkept (by simp [hstate])).2.2 c hc

omit [DecidableEq ι] in
theorem init_inv (fresh : Nat) : (init fresh : MissHeap ι).Inv where
  heap := EventHeap.init_inv fresh
  pointer _ _ _ hmse := by cases hmse
  kept _ _ _ hmse := by cases hmse

theorem added_spec (huses : h.Uses h1) {o : Name ι × Obj} (ho : o ∈ added h h1) :
    o ∈ h1.live ∧ ∀ m, (h.events m).isSome → o.1 ≠ .event m := by
  refine ⟨mem_of_mem_take ho, fun m hm => ?_⟩
  cases huses with
  | alloc name fresh size ptr hfresh hsize hnew halloc hknown hlive =>
    rw [added, hlive] at ho
    obtain rfl : o = (name, ⟨ptr, size⟩) := by simpa using ho
    rintro rfl
    exact hnew hm
  | same hslabs hknown hlive =>
    rw [added, hlive] at ho
    simp at ho
  | free o' ho' hfree hknown hlive =>
    rw [added, hlive, Nat.sub_eq_zero_of_le length_erase_le] at ho
    simp at ho

theorem live_subset (huses : h.Uses h1) : h.live ⊆ h1.live ∨ h1.live ⊆ h.live := by
  cases huses with
  | alloc name fresh size ptr hfresh hsize hnew halloc hknown hlive =>
    exact .inl (hlive ▸ subset_cons_self ..)
  | same hslabs hknown hlive => exact .inl (hlive ▸ Subset.refl _)
  | free o ho hfree hknown hlive => exact .inr (hlive ▸ erase_subset)

/-- Nothing is written over what is kept. -/
theorem overwrite_kept (huses : h.Uses h1) (hm : (h.events m).isSome)
    (hk : h1.Kept m ⟨ptr, missSize⟩) (words : Nat → Option Nat) :
    overwrite (added h h1) words (ptr + startOffset) = words (ptr + startOffset) := by
  refine if_neg ?_
  rintro ⟨o, ho, hcovers⟩
  obtain ⟨hlive, hne⟩ := added_spec huses ho
  have hapart := hk.apart o hlive (hne m hm)
  simp only [Covers, Obj.Apart, startOffset, missSize] at hcovers hapart
  omega

omit [DecidableEq ι] in
/-- An event that is not done has an object at its address. -/
theorem exists_live (h' : h.Inv) (hev : h.events e = some ev) (hstate : ev.state ≠ .DONE) :
    ∃ o ∈ h.live, o.2.addr = ev.addr := by
  obtain ⟨o, ho, -, haddr⟩ := (h'.owned e ev hev).2 ev.addr (by simp [HeapEvent.objects, hstate])
  exact ⟨o, ho, haddr⟩

theorem Inv.heapStep {op : HeapOp ι} (hs : s.Inv) (hok : EventHeap.Allowed op s.heap)
    (hsrc : NoSrcDone op s.heap) : ∃ h1, EventHeap.step op s.heap = some h1 ∧
      s.heapStep op = some { s with heap := h1, words := overwrite (added s.heap h1) s.words } ∧
      Inv { s with heap := h1, words := overwrite (added s.heap h1) s.words } := by
  obtain ⟨h1, hstep, hinv⟩ := hs.heap.step hok hsrc
  obtain ⟨huses, hstays⟩ := hs.heap.step_uses hok hsrc hstep
  refine ⟨h1, hstep, by rw [MissHeap.heapStep, hstep]; rfl, hinv, ?_, ?_⟩
  · intro e m ptr hmse
    obtain ⟨evm, hevm, rfl⟩ := hs.pointer e m ptr hmse
    obtain ⟨evm1, hevm1, haddr, -⟩ := hstays m evm hevm
    exact ⟨evm1, hevm1, haddr⟩
  · intro e m ptr hmse
    obtain ⟨ev, hev, hkept⟩ := hs.kept e m ptr hmse
    obtain ⟨ev1, hev1, haddr, hdone⟩ := hstays e ev hev
    refine ⟨ev1, hev1, fun hstate => ?_⟩
    have hstate' : ev.state ≠ .DONE := fun hd => hstate (hdone hd)
    obtain ⟨hslab, hk, hword⟩ := hkept hstate'
    -- an object of the slab is live before and after
    have hboth : ∃ o ∈ s.heap.live, o ∈ h1.live ∧ o.2.addr = ev.addr := by
      rcases live_subset huses with hsub | hsub
      · obtain ⟨o, ho, ho'⟩ := exists_live hs.heap hev hstate'
        exact ⟨o, ho, hsub ho, ho'⟩
      · obtain ⟨o, ho, ho'⟩ := exists_live hinv hev1 hstate
        exact ⟨o, hsub ho, ho, ho'.trans haddr⟩
    obtain ⟨o, ho, ho1, hoaddr⟩ := hboth
    have hk1 : h1.Kept m ⟨ptr, missSize⟩ := hk.step hs.heap hok hsrc hstep ho ho1 (by
      rw [Obj.slab, Obj.slab, hoaddr, hslab])
    refine ⟨haddr ▸ hslab, hk1, fun c hc => ?_⟩
    exact (overwrite_kept huses hk.given hk1 s.words).trans (hword c hc)

/-- An event that fits in the current slab is put there. -/
theorem new_slab {size fresh : Nat} (hsize : size < bufSize)
    (hroom : (h.slabAlloc.slabs h.slabAlloc.curSlab).usedBytes + size < bufSize)
    (hstep : EventHeap.step (.new e fresh size none) h = some h1) :
    (∃ ev ∈ h1.events e, ev.addr / slabSize = h.slabAlloc.curSlab) ∧ h.live ⊆ h1.live := by
  obtain ⟨⟨ptr, h2⟩, halloc, rfl⟩ := Option.map_eq_some_iff.mp hstep
  obtain ⟨⟨ptr', a⟩, ha, heq⟩ := Option.map_eq_some_iff.mp halloc
  obtain ⟨rfl, rfl⟩ := Prod.mk.inj heq
  have hlt : size < slabSize := Nat.lt_of_lt_of_le hsize (Nat.sub_le ..)
  rw [SlabAlloc.alloc, if_pos hlt, SlabAlloc.allocCur_of_room hroom] at ha
  simp only [SlabAlloc.checkSlab, Option.ite_none_right_eq_some, Option.some.injEq,
    Prod.mk.injEq] at ha
  obtain ⟨hslab, rfl, -⟩ := ha
  exact ⟨⟨_, set_events_self, hslab⟩, subset_cons_self ..⟩

theorem Inv.reader {fresh : Nat} (hs : s.Inv) (hok : Allowed (.reader e m fresh) s)
    (hsame : SameSlab (.reader e m fresh) s) : ∃ s1, s.reader e m fresh = some s1 ∧ s1.Inv := by
  obtain ⟨hnew, hstarted, evm, hevm, hlive⟩ := hok
  obtain ⟨hroom, evm', hevm', hcur⟩ := hsame
  obtain rfl := Option.some.inj (hevm.symm.trans hevm')
  obtain ⟨h1, hstep, hheap, hinv⟩ := hs.heapStep hnew trivial
  obtain ⟨huses, hstays⟩ := hs.heap.step_uses hnew trivial hstep
  obtain ⟨⟨ev, hev, hslab⟩, hsub⟩ := new_slab (by decide) hroom hstep
  rw [MissHeap.reader, hevm, Option.bind_some, hheap]
  refine ⟨_, rfl, hinv.heap, ?_, ?_⟩
  · intro e' m' ptr hmse
    by_cases heq : e' = e
    · subst heq
      obtain ⟨rfl, rfl⟩ : m = m' ∧ evm.addr = ptr := by simpa using hmse
      obtain ⟨evm1, hevm1, haddr, -⟩ := hstays m evm hevm
      exact ⟨evm1, hevm1, haddr⟩
    · exact hinv.pointer e' m' ptr (by simpa [heq] using hmse)
  · intro e' m' ptr hmse
    by_cases heq : e' = e
    · subst heq
      obtain ⟨rfl, rfl⟩ : m = m' ∧ evm.addr = ptr := by simpa using hmse
      refine ⟨ev, hev, fun _ => ⟨hslab.trans hcur.symm, hinv.heap.kept (hsub hlive),
        fun c hc => ?_⟩⟩
      rw [hstarted] at hc
      cases hc
    · exact hinv.kept e' m' ptr (by simpa [heq] using hmse)

theorem Inv.start {cycle : Nat} (hs : s.Inv) (hok : Allowed (.start m cycle) s) :
    ∃ s1, s.start m cycle = some s1 ∧ s1.Inv := by
  obtain ⟨evm, hevm, hstate, hlive⟩ := hok
  rw [MissHeap.start, hevm, Option.bind_some, if_pos hstate]
  refine ⟨_, rfl, hs.heap, hs.pointer, ?_⟩
  intro e m' ptr hmse
  obtain ⟨ev, hev, hkept⟩ := hs.kept e m' ptr hmse
  refine ⟨ev, hev, fun hev' => ?_⟩
  obtain ⟨hslab, hk, hword⟩ := hkept hev'
  refine ⟨hslab, hk, fun c hc => ?_⟩
  by_cases heq : m' = m
  · subst heq
    obtain ⟨evm', hevm', rfl⟩ := hs.pointer e m' ptr hmse
    obtain rfl := Option.some.inj (hevm.symm.trans hevm')
    simpa using hc
  · have hapart := hk.apart _ hlive (by simpa using Ne.symm heq)
    have hne : ptr + startOffset ≠ evm.addr + startOffset := by
      simp only [Obj.Apart, missSize] at hapart
      omega
    have hc' : s.started m' = some c := (update_of_ne heq ..).symm.trans hc
    exact (update_of_ne hne ..).trans (hword c hc')

/-- Every step that meets the conditions succeeds and keeps the invariant. -/
theorem Inv.step {op : MissOp ι} (hs : s.Inv) (hok : Allowed op s) (hsame : SameSlab op s) :
    ∃ s1, step op s = some s1 ∧ s1.Inv := by
  cases op with
  | heap op =>
    obtain ⟨h1, -, hheap, hinv⟩ := hs.heapStep hok hsame
    exact ⟨_, hheap, hinv⟩
  | reader e m fresh => exact hs.reader hok hsame
  | start m cycle => exact hs.start hok

end

/-- In every run in which no source event of a crossing gets done and the responses and writebacks
are in the slab of their `MissStartEvent`, they read the cycle that it stored. -/
theorem run_reads (fresh : Nat) (ops : List (MissOp ι))
    (h : Along step (fun op s => Allowed op s ∧ SameSlab op s) ops (init fresh)) :
    ∃ s, run step ops (init fresh) = some s ∧ s.Reads := by
  obtain ⟨s, hrun, hinv⟩ := run_keeps (fun op s hs hok => hs.step hok.1 hok.2) ops
    (init_inv fresh) h
  exact ⟨s, hrun, hinv.reads⟩

/-- A miss that is simulated from its start to its writeback. -/
theorem run_reads_sample : ∃ s, run step
    [.heap (.new 0 2 missSize none), .reader 1 0 2, .reader 2 0 2, .heap (.addChild 0 2),
      .heap (.addChild 1 2), .heap (.move 0 .RUNNING), .start 0 500, .heap (.done 0),
      .heap (.freeNext 0), .heap (.new 3 2 missSize none), .heap (.move 1 .RUNNING),
        .heap (.done 1),
      .heap (.freeNext 1), .heap (.move 2 .RUNNING)] (init 1 : MissHeap Nat) = some s ∧ s.Reads :=
  run_reads 1 _ (by decide +kernel)

/-! ### A slab that is used again -/

section

/-- `sizeof(DelayEvent)` -/
abbrev delaySize : Nat := 80

/-- A `DelayEvent` that comes and goes. -/
def delay (i fresh : Nat) : List (MissOp Nat) :=
  [.heap (.new i fresh delaySize none), .heap (.move i .RUNNING), .heap (.done i),
    .heap (.freeNext i)]

/-- What `n` delays leave in a slab that another object keeps from being cleared. -/
def filled (base n : Nat) (s : MissHeap Nat) : MissHeap Nat :=
  let a := s.heap.slabAlloc
  { s with
    heap := { s.heap with
      slabAlloc := { a with
        slabs := update a.slabs a.curSlab ⟨(a.slabs a.curSlab).liveElems,
          (a.slabs a.curSlab).usedBytes + delaySize * n⟩ }
      events := fun e => if base ≤ e ∧ e < base + n then
          some ⟨.DONE, a.top + delaySize * (e - base), 0, [], none, []⟩ else s.heap.events e
      freed := ((range n).reverse.map fun i => some (.event (base + i))) ++ s.heap.freed }
    words := fun p => if 0 < n ∧ a.top < p + 8 ∧ p < a.top + delaySize * n then none
      else s.words p }

variable {s : MissHeap Nat} {base n fresh : Nat}

theorem filled_zero : filled base 0 s = s := by
  have hevents : (fun e => if base ≤ e ∧ e < base + 0 then
      some ⟨.DONE, s.heap.slabAlloc.top + delaySize * (e - base), 0, [], none, []⟩
      else s.heap.events e) = s.heap.events := by
    funext e
    exact if_neg (by omega)
  simp only [filled, hevents]
  simp

/-- The current slab has another object and room for `n` delays, whose names are new. -/
structure HasRoom (base n : Nat) (s : MissHeap Nat) : Prop where
  known : s.heap.slabAlloc.curSlab ∈ s.heap.known
  live : 0 < (s.heap.slabAlloc.slabs s.heap.slabAlloc.curSlab).liveElems
  bytes : (s.heap.slabAlloc.slabs s.heap.slabAlloc.curSlab).liveElems <
    (s.heap.slabAlloc.slabs s.heap.slabAlloc.curSlab).usedBytes
  room : (s.heap.slabAlloc.slabs s.heap.slabAlloc.curSlab).usedBytes + delaySize * n < bufSize
  new : ∀ i < n, s.heap.events (base + i) = none

theorem filled_succ : filled (base + n) 1 (filled base n s) = filled base (n + 1) s := by
  have htop : (filled base n s).heap.slabAlloc.top = s.heap.slabAlloc.top + delaySize * n := by
    simp [filled, SlabAlloc.top, Nat.add_assoc]
  rw [filled, htop]
  simp only [filled, update_self, update_idem, MissHeap.mk.injEq, EventHeap.mk.injEq,
    SlabAlloc.mk.injEq, and_true, true_and]
  refine ⟨⟨?_, ?_, ?_⟩, ?_⟩
  · have hused (u : Nat) : u + delaySize * n + delaySize * 1 = u + delaySize * (n + 1) := by
      simp only [delaySize]
      omega
    rw [hused]
  · funext e
    by_cases hlast : e = base + n
    · subst hlast
      rw [if_pos (by omega), if_pos (by omega)]
      simp
    · rw [if_neg (by omega)]
      exact if_congr (by omega) rfl rfl
  · rw [show range (n + 1) = range n ++ [n] from range_succ]
    simp
  · funext p
    simp only [delaySize]
    split_ifs <;> first | rfl | omega

/-- The heap while the delay `e` is there. -/
def delayed (e : Nat) (state : EventState) (toFree : List Nat) (s : MissHeap Nat) : MissHeap Nat :=
  let a := s.heap.slabAlloc
  { s with
    heap := { s.heap with
      slabAlloc := { a with
        slabs := update a.slabs a.curSlab ⟨(a.slabs a.curSlab).liveElems + 1,
          (a.slabs a.curSlab).usedBytes + delaySize⟩ }
      events := update s.heap.events e (some ⟨state, a.top, 0, [], none, toFree⟩)
      live := (.event e, ⟨a.top, delaySize⟩) :: s.heap.live }
    words := fun p => if a.top < p + 8 ∧ p < a.top + delaySize then none else s.words p }

theorem overwrite_nil (words : Nat → Option Nat) :
    overwrite ([] : List (Name Nat × Obj)) words = words := by
  funext p
  simp [overwrite]

theorem HasRoom.room_one (h : HasRoom base 1 s) :
    (s.heap.slabAlloc.slabs s.heap.slabAlloc.curSlab).usedBytes + delaySize < bufSize := by
  simpa using h.room

theorem HasRoom.new_step (fresh : Nat) (h : HasRoom base 1 s) :
    s.heapStep (.new base fresh delaySize none) = some (delayed base .NONE [] s) := by
  have halloc : s.heap.slabAlloc.alloc fresh delaySize =
      some (s.heap.slabAlloc.top, (delayed base .NONE [] s).heap.slabAlloc) := by
    rw [SlabAlloc.alloc, if_pos (by decide), SlabAlloc.allocCur_of_room h.room_one, Slab.alloc,
      if_pos h.room_one]
    exact if_pos (SlabAlloc.top_slab h.room_one).1
  have hadded (h1 : EventHeap Nat)
      (hlive : h1.live = (.event base, ⟨s.heap.slabAlloc.top, delaySize⟩) :: s.heap.live) :
      added s.heap h1 = [(.event base, ⟨s.heap.slabAlloc.top, delaySize⟩)] := by
    simp [added, hlive]
  rw [heapStep, EventHeap.step, EventHeap.new, EventHeap.alloc, halloc]
  simp only [Option.map_some, Option.map_none, Option.some.injEq]
  rw [hadded _ rfl]
  simp only [EventHeap.set, delayed, List.insert_of_mem h.known, MissHeap.mk.injEq, true_and,
    and_true]
  funext p
  simp [overwrite, Covers]

theorem move_step : (delayed base .NONE [] s).heapStep (.move base .RUNNING) =
    some (delayed base .RUNNING [] s) := by
  simp [heapStep, EventHeap.step, EventHeap.move, EventHeap.set, delayed, Moves, added,
    overwrite_nil]

theorem done_step : (delayed base .RUNNING [] s).heapStep (.done base) =
    some (delayed base .DONE [s.heap.slabAlloc.top] s) := by
  simp [heapStep, EventHeap.step, EventHeap.done, EventHeap.set, delayed, added, overwrite_nil]

theorem HasRoom.freeElem (h : HasRoom base 1 s) :
    (delayed base .DONE [s.heap.slabAlloc.top] s).heap.slabAlloc.freeElem s.heap.slabAlloc.top =
      some (filled base 1 s).heap.slabAlloc := by
  have hlive := h.live
  have hbytes := h.bytes
  simp only [delayed, SlabAlloc.freeElem, (SlabAlloc.top_slab h.room_one).1, update_self,
    delaySize]
  rw [if_pos (by omega), if_neg (by omega)]
  simp [filled]

theorem filled_one_events (base : Nat) (s : MissHeap Nat) : (filled base 1 s).heap.events =
    update s.heap.events base (some ⟨.DONE, s.heap.slabAlloc.top, 0, [], none, []⟩) := by
  funext e
  by_cases he : e = base
  · subst he
    simp [filled]
  · rw [update_of_ne he]
    exact if_neg (by omega)

theorem filled_one_words (base : Nat) (s : MissHeap Nat) : (filled base 1 s).words =
    fun p => if s.heap.slabAlloc.top < p + 8 ∧ p < s.heap.slabAlloc.top + delaySize then none
      else s.words p := by
  funext p
  simp [filled]

/-- The delay is the latest object. -/
theorem freeNext_latest {h : EventHeap Nat} {ev : HeapEvent} {a : SlabAlloc} {ptr : Nat}
    {o : Name Nat × Obj} {live : List (Name Nat × Obj)} (hev : h.events base = some ev)
    (hfree : ev.toFree = [ptr]) (ha : h.slabAlloc.freeElem ptr = some a)
    (hlive : h.live = o :: live) (ho : o.2.addr = ptr) : h.freeNext base =
      some ({ h with slabAlloc := a, live, freed := some o.1 :: h.freed }.set base
        { ev with toFree := [] }) := by
  simp [EventHeap.freeNext, EventHeap.freeElem, hev, hfree, ha, hlive, ho]

theorem HasRoom.free_step (h : HasRoom base 1 s) :
    (delayed base .DONE [s.heap.slabAlloc.top] s).heapStep (.freeNext base) =
      some (filled base 1 s) := by
  have hevents := (filled_one_events base s).symm
  have hwords := (filled_one_words base s).symm
  have hev : (delayed base .DONE [s.heap.slabAlloc.top] s).heap.events base =
      some ⟨.DONE, s.heap.slabAlloc.top, 0, [], none, [s.heap.slabAlloc.top]⟩ := update_self ..
  rw [heapStep, EventHeap.step, freeNext_latest hev rfl h.freeElem rfl rfl]
  simp only [EventHeap.set, delayed, Option.map_some, update_idem, hevents, hwords, added,
    length_cons, Nat.sub_eq_zero_of_le (Nat.le_succ _), take_zero, overwrite_nil]
  rfl

theorem run_delay (h : HasRoom base 1 s) (hfresh : fresh ∉ s.heap.known) :
    run step (delay base fresh) s = some (filled base 1 s) ∧
      Along step Allowed (delay base fresh) s := by
  have hnew := h.new_step fresh
  have hfree := h.free_step
  constructor
  · simp only [delay, run, step, hnew, move_step, done_step, hfree, Option.bind_some]
  · refine ⟨⟨hfresh, h.new 0 Nat.zero_lt_one, by decide, by simp⟩, fun s1 h1 => ?_⟩
    obtain rfl := Option.some.inj (hnew.symm.trans h1)
    refine ⟨⟨_, update_self .., rfl⟩, fun s2 h2 => ?_⟩
    obtain rfl := Option.some.inj (move_step.symm.trans h2)
    refine ⟨⟨_, update_self .., rfl, by simp⟩, fun s3 h3 => ?_⟩
    obtain rfl := Option.some.inj (done_step.symm.trans h3)
    exact ⟨⟨_, update_self .., rfl, by simp⟩, fun _ _ => trivial⟩

/-- `n` delays, one after the other. -/
def delays (base n fresh : Nat) : List (MissOp Nat) :=
  (range n).flatMap fun i => delay (base + i) fresh

theorem HasRoom.last (h : HasRoom base (n + 1) s) : HasRoom (base + n) 1 (filled base n s) where
  known := h.known
  live := by simpa [filled] using h.live
  bytes := by
    have hbytes := h.bytes
    simp only [filled, update_self]
    omega
  room := by
    have hroom := h.room
    simp only [filled, update_self, delaySize] at hroom ⊢
    omega
  new i hi := by
    rw [filled]
    simp only
    rw [if_neg (by omega), Nat.add_assoc]
    exact h.new (n + i) (by omega)

theorem run_delays (h : HasRoom base n s) (hfresh : fresh ∉ s.heap.known) :
    run step (delays base n fresh) s = some (filled base n s) ∧
      Along step Allowed (delays base n fresh) s := by
  induction n with
  | zero => exact ⟨by rw [filled_zero]; rfl, trivial⟩
  | succ n ih =>
    have hroom := h.room
    obtain ⟨hrun, hok⟩ := ih ⟨h.known, h.live, h.bytes, by simp only [delaySize] at hroom ⊢; omega,
      fun i hi => h.new i (by omega)⟩
    obtain ⟨hrun1, hok1⟩ := run_delay h.last hfresh
    have hcons : delays base (n + 1) fresh = delays base n fresh ++ delay (base + n) fresh := by
      simp [delays, range_succ]
    rw [hcons, run_append, hrun]
    refine ⟨by rw [Option.bind_some, hrun1, filled_succ], hok.append fun s' hs' => ?_⟩
    obtain rfl := Option.some.inj (hrun.symm.trans hs')
    exact hok1

/-- A miss whose `MissStartEvent` 1000 is the last object of slab 1. -/
def missAtEnd : List (MissOp Nat) :=
  [.heap (.new 1000 2 missSize none), .reader 1001 1000 2, .reader 1002 1000 3,
    .heap (.move 1000 .RUNNING), .start 1000 500, .heap (.done 1000), .heap (.freeNext 1000),
    .heap (.move 1001 .RUNNING), .heap (.done 1001), .heap (.freeNext 1001),
    .heap (.move 0 .RUNNING), .heap (.done 0), .heap (.freeNext 0)]

/-- Another miss, whose `MissStartEvent` 1004 is the last object of the same slab. -/
def nextMiss : List (MissOp Nat) :=
  [.heap (.new 1004 3 missSize none), .heap (.move 1004 .RUNNING), .start 1004 900,
    .heap (.move 1002 .RUNNING)]

def slabAgain : List (MissOp Nat) :=
  [.heap (.new 0 2 delaySize none)] ++ (delays 1 816 2 ++ (missAtEnd ++ (delays 2000 816 3 ++
    ([.heap (.new 1003 3 delaySize none)] ++ (delays 3000 816 3 ++ nextMiss)))))

def after (ops : List (MissOp Nat)) (s : MissHeap Nat) : MissHeap Nat := (run step ops s).getD s

theorem along_after {ops rest : List (MissOp Nat)} {P : MissHeap Nat → Prop}
    (hok : Along step Allowed ops s) (hsome : (run step ops s).isSome = true)
    (h : Along step Allowed rest (after ops s) ∧ ∃ s', run step rest (after ops s) = some s' ∧
      P s') :
    Along step Allowed (ops ++ rest) s ∧ ∃ s', run step (ops ++ rest) s = some s' ∧ P s' := by
  obtain ⟨s1, h1⟩ := Option.isSome_iff_exists.mp hsome
  have hafter : after ops s = s1 := by rw [after, h1]; rfl
  rw [hafter] at h
  refine ⟨hok.append fun s2 h2 => ?_, ?_⟩
  · obtain rfl := Option.some.inj (h1.symm.trans h2)
    exact h.1
  · rw [run_append, h1]
    exact h.2

theorem delays_after {rest : List (MissOp Nat)} {P : MissHeap Nat → Prop}
    (hfits : HasRoom base n s) (hfresh : fresh ∉ s.heap.known)
    (h : Along step Allowed rest (filled base n s) ∧
      ∃ s', run step rest (filled base n s) = some s' ∧ P s') :
    Along step Allowed (delays base n fresh ++ rest) s ∧
      ∃ s', run step (delays base n fresh ++ rest) s = some s' ∧ P s' := by
  obtain ⟨hrun, hok⟩ := run_delays hfits hfresh
  have hafter : after (delays base n fresh) s = filled base n s := by rw [after, hrun]; rfl
  exact along_after hok (by rw [hrun]; rfl) (hafter ▸ h)

/-- The writeback of the first miss reads the start cycle of the second. -/
theorem start_overwritten : Along step Allowed slabAgain (init 1) ∧
    ∃ s, run step slabAgain (init 1) = some s ∧ ¬ s.Reads := by
  refine along_after (by decide +kernel) (by decide +kernel) ?_
  refine delays_after ⟨by decide +kernel, by decide +kernel, by decide +kernel, by decide +kernel,
    by decide +kernel⟩ (by decide +kernel) ?_
  refine along_after (by decide +kernel) (by decide +kernel) ?_
  refine delays_after ⟨by decide +kernel, by decide +kernel, by decide +kernel, by decide +kernel,
    by decide +kernel⟩ (by decide +kernel) ?_
  refine along_after (by decide +kernel) (by decide +kernel) ?_
  refine delays_after ⟨by decide +kernel, by decide +kernel, by decide +kernel, by decide +kernel,
    by decide +kernel⟩ (by decide +kernel) ?_
  refine ⟨by decide +kernel, ?_⟩
  generalize hs3 : filled 3000 816 _ = s3
  have hsome : ((run step nextMiss s3).map fun s => ((s.heap.events 1002).map HeapEvent.state,
      s.mse 1002, s.started 1000, s.words (130912 + startOffset))) =
      some (some .RUNNING, some (1000, 130912), some 500, some 900) := by
    rw [← hs3]
    decide +kernel
  obtain ⟨s, hrun, heq⟩ := Option.map_eq_some_iff.mp hsome
  simp only [Prod.mk.injEq, Option.map_eq_some_iff] at heq
  obtain ⟨⟨ev, hev, hstate⟩, hmse, hstarted, hword⟩ := heq
  refine ⟨s, hrun, fun hreads => ?_⟩
  have hread := hreads 1002 1000 130912 500 ev hev hmse hstate hstarted
  rw [hword] at hread
  cases hread

end

end MissHeap

end Doppelganger.Timing
