import Doppelganger.Weave.EventHeap
import Mathlib.Data.List.Nodup

/-! Runs of the events in the slabs.  Each address that an event is still to free is that of a live
object of its own; so without the source events of crossings each call of `freeElem` frees an object
that is live, and no slab is used again below a live object. -/

namespace Doppelganger.Weave

open Function List Lib

/-- The addresses that the event has not yet freed. -/
def HeapEvent.objects (ev : HeapEvent) : List Nat :=
  if ev.state = .DONE then ev.toFree else ev.children ++ [ev.addr]

namespace EventHeap

variable {ι : Type*}

/-- The name was given to an object. -/
def Given (h : EventHeap ι) : Name ι → Prop
  | .event e => (h.events e).isSome
  | .block e n => ∃ ev ∈ h.events e, n < ev.children.length

/-- The objects of the event are live. -/
def Owns (live : List (Name ι × Obj)) (e : ι) (ev : HeapEvent) : Prop :=
  ev.objects.Nodup ∧ ∀ ptr ∈ ev.objects, ∃ o ∈ live, o.1.owner = e ∧ o.2.addr = ptr

/-- What was allocated, with what is freed behind what is live. -/
def names (h : EventHeap ι) : List (Option (Name ι)) := h.live.map (fun o => some o.1) ++ h.freed

/-- Each name is given once, and each address that is still to be freed is that of an object of the
event. -/
structure Inv (h : EventHeap ι) : Prop where
  slabs : LiveIn h.slabAlloc h.known (h.live.map Prod.snd)
  frees : none ∉ h.freed
  once : h.names.Nodup
  given : ∀ n, some n ∈ h.names → h.Given n
  owned : ∀ e, ∀ ev ∈ h.events e, Owns h.live e ev

section

variable {h : EventHeap ι} {e : ι} {ev : HeapEvent} {o o' : Name ι × Obj}

/-- An object is known by its address. -/
theorem Inv.eq_of_addr (h' : h.Inv) (ho : o ∈ h.live) (ho' : o' ∈ h.live)
    (haddr : o.2.addr = o'.2.addr) : o = o' := by
  have hnodup := h'.slabs.addr_nodup
  rw [map_map] at hnodup
  exact inj_on_of_nodup_map hnodup ho ho' haddr

theorem Owns.mono {live live' : List (Name ι × Obj)} (hsub : live ⊆ live')
    (h : Owns live e ev) : Owns live' e ev :=
  ⟨h.1, fun ptr hptr => (h.2 ptr hptr).imp fun _ ho => ⟨hsub ho.1, ho.2⟩⟩

theorem init_inv (fresh : Nat) : (init fresh : EventHeap ι).Inv where
  slabs := init_liveIn fresh
  frees := by simp [init]
  once := nodup_nil
  given n hn := absurd hn (not_mem_nil)
  owned e ev hev := by simp [init] at hev

variable [DecidableEq ι]

@[simp] theorem set_events_self : (h.set e ev).events e = some ev := update_self ..

theorem set_events_of_ne {e' : ι} (hne : e' ≠ e) : (h.set e ev).events e' = h.events e' :=
  update_of_ne hne ..

theorem Given.set {n : Name ι} (hn : h.Given n)
    (hlen : ∀ old ∈ h.events e, old.children.length ≤ ev.children.length) :
    (h.set e ev).Given n := by
  cases n with
  | event e' =>
    by_cases heq : e' = e
    · simp [Given, heq]
    · simpa [Given, set_events_of_ne heq] using hn
  | block e' n =>
    obtain ⟨old, hold, hlt⟩ := hn
    by_cases heq : e' = e
    · subst heq
      exact ⟨ev, by simp, Nat.lt_of_lt_of_le hlt (hlen old hold)⟩
    · exact ⟨old, by rwa [set_events_of_ne heq], hlt⟩

/-- Each event owns its objects when the one that changes does. -/
theorem Owns.set {live : List (Name ι × Obj)} (howns : Owns live e ev)
    (hothers : ∀ e', e' ≠ e → ∀ ev' ∈ h.events e', Owns live e' ev') :
    ∀ e', ∀ ev' ∈ (h.set e ev).events e', Owns live e' ev' := by
  intro e' ev' hev'
  by_cases heq : e' = e
  · subst heq
    rw [set_events_self] at hev'
    exact Option.mem_some_iff.mp hev' ▸ howns
  · rw [set_events_of_ne heq] at hev'
    exact hothers e' heq ev' hev'

/-- A change of one event that takes no object. -/
theorem Inv.set (h' : h.Inv) (hlen : ∀ old ∈ h.events e, old.children.length ≤ ev.children.length)
    (howns : Owns h.live e ev) : (h.set e ev).Inv where
  slabs := h'.slabs
  frees := h'.frees
  once := h'.once
  given n hn := (h'.given n hn).set hlen
  owned := howns.set fun e' _ => h'.owned e'

/-- An object with a new name is at an address of its own. -/
theorem Inv.alloc (h' : h.Inv) {name : Name ι} {fresh size : Nat} (hfresh : fresh ∉ h.known)
    (hsize : 2 ≤ size ∧ size < bufSize) (hname : ¬h.Given name) :
    ∃ ptr h1, h.alloc name fresh size = some (ptr, h1) ∧ (∀ o ∈ h.live, o.2.addr ≠ ptr) ∧
      (name, ⟨ptr, size⟩) ∈ h1.live ∧ h.live ⊆ h1.live ∧
      ∀ ev, (∀ old ∈ h.events e, old.children.length ≤ ev.children.length) →
        (h1.set e ev).Given name → Owns h1.live e ev → (h1.set e ev).Inv := by
  obtain ⟨ptr, a, halloc, hlive⟩ := h'.slabs.alloc hfresh hsize
  have haddr := nodup_cons.mp hlive.addr_nodup
  refine ⟨ptr, { h with
    slabAlloc := a
    known := h.known.insert a.curSlab
    live := (name, ⟨ptr, size⟩) :: h.live }, by rw [EventHeap.alloc, halloc]; rfl, ?_,
    mem_cons_self .., subset_cons_self ..,
    fun ev hlen hgiven howns => ⟨hlive, h'.frees, ?_, ?_, howns.set fun e' _ ev' hev' =>
      (h'.owned e' ev' hev').mono (subset_cons_self ..)⟩⟩
  · rintro o ho rfl
    exact haddr.1 (mem_map.mpr ⟨o.2, mem_map_of_mem ho, rfl⟩)
  · exact nodup_cons.mpr ⟨fun hmem => hname (h'.given name hmem), h'.once⟩
  · intro n hn
    rcases mem_cons.mp hn with heq | hn
    · exact (Option.some.inj heq) ▸ hgiven
    · exact (h'.given n hn).set hlen

/-- `freeElem` of a live object. -/
theorem Inv.freeElem (h' : h.Inv) (ho : o ∈ h.live) :
    ∃ a, h.freeElem o.2.addr = some { h with
        slabAlloc := a
        live := h.live.erase o
        freed := some o.1 :: h.freed } ∧
      LiveIn a h.known ((h.live.erase o).map Prod.snd) := by
  obtain ⟨a, hfree, hlive⟩ := (h'.slabs.perm ((perm_cons_erase ho).map Prod.snd)).freeElem
  have hfind : h.live.find? (fun o' => o'.2.addr = o.2.addr) = some o := by
    cases hsome : h.live.find? (fun o' => o'.2.addr = o.2.addr) with
    | none => simpa using find?_eq_none.mp hsome o ho
    | some o' =>
      have haddr : o'.2.addr = o.2.addr := of_decide_eq_true (find?_some hsome :)
      rw [h'.eq_of_addr (mem_of_find?_eq_some hsome) ho haddr]
  exact ⟨a, by rw [EventHeap.freeElem, hfree, Option.map_some, hfind], hlive⟩

theorem Inv.new (h' : h.Inv) {fresh size : Nat} {src : Option Nat} (hfresh : fresh ∉ h.known)
    (hnew : h.events e = none) (hsize : 2 ≤ size ∧ size < bufSize) :
    ∃ h1, h.new e fresh size src = some h1 ∧ h1.Inv := by
  have hname : ¬h.Given (.event e) := by simp [Given, hnew]
  obtain ⟨ptr, h1, halloc, haddr, hmem, hsub, hset⟩ := h'.alloc (e := e) hfresh hsize hname
  refine ⟨_, by rw [EventHeap.new, halloc]; rfl, hset _ (by simp [hnew]) (by simp [Given]) ?_⟩
  exact ⟨by simp [HeapEvent.objects], by simpa [HeapEvent.objects] using ⟨_, _, hmem, rfl, rfl⟩⟩

theorem Inv.addChild (h' : h.Inv) {fresh : Nat} (hfresh : fresh ∉ h.known)
    (hev : h.events e = some ev) (hstate : ev.state = .NONE ∨ ev.state = .QUEUED) :
    ∃ h1, h.addChild e fresh = some h1 ∧ h1.Inv := by
  have hlive : ev.state ≠ .DONE := by rcases hstate with hs | hs <;> simp [hs]
  obtain ⟨hnodup, howned⟩ := h'.owned e ev hev
  rw [EventHeap.addChild, hev, Option.bind_some, if_pos hstate]
  split
  · have hname : ¬h.Given (.block e ev.children.length) := by simp [Given, hev]
    obtain ⟨ptr, h1, halloc, haddr, hmem, hsub, hset⟩ :=
      h'.alloc (e := e) hfresh (by decide : 2 ≤ blockSize ∧ blockSize < bufSize) hname
    have hfresh : ptr ∉ ev.objects := fun hptr => by
      obtain ⟨o, ho, -, heq⟩ := howned ptr hptr
      exact haddr o ho heq
    have hobjects : HeapEvent.objects { ev with
        numChildren := ev.numChildren + 1, children := ptr :: ev.children } =
        ptr :: ev.objects := by simp [HeapEvent.objects, hlive]
    refine ⟨_, by rw [halloc]; rfl, hset _ (by simp [hev]) (by simp [Given]) ⟨?_, fun p hp => ?_⟩⟩
    · rw [hobjects]
      exact nodup_cons.mpr ⟨hfresh, hnodup⟩
    · rw [hobjects] at hp
      rcases mem_cons.mp hp with rfl | hp
      · exact ⟨_, hmem, rfl, rfl⟩
      · exact (howned p hp).imp fun o ho => ⟨hsub ho.1, ho.2⟩
  · exact ⟨_, rfl, h'.set (by simp [hev]) ⟨hnodup, howned⟩⟩

theorem Moves.not_done {s t : EventState} (h : Moves s t = true) : s ≠ .DONE ∧ t ≠ .DONE := by
  cases s <;> cases t <;> simp_all [Moves]

theorem Inv.move (h' : h.Inv) {state : EventState} (hev : h.events e = some ev)
    (hmoves : Moves ev.state state = true) : ∃ h1, h.move e state = some h1 ∧ h1.Inv := by
  obtain ⟨hold, hnew⟩ := Moves.not_done hmoves
  obtain ⟨hnodup, howned⟩ := h'.owned e ev hev
  simp only [HeapEvent.objects, if_neg hold] at hnodup howned
  refine ⟨_, by rw [EventHeap.move, hev, Option.bind_some, if_pos hmoves],
    h'.set (by simp [hev]) ?_⟩
  simp only [Owns, HeapEvent.objects, if_neg hnew]
  exact ⟨hnodup, howned⟩

/-- An event without a second child has no block to free. -/
theorem Inv.done (h' : h.Inv) (hev : h.events e = some ev) (hstate : ev.state = .RUNNING) :
    ∃ h1, h.done e = some h1 ∧ h1.Inv := by
  obtain ⟨hnodup, howned⟩ := h'.owned e ev hev
  have hobjects : ev.objects = ev.children ++ [ev.addr] := by simp [HeapEvent.objects, hstate]
  have hsub : (if ev.numChildren > 1 then ev.children else []) ++ [ev.addr] <+ ev.objects := by
    rw [hobjects]
    refine Sublist.append ?_ (Sublist.refl _)
    split
    · exact Sublist.refl _
    · exact nil_sublist _
  refine ⟨_, by rw [EventHeap.done, hev, Option.bind_some, if_pos hstate],
    h'.set (by simp [hev]) ?_⟩
  simp only [Owns, HeapEvent.objects, if_true]
  exact ⟨hsub.nodup hnodup, fun ptr hptr => howned ptr (hsub.subset hptr)⟩

theorem Inv.freeNext (h' : h.Inv) (hev : h.events e = some ev) (hstate : ev.state = .DONE)
    (hfree : ev.toFree ≠ []) : ∃ h1, h.freeNext e = some h1 ∧ h1.Inv := by
  obtain ⟨ptr, toFree, hcons⟩ := exists_cons_of_ne_nil hfree
  obtain ⟨hnodup, howned⟩ := h'.owned e ev hev
  simp only [HeapEvent.objects, if_pos hstate, hcons] at hnodup howned
  obtain ⟨o, ho, howner, rfl⟩ := howned ptr (mem_cons_self ..)
  obtain ⟨a, hsome, hslabs⟩ := h'.freeElem ho
  have hperm : (some o.1 :: ((h.live.erase o).map fun o => some o.1) ++ h.freed).Perm h.names :=
    ((perm_cons_erase ho).symm.map fun o => some o.1).append_right _
  have hnames := perm_middle.trans hperm
  have hkeep : ∀ {o'}, o' ∈ h.live → o' ≠ o → o' ∈ h.live.erase o :=
    fun ho' hne => (mem_erase_of_ne hne).mpr ho'
  refine ⟨_, by rw [EventHeap.freeNext, hev, Option.bind_some, hcons]; simp only [hsome]; rfl, ?_⟩
  refine ⟨hslabs, ?_, hnames.nodup_iff.mpr h'.once, fun n hn => ?_,
    Owns.set ⟨?_, ?_⟩ fun e' hother ev' hev' => ?_⟩
  · exact fun hnone => h'.frees ((mem_cons.mp hnone).resolve_left nofun)
  · exact (h'.given n (hnames.mem_iff.mp hn)).set (by simp [hev])
  · simp only [HeapEvent.objects, if_pos hstate]
    exact (nodup_cons.mp hnodup).2
  · simp only [HeapEvent.objects, if_pos hstate]
    intro ptr hptr
    obtain ⟨o', ho', howner', rfl⟩ := howned ptr (mem_cons_of_mem _ hptr)
    refine ⟨o', hkeep ho' ?_, howner', rfl⟩
    rintro rfl
    exact (nodup_cons.mp hnodup).1 hptr
  · refine ⟨(h'.owned e' ev' hev').1, fun ptr hptr => ?_⟩
    obtain ⟨o', ho', howner', rfl⟩ := (h'.owned e' ev' hev').2 ptr hptr
    refine ⟨o', hkeep ho' ?_, howner', rfl⟩
    rintro rfl
    exact hother (howner'.symm.trans howner)

/-- An operation that is allowed succeeds and keeps the invariant. -/
theorem Inv.step {op : HeapOp ι} (h' : h.Inv) (hok : Allowed op h) (hsrc : NoSrcDone op h) :
    ∃ h1, step op h = some h1 ∧ h1.Inv := by
  cases op with
  | new e fresh size src => exact h'.new hok.1 hok.2.1 hok.2.2.1
  | addChild e fresh =>
    obtain ⟨hfresh, ev, hev, hstate⟩ := hok
    exact h'.addChild hfresh hev hstate
  | move e state =>
    obtain ⟨ev, hev, hmoves⟩ := hok
    exact h'.move hev hmoves
  | done e =>
    obtain ⟨ev, hev, hstate, -⟩ := hok
    exact h'.done hev hstate
  | freeNext e =>
    obtain ⟨ev, hev, hstate, hfree⟩ := hok
    exact h'.freeNext hev hstate hfree
  | srcDone e => exact hsrc.elim

end

/-- What the slabs promise: their counts are right, each call of `freeElem` freed a live object,
each object was freed once, and no slab that is used again has a live object. -/
structure Sound (h : EventHeap ι) : Prop where
  counts : ∀ k ∈ h.known, (h.slabAlloc.slabs k).liveElems = h.live.countP fun o => o.2.slab = k
  frees : none ∉ h.freed
  once : h.freed.Nodup
  free : ∀ k ∈ h.slabAlloc.freeList, ∀ o ∈ h.live, o.2.slab ≠ k
  apart : (h.live.map Prod.snd).Pairwise Obj.Apart

theorem Inv.sound {h : EventHeap ι} (h' : h.Inv) : h.Sound where
  counts k hk := by
    rw [h'.slabs.count k hk, countP_map]
    rfl
  frees := h'.frees
  once := (nodup_append.mp h'.once).2.1
  free k hk o ho := by
    rintro rfl
    have hcount := h'.slabs.count _ (h'.slabs.subset _ (mem_cons_of_mem _ hk))
    rw [h'.slabs.free _ hk] at hcount
    exact countP_eq_zero.mp hcount.symm o.2 (mem_map_of_mem ho) (decide_eq_true rfl)
  apart := h'.slabs.apart

variable [DecidableEq ι]

/-- As long as no source event of a crossing gets done, the slabs are sound. -/
theorem slabs_sound (fresh : Nat) (ops : List (HeapOp ι))
    (h : Along step (fun op h => Allowed op h ∧ NoSrcDone op h) ops (init fresh)) :
    ∃ h', run step ops (init fresh) = some h' ∧ h'.Sound := by
  obtain ⟨h', hrun, hinv⟩ := run_keeps (fun op h hinv hok => hinv.step hok.1 hok.2) ops
    (init_inv fresh) h
  exact ⟨h', hrun, hinv.sound⟩

/-- A parent of two events, and an event that is freed after it. -/
theorem slabs_sound_sample :
    ∃ h', run step
      [.new 0 2 80 none, .new 1 2 80 none, .new 2 2 88 none, .addChild 0 2, .addChild 0 2,
        .move 0 .QUEUED, .move 0 .RUNNING, .done 0, .freeNext 0, .move 1 .RUNNING, .done 1,
        .freeNext 0, .freeNext 1] (init 1 : EventHeap Nat) = some h' ∧ h'.Sound :=
  slabs_sound 1 _ (by decide +kernel)

/-- A crossing is freed for its source event and again when it is done, so the slab of the event 0
is empty for the allocator and the event 2 comes to the same place. -/
theorem crossing_freed_twice :
    let ops := [.new 0 2 80 none, .new 1 2 232 (some 144), .addChild 1 2, .move 1 .QUEUED,
      .srcDone 1, .move 1 .RUNNING, .done 1, .freeNext 1, .new 2 2 80 none]
    Along step Allowed ops (init 1 : EventHeap Nat) ∧
      ∃ h, run step ops (init 1) = some h ∧ ¬h.Sound ∧
        h.live = [(.event 2, ⟨65552, 80⟩), (.event 0, ⟨65552, 80⟩)] ∧
        (h.slabAlloc.slabs 1).liveElems = 1 := by
  intro ops
  have hsome : ((run step ops (init 1)).map fun h =>
      (h.live, (h.slabAlloc.slabs 1).liveElems, h.known)) =
      some ([(.event 2, ⟨65552, 80⟩), (.event 0, ⟨65552, 80⟩)], 1, [1]) := by decide +kernel
  obtain ⟨h, hrun, heq⟩ := Option.map_eq_some_iff.mp hsome
  obtain ⟨hlive, hcount, hknown⟩ := by simpa only [Prod.mk.injEq] using heq
  refine ⟨by decide +kernel, h, hrun, fun hsound => ?_, hlive, hcount⟩
  -- two live objects are in the slab 1, and it counts one
  have hcounts := hsound.counts 1 (by simp [hknown])
  rw [hcount, hlive] at hcounts
  exact absurd hcounts (by decide)

end EventHeap

end Doppelganger.Weave
