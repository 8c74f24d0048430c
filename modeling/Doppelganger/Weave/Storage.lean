import Doppelganger.Weave.HeapRuns
import Mathlib.Data.List.Pairwise

/-! The storage of an object after it is freed.  A slab is cleared when its last object is freed,
and only then does the allocator use its bytes again; so what an object leaves behind stays as it is
while another object of its slab is live. -/

namespace Doppelganger.Weave

open Function List Lib

section

variable {a a' : SlabAlloc} {known : List Nat} {objs : List Obj} {o o' q : Obj} {fresh sz ptr k :
    Nat}

/-- An object at the top is apart from what is inside the used part of a slab. -/
theorem Obj.Inside.apart_top (h : q.Inside (a.slabs q.slab))
    (hroom : (a.slabs a.curSlab).usedBytes + sz < bufSize) : (Obj.mk a.top sz).Apart q := by
  obtain ⟨-, hhead, hused, hend⟩ := h
  obtain ⟨hslab, hmod⟩ := SlabAlloc.top_slab hroom
  have hused' : q.slab = a.curSlab →
      q.addr % slabSize + q.size ≤ slabHeader + (a.slabs a.curSlab).usedBytes :=
    fun heq => heq ▸ hused
  simp only [Obj.slab, Obj.Apart, slabSize, slabHeader, bufSize] at *
  omega

theorem SlabAlloc.allocCur_of_room (hroom : (a.slabs a.curSlab).usedBytes + sz < bufSize) :
    a.allocCur sz = (some a.top,
      { a with slabs := update a.slabs a.curSlab ((a.slabs a.curSlab).alloc sz).2 }) := by
  simp only [allocCur, Slab.alloc, if_pos hroom]
  rfl

theorem SlabAlloc.allocCur_of_full (hroom : ¬ (a.slabs a.curSlab).usedBytes + sz < bufSize) :
    a.allocCur sz =
      (none, { a with slabs := update a.slabs a.curSlab ((a.slabs a.curSlab).alloc sz).2 }) := by
  simp only [allocCur, Slab.alloc, if_neg hroom]
  rfl

theorem Slab.alloc_usedBytes (s : Slab) (bytes : Nat) :
    s.usedBytes ≤ (s.alloc bytes).2.usedBytes := by
  rw [Slab.alloc]
  split
  case isTrue => exact Nat.le_add_right ..
  case isFalse => exact Nat.le_add_right ..

/-- More of a slab may get used, so what is inside stays inside. -/
theorem Obj.Inside.update {s : Slab} (h : q.Inside (a.slabs q.slab))
    (hle : (a.slabs k).usedBytes ≤ s.usedBytes) : q.Inside (update a.slabs k s q.slab) := by
  by_cases hk : q.slab = k
  case pos =>
    subst hk
    rw [update_self]
    exact h.mono hle
  case neg => rwa [update_of_ne hk]

/-- The next slab is not one that has a live object. -/
theorem LiveIn.allocSlab_slabs (h : LiveIn a known objs) (ho : o ∈ objs) (hfresh : fresh ∉ known) :
    (a.allocSlab fresh).slabs o.slab = a.slabs o.slab := by
  have hne : o.slab ≠ fresh := fun heq => hfresh (heq ▸ (h.inside o ho).1)
  rw [SlabAlloc.allocSlab]
  split
  case h_1 => rfl
  case h_2 => exact update_of_ne hne ..

/-- An allocation is apart from what is inside a slab with a live object, and leaves it inside. -/
theorem LiveIn.alloc_keeps (h : LiveIn a known objs) (hfresh : fresh ∉ known) (hsz : sz < bufSize)
    (ho : o ∈ objs) (hslab : o.slab = q.slab) (hq : q.Inside (a.slabs q.slab))
    (halloc : a.alloc fresh sz = some (ptr, a')) :
    q.Inside (a'.slabs q.slab) ∧ (Obj.mk ptr sz).Apart q := by
  have hlt : sz < slabSize := Nat.lt_of_lt_of_le hsz (Nat.sub_le ..)
  rw [SlabAlloc.alloc, if_pos hlt] at halloc
  by_cases hroom : (a.slabs a.curSlab).usedBytes + sz < bufSize
  case pos =>
    rw [SlabAlloc.allocCur_of_room hroom] at halloc
    simp only [SlabAlloc.checkSlab, Option.ite_none_right_eq_some, Option.some.injEq,
      Prod.mk.injEq] at halloc
    obtain ⟨-, rfl, rfl⟩ := halloc
    exact ⟨hq.update (Slab.alloc_usedBytes ..), hq.apart_top hroom⟩
  case neg =>
    obtain ⟨a1, hfull, h1⟩ := h.allocFull hroom
    obtain ⟨-, hclear⟩ := h1.allocSlab hfresh
    have hq1 : q.Inside (a1.slabs q.slab) := by
      obtain rfl := (Prod.mk.inj ((SlabAlloc.allocCur_of_full hroom).symm.trans hfull)).2
      exact hq.update (Slab.alloc_usedBytes ..)
    have hq2 : q.Inside ((a1.allocSlab fresh).slabs q.slab) := by
      rw [← hslab, h1.allocSlab_slabs ho hfresh, hslab]
      exact hq1
    have hroom2 : ((a1.allocSlab fresh).slabs (a1.allocSlab fresh).curSlab).usedBytes + sz <
        bufSize := by
      rw [hclear]
      simpa [Slab.clear] using hsz
    rw [hfull] at halloc
    simp only [SlabAlloc.allocCur_of_room hroom2, SlabAlloc.checkSlab,
      Option.ite_none_right_eq_some, Option.some.injEq,
      Prod.mk.injEq] at halloc
    obtain ⟨-, rfl, rfl⟩ := halloc
    exact ⟨hq2.update (Slab.alloc_usedBytes ..), hq2.apart_top hroom2⟩

/-- `freeElem` leaves what is inside a slab with another live object. -/
theorem LiveIn.freeElem_keeps (h : LiveIn a known (o :: objs)) (ho : o' ∈ objs)
    (hslab : o'.slab = q.slab) (hq : q.Inside (a.slabs q.slab))
    (hfree : a.freeElem o.addr = some a') : q.Inside (a'.slabs q.slab) := by
  rw [SlabAlloc.freeElem] at hfree
  simp only [show o.addr / slabSize = o.slab from rfl, Option.ite_none_right_eq_some] at hfree
  obtain ⟨-, hfree⟩ := hfree
  by_cases hsame : q.slab = o.slab
  case pos =>
    -- two objects are live in the slab
    have hcount := h.count o.slab (h.inside o (mem_cons_self ..)).1
    rw [countP_cons_of_pos (by simp)] at hcount
    have hpos : 0 < objs.countP fun o' => o'.slab = o.slab :=
      countP_pos_iff.mpr ⟨o', ho, by simp [hslab, hsame]⟩
    rw [if_neg (by omega)] at hfree
    obtain rfl := Option.some.inj hfree
    exact hq.update (Nat.le_refl _)
  case neg =>
    have hq1 (s : Slab) : q.Inside (update a.slabs o.slab s q.slab) := by rwa [update_of_ne hsame]
    split at hfree
    case isTrue =>
      rw [SlabAlloc.freeSlab] at hfree
      simp only [update_idem, Option.ite_none_right_eq_some, Option.some.injEq] at hfree
      obtain ⟨-, rfl⟩ := hfree
      split
      case isTrue => exact hq1 _
      case isFalse => exact hq1 _
    case isFalse =>
      obtain rfl := Option.some.inj hfree
      exact hq1 _

end

namespace EventHeap

variable {ι : Type*} [DecidableEq ι] {h h1 : EventHeap ι} {op : HeapOp ι} {e : ι} {ev : HeapEvent}

/-- What an operation does to the slabs. -/
inductive Uses (h h1 : EventHeap ι) : Prop
  | alloc (name : Name ι) (fresh size ptr : Nat) (fresh_new : fresh ∉ h.known)
      (size_lt : size < bufSize) (new : ¬ h.Given name)
      (alloc : h.slabAlloc.alloc fresh size = some (ptr, h1.slabAlloc))
      (known : h1.known = h.known.insert h1.slabAlloc.curSlab)
      (live : h1.live = (name, ⟨ptr, size⟩) :: h.live)
  | same (slabAlloc : h1.slabAlloc = h.slabAlloc) (known : h1.known = h.known)
      (live : h1.live = h.live)
  | free (o : Name ι × Obj) (mem : o ∈ h.live)
      (free : h.slabAlloc.freeElem o.2.addr = some h1.slabAlloc) (known : h1.known = h.known)
      (live : h1.live = h.live.erase o)

/-- An event stays at its address, and once it is done it stays so. -/
def Stays (h h1 : EventHeap ι) : Prop :=
  ∀ e, ∀ ev ∈ h.events e, ∃ ev1 ∈ h1.events e, ev1.addr = ev.addr ∧
    (ev.state = .DONE → ev1.state = .DONE)

theorem stays_set {h2 : EventHeap ι} {ev1 : HeapEvent} (hev : h.events e = some ev)
    (haddr : ev1.addr = ev.addr) (hdone : ev.state = .DONE → ev1.state = .DONE)
    (hevents : h2.events = h.events) : h.Stays (h2.set e ev1) := by
  intro e' ev' hev'
  by_cases heq : e' = e
  case pos =>
    subst heq
    obtain rfl := Option.some.inj (hev.symm.trans hev')
    exact ⟨ev1, set_events_self, haddr, hdone⟩
  case neg => exact ⟨ev', by rwa [set_events_of_ne heq, hevents], rfl, id⟩

theorem alloc_uses {name : Name ι} {fresh size ptr : Nat} (hfresh : fresh ∉ h.known)
    (hsize : size < bufSize) (hname : ¬ h.Given name) {h2 : EventHeap ι}
    (halloc : h.alloc name fresh size = some (ptr, h2)) (e : ι) (ev : HeapEvent) :
    Uses h (h2.set e ev) ∧ h2.events = h.events := by
  obtain ⟨⟨ptr', a⟩, ha, heq⟩ := Option.map_eq_some_iff.mp halloc
  obtain ⟨rfl, rfl⟩ := Prod.mk.inj heq
  exact ⟨.alloc name fresh size ptr' hfresh hsize hname ha rfl rfl, rfl⟩

theorem Inv.freeElem_uses (h' : h.Inv) {o : Name ι × Obj} (ho : o ∈ h.live) {h2 : EventHeap ι}
    (hfree : h.freeElem o.2.addr = some h2) (e : ι) (ev : HeapEvent) :
    Uses h (h2.set e ev) ∧ h2.events = h.events := by
  obtain ⟨a, hsome, -⟩ := h'.freeElem ho
  obtain rfl := Option.some.inj (hsome.symm.trans hfree)
  obtain ⟨a', ha', heq⟩ := Option.map_eq_some_iff.mp hsome
  have hsame : a' = a := by
    split at heq
    case h_1 => exact congrArg EventHeap.slabAlloc heq
    case h_2 => exact congrArg EventHeap.slabAlloc heq
  exact ⟨.free o ho (hsame ▸ ha') rfl rfl, rfl⟩

/-- What an allowed operation does. -/
theorem Inv.step_uses (h' : h.Inv) (hok : Allowed op h) (hsrc : NoSrcDone op h)
    (hstep : EventHeap.step op h = some h1) : Uses h h1 ∧ h.Stays h1 := by
  cases op with
  | new e fresh size src =>
    obtain ⟨hfresh, hnone, ⟨-, hsize⟩, -⟩ := hok
    obtain ⟨⟨ptr, h2⟩, halloc, rfl⟩ := Option.map_eq_some_iff.mp hstep
    obtain ⟨huses, hevents⟩ :=
      alloc_uses hfresh hsize (by simp [Given, hnone]) halloc e _
    refine ⟨huses, fun e' ev' hev' => ?_⟩
    have hne : e' ≠ e := by
      rintro rfl
      rw [hnone] at hev'
      cases hev'
    exact ⟨ev', by rw [set_events_of_ne hne, hevents]; exact hev', rfl, id⟩
  | addChild e fresh =>
    obtain ⟨hfresh, ev, hev, hstate⟩ := hok
    rw [EventHeap.step, EventHeap.addChild, hev, Option.bind_some, if_pos hstate] at hstep
    split at hstep
    case isTrue =>
      obtain ⟨⟨ptr, h2⟩, halloc, rfl⟩ := Option.map_eq_some_iff.mp hstep
      have hname : ¬ h.Given (.block e ev.children.length) := by
        rintro ⟨ev', hev', hlt⟩
        obtain rfl := Option.some.inj (hev.symm.trans hev')
        exact Nat.lt_irrefl _ hlt
      obtain ⟨huses, hevents⟩ := alloc_uses hfresh (by decide) hname halloc e _
      exact ⟨huses, stays_set hev rfl id hevents⟩
    case isFalse =>
      obtain rfl := Option.some.inj hstep
      exact ⟨.same rfl rfl rfl, stays_set hev rfl id rfl⟩
  | move e state =>
    obtain ⟨ev, hev, hmoves⟩ := hok
    rw [EventHeap.step, EventHeap.move, hev, Option.bind_some, if_pos hmoves] at hstep
    obtain rfl := Option.some.inj hstep
    exact ⟨.same rfl rfl rfl,
      stays_set hev rfl (fun hd => absurd hd (Moves.not_done hmoves).1) rfl⟩
  | done e =>
    obtain ⟨ev, hev, hstate, -⟩ := hok
    rw [EventHeap.step, EventHeap.done, hev, Option.bind_some, if_pos hstate] at hstep
    obtain rfl := Option.some.inj hstep
    exact ⟨.same rfl rfl rfl, stays_set hev rfl (fun _ => rfl) rfl⟩
  | freeNext e =>
    obtain ⟨ev, hev, hstate, hne⟩ := hok
    obtain ⟨ptr, toFree, hcons⟩ := exists_cons_of_ne_nil hne
    obtain ⟨o, ho, -, rfl⟩ := (h'.owned e ev hev).2 ptr (by simp [HeapEvent.objects, hstate, hcons])
    rw [EventHeap.step, EventHeap.freeNext, hev, Option.bind_some, hcons] at hstep
    obtain ⟨h2, hfree, rfl⟩ := Option.map_eq_some_iff.mp hstep
    obtain ⟨huses, hevents⟩ := h'.freeElem_uses ho hfree e _
    exact ⟨huses, stays_set hev rfl (fun _ => hstate) hevents⟩
  | srcDone e => exact hsrc.elim

/-- The storage `q` of the event `m` is in the used part of its slab, and no other live object has a
byte of it. -/
structure Kept (h : EventHeap ι) (m : ι) (q : Obj) : Prop where
  known : q.slab ∈ h.known
  given : (h.events m).isSome
  inside : q.Inside (h.slabAlloc.slabs q.slab)
  apart : ∀ o ∈ h.live, o.1 ≠ .event m → o.2.Apart q

omit [DecidableEq ι] in
/-- A live object is kept. -/
theorem Inv.kept {m : ι} {q : Obj} (h' : h.Inv) (hq : (.event m, q) ∈ h.live) : h.Kept m q where
  known := (h'.slabs.inside q (mem_map.mpr ⟨_, hq, rfl⟩)).1
  given := h'.given (.event m) (mem_append_left _ (mem_map.mpr ⟨_, hq, rfl⟩))
  inside := (h'.slabs.inside q (mem_map.mpr ⟨_, hq, rfl⟩)).2
  apart o ho hne := by
    have : Std.Symm fun o o' : Name ι × Obj => o.2.Apart o'.2 := ⟨fun _ _ => Obj.Apart.symm⟩
    exact (pairwise_map.mp h'.slabs.apart).forall ho hq fun heq => hne (by rw [heq])

/-- The storage of an event is kept by an operation when some other object of its slab stays live.
-/
theorem Kept.step {m : ι} {q : Obj} (hk : h.Kept m q) (h' : h.Inv) (hok : Allowed op h)
    (hsrc : NoSrcDone op h) (hstep : EventHeap.step op h = some h1) {o : Name ι × Obj}
    (ho : o ∈ h.live) (ho1 : o ∈ h1.live) (hslab : o.2.slab = q.slab) : h1.Kept m q := by
  obtain ⟨huses, hstays⟩ := h'.step_uses hok hsrc hstep
  have hgiven : (h1.events m).isSome := by
    obtain ⟨ev, hev⟩ := Option.isSome_iff_exists.mp hk.given
    obtain ⟨ev1, hev1, -⟩ := hstays m ev hev
    exact Option.isSome_iff_exists.mpr ⟨ev1, hev1⟩
  cases huses with
  | alloc name fresh size ptr hfresh hsize hnew halloc hknown hlive =>
    obtain ⟨hin, hapart⟩ := h'.slabs.alloc_keeps hfresh hsize
      (mem_map_of_mem ho) hslab hk.inside halloc
    refine ⟨?_, hgiven, hin, fun o' ho' hne => ?_⟩
    · rw [hknown]
      exact mem_insert_of_mem hk.known
    · rw [hlive] at ho'
      rcases mem_cons.mp ho' with rfl | ho'
      · exact hapart
      · exact hk.apart o' ho' hne
  | same hslabs hknown hlive =>
    exact ⟨hknown ▸ hk.known, hgiven, hslabs ▸ hk.inside, hlive ▸ hk.apart⟩
  | free o' ho' hfree hknown hlive =>
    rw [hlive] at ho1
    have hlives := h'.slabs.perm ((perm_cons_erase ho').map Prod.snd)
    refine ⟨hknown ▸ hk.known, hgiven,
      hlives.freeElem_keeps (mem_map_of_mem ho1) hslab hk.inside hfree, fun o1 h1mem => ?_⟩
    rw [hlive] at h1mem
    exact hk.apart o1 (mem_of_mem_erase h1mem)

end EventHeap

end Doppelganger.Weave
