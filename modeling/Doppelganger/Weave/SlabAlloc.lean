import Mathlib.Data.List.Perm.Subperm
import Mathlib.Logic.Function.Basic

/-! The slab allocator of `slab_alloc.h`.  An object is at an address, and the slab of an address is
found by its upper bits.  An operation is `none` when an assertion fails. -/

namespace Doppelganger.Weave

open Function List

/-- `SLAB_SIZE` -/
abbrev slabSize : Nat := 65536

/-- The bytes of a `Slab` before its `buf`. -/
abbrev slabHeader : Nat := 16

/-- `sizeof(buf)` -/
abbrev bufSize : Nat := slabSize - slabHeader

structure Slab where
  liveElems : Nat
  usedBytes : Nat
deriving DecidableEq, Repr

/-- `Slab::clear` -/
def Slab.clear : Slab := ⟨0, 0⟩

/-- The offset in `buf`, and the slab, whose `usedBytes` grows also when there is no room. -/
def Slab.alloc (bytes : Nat) (s : Slab) : Option Nat × Slab :=
  if s.usedBytes + bytes < bufSize then (some s.usedBytes, ⟨s.liveElems + 1, s.usedBytes + bytes⟩)
  else (none, { s with usedBytes := s.usedBytes + bytes })

/-- `SlabAlloc`.  A slab is known by the upper bits of its address, and the back of `freeList` comes
first. -/
structure SlabAlloc where
  slabs : Nat → Slab
  curSlab : Nat
  freeList : List Nat
  liveSlabs : Nat

namespace SlabAlloc

/-- `fresh` is the slab that `gm_memalign` would return. -/
def allocSlab (fresh : Nat) (a : SlabAlloc) : SlabAlloc :=
  match a.freeList with
  | k :: freeList => { a with curSlab := k, freeList := freeList, liveSlabs := a.liveSlabs + 1 }
  | [] => { a with
    slabs := update a.slabs fresh .clear
    curSlab := fresh
    liveSlabs := a.liveSlabs + 1 }

/-- The constructor. -/
def init (fresh : Nat) : SlabAlloc := allocSlab fresh ⟨fun _ => .clear, 0, [], 0⟩

/-- `Slab::alloc` in the current slab. -/
def allocCur (sz : Nat) (a : SlabAlloc) : Option Nat × SlabAlloc :=
  let (offset, slab) := (a.slabs a.curSlab).alloc sz
  (offset.map (a.curSlab * slabSize + slabHeader + ·),
    { a with slabs := update a.slabs a.curSlab slab })

/-- The last assertion of `alloc`. -/
def checkSlab (ptr : Nat) (a : SlabAlloc) : Option (Nat × SlabAlloc) :=
  if ptr / slabSize = a.curSlab then some (ptr, a) else none

def alloc (fresh sz : Nat) (a : SlabAlloc) : Option (Nat × SlabAlloc) :=
  if sz < slabSize then
    match a.allocCur sz with
    | (some ptr, a) => a.checkSlab ptr
    | (none, a) =>
      match (a.allocSlab fresh).allocCur sz with
      | (some ptr, a) => a.checkSlab ptr
      | (none, _) => none
  else none

def freeSlab (k : Nat) (a : SlabAlloc) : Option SlabAlloc :=
  let a := { a with slabs := update a.slabs k .clear }
  let a := if k ≠ a.curSlab then
      { a with freeList := k :: a.freeList, liveSlabs := a.liveSlabs - 1 }
    else a
  if a.liveSlabs ≠ 0 then some a else none

/-- `Slab::freeElem` of the slab of `elem`. -/
def freeElem (elem : Nat) (a : SlabAlloc) : Option SlabAlloc :=
  let k := elem / slabSize
  let prevLiveElems := (a.slabs k).liveElems
  if prevLiveElems ≠ 0 ∧ prevLiveElems < (a.slabs k).usedBytes then
    let a := { a with
      slabs := update a.slabs k { a.slabs k with liveElems := prevLiveElems - 1 } }
    if prevLiveElems = 1 then a.freeSlab k else some a
  else none

end SlabAlloc

/-! ### The objects of the slabs -/

structure Obj where
  addr : Nat
  size : Nat
deriving DecidableEq, Repr

def Obj.slab (o : Obj) : Nat := o.addr / slabSize

/-- Two objects have no byte in common. -/
def Obj.Apart (o o' : Obj) : Prop := o.addr + o.size ≤ o'.addr ∨ o'.addr + o'.size ≤ o.addr

/-- The object is in the used part of its slab. -/
def Obj.Inside (o : Obj) (s : Slab) : Prop :=
  2 ≤ o.size ∧ slabHeader ≤ o.addr % slabSize ∧
    o.addr % slabSize + o.size ≤ slabHeader + s.usedBytes ∧ o.addr % slabSize + o.size ≤ slabSize

/-- The objects `objs` are live in the slabs `known`. -/
structure LiveIn (a : SlabAlloc) (known : List Nat) (objs : List Obj) : Prop where
  inside : ∀ o ∈ objs, o.slab ∈ known ∧ o.Inside (a.slabs o.slab)
  apart : objs.Pairwise Obj.Apart
  count : ∀ k ∈ known, (a.slabs k).liveElems = objs.countP fun o => o.slab = k
  bytes : ∀ k ∈ known, 2 * (a.slabs k).liveElems ≤ (a.slabs k).usedBytes
  free : ∀ k ∈ a.freeList, a.slabs k = .clear
  nodup : (a.curSlab :: a.freeList).Nodup
  subset : ∀ k ∈ a.curSlab :: a.freeList, k ∈ known
  number : a.liveSlabs + a.freeList.length = known.length
  known : known.Nodup

section

variable {a : SlabAlloc} {known : List Nat} {objs objs' : List Obj} {o : Obj}

theorem Obj.Apart.symm {o o' : Obj} (h : o.Apart o') : o'.Apart o := Or.symm h

theorem LiveIn.perm (h : LiveIn a known objs) (hobjs : objs.Perm objs') :
    LiveIn a known objs' where
  inside o ho := h.inside o (hobjs.mem_iff.mpr ho)
  apart := (hobjs.pairwise_iff Obj.Apart.symm).mp h.apart
  count k hk := (h.count k hk).trans (hobjs.countP_eq _)
  bytes := h.bytes
  free := h.free
  nodup := h.nodup
  subset := h.subset
  number := h.number
  known := h.known

/-- No two objects are at one address. -/
theorem LiveIn.addr_nodup (h : LiveIn a known objs) : (objs.map Obj.addr).Nodup := by
  refine pairwise_map.mpr (h.apart.imp_of_mem fun {o o'} ho ho' hapart heq => ?_)
  have hsize := (h.inside o ho).2.1
  have hsize' := (h.inside o' ho').2.1
  rw [Obj.Apart, heq] at hapart
  omega

/-- A slab that has an object is not in `freeList`. -/
theorem LiveIn.not_free (h : LiveIn a known (o :: objs)) : o.slab ∉ a.freeList := by
  intro hfree
  have hcount := h.count o.slab (h.inside o (mem_cons_self ..)).1
  rw [h.free _ hfree] at hcount
  simp [Slab.clear] at hcount

/-- A slab that is in use changes, with the objects in it. -/
theorem LiveIn.setSlab (h : LiveIn a known objs) {k : Nat} {s : Slab} (hk : k ∈ known)
    (hfree : k ∉ a.freeList) (hapart : objs'.Pairwise Obj.Apart)
    (hinside : ∀ o ∈ objs', if o.slab = k then o.Inside s else o ∈ objs)
    (hcount : ∀ k' ∈ known, objs'.countP (fun o => o.slab = k') =
      if k' = k then s.liveElems else objs.countP fun o => o.slab = k')
    (hbytes : 2 * s.liveElems ≤ s.usedBytes) :
    LiveIn { a with slabs := update a.slabs k s } known objs' where
  inside o ho := by
    have hin := hinside o ho
    by_cases hslab : o.slab = k
    · rw [if_pos hslab] at hin
      exact ⟨hslab ▸ hk, by simpa [hslab] using hin⟩
    · rw [if_neg hslab] at hin
      exact ⟨(h.inside o hin).1, by simpa [hslab] using (h.inside o hin).2⟩
  apart := hapart
  count k' hk' := by
    rw [hcount k' hk', ← h.count k' hk']
    by_cases hsame : k' = k
    · simp [hsame]
    · simp [hsame]
  bytes k' hk' := by
    by_cases hsame : k' = k
    · simpa [hsame] using hbytes
    · simpa [hsame] using h.bytes k' hk'
  free k' hk' := by
    have hne : k' ≠ k := fun heq => hfree (heq ▸ hk')
    simpa [hne] using h.free k' hk'
  nodup := h.nodup
  subset := h.subset
  number := h.number
  known := h.known

/-- The slab of an object has one object less. -/
theorem LiveIn.lower (h : LiveIn a known (o :: objs)) {s : Slab}
    (hlive : s.liveElems + 1 = (a.slabs o.slab).liveElems)
    (hinside : ∀ o' ∈ objs, o'.slab = o.slab → o'.Inside s)
    (hbytes : 2 * s.liveElems ≤ s.usedBytes) :
    LiveIn { a with slabs := update a.slabs o.slab s } known objs := by
  have hknown := (h.inside o (mem_cons_self ..)).1
  refine h.setSlab hknown h.not_free (pairwise_cons.mp h.apart).2 (fun o' ho' => ?_)
    (fun k hk => ?_) hbytes
  · split
    next hslab => exact hinside o' ho' hslab
    next => exact mem_cons_of_mem _ ho'
  · rw [countP_cons]
    split
    next hsame =>
      have hcount := h.count o.slab hknown
      rw [countP_cons_of_pos (by simp)] at hcount
      rw [hsame]
      omega
    next hother => simp [Ne.symm hother]

theorem LiveIn.liveSlabs_pos (h : LiveIn a known objs) : 0 < a.liveSlabs := by
  have hle := (subperm_of_subset h.nodup fun k hk => h.subset k hk).length_le
  have hnumber := h.number
  rw [length_cons] at hle
  omega

/-- A cleared slab that is not the current one goes to `freeList`. -/
theorem LiveIn.freed {k : Nat} (h : LiveIn a known objs) (hk : k ∈ known)
    (hclear : a.slabs k = .clear) (hfree : k ∉ a.freeList) (hcur : k ≠ a.curSlab) :
    LiveIn { a with freeList := k :: a.freeList, liveSlabs := a.liveSlabs - 1 } known objs ∧
      a.liveSlabs - 1 ≠ 0 := by
  have hnodup : (a.curSlab :: k :: a.freeList).Nodup := by
    obtain ⟨hnot, hrest⟩ := nodup_cons.mp h.nodup
    simp [hcur.symm, hnot, hfree, hrest]
  have hsubset : ∀ k' ∈ a.curSlab :: k :: a.freeList, k' ∈ known := by
    have hold := h.subset
    simp only [mem_cons, forall_eq_or_imp] at hold ⊢
    exact ⟨hold.1, hk, hold.2⟩
  have hle := (subperm_of_subset hnodup fun k' hk' => hsubset k' hk').length_le
  have hnumber := h.number
  simp only [length_cons] at hle
  refine ⟨⟨h.inside, h.apart, h.count, h.bytes, fun k' hk' => ?_, hnodup, hsubset, ?_, h.known⟩,
    by omega⟩
  · rcases mem_cons.mp hk' with rfl | hk'
    · exact hclear
    · exact h.free k' hk'
  · show a.liveSlabs - 1 + (k :: a.freeList).length = known.length
    rw [length_cons]
    omega

/-- The last object of a slab makes room for others, and any other one leaves the slab as it is. -/
theorem LiveIn.freeElem (h : LiveIn a known (o :: objs)) :
    ∃ a', a.freeElem o.addr = some a' ∧ LiveIn a' known objs := by
  have hknown := (h.inside o (mem_cons_self ..)).1
  have hcount := h.count o.slab hknown
  have hbytes := h.bytes o.slab hknown
  rw [countP_cons_of_pos (by simp)] at hcount
  have hprev : (a.slabs o.slab).liveElems ≠ 0 ∧
      (a.slabs o.slab).liveElems < (a.slabs o.slab).usedBytes := by omega
  rw [SlabAlloc.freeElem]
  simp only [show o.addr / slabSize = o.slab from rfl, if_pos hprev]
  by_cases hlast : (a.slabs o.slab).liveElems = 1
  · rw [if_pos hlast, SlabAlloc.freeSlab]
    simp only [update_idem]
    have hnone : ∀ o' ∈ objs, o'.slab ≠ o.slab := by
      have hzero : objs.countP (fun o' => o'.slab = o.slab) = 0 := by omega
      simpa using countP_eq_zero.mp hzero
    have hlower := h.lower (s := .clear) hlast.symm
      (fun o' ho' heq => absurd heq (hnone o' ho')) (Nat.le_refl _)
    by_cases hcur : o.slab = a.curSlab
    · simp only [hcur, ne_eq, not_true, if_false]
      exact ⟨_, if_pos (Nat.ne_of_gt hlower.liveSlabs_pos), hcur ▸ hlower⟩
    · simp only [if_pos hcur]
      obtain ⟨hfreed, hpos⟩ := hlower.freed hknown (by simp) h.not_free hcur
      exact ⟨_, if_pos hpos, hfreed⟩
  · rw [if_neg hlast]
    refine ⟨_, rfl, h.lower ?_ (fun o' ho' heq => ?_) ?_⟩
    · simp only
      omega
    · have hin := (h.inside o' (mem_cons_of_mem _ ho')).2
      rw [heq] at hin
      exact hin
    · simp only
      omega

/-- The place in the current slab after what is used there. -/
def SlabAlloc.top (a : SlabAlloc) : Nat :=
  a.curSlab * slabSize + slabHeader + (a.slabs a.curSlab).usedBytes

theorem LiveIn.curSlab_known (h : LiveIn a known objs) : a.curSlab ∈ known :=
  h.subset _ (mem_cons_self ..)

theorem SlabAlloc.top_slab {sz : Nat} (hroom : (a.slabs a.curSlab).usedBytes + sz < bufSize) :
    a.top / slabSize = a.curSlab ∧
      a.top % slabSize = slabHeader + (a.slabs a.curSlab).usedBytes := by
  simp only [top, slabSize, slabHeader, bufSize] at hroom ⊢
  omega

/-- An object at the top is apart from those below it and from those of other slabs. -/
theorem LiveIn.apart_top (h : LiveIn a known objs) {sz : Nat}
    (hroom : (a.slabs a.curSlab).usedBytes + sz < bufSize) :
    ∀ o ∈ objs, (Obj.mk a.top sz).Apart o := by
  intro o ho
  obtain ⟨-, -, hhead, hused, hend⟩ := h.inside o ho
  obtain ⟨hslab, hmod⟩ := SlabAlloc.top_slab hroom
  have hused' : o.slab = a.curSlab →
      o.addr % slabSize + o.size ≤ slabHeader + (a.slabs a.curSlab).usedBytes :=
    fun heq => heq ▸ hused
  simp only [Obj.slab, Obj.Apart, slabSize, slabHeader, bufSize] at *
  omega

theorem LiveIn.curSlab_not_free (h : LiveIn a known objs) : a.curSlab ∉ a.freeList :=
  (nodup_cons.mp h.nodup).1

/-- An object stays inside when more of its slab is used. -/
theorem Obj.Inside.mono {s s' : Slab} (h : o.Inside s) (hle : s.usedBytes ≤ s'.usedBytes) :
    o.Inside s' := by
  obtain ⟨hsize, hhead, hused, hend⟩ := h
  exact ⟨hsize, hhead, by omega, hend⟩

/-- There is room in the current slab. -/
theorem LiveIn.allocCur (h : LiveIn a known objs) {sz : Nat} (hsz : 2 ≤ sz)
    (hroom : (a.slabs a.curSlab).usedBytes + sz < bufSize) :
    ∃ a', a.allocCur sz = (some a.top, a') ∧ a'.curSlab = a.curSlab ∧
      LiveIn a' known (⟨a.top, sz⟩ :: objs) := by
  obtain ⟨htop, hmod⟩ := SlabAlloc.top_slab hroom
  have hslab : (Obj.mk a.top sz).slab = a.curSlab := by rw [Obj.slab, htop]
  have hcount := h.count _ h.curSlab_known
  have hbytes := h.bytes _ h.curSlab_known
  refine ⟨{ a with slabs := update a.slabs a.curSlab ⟨(a.slabs a.curSlab).liveElems + 1,
    (a.slabs a.curSlab).usedBytes + sz⟩ }, ?_, rfl, h.setSlab h.curSlab_known h.curSlab_not_free
    (pairwise_cons.mpr ⟨h.apart_top hroom, h.apart⟩) (fun o ho => ?_) (fun k hk => ?_) ?_⟩
  · simp only [SlabAlloc.allocCur, Slab.alloc, if_pos hroom]
    rfl
  · rcases mem_cons.mp ho with rfl | ho
    · rw [if_pos hslab]
      simp only [Obj.Inside, hmod, slabHeader, bufSize, slabSize] at hroom ⊢
      omega
    · split
      next hcur =>
        have hin := (h.inside o ho).2
        rw [hcur] at hin
        exact hin.mono (Nat.le_add_right ..)
      next => exact ho
  · by_cases hsame : k = a.curSlab
    · rw [if_pos hsame, hsame, countP_cons_of_pos (by simp [hslab]), hcount]
    · rw [if_neg hsame, countP_cons_of_neg (by simp [hslab, Ne.symm hsame])]
  · simp only
    omega

/-- There is no room, and `usedBytes` keeps the current slab from being used. -/
theorem LiveIn.allocFull (h : LiveIn a known objs) {sz : Nat}
    (hroom : ¬(a.slabs a.curSlab).usedBytes + sz < bufSize) :
    ∃ a', a.allocCur sz = (none, a') ∧ LiveIn a' known objs := by
  have hcount := h.count _ h.curSlab_known
  have hbytes := h.bytes _ h.curSlab_known
  refine ⟨{ a with slabs := update a.slabs a.curSlab { a.slabs a.curSlab with
    usedBytes := (a.slabs a.curSlab).usedBytes + sz } }, ?_, h.setSlab h.curSlab_known
    h.curSlab_not_free h.apart (fun o ho => ?_) (fun k hk => ?_) ?_⟩
  · simp only [SlabAlloc.allocCur, Slab.alloc, if_neg hroom]
    rfl
  · split
    next hcur =>
      have hin := (h.inside o ho).2
      rw [hcur] at hin
      exact hin.mono (Nat.le_add_right ..)
    next => exact ho
  · split
    next hsame => rw [hsame, hcount]
    next => rfl
  · simp only
    omega

/-- The new current slab has no object. -/
theorem LiveIn.allocSlab {fresh : Nat} (h : LiveIn a known objs) (hfresh : fresh ∉ known) :
    LiveIn (a.allocSlab fresh) (known.insert (a.allocSlab fresh).curSlab) objs ∧
      (a.allocSlab fresh).slabs (a.allocSlab fresh).curSlab = .clear := by
  have hnumber := h.number
  have hnodup := (nodup_cons.mp h.nodup).2
  rw [SlabAlloc.allocSlab]
  cases hfree : a.freeList with
  | nil =>
    rw [hfree] at hnumber
    have hout : ∀ o ∈ objs, o.slab ≠ fresh := fun o ho heq => hfresh (heq ▸ (h.inside o ho).1)
    simp only [insert_of_not_mem hfresh, update_self, and_true]
    refine ⟨fun o ho => ?_, h.apart, fun k hk => ?_, fun k hk => ?_, by simp, by simp, by simp, ?_,
      nodup_cons.mpr ⟨hfresh, h.known⟩⟩
    · obtain ⟨hmem, hin⟩ := h.inside o ho
      exact ⟨mem_cons_of_mem _ hmem, by simpa [hout o ho] using hin⟩
    · rcases mem_cons.mp hk with rfl | hk
      · simp only [update_self]
        exact (countP_eq_zero.mpr (by simpa using hout)).symm
      · have hkf : k ≠ fresh := fun heq => hfresh (heq ▸ hk)
        simpa [hkf] using h.count k hk
    · rcases mem_cons.mp hk with rfl | hk
      · simp [Slab.clear]
      · have hkf : k ≠ fresh := fun heq => hfresh (heq ▸ hk)
        simpa [hkf] using h.bytes k hk
    · simp only [length_cons, length_nil] at hnumber ⊢
      omega
  | cons k rest =>
    have hk : k ∈ known := h.subset k (by simp [hfree])
    rw [hfree] at hnumber hnodup
    simp only [insert_of_mem hk]
    refine ⟨⟨h.inside, h.apart, h.count, h.bytes, fun k' hk' => h.free k' (by simp [hfree, hk']),
      hnodup, fun k' hk' => h.subset k' (by simp [hfree, mem_cons.mp hk']), ?_, h.known⟩,
      h.free k (by simp [hfree])⟩
    simp only [length_cons] at hnumber ⊢
    omega

/-- An object of a size for which an empty slab has room is allocated. -/
theorem LiveIn.alloc {fresh sz : Nat} (h : LiveIn a known objs) (hfresh : fresh ∉ known)
    (hsz : 2 ≤ sz ∧ sz < bufSize) :
    ∃ ptr a', a.alloc fresh sz = some (ptr, a') ∧
      LiveIn a' (known.insert a'.curSlab) (⟨ptr, sz⟩ :: objs) := by
  have hlt : sz < slabSize := by
    simp only [bufSize, slabSize, slabHeader] at hsz ⊢
    omega
  rw [SlabAlloc.alloc, if_pos hlt]
  by_cases hroom : (a.slabs a.curSlab).usedBytes + sz < bufSize
  · obtain ⟨a', hcur, hsame, h'⟩ := h.allocCur hsz.1 hroom
    refine ⟨a.top, a', ?_, ?_⟩
    · simp only [hcur]
      rw [SlabAlloc.checkSlab, if_pos ((SlabAlloc.top_slab hroom).1.trans hsame.symm)]
    · rwa [hsame, insert_of_mem h.curSlab_known]
  · obtain ⟨a1, hfull, h1⟩ := h.allocFull hroom
    obtain ⟨h2, hclear⟩ := h1.allocSlab hfresh
    have hroom2 : ((a1.allocSlab fresh).slabs (a1.allocSlab fresh).curSlab).usedBytes + sz <
        bufSize := by
      rw [hclear]
      simpa [Slab.clear] using hsz.2
    obtain ⟨a', hcur, hsame, h'⟩ := h2.allocCur hsz.1 hroom2
    refine ⟨(a1.allocSlab fresh).top, a', ?_, hsame ▸ h'⟩
    simp only [hfull, hcur]
    rw [SlabAlloc.checkSlab, if_pos ((SlabAlloc.top_slab hroom2).1.trans hsame.symm)]

theorem init_liveIn (fresh : Nat) : LiveIn (.init fresh) [fresh] [] :=
  ⟨by simp, .nil, by simp [SlabAlloc.init, SlabAlloc.allocSlab, Slab.clear],
    by simp [SlabAlloc.init, SlabAlloc.allocSlab, Slab.clear],
    by simp [SlabAlloc.init, SlabAlloc.allocSlab], by simp [SlabAlloc.init, SlabAlloc.allocSlab],
    by simp [SlabAlloc.init, SlabAlloc.allocSlab], rfl, by simp⟩

end

end Doppelganger.Weave
