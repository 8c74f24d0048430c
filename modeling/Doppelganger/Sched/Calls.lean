import Doppelganger.Sched.RunList

/-! The calls of the barrier on a list in order: each changes the state of one thread, and then
wakes others.  A thread that leaves while it waits may have an old `lastIdx`; when none does, the
list stays in order in every run. -/

namespace Doppelganger.Sched

open Function List Lib

section

variable {b b' : Barrier} {t : Nat} {info : ThreadSyncInfo}

/-! ### Threads that change their state -/

/-- A thread of the list changes its state, and the counters follow. -/
theorem Listed.change (h : Listed b) (hmem : t ∈ b.runList) (hlist : b'.runList = b.runList)
    (hthreads : b'.threadList = update b.threadList t info) (hin : info.state ≠ .OFFLINE)
    (hrunning : b'.runningThreads + (if b.states t = .RUNNING then 1 else 0) =
      b.runningThreads + (if info.state = .RUNNING then 1 else 0))
    (hleft : b'.leftThreads + (if b.states t = .LEFT then 1 else 0) =
      b.leftThreads + (if info.state = .LEFT then 1 else 0))
    (hcursor : b'.curThreadIdx ≤ b.runList.length)
    (hplaced : info.state = .LEFT ∨ info.state = .RUNNING → b.runList[info.lastIdx]? = some t)
    (hfutex : info.state = .WAITING → info.futexWord = 1) : Listed b' := by
  have hstates : b'.states = update b.states t info.state := by
    rw [← b.states_setThread t info]
    funext u
    simp only [Barrier.states, hthreads, Barrier.setThread]
  have hnumber : ∀ st, b'.number st = (b.setThread t info).number st := by
    intro st
    rw [Barrier.number, Barrier.number, hlist, hstates, Barrier.states_setThread]
    rfl
  refine ⟨⟨hlist ▸ h.nodup, fun u => ?_, ?_, ?_, hlist ▸ hcursor, fun u hu => ?_⟩, fun u hu => ?_⟩
  · rw [hstates, hlist]
    by_cases hu : u = t
    · subst hu
      simpa [hmem] using hin
    · rw [update_of_ne hu, h.mem]
  · have hn := h.number_setThread hmem info .RUNNING
    have hb := h.running
    rw [hnumber]
    omega
  · have hn := h.number_setThread hmem info .LEFT
    have hb := h.left
    rw [hnumber]
    omega
  · rw [Barrier.Placed, hlist, hthreads]
    rw [hstates] at hu
    by_cases hut : u = t
    · subst hut
      rw [update_self] at hu ⊢
      exact hplaced hu
    · rw [update_of_ne hut] at hu ⊢
      exact h.placed u hu
  · rw [hthreads]
    rw [hstates] at hu
    by_cases hut : u = t
    · subst hut
      rw [update_self] at hu ⊢
      exact hfutex hu
    · rw [update_of_ne hut] at hu ⊢
      exact h.futex u hu

/-- A thread that is not in the list comes in at its end, to wait. -/
theorem Listed.append (h : Listed b) (ht : b.states t = .OFFLINE) (hw : info.state = .WAITING)
    (hfutex : info.futexWord = 1) (trace : List Entry) :
    Listed { b.setThread t info with runList := b.runList ++ [t], trace := trace } := by
  have hnot : t ∉ b.runList := fun hmem => (h.mem t).mp hmem ht
  have hstates : ∀ st, st ≠ .WAITING →
      countP (fun u => update b.states t info.state u = st) (b.runList ++ [t]) = b.number st := by
    intro st hst
    have hsame : countP (fun u => update b.states t info.state u = st) b.runList = b.number st := by
      refine countP_congr fun u hu => ?_
      rw [update_of_ne fun h : u = t => hnot (by rwa [h] at hu)]
    rw [countP_append, hsame]
    simp [hw, hst.symm]
  have hnew := b.states_setThread t info
  refine ⟨⟨?_, fun u => ?_, ?_, ?_, ?_, fun u hu => ?_⟩, fun u hu => ?_⟩
  · exact h.nodup.append (nodup_singleton t) (by simpa using hnot)
  · show u ∈ b.runList ++ [t] ↔ (b.setThread t info).states u ≠ .OFFLINE
    rw [hnew, mem_append, mem_singleton]
    by_cases hu : u = t
    · subst hu
      simp [hw]
    · simp [hu, h.mem]
  · show b.runningThreads = countP (fun u => (b.setThread t info).states u = .RUNNING) _
    rw [hnew, hstates _ (by simp)]
    exact h.running
  · show b.leftThreads = countP (fun u => (b.setThread t info).states u = .LEFT) _
    rw [hnew, hstates _ (by simp)]
    exact h.left
  · show b.curThreadIdx ≤ (b.runList ++ [t]).length
    have hcur := h.cursor
    rw [length_append]
    omega
  · have hu : (b.setThread t info).states u = .LEFT ∨ (b.setThread t info).states u = .RUNNING := hu
    rw [hnew] at hu
    by_cases hut : u = t
    · subst hut
      simp [hw] at hu
    · rw [update_of_ne hut] at hu
      have hplaced := h.placed u hu
      have hlt := (List.getElem?_eq_some_iff.mp hplaced).1
      show (b.runList ++ [t])[(update b.threadList t info u).lastIdx]? = some u
      rw [update_of_ne hut, getElem?_append_left hlt]
      exact hplaced
  · have hu : (b.setThread t info).states u = .WAITING := hu
    rw [hnew] at hu
    show (update b.threadList t info u).futexWord = 1
    by_cases hut : u = t
    · subst hut
      simpa using hfutex
    · rw [update_of_ne hut] at hu ⊢
      exact h.futex u hu

/-! ### Waking threads -/

theorem Listed.wake (h : Listed b) (ht : b.runList[b.curThreadIdx]? = some t)
    (hw : b.states t = .WAITING) : Listed (b.wake t) := by
  have hlt := (List.getElem?_eq_some_iff.mp ht).1
  refine h.change (mem_of_getElem? ht) rfl rfl (by simp) ?_ ?_ hlt (fun _ => ht) (by simp)
  · simp [hw, Barrier.wake]
  · simp [hw, Barrier.wake]
    rfl

theorem Listed.skip (h : Listed b) (hlt : b.curThreadIdx < b.runList.length) : Listed b.skip :=
  ⟨⟨h.nodup, h.mem, h.running, h.left, hlt, h.placed⟩, h.futex⟩

/-- A property of lists in order that one round of `checkRunList` keeps. -/
structure Keeps (p : Nat) (P : Barrier → Prop) : Prop where
  listed : ∀ {b}, P b → Listed b
  wake : ∀ {b t}, P b → b.runList[b.curThreadIdx]? = some t → b.states t = .WAITING →
    b.runningThreads < p → P (b.wake t)
  skip : ∀ {b t}, P b → b.runList[b.curThreadIdx]? = some t → b.states t ≠ .WAITING → P b.skip

theorem wakeLoop_keeps {p : Nat} {P : Barrier → Prop} (hP : Keeps p P) : ∀ {n : Nat} {b : Barrier},
    b.curThreadIdx + n = b.runList.length → P b → ∃ b', b.wakeLoop p n = some b' ∧ P b'
  | 0, b, _, h => ⟨b, rfl, h⟩
  | n + 1, b, hn, h => by
    rw [Barrier.wakeLoop]
    by_cases hp : b.runningThreads < p
    · have hlt : b.curThreadIdx < b.runList.length := by omega
      have ht := getElem?_eq_getElem hlt
      rw [if_pos hp, Barrier.wakeNext, ht, Option.bind_some]
      by_cases hw : b.states b.runList[b.curThreadIdx] = .WAITING
      · rw [if_pos hw, if_pos ((hP.listed h).futex _ hw)]
        exact wakeLoop_keeps hP (show b.curThreadIdx + 1 + n = b.runList.length by omega)
          (hP.wake h ht hw hp)
      · rw [if_neg hw]
        exact wakeLoop_keeps hP (show b.curThreadIdx + 1 + n = b.runList.length by omega)
          (hP.skip h ht hw)
    · rw [if_neg hp]
      exact ⟨b, rfl, h⟩

theorem checkRunList_keeps {p : Nat} {P : Barrier → Prop} (hP : Keeps p P) (h : P b) :
    ∃ b', b.checkRunList p = some b' ∧ P b' :=
  wakeLoop_keeps hP (Nat.add_sub_cancel' (hP.listed h).cursor) h

/-- What a round of `checkRunList` and the end of a phase keep, `tryWakeNext` keeps. -/
theorem tryWakeNext_keeps {p : Nat} {P : Barrier → Prop} (rnd : Rand) (hP : Keeps p P)
    (hphase : ∀ {b b'}, P b → NewPhase b b' → P b') (h : P b) :
    ∃ b', b.tryWakeNext p rnd = some b' ∧ P b' := by
  obtain ⟨b1, h1, hb1⟩ := checkRunList_keeps hP h
  obtain ⟨b2, h2, hb2⟩ : ∃ b2, b1.checkEndPhase p rnd = some b2 ∧ P b2 := by
    rcases checkEndPhase_cases rnd (hP.listed hb1) with h2 | ⟨b2, h2, hnew⟩
    · exact ⟨b1, h2, hb1⟩
    · exact ⟨b2, h2, hphase hb1 hnew⟩
  obtain ⟨b3, h3, hb3⟩ := checkRunList_keeps hP hb2
  exact ⟨b3, by rw [Barrier.tryWakeNext, h1, Option.bind_some, h2, Option.bind_some, h3], hb3⟩

theorem keeps_listed (p : Nat) : Keeps p Listed where
  listed := id
  wake h ht hw _ := h.wake ht hw
  skip h ht _ := h.skip (List.getElem?_eq_some_iff.mp ht).1

theorem Listed.tryWakeNext {p : Nat} (rnd : Rand) (h : Listed b) :
    ∃ b', b.tryWakeNext p rnd = some b' ∧ Listed b' :=
  tryWakeNext_keeps rnd (keeps_listed p) (fun _ hnew => hnew.listed) h

/-! ### The calls -/

/-- The threads that had their turn in this phase. -/
def Barrier.passed (b : Barrier) : List Nat := b.runList.take b.curThreadIdx

/-- Thread `t` comes to state `st` with a call that is recorded as `e`. -/
structure Called (t : Nat) (st : State) (e : Entry) (b b' : Barrier) : Prop where
  listed : Listed b'
  states : b'.states = update b.states t st
  trace : b'.trace = e :: b.trace
  passed : ∀ u, u ≠ t → (u ∈ b'.passed ↔ u ∈ b.passed)

theorem not_mem_take {l : List Nat} {n k : Nat} (hn : l.Nodup) (ht : l[k]? = some t) (hk : n ≤ k) :
    t ∉ l.take n := by
  intro hmem
  obtain ⟨i, hi, hit⟩ := mem_take_iff_getElem.mp hmem
  have hlt := (List.getElem?_eq_some_iff.mp ht).1
  have hik : i = k := by
    apply (getElem?_inj (by omega) hn).mp
    rw [ht, getElem?_eq_getElem (by omega), hit]
  omega

theorem Listed.mem_runList (h : Listed b) (ht : b.states t ≠ .OFFLINE) : t ∈ b.runList :=
  (h.mem t).mpr ht

/-- Somebody runs while a thread is `RUNNING`. -/
theorem Listed.running_pos (h : Listed b) (ht : b.states t = .RUNNING) : 0 < b.runningThreads := by
  rw [h.running]
  exact countP_pos_iff.mpr ⟨t, h.mem_runList (by simp [ht]), by simp [ht]⟩

theorem sync_eq {p : Nat} (rnd : Rand) (h : Listed b) (ht : b.states t = .RUNNING) : ∃ b1,
    b.sync p rnd t = b1.tryWakeNext p rnd ∧ Called t .WAITING (.synced t) b b1 ∧
      (t ∈ b1.passed ↔ t ∈ b.passed) := by
  have hpos := h.running_pos ht
  refine ⟨{ b.setWaiting t (.synced t) with runningThreads := b.runningThreads - 1 },
    by rw [Barrier.sync, ht], ⟨?_, b.states_setThread t _, rfl, fun _ _ => Iff.rfl⟩, Iff.rfl⟩
  refine h.change (h.mem_runList (by simp [ht])) rfl rfl (by simp) ?_ ?_ h.cursor (by simp)
    fun _ => rfl
  · simp [ht]
    omega
  · simp [ht]
    rfl

theorem leave_eq {p : Nat} (rnd : Rand) (h : Listed b) (ht : b.states t = .RUNNING) : ∃ b1,
    b.leave p rnd t = b1.tryWakeNext p rnd ∧ Called t .LEFT (.left t) b b1 := by
  have hpos := h.running_pos ht
  refine ⟨{ b.setLeft t with runningThreads := b.runningThreads - 1 },
    by rw [Barrier.leave, ht], ?_, b.states_setThread t _, rfl, fun _ _ => Iff.rfl⟩
  refine h.change (h.mem_runList (by simp [ht])) rfl rfl (by simp) ?_ ?_ h.cursor
    (fun _ => h.placed t (.inr ht)) (by simp)
  · simp [ht]
    omega
  · simp [ht, Barrier.setLeft]

/-- A thread that leaves while it waits keeps its place when `lastIdx` tells it. -/
theorem leave_waiting {p : Nat} (rnd : Rand) (h : Listed b) (ht : b.states t = .WAITING)
    (hp : b.Placed t) : b.leave p rnd t = some (b.setLeft t) ∧ Listed (b.setLeft t) := by
  refine ⟨by rw [Barrier.leave, ht], ?_⟩
  refine h.change (h.mem_runList (by simp [ht])) rfl rfl (by simp) ?_ ?_ h.cursor (fun _ => hp)
    (by simp)
  · simp [ht, Barrier.setLeft]
    rfl
  · simp [ht, Barrier.setLeft]

theorem split_at {l : List Nat} {k a : Nat} (h : l[k]? = some a) :
    ∃ A R, l = A ++ a :: R ∧ A.length = k := by
  obtain ⟨hlt, rfl⟩ := List.getElem?_eq_some_iff.mp h
  refine ⟨l.take k, l.drop (k + 1), ?_, by simp [Nat.le_of_lt hlt]⟩
  rw [← drop_eq_getElem_cons hlt, take_append_drop]

/-- The thread at `k` has had its turn, and changes places with the last of those that had. -/
theorem take_swap {l : List Nat} {k c o : Nat} (hn : l.Nodup) (hk : l[k]? = some t) (hkc : k ≤ c)
    (hc : l[c]? = some o) :
    t ∉ ((l.set k o).set c t).take c ∧
      ∀ u, u ≠ t → (u ∈ ((l.set k o).set c t).take c ↔ u ∈ l.take (c + 1)) := by
  obtain ⟨A, R, rfl, rfl⟩ := split_at hk
  rcases Nat.eq_or_lt_of_le hkc with rfl | hlt
  · obtain rfl : t = o := by simpa using hc
    have hA : t ∉ A := fun h => (nodup_append.mp hn).2.2 t h t (by simp) rfl
    refine ⟨by simpa using hA, fun u hu => ?_⟩
    have htake : (A ++ t :: R).take (A.length + 1) = A ++ [t] := by
      rw [show A ++ t :: R = A ++ [t] ++ R by simp]
      exact take_left' (by simp)
    rw [htake]
    simp [hu]
  · obtain ⟨m, rfl⟩ := Nat.exists_eq_add_of_lt hlt
    have hm : R[m]? = some o := by
      rw [getElem?_append_right (by omega), show A.length + m + 1 - A.length = m + 1 by omega] at hc
      simpa using hc
    obtain ⟨B, C, rfl, rfl⟩ := split_at hm
    have hset : ((A ++ t :: (B ++ o :: C)).set A.length o).set (A.length + B.length + 1) t =
        (A ++ o :: B) ++ t :: C := by
      simp [Nat.add_assoc]
    have hbefore : (A ++ t :: (B ++ o :: C)).take (A.length + B.length + 1 + 1) =
        A ++ t :: B ++ [o] := by
      rw [show A ++ t :: (B ++ o :: C) = (A ++ t :: B ++ [o]) ++ C by simp]
      exact take_left' (by simp; omega)
    have hafter : ((A ++ o :: B) ++ t :: C).take (A.length + B.length + 1) = A ++ o :: B :=
      take_left' (by simp; omega)
    rw [hset, hbefore, hafter]
    have hout := nodup_middle.mp hn
    simp only [mem_append, mem_cons, not_mem_nil, nodup_cons] at hout ⊢
    refine ⟨by tauto, fun u hu => by tauto⟩

/-- After `join` the thread waits, and is to run once more in this phase. -/
def Joins (p : Nat) (rnd : Rand) (t : Nat) (b : Barrier) : Prop :=
  ∃ b1, b.join p rnd t = b1.tryWakeNext p rnd ∧ Called t .WAITING (.joined t) b b1 ∧
    t ∉ b1.passed

theorem Listed.left_pos (h : Listed b) (ht : b.states t = .LEFT) : 0 < b.leftThreads := by
  have hmem := h.mem_runList (t := t) (by simp [ht])
  rw [h.left]
  exact countP_pos_iff.mpr ⟨t, hmem, by simp [ht]⟩

/-- The thread had its turn before it left, and is put back for another one. -/
theorem join_back {p : Nat} (rnd : Rand) (h : Listed b) (ht : b.states t = .LEFT)
    (hk : b.curThreadIdx > (b.threadList t).lastIdx) : Joins p rnd t b := by
  have hmem := h.mem_runList (t := t) (by simp [ht])
  have hplaced : b.runList[(b.threadList t).lastIdx]? = some t := h.placed t (.inl ht)
  have hpos := h.left_pos ht
  have hc : b.curThreadIdx - 1 < b.runList.length := by
    have hcur := h.cursor
    omega
  have hlt := (List.getElem?_eq_some_iff.mp hplaced).1
  obtain ⟨b1, h1, hr, hlist⟩ := swapEntries_eq (b := { b with
    leftThreads := b.leftThreads - 1, curThreadIdx := b.curThreadIdx - 1 }) hlt hc
  have hback : Rearranged b { b1 with
      leftThreads := b.leftThreads, curThreadIdx := b.curThreadIdx } :=
    ⟨hr.perm, hr.states, hr.futex, rfl, hr.running, rfl, hr.trace, hr.placed⟩
  have hstates : b1.states = b.states := hr.states
  have hleft : b1.leftThreads = b.leftThreads - 1 := hr.left
  have hcursor : b1.curThreadIdx = b.curThreadIdx - 1 := hr.cursor
  have htake := take_swap h.nodup hplaced (Nat.le_sub_one_of_lt hk) (getElem?_eq_getElem hc)
  have hself : b.runList[(b.threadList t).lastIdx] = t := by
    simpa [getElem?_eq_getElem hlt] using hplaced
  have hpassed : b1.passed =
      ((b.runList.set (b.threadList t).lastIdx b.runList[b.curThreadIdx - 1]).set
        (b.curThreadIdx - 1) t).take (b.curThreadIdx - 1) := by
    rw [Barrier.passed, hlist, hr.cursor]
    simp only [hself]
  refine ⟨b1.setWaiting t (.joined t), ?_, ⟨?_, ?_, ?_, fun u hu => ?_⟩, ?_⟩
  · rw [Barrier.join, ht]
    show (if b.curThreadIdx > (b.threadList t).lastIdx then _ else _) = _
    rw [if_pos hk]
    show (if b.runList[(b.threadList t).lastIdx]? = some t then _ else _) = _
    rw [if_pos hplaced]
    exact congrArg (Option.bind · (Barrier.enterList p rnd t)) h1
  · refine (h.rearranged hback).change (hr.perm.mem_iff.mpr hmem) rfl rfl (by simp) ?_ ?_ ?_
      (by simp) fun _ => rfl
    · show b1.runningThreads + (if b1.states t = .RUNNING then 1 else 0) = b1.runningThreads + 0
      simp [hstates, ht]
    · show b1.leftThreads + (if b1.states t = .LEFT then 1 else 0) = b.leftThreads + 0
      simp [hstates, ht, hleft]
      omega
    · show b1.curThreadIdx ≤ b1.runList.length
      rw [hcursor, hr.perm.length_eq]
      exact Nat.le_of_lt hc
  · rw [← hstates]
    exact b1.states_setThread t _
  · show Entry.joined t :: b1.trace = _
    rw [hr.trace]
  · show u ∈ b1.passed ↔ _
    rw [hpassed, htake.2 u hu, Nat.sub_add_cancel (by omega)]
    rfl
  · show t ∉ b1.passed
    rw [hpassed]
    exact htake.1

/-- The thread left before its turn, which is still to come. -/
theorem join_ahead {p : Nat} (rnd : Rand) (h : Listed b) (ht : b.states t = .LEFT)
    (hk : ¬b.curThreadIdx > (b.threadList t).lastIdx) : Joins p rnd t b := by
  have hmem := h.mem_runList (t := t) (by simp [ht])
  have hplaced : b.runList[(b.threadList t).lastIdx]? = some t := h.placed t (.inl ht)
  have hpos := h.left_pos ht
  refine ⟨Barrier.setWaiting t (.joined t) { b with leftThreads := b.leftThreads - 1 }, ?_,
    ⟨?_, b.states_setThread t _, rfl, fun _ _ => Iff.rfl⟩, ?_⟩
  · rw [Barrier.join, ht]
    exact if_neg hk
  · refine h.change hmem rfl rfl (by simp) ?_ ?_ h.cursor (by simp) fun _ => rfl
    · simp [ht, Barrier.setWaiting]
      rfl
    · show b.leftThreads - 1 + (if b.states t = .LEFT then 1 else 0) = b.leftThreads + 0
      simp [ht]
      omega
  · exact not_mem_take h.nodup hplaced (Nat.le_of_not_lt hk)

/-- The thread is new to the list, and goes to its end. -/
theorem join_offline {p : Nat} (rnd : Rand) (h : Listed b) (ht : b.states t = .OFFLINE) :
    Joins p rnd t b := by
  have hcur := h.cursor
  have hnot : t ∉ b.runList := fun hmem => (h.mem t).mp hmem ht
  have hpassed : (b.runList ++ [t]).take b.curThreadIdx = b.passed :=
    take_append_of_le_length hcur
  refine ⟨Barrier.setWaiting t (.joined t) { b with runList := b.runList ++ [t] },
    by rw [Barrier.join, ht]; rfl, ⟨h.append ht rfl rfl _, b.states_setThread t _, rfl, ?_⟩, ?_⟩
  · intro u _
    show u ∈ (b.runList ++ [t]).take b.curThreadIdx ↔ _
    rw [hpassed]
  · show t ∉ (b.runList ++ [t]).take b.curThreadIdx
    rw [hpassed]
    exact fun hmem => hnot (mem_of_mem_take hmem)

theorem join_eq {p : Nat} (rnd : Rand) (h : Listed b)
    (ht : b.states t = .LEFT ∨ b.states t = .OFFLINE) : ∃ b1,
    b.join p rnd t = b1.tryWakeNext p rnd ∧ Called t .WAITING (.joined t) b b1 ∧
      t ∉ b1.passed := by
  rcases ht with ht | ht
  · by_cases hk : b.curThreadIdx > (b.threadList t).lastIdx
    · exact join_back rnd h ht hk
    · exact join_ahead rnd h ht hk
  · exact join_offline rnd h ht

instance (b : Barrier) (t : Nat) : Decidable (b.Placed t) :=
  inferInstanceAs (Decidable (_ = _))

/-- What `leave` needs of a thread that waits. -/
def Op.keepsPlace : Op → Barrier → Prop
  | .leave _ t, b => b.states t = .WAITING → b.Placed t
  | _, _ => True

instance : ∀ (op : Op) (b : Barrier), Decidable (op.keepsPlace b)
  | .leave .., _ => inferInstanceAs (Decidable (_ → _))
  | .join .., _ | .sync .., _ => inferInstanceAs (Decidable True)

theorem step_listed {p : Nat} (op : Op) (b : Barrier) (h : Listed b)
    (hop : op.mayCall b ∧ op.keepsPlace b) : ∃ b', step p op b = some b' ∧ Listed b' := by
  obtain ⟨hcall, hkeeps⟩ := hop
  cases op with
  | join rnd t =>
    obtain ⟨b1, h1, hc, -⟩ := join_eq (p := p) rnd h hcall
    obtain ⟨b2, h2, hb2⟩ := hc.listed.tryWakeNext rnd
    exact ⟨b2, h1.trans h2, hb2⟩
  | sync rnd t =>
    obtain ⟨b1, h1, hc, -⟩ := sync_eq (p := p) rnd h hcall
    obtain ⟨b2, h2, hb2⟩ := hc.listed.tryWakeNext rnd
    exact ⟨b2, h1.trans h2, hb2⟩
  | leave rnd t =>
    rcases hcall with ht | ht
    · obtain ⟨b1, h1, hc⟩ := leave_eq (p := p) rnd h ht
      obtain ⟨b2, h2, hb2⟩ := hc.listed.tryWakeNext rnd
      exact ⟨b2, h1.trans h2, hb2⟩
    · exact ⟨_, leave_waiting rnd h ht (hkeeps ht)⟩

theorem init_listed (lastIdx : Nat → Nat) : Listed (init lastIdx) where
  nodup := nodup_nil
  mem t := by simp [init, Barrier.states]
  running := rfl
  left := rfl
  cursor := Nat.le_refl 0
  placed t ht := by simp [init, Barrier.states] at ht
  futex t ht := by simp [init, Barrier.states] at ht

end

/-- As long as each thread that leaves while it waits has its place in `lastIdx`, no assertion of
the barrier fails, and the list, the counters and the places are right in every state.  In those
states, a thread that leaves while it waits keeps them right exactly when it has its place in
`lastIdx`. -/
theorem lists_consistent (parallelThreads : Nat) (lastIdx : Nat → Nat) (ops : List Op)
    (hops : Along (step parallelThreads) (fun op b => op.mayCall b ∧ op.keepsPlace b) ops
      (init lastIdx)) :
    ∃ b, run (step parallelThreads) ops (init lastIdx) = some b ∧ Consistent b ∧
      ∀ rnd t, b.states t = .WAITING →
        ∃ b', step parallelThreads (.leave rnd t) b = some b' ∧ (Consistent b' ↔ b.Placed t) := by
  obtain ⟨b, hrun, h⟩ := run_keeps step_listed ops (init_listed lastIdx) hops
  refine ⟨b, hrun, h.toConsistent, fun rnd t ht => ⟨b.setLeft t, ?_, fun hc => ?_, fun hp => ?_⟩⟩
  · show b.leave parallelThreads rnd t = _
    rw [Barrier.leave, ht]
  · have hstates : (b.setLeft t).states = update b.states t .LEFT := b.states_setThread t _
    have hplaced := hc.placed t (.inl (by rw [hstates, update_self]))
    simpa [Barrier.Placed, Barrier.setLeft, Barrier.setThread] using hplaced
  · exact (leave_waiting (p := parallelThreads) rnd h ht hp).2.toConsistent

/-- A shuffle that always draws 0. -/
def drawZero : Rand := ⟨fun _ => 0, fun _ => Nat.zero_le _⟩

/-- Two threads share a barrier that runs one, and the second one leaves while it runs, and comes
back. -/
theorem lists_consistent_two : ∃ b, run (step 1) [.join drawZero 0, .join drawZero 1,
    .sync drawZero 0, .leave drawZero 1, .join drawZero 1] (init fun _ => 0) = some b ∧
      Consistent b ∧ ∀ rnd t, b.states t = .WAITING →
        ∃ b', step 1 (.leave rnd t) b = some b' ∧ (Consistent b' ↔ b.Placed t) :=
  lists_consistent 1 _ _ (by decide)

/-- Thread 1 ran at place 1, left, and was taken out of the list.  It comes back at place 2, and
leaves again before its turn. -/
def leaveWaiting : List Op :=
  [.join drawZero 0, .join drawZero 1, .sync drawZero 0, .leave drawZero 1, .join drawZero 2,
    .join drawZero 1, .sync drawZero 0, .leave drawZero 1]

/-- Then the place of thread 1 is not the one in `lastIdx`, and its next `join` fails the assertion
on it. -/
theorem join_misplaced :
    Along (step 1) Op.mayCall (leaveWaiting ++ [.join drawZero 1]) (init fun _ => 0) ∧
      ∃ b, run (step 1) leaveWaiting (init fun _ => 0) = some b ∧ b.states 1 = .LEFT ∧
        ¬b.Placed 1 ∧ step 1 (.join drawZero 1) b = none := by
  refine ⟨by decide, ?_⟩
  have hb : (run (step 1) leaveWaiting (init fun _ => 0)).any (fun b =>
      decide (b.states 1 = .LEFT) && !decide (b.Placed 1) &&
        (step 1 (.join drawZero 1) b).isNone) = true := by decide
  simpa [Option.any_eq_true, and_assoc] using hb

end Doppelganger.Sched
