import Doppelganger.Lib.Run
import Doppelganger.Sched.Barrier
import Mathlib.Data.List.Nodup

/-! The list of the barrier holds the threads that are not `OFFLINE`, each of them once, the
counters count, and `lastIdx` is the place of a thread that runs or has left.  This survives every
call, as long as a thread that leaves while it waits has its place in `lastIdx`. -/

namespace Doppelganger.Sched

open Function List Lib

/-- How many threads of the list are in a state. -/
def Barrier.number (b : Barrier) (st : State) : Nat := b.runList.countP fun t => b.states t = st

/-- `lastIdx` of a thread is its place in the list. -/
def Barrier.Placed (b : Barrier) (tid : Nat) : Prop :=
  b.runList[(b.threadList tid).lastIdx]? = some tid

/-- The list, the counters and the places agree with the states of the threads. -/
structure Consistent (b : Barrier) : Prop where
  nodup : b.runList.Nodup
  mem : ∀ t, t ∈ b.runList ↔ b.states t ≠ .OFFLINE
  running : b.runningThreads = b.number .RUNNING
  left : b.leftThreads = b.number .LEFT
  cursor : b.curThreadIdx ≤ b.runList.length
  placed : ∀ t, b.states t = .LEFT ∨ b.states t = .RUNNING → b.Placed t

/-- A waiting thread can also be woken. -/
structure Listed (b : Barrier) : Prop extends Consistent b where
  futex : ∀ t, b.states t = .WAITING → (b.threadList t).futexWord = 1

section

variable {b b' : Barrier} {t : Nat} {info : ThreadSyncInfo} {st : State}

namespace Barrier

@[simp] theorem states_setThread (t : Nat) (info : ThreadSyncInfo) (b : Barrier) :
    (b.setThread t info).states = update b.states t info.state := by
  funext u
  by_cases hu : u = t
  · subst hu
    simp [states, setThread]
  · simp [states, setThread, hu]

@[simp] theorem states_setLastIdx (t idx : Nat) (b : Barrier) :
    (b.setLastIdx t idx).states = b.states := by
  rw [setLastIdx, states_setThread]
  exact update_eq_self t b.states

@[simp] theorem states_dropped (idx t s : Nat) (b : Barrier) :
    (b.dropped idx t s).states = update b.states t .OFFLINE := by
  rw [dropped, states_setLastIdx]
  exact states_setThread t _ b

@[simp] theorem futexWord_setLastIdx (t idx u : Nat) (b : Barrier) :
    ((b.setLastIdx t idx).threadList u).futexWord = (b.threadList u).futexWord := by
  by_cases hu : u = t
  · subst hu
    simp [setLastIdx, setThread]
  · simp [setLastIdx, setThread, hu]

theorem futexWord_dropped (idx t s u : Nat) (b : Barrier) :
    ((b.dropped idx t s).threadList u).futexWord = (b.threadList u).futexWord := by
  rw [dropped, futexWord_setLastIdx]
  by_cases hu : u = t
  · subst hu
    simp [setThread]
  · simp [setThread, hu]

theorem lastIdx_setLastIdx (t idx u : Nat) (b : Barrier) :
    ((b.setLastIdx t idx).threadList u).lastIdx =
      if u = t then idx else (b.threadList u).lastIdx := by
  by_cases hu : u = t
  · subst hu
    simp [setLastIdx, setThread]
  · simp [setLastIdx, setThread, hu]

end Barrier

/-- What a thread that changes its state does to the number of those in a state. -/
theorem countP_update {α β : Type*} [DecidableEq α] [DecidableEq β] {l : List α} {a : α}
    (hn : l.Nodup) (ha : a ∈ l) (f : α → β) (x y : β) :
    l.countP (fun u => update f a x u = y) + (if f a = y then 1 else 0) =
      l.countP (fun u => f u = y) + (if x = y then 1 else 0) := by
  have hperm := perm_cons_erase ha
  have hrest : (l.erase a).countP (fun u => update f a x u = y) =
      (l.erase a).countP (fun u => f u = y) := by
    refine countP_congr fun u hu => ?_
    have hua : u ≠ a := fun h => hn.not_mem_erase (h ▸ hu)
    rw [update_of_ne hua]
  rw [hperm.countP_eq, hperm.countP_eq, countP_cons, countP_cons, hrest, update_self]
  simp only [decide_eq_true_eq]
  omega

theorem Listed.number_setThread (h : Listed b) (ht : t ∈ b.runList) (info : ThreadSyncInfo)
    (st : State) :
    (b.setThread t info).number st + (if b.states t = st then 1 else 0) =
      b.number st + (if info.state = st then 1 else 0) := by
  rw [Barrier.number, Barrier.states_setThread]
  exact countP_update h.nodup ht b.states info.state st

/-- The states of the threads, the counters, and where the cursor and the trace are, do not change
when the list is rearranged. -/
structure Rearranged (b b' : Barrier) : Prop where
  perm : b'.runList.Perm b.runList
  states : b'.states = b.states
  futex : ∀ t, (b'.threadList t).futexWord = (b.threadList t).futexWord
  cursor : b'.curThreadIdx = b.curThreadIdx
  running : b'.runningThreads = b.runningThreads
  left : b'.leftThreads = b.leftThreads
  trace : b'.trace = b.trace
  placed : ∀ t, b.Placed t → b'.Placed t

theorem Rearranged.refl (b : Barrier) : Rearranged b b :=
  ⟨.refl _, rfl, fun _ => rfl, rfl, rfl, rfl, rfl, fun _ => id⟩

theorem Rearranged.trans {b'' : Barrier} (h : Rearranged b b') (h' : Rearranged b' b'') :
    Rearranged b b'' :=
  ⟨h'.perm.trans h.perm, h'.states.trans h.states, fun t => (h'.futex t).trans (h.futex t),
    h'.cursor.trans h.cursor, h'.running.trans h.running, h'.left.trans h.left,
    h'.trace.trans h.trace, fun t ht => h'.placed t (h.placed t ht)⟩

theorem Rearranged.number (h : Rearranged b b') (st : State) : b'.number st = b.number st := by
  rw [Barrier.number, Barrier.number, h.perm.countP_eq, h.states]

theorem Listed.rearranged (h : Listed b) (hr : Rearranged b b') : Listed b' where
  nodup := hr.perm.nodup_iff.mpr h.nodup
  mem t := by rw [hr.perm.mem_iff, hr.states, h.mem]
  running := by rw [hr.running, hr.number, h.running]
  left := by rw [hr.left, hr.number, h.left]
  cursor := by rw [hr.cursor, hr.perm.length_eq]; exact h.cursor
  placed t ht := hr.placed t (h.placed t (hr.states ▸ ht))
  futex t ht := (hr.futex t).trans (h.futex t (hr.states ▸ ht))

/-- Two entries change places, and take their `lastIdx` along. -/
theorem swapEntries_eq {i j : Nat} (hi : i < b.runList.length) (hj : j < b.runList.length) :
    ∃ b', b.swapEntries i j = some b' ∧ Rearranged b b' ∧
      b'.runList = (b.runList.set i b.runList[j]).set j b.runList[i] := by
  refine ⟨b.swapped i j b.runList[i] b.runList[j], by simp [Barrier.swapEntries, hi, hj],
    ⟨?_, ?_, fun t => ?_, rfl, rfl, rfl, rfl, fun t ht => ?_⟩, rfl⟩
  · exact set_set_perm hi hj
  · rw [Barrier.swapped, Barrier.states_setLastIdx, Barrier.states_setLastIdx]
    rfl
  · rw [Barrier.swapped, Barrier.futexWord_setLastIdx, Barrier.futexWord_setLastIdx]
  · rw [Barrier.Placed, Barrier.swapped, Barrier.lastIdx_setLastIdx, Barrier.lastIdx_setLastIdx]
    show ((b.runList.set i b.runList[j]).set j b.runList[i])[_]? = _
    have ht : b.runList[(b.threadList t).lastIdx]? = some t := ht
    split
    · rename_i htj
      by_cases hij : j = i
      · subst hij
        simp [hj, htj]
      · rw [getElem?_set_ne hij, getElem?_set_self hi, htj]
    · rename_i htj
      split
      · rename_i hti
        rw [getElem?_set_self (by simpa using hj), hti]
      · -- The place of a third thread is neither of the two.
        rename_i hti
        have hki : i ≠ (b.threadList t).lastIdx := by
          intro hk
          rw [← hk, getElem?_eq_getElem hi, Option.some.injEq] at ht
          exact hti ht.symm
        have hkj : j ≠ (b.threadList t).lastIdx := by
          intro hk
          rw [← hk, getElem?_eq_getElem hj, Option.some.injEq] at ht
          exact htj ht.symm
        rw [getElem?_set_ne hkj, getElem?_set_ne hki]
        exact ht

theorem shuffle_rearranged (rnd : Rand) : ∀ {i : Nat} {b : Barrier},
    i < b.runList.length ∨ i = 0 → ∃ b', Barrier.shuffle rnd i b = some b' ∧ Rearranged b b'
  | 0, b, _ => ⟨b, rfl, .refl b⟩
  | i + 1, b, hi => by
    have hi : i + 1 < b.runList.length := by omega
    have hj : rnd.randInt (i + 1) < b.runList.length := Nat.lt_of_le_of_lt (rnd.le _) hi
    obtain ⟨b1, h1, hr1, -⟩ := swapEntries_eq hi hj
    have hlen : i < b1.runList.length := by
      rw [hr1.perm.length_eq]
      omega
    obtain ⟨b2, h2, hr2⟩ := shuffle_rearranged rnd (.inl hlen)
    exact ⟨b2, by rw [Barrier.shuffle, h1]; exact h2, hr1.trans hr2⟩

/-! ### The cleanup -/

/-- The last entry of the list takes the place of the one at `idx`. -/
theorem set_last {P R G : List Nat} {w : Nat} : ∃ s R' G',
    (P ++ w :: R ++ G)[P.length + R.length]? = some s ∧
    (P ++ w :: R ++ G).set P.length s = P ++ R' ++ G' ∧ R'.Perm R := by
  rcases eq_nil_or_concat' R with rfl | ⟨R, s, rfl⟩
  · exact ⟨w, [], w :: G, by simp, by simp, .nil⟩
  · refine ⟨s, s :: R, s :: G, ?_, ?_, ?_⟩
    · simp
    · simp
    · exact (perm_append_singleton s R).symm

/-- The cleanup leaves the entries of the threads that have not left, which are `OFFLINE` now. -/
theorem cleanupLoop_eq : ∀ {R P G : List Nat} {b : Barrier}, b.runList = P ++ R ++ G →
    (P ++ R).Nodup → (∀ t ∈ P, b.states t ≠ .LEFT) → ∃ b' newSize,
    Barrier.cleanupLoop R.length P.length b = some (b', newSize) ∧
    newSize ≤ b'.runList.length ∧
    (b'.runList.take newSize).Perm ((P ++ R).filter fun t => b.states t ≠ .LEFT) ∧
    (∀ t, b'.states t = if t ∈ R ∧ b.states t = .LEFT then .OFFLINE else b.states t) ∧
    (∀ t, (b'.threadList t).futexWord = (b.threadList t).futexWord) ∧
    b'.runningThreads = b.runningThreads ∧ b'.curThreadIdx = b.curThreadIdx ∧
    b'.trace = b.trace := by
  intro R
  induction hn : R.length generalizing R with
  | zero =>
    intro P G b hlist _ hP
    obtain rfl : R = [] := length_eq_zero_iff.mp hn
    refine ⟨b, P.length, rfl, by simp [hlist], ?_, by simp, fun _ => rfl, rfl, rfl, rfl⟩
    rw [hlist, append_nil, take_left' rfl, filter_eq_self.mpr (by simpa using hP)]
  | succ n ih =>
    intro P G b hlist hnodup hP
    obtain ⟨w, R, rfl⟩ := exists_cons_of_length_eq_add_one hn
    obtain rfl : R.length = n := by simpa using hn
    have hw : b.runList[P.length]? = some w := by simp [hlist]
    by_cases hleft : b.states w = .LEFT
    · obtain ⟨s, R', G', hs, hset, hperm⟩ := @set_last P R G w
      have hnd : w ∉ P ++ R' ∧ (P ++ R').Nodup := by
        have hall := ((perm_middle.trans ((hperm.append_left P).cons w).symm).nodup_iff).mp hnodup
        exact nodup_cons.mp hall
      have hlist' : (b.dropped P.length w s).runList = P ++ R' ++ G' := by
        rw [← hset, ← hlist]
        rfl
      have hsame : ∀ t ∈ P ++ R', update b.states w .OFFLINE t = b.states t := fun t ht =>
        update_of_ne (fun h : t = w => hnd.1 (by rwa [h] at ht)) _ _
      obtain ⟨b', newSize, hloop, hsize, hkept, hstates, hfutex, hfields⟩ := ih
        hperm.length_eq hlist' hnd.2 fun t ht => by
          rw [Barrier.states_dropped, hsame t (mem_append_left _ ht)]
          exact hP t ht
      refine ⟨b', newSize, ?_, hsize, hkept.trans ?_, fun t => ?_, fun t => ?_, hfields⟩
      · rw [Barrier.cleanupLoop, hw, Option.bind_some, if_pos hleft, hlist, hs]
        exact hloop
      · -- The entry that went is the one of a thread that left.
        rw [Barrier.states_dropped, filter_congr fun t ht => by rw [hsame t ht]]
        have hmid : (P ++ w :: R).Perm (w :: (P ++ R')) :=
          perm_middle.trans ((hperm.append_left P).cons w).symm
        have hfilter := hmid.filter fun t => b.states t ≠ .LEFT
        rw [filter_cons_of_neg (by simp [hleft])] at hfilter
        exact hfilter.symm
      · rw [hstates, Barrier.states_dropped]
        by_cases ht : t = w
        · subst ht
          simp [hleft]
        · simp [ht, hperm.mem_iff]
      · rw [hfutex, Barrier.futexWord_dropped]
    · have hlist' : b.runList = P ++ [w] ++ R ++ G := by simp [hlist]
      obtain ⟨b', newSize, hloop, hsize, hkept, hstates, hfields⟩ := ih rfl hlist'
        (by simpa using hnodup) fun t ht => by
          rcases mem_append.mp ht with ht | ht
          · exact hP t ht
          · obtain rfl : t = w := by simpa using ht
            exact hleft
      refine ⟨b', newSize, ?_, hsize, by simpa using hkept, fun t => ?_, hfields⟩
      · rw [Barrier.cleanupLoop, hw, Option.bind_some, if_neg hleft]
        simpa using hloop
      · rw [hstates]
        by_cases ht : t = w
        · subst ht
          simp [hleft]
        · simp [ht]

/-- The list after the end of a phase, whose states and trace are those of `b`. -/
structure NewPhase (b b' : Barrier) : Prop where
  listed : Listed b'
  ended : b.curThreadIdx = b.runList.length ∧ b.runningThreads = 0
  cursor : b'.curThreadIdx = 0
  trace : b'.trace = .callback b.states :: b.trace
  states : ∀ t, b'.states t = b.states t ∨ b.states t = .LEFT ∧ b'.states t = .OFFLINE

theorem NewPhase.rearranged {b'' : Barrier} (h : NewPhase b b') (hr : Rearranged b' b'') :
    NewPhase b b'' :=
  ⟨h.listed.rearranged hr, h.ended, hr.cursor.trans h.cursor, hr.trace.trans h.trace,
    fun t => by rw [hr.states]; exact h.states t⟩

/-- Without running threads nobody is in state `RUNNING`. -/
theorem Listed.not_running (h : Listed b) (h0 : b.runningThreads = 0) (t : Nat) :
    b.states t ≠ .RUNNING := by
  intro ht
  have hmem : t ∈ b.runList := (h.mem t).mpr (by simp [ht])
  have hnone := countP_eq_zero.mp (h.running.symm.trans h0) t hmem
  simp [ht] at hnone

/-- The cleanup takes the threads that left out of the list, and nobody else. -/
theorem cleanup_eq (h : Listed b) (h0 : b.runningThreads = 0) (hcur : b.curThreadIdx = 0)
    (hpos : 0 < b.runList.length) :
    ∃ b', b.cleanup = some b' ∧ Listed b' ∧ b'.curThreadIdx = 0 ∧ b'.trace = b.trace ∧
      ∀ t, b'.states t = b.states t ∨ b.states t = .LEFT ∧ b'.states t = .OFFLINE := by
  obtain ⟨b', newSize, hloop, hsize, hkept, hstates, hfutex, hrun, hcur', htrace⟩ :=
    @cleanupLoop_eq b.runList [] [] b (by simp) (by simpa using h.nodup) (by simp)
  rw [nil_append] at hkept
  have hgone : b.runList.length - newSize = b.leftThreads := by
    have hlen := hkept.length_eq
    have hall := length_eq_countP_add_countP (fun t => decide (b.states t = .LEFT)) (l := b.runList)
    rw [length_take_of_le hsize, ← countP_eq_length_filter] at hlen
    have hleft := h.left
    simp only [Barrier.number] at hleft
    simp only [decide_eq_true_eq, ← ne_eq] at hall
    omega
  have hnew : ∀ t, b'.states t = b.states t ∨ b.states t = .LEFT ∧ b'.states t = .OFFLINE := by
    intro t
    rw [hstates]
    split
    · exact .inr ⟨by tauto, rfl⟩
    · exact .inl rfl
  -- Nobody runs, and those that left are offline.
  have hnone : ∀ t, b'.states t ≠ .LEFT ∧ b'.states t ≠ .RUNNING := by
    intro t
    have hrunning := h.not_running h0 t
    have hmem := h.mem t
    rw [hstates]
    split
    · simp
    · rename_i ht
      refine ⟨fun hl => ht ⟨hmem.mpr (by simp [hl]), hl⟩, hrunning⟩
  refine ⟨{ b' with leftThreads := 0, runList := b'.runList.take newSize }, ?_,
    ⟨⟨?_, ?_, ?_, ?_, ?_, ?_⟩, ?_⟩, hcur'.trans hcur, htrace, hnew⟩
  · have hloop : Barrier.cleanupLoop b.runList.length 0 b = some (b', newSize) := hloop
    rw [Barrier.cleanup, if_pos hpos, hloop, Option.bind_some]
    exact if_pos hgone
  · exact hkept.nodup_iff.mpr (h.nodup.filter _)
  · intro t
    have hmem := h.mem t
    show t ∈ take newSize b'.runList ↔ b'.states t ≠ .OFFLINE
    rw [hkept.mem_iff, mem_filter, hmem]
    rcases hnew t with hs | ⟨hs, hs'⟩
    · have hl := (hnone t).1
      rw [hs] at hl ⊢
      simp [hl]
    · simp [hs, hs']
  · show b'.runningThreads = countP (fun t => b'.states t = .RUNNING) (take newSize b'.runList)
    rw [hrun, h0, eq_comm, countP_eq_zero]
    intro t _
    simpa using (hnone t).2
  · show 0 = countP (fun t => b'.states t = .LEFT) (take newSize b'.runList)
    rw [eq_comm, countP_eq_zero]
    intro t _
    simpa using (hnone t).1
  · show b'.curThreadIdx ≤ _
    rw [hcur', hcur]
    exact Nat.zero_le _
  · intro t ht
    have hs : b'.states t = .LEFT ∨ b'.states t = .RUNNING := ht
    exact absurd hs (by simpa using hnone t)
  · intro t ht
    have hs : b'.states t = .WAITING := ht
    show (b'.threadList t).futexWord = 1
    rw [hfutex]
    refine h.futex t ?_
    rcases hnew t with hs' | ⟨-, hs'⟩
    · rw [← hs', hs]
    · rw [hs] at hs'
      simp at hs'

theorem checkEndPhase_cases {p : Nat} (rnd : Rand) (h : Listed b) :
    b.checkEndPhase p rnd = some b ∨ ∃ b', b.checkEndPhase p rnd = some b' ∧ NewPhase b b' := by
  rw [Barrier.checkEndPhase]
  by_cases hend : b.curThreadIdx = b.runList.length ∧ b.runningThreads = 0
  · rw [if_pos hend]
    by_cases hleft : b.leftThreads = b.runList.length
    · exact .inl (by rw [if_pos hleft])
    · right
      rw [if_neg hleft]
      have hpos : 0 < b.runList.length := by
        rcases Nat.eq_zero_or_pos b.runList.length with h0 | hpos
        · have hnil : b.runList = [] := length_eq_zero_iff.mp h0
          rw [h.left, Barrier.number, hnil] at hleft
          exact absurd rfl hleft
        · exact hpos
      have hrewound : Listed b.rewind :=
        ⟨⟨h.nodup, h.mem, h.running, h.left, Nat.zero_le _, h.placed⟩, h.futex⟩
      obtain ⟨b1, hcleaned, hphase⟩ : ∃ b1, (if b.phaseCount &&& (32 - 1) = 0 then
          b.rewind.cleanup else some b.rewind) = some b1 ∧ NewPhase b b1 := by
        split
        · obtain ⟨b1, h1, hl, hcur, htrace, hs⟩ := cleanup_eq hrewound hend.2 rfl hpos
          exact ⟨b1, h1, hl, hend, hcur, htrace, hs⟩
        · exact ⟨_, rfl, hrewound, hend, rfl, rfl, fun _ => .inl rfl⟩
      have hcounted : NewPhase b { b1 with phaseCount := b.phaseCount + 1 } :=
        hphase.rearranged ⟨.refl _, rfl, fun _ => rfl, rfl, rfl, rfl, rfl, fun _ => id⟩
      rw [hcleaned, Option.bind_some]
      by_cases hp : p < b1.runList.length
      · obtain ⟨b2, h2, hr⟩ := shuffle_rearranged rnd (i := b1.runList.length - 1)
          (b := { b1 with phaseCount := b.phaseCount + 1 }) (by simp only; omega)
        exact ⟨b2, by rw [← h2]; exact if_pos hp, hcounted.rearranged hr⟩
      · exact ⟨_, if_neg hp, hcounted⟩
  · exact .inl (by rw [if_neg hend])

end

end Doppelganger.Sched
