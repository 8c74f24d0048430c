import Doppelganger.Sched.Calls
import Mathlib.Data.List.Perm.Basic

/-! The phases of a barrier whose threads leave only while they run.  What a thread did since the
last callback follows from its state and from its place before or after the cursor, so no waiting
thread is skipped, and none is woken twice without leaving in between. -/

namespace Doppelganger.Sched

open Function List Lib

/-- The entries since the last callback. -/
def thisPhase : List Entry → List Entry
  | [] => []
  | .callback _ :: _ => []
  | e :: l => e :: thisPhase l

/-- The threads that run, by the record. -/
def awake : List Entry → List Nat
  | [] => []
  | .woken t :: l => t :: awake l
  | .synced t :: l | .left t :: l => (awake l).erase t
  | _ :: l => awake l

/-- The thread left and came back since it was last woken. -/
def Rejoined (t : Nat) (l : List Entry) : Prop :=
  ∀ a b, l = a ++ .woken t :: b → [.joined t, .left t] <+ a

/-- The thread left since it was last woken. -/
def Departed (t : Nat) (l : List Entry) : Prop := ∀ a b, l = a ++ .woken t :: b → .left t ∈ a

/-- What the entries `l` of a phase say of a thread in state `st`, where `had` tells whether it had
its turn. -/
def Turn (t : Nat) (l : List Entry) (had : Prop) : State → Prop
  | .RUNNING => had ∧ .woken t ∈ l
  | .WAITING => (had → [.synced t, .woken t] <+ l) ∧ (¬had → Rejoined t l)
  | .LEFT => Departed t l
  | .OFFLINE => .woken t ∉ l

/-- Each wakeup was that of a thread that could be woken, and each callback found the phase at its
end. -/
def Recorded (p : Nat) : List Entry → Prop
  | [] => True
  | .woken t :: l => Recorded p l ∧ Rejoined t (thisPhase l) ∧ (awake l).length < p
  | .callback states :: l => Recorded p l ∧ ∀ t, states t ≠ .RUNNING ∧
      (states t = .WAITING → [.synced t, .woken t] <+ thisPhase l)
  | _ :: l => Recorded p l

structure InPhase (p : Nat) (b : Barrier) : Prop where
  listed : Listed b
  turn : ∀ t, Turn t (thisPhase b.trace) (t ∈ b.passed) (b.states t)
  nodup : (awake b.trace).Nodup
  awake : ∀ t, t ∈ awake b.trace ↔ b.states t = .RUNNING
  recorded : Recorded p b.trace

section

variable {p t u : Nat} {e : Entry} {l : List Entry} {had had' : Prop} {st : State}
  {b b' : Barrier}

theorem Rejoined.cons (h : Rejoined t l) (he : e ≠ .woken t) : Rejoined t (e :: l) := by
  intro a b hl
  cases a with
  | nil =>
    simp only [nil_append, cons.injEq] at hl
    exact absurd hl.1 he
  | cons _ a =>
    simp only [cons_append, cons.injEq] at hl
    exact (h a b hl.2).cons _

theorem Departed.cons (h : Departed t l) (he : e ≠ .woken t) : Departed t (e :: l) := by
  intro a b hl
  cases a with
  | nil =>
    simp only [nil_append, cons.injEq] at hl
    exact absurd hl.1 he
  | cons _ a =>
    simp only [cons_append, cons.injEq] at hl
    exact mem_cons_of_mem _ (h a b hl.2)

theorem Departed.leave (t : Nat) (l : List Entry) : Departed t (.left t :: l) := by
  intro a b hl
  cases a with
  | nil => simp at hl
  | cons _ a =>
    simp only [cons_append, cons.injEq] at hl
    simp [hl.1]

theorem Departed.join (h : Departed t l) : Rejoined t (.joined t :: l) := by
  intro a b hl
  cases a with
  | nil => simp at hl
  | cons _ a =>
    simp only [cons_append, cons.injEq] at hl
    rw [← hl.1]
    exact (singleton_sublist.mpr (h a b hl.2)).cons_cons _

theorem Rejoined.of_not_mem (h : .woken t ∉ l) : Rejoined t l := by
  rintro a b rfl
  simp at h

/-- What the others do says nothing about a thread. -/
theorem Turn.cons (h : Turn t l had st) (he : e ≠ .woken t) (hhad : had ↔ had') :
    Turn t (e :: l) had' st := by
  cases st with
  | RUNNING => exact ⟨hhad.mp h.1, mem_cons_of_mem _ h.2⟩
  | WAITING => exact ⟨fun hh => (h.1 (hhad.mpr hh)).cons _, fun hh => (h.2 (mt hhad.mp hh)).cons he⟩
  | LEFT => exact Departed.cons h he
  | OFFLINE =>
    have hnot : .woken t ∉ l := h
    simpa [Turn, Ne.symm he] using hnot

theorem Recorded.length_awake : ∀ {l : List Entry}, Recorded p l → (awake l).length ≤ p
  | [], _ => Nat.zero_le _
  | .woken _ :: _, h => h.2.2
  | .callback _ :: _, h => h.1.length_awake
  | .joined _ :: l, h => Recorded.length_awake (l := l) h
  | .synced _ :: l, h | .left _ :: l, h =>
    Nat.le_trans erase_sublist.length_le (Recorded.length_awake (l := l) h)

theorem Recorded.older : ∀ {newer older : List Entry},
    Recorded p (newer ++ older) → Recorded p older
  | [], _, h => h
  | e :: newer, older, h => by
    have hrest : Recorded p (newer ++ older) := by
      cases e with
      | woken t => exact h.1
      | callback states => exact h.1
      | _ => exact h
    exact hrest.older

/-- The record of who runs is right. -/
theorem InPhase.length_awake (h : InPhase p b) :
    (Sched.awake b.trace).length = b.runningThreads := by
  have hperm : (Sched.awake b.trace).Perm (b.runList.filter fun t => b.states t = .RUNNING) := by
    refine (perm_ext_iff_of_nodup h.nodup (h.listed.nodup.filter _)).mpr fun t => ?_
    rw [h.awake, mem_filter, h.listed.mem]
    simp only [decide_eq_true_eq]
    exact ⟨fun ht => ⟨by simp [ht], ht⟩, And.right⟩
  rw [hperm.length_eq, h.listed.running, Barrier.number, countP_eq_length_filter]

theorem InPhase.wake (h : InPhase p b) (ht : b.runList[b.curThreadIdx]? = some t)
    (hw : b.states t = .WAITING) (hp : b.runningThreads < p) : InPhase p (b.wake t) := by
  have hstates : (b.wake t).states = update b.states t .RUNNING := b.states_setThread t _
  have hpassed : (b.wake t).passed = b.passed ++ [t] := by
    show b.runList.take (b.curThreadIdx + 1) = _
    rw [take_add_one, ht]
    rfl
  have hnot : t ∉ b.passed := not_mem_take h.listed.nodup ht (Nat.le_refl _)
  have hturn := h.turn t
  rw [hw] at hturn
  refine ⟨h.listed.wake ht hw, fun u => ?_, ?_, fun u => ?_, h.recorded, hturn.2 hnot, ?_⟩
  · show Turn u (.woken t :: thisPhase b.trace) _ _
    rw [hpassed, hstates]
    by_cases hu : u = t
    · subst hu
      rw [update_self]
      exact ⟨by simp, by simp⟩
    · rw [update_of_ne hu]
      exact (h.turn u).cons (by simp [Ne.symm hu]) (by simp [hu])
  · refine nodup_cons.mpr ⟨fun hmem => ?_, h.nodup⟩
    have hrun := (h.awake t).mp hmem
    rw [hw] at hrun
    simp at hrun
  · show u ∈ t :: Sched.awake b.trace ↔ _
    rw [hstates, mem_cons, h.awake]
    by_cases hu : u = t
    · subst hu
      simp
    · simp [hu]
  · rw [h.length_awake]
    exact hp

theorem InPhase.skip (h : InPhase p b) (ht : b.runList[b.curThreadIdx]? = some t)
    (hw : b.states t ≠ .WAITING) : InPhase p b.skip := by
  refine ⟨h.listed.skip (List.getElem?_eq_some_iff.mp ht).1, fun u => ?_, h.nodup, h.awake,
    h.recorded⟩
  have hpassed : b.skip.passed = b.passed ++ [t] := by
    show b.runList.take (b.curThreadIdx + 1) = _
    rw [take_add_one, ht]
    rfl
  have hturn := h.turn u
  show Turn u (thisPhase b.trace) (u ∈ b.skip.passed) (b.states u)
  rw [hpassed]
  by_cases hu : u = t
  · subst hu
    cases hs : b.states u with
    | RUNNING =>
      rw [hs] at hturn
      exact ⟨by simp, hturn.2⟩
    | WAITING => exact absurd hs hw
    | LEFT => rwa [hs] at hturn
    | OFFLINE => rwa [hs] at hturn
  · have hmem : u ∈ b.passed ++ [t] ↔ u ∈ b.passed := by simp [hu]
    rwa [hmem]

/-- A new phase starts without a record, and the old one ended with everybody's turn. -/
theorem InPhase.newPhase (h : InPhase p b) (hn : NewPhase b b') : InPhase p b' := by
  have hrun := h.listed.not_running hn.ended.2
  have hrun' : ∀ t, b'.states t ≠ .RUNNING := by
    intro t
    rcases hn.states t with hs | ⟨-, hs⟩
    · rw [hs]
      exact hrun t
    · simp [hs]
  have hpassed : b'.passed = [] := by rw [Barrier.passed, hn.cursor, take_zero]
  have hall : ∀ t, b.states t = .WAITING → t ∈ b.passed := by
    intro t ht
    rw [Barrier.passed, hn.ended.1, take_length]
    exact h.listed.mem_runList (by simp [ht])
  refine ⟨hn.listed, fun t => ?_, ?_, fun t => ?_, ?_⟩
  · rw [hn.trace, hpassed]
    show Turn t [] _ _
    have hrejoined : Rejoined t [] := .of_not_mem (by simp)
    cases hs : b'.states t with
    | RUNNING => exact absurd hs (hrun' t)
    | WAITING => exact ⟨fun hmem => by simp at hmem, fun _ => hrejoined⟩
    | LEFT =>
      intro a b hl
      simp at hl
    | OFFLINE => simp [Turn]
  · rw [hn.trace]
    exact h.nodup
  · rw [hn.trace]
    show t ∈ Sched.awake b.trace ↔ _
    rw [h.awake]
    exact iff_of_false (hrun t) (hrun' t)
  · rw [hn.trace]
    refine ⟨h.recorded, fun t => ⟨hrun t, fun ht => ?_⟩⟩
    have hturn := h.turn t
    rw [ht] at hturn
    exact hturn.1 (hall t ht)

theorem InPhase.tryWakeNext (rnd : Rand) (h : InPhase p b) :
    ∃ b', b.tryWakeNext p rnd = some b' ∧ InPhase p b' :=
  tryWakeNext_keeps rnd ⟨InPhase.listed, fun h => h.wake, fun h => h.skip⟩ (fun h => h.newPhase) h

/-- A call of thread `t` that does not wake it: the turns of the others stay. -/
theorem InPhase.called (h : InPhase p b) (hc : Called t st e b b') (hst : st ≠ .RUNNING)
    (hphase : thisPhase (e :: b.trace) = e :: thisPhase b.trace) (hwoken : ∀ u, e ≠ .woken u)
    (hturn : Turn t (e :: thisPhase b.trace) (t ∈ b'.passed) st)
    (hawake : Sched.awake (e :: b.trace) = (Sched.awake b.trace).erase t)
    (hrecorded : Recorded p (e :: b.trace)) : InPhase p b' := by
  refine ⟨hc.listed, fun u => ?_, ?_, fun u => ?_, ?_⟩
  · rw [hc.trace, hphase, hc.states]
    by_cases hu : u = t
    · subst hu
      rwa [update_self]
    · rw [update_of_ne hu]
      exact (h.turn u).cons (hwoken u) (hc.passed u hu).symm
  · rw [hc.trace, hawake]
    exact h.nodup.erase t
  · rw [hc.trace, hawake, h.nodup.mem_erase_iff, h.awake, hc.states]
    by_cases hu : u = t
    · subst hu
      simp [hst]
    · simp [hu]
  · rw [hc.trace]
    exact hrecorded

/-- The threads that leave are running. -/
def Op.leavesRunning : Op → Barrier → Prop
  | .leave _ t, b => b.states t = .RUNNING
  | _, _ => True

instance : ∀ (op : Op) (b : Barrier), Decidable (op.leavesRunning b)
  | .leave .., _ => inferInstanceAs (Decidable (_ = _))
  | .join .., _ | .sync .., _ => inferInstanceAs (Decidable True)

theorem step_inPhase (op : Op) (b : Barrier) (h : InPhase p b)
    (hop : op.mayCall b ∧ op.leavesRunning b) : ∃ b', step p op b = some b' ∧ InPhase p b' := by
  obtain ⟨hcall, hleaves⟩ := hop
  suffices hb : ∃ b1 rnd, step p op b = b1.tryWakeNext p rnd ∧ InPhase p b1 by
    obtain ⟨b1, rnd, h1, hb1⟩ := hb
    obtain ⟨b2, h2, hb2⟩ := hb1.tryWakeNext rnd
    exact ⟨b2, h1.trans h2, hb2⟩
  cases op with
  | join rnd t =>
    obtain ⟨b1, h1, hc, hnot⟩ := join_eq (p := p) rnd h.listed hcall
    have hturn := h.turn t
    have hrun : t ∉ Sched.awake b.trace := by
      rw [h.awake]
      rcases hcall with ht | ht <;> simp [ht]
    refine ⟨b1, rnd, h1, h.called hc (by simp) rfl (by simp) ⟨fun hmem => absurd hmem hnot,
      fun _ => ?_⟩ (erase_of_not_mem hrun).symm h.recorded⟩
    rcases hcall with ht | ht
    · rw [ht] at hturn
      exact Departed.join hturn
    · rw [ht] at hturn
      exact .of_not_mem (by simpa [Turn] using hturn)
  | sync rnd t =>
    obtain ⟨b1, h1, hc, hpassed⟩ := sync_eq (p := p) rnd h.listed hcall
    have hturn := h.turn t
    rw [show b.states t = .RUNNING from hcall] at hturn
    refine ⟨b1, rnd, h1, h.called hc (by simp) rfl (by simp) ⟨fun _ => ?_, fun hmem => ?_⟩ rfl
      h.recorded⟩
    · exact (singleton_sublist.mpr hturn.2).cons_cons _
    · exact absurd (hpassed.mpr hturn.1) hmem
  | leave rnd t =>
    obtain ⟨b1, h1, hc⟩ := leave_eq (p := p) rnd h.listed hleaves
    exact ⟨b1, rnd, h1, h.called hc (by simp) rfl (by simp) (Departed.leave _ _) rfl h.recorded⟩

theorem init_inPhase (p : Nat) (lastIdx : Nat → Nat) : InPhase p (init lastIdx) where
  listed := init_listed lastIdx
  turn t := by simp [init, thisPhase, Turn, Barrier.states]
  nodup := nodup_nil
  awake t := by simp [init, Sched.awake, Barrier.states]
  recorded := trivial

theorem thisPhase_append : ∀ {mid : List Entry}, (∀ states, .callback states ∉ mid) →
    thisPhase (mid ++ l) = mid ++ thisPhase l
  | [], _ => rfl
  | e :: mid, h => by
    have hrest := @thisPhase_append mid fun states hs => h states (by simp [hs])
    cases e with
    | callback states => exact absurd (mem_cons_self ..) (h states)
    | _ => simp [thisPhase, hrest]

/-- Between two wakeups of a thread in one phase it left and came back. -/
theorem Recorded.rewoken {newer mid older : List Entry}
    (h : Recorded p (newer ++ .woken t :: mid ++ .woken t :: older))
    (hmid : ∀ states, .callback states ∉ mid) : [.joined t, .left t] <+ mid := by
  rw [append_assoc, cons_append] at h
  have hwoken := h.older.2.1
  rw [thisPhase_append hmid] at hwoken
  exact hwoken mid (thisPhase older) rfl

end

/-- When threads leave only while they run, no assertion of the barrier fails.  At most
`parallelThreads` threads run at any time.  A callback comes when no thread runs, and when each
thread that waits was woken and has synced since the last callback; and a thread that is woken twice
between callbacks has left and come back in between. -/
theorem phases_fair (parallelThreads : Nat) (lastIdx : Nat → Nat) (ops : List Op)
    (hops : Along (step parallelThreads) (fun op b => op.mayCall b ∧ op.leavesRunning b) ops
      (init lastIdx)) :
    ∃ b, run (step parallelThreads) ops (init lastIdx) = some b ∧
      ((awake b.trace).Nodup ∧ ∀ t, t ∈ awake b.trace ↔ b.states t = .RUNNING) ∧
      (∀ newer older, b.trace = newer ++ older → (awake older).length ≤ parallelThreads) ∧
      (∀ newer older states, b.trace = newer ++ .callback states :: older →
        ∀ t, states t ≠ .RUNNING ∧
          (states t = .WAITING → [.synced t, .woken t] <+ thisPhase older)) ∧
      ∀ newer mid older t, b.trace = newer ++ .woken t :: mid ++ .woken t :: older →
        (∀ states, .callback states ∉ mid) → [.joined t, .left t] <+ mid := by
  obtain ⟨b, hrun, h⟩ := run_keeps step_inPhase ops (init_inPhase parallelThreads lastIdx) hops
  refine ⟨b, hrun, ⟨h.nodup, h.awake⟩, ?_, ?_, ?_⟩
  · intro newer older hl
    exact (hl ▸ h.recorded).older.length_awake
  · intro newer older states hl
    exact (hl ▸ h.recorded).older.2
  · intro newer mid older t hl hmid
    exact (hl ▸ h.recorded).rewoken hmid

/-- Two threads share a barrier that runs one; thread 1 leaves in its turn and comes back, and both
run again in the next phase. -/
theorem phases_fair_two : ∃ b, run (step 1) [.join drawZero 0, .join drawZero 1, .sync drawZero 0,
      .leave drawZero 1, .join drawZero 1, .sync drawZero 0, .sync drawZero 1] (init fun _ => 0) =
        some b ∧
      ((awake b.trace).Nodup ∧ ∀ t, t ∈ awake b.trace ↔ b.states t = .RUNNING) ∧
      (∀ newer older, b.trace = newer ++ older → (awake older).length ≤ 1) ∧
      (∀ newer older states, b.trace = newer ++ .callback states :: older →
        ∀ t, states t ≠ .RUNNING ∧
          (states t = .WAITING → [.synced t, .woken t] <+ thisPhase older)) ∧
      ∀ newer mid older t, b.trace = newer ++ .woken t :: mid ++ .woken t :: older →
        (∀ states, .callback states ∉ mid) → [.joined t, .left t] <+ mid :=
  phases_fair 1 _ _ (by decide)

end Doppelganger.Sched
