import Doppelganger.Procs.ProcessStats

/-! `ProcStats`, which charges all counters of the cores to the processes on them, but at most once
in a phase: what a core counted before it changes hands goes to the next process when the update was
already made.  The statistics are a function of the counters `ι` of a core. -/

namespace Doppelganger.Procs

open Lib

structure ProcStats (ι : Type*) where
  lastUpdatePhase : ℕ
  lastBuf : ℕ → ι → ℕ
  procStats : ℕ → ι → ℕ

/-- The simulation, as `ProcStats` sees it, what each slot has earned while one of its processes was
on a core, and whether the last operation called `update`. -/
structure Sampling (ι : Type*) where
  stats : ProcStats ι
  numPhases : ℕ
  coreStats : ℕ → ι → ℕ
  scheduledPid : ℕ → Option ℕ
  earned : ℕ → ι → ℕ
  updated : Bool

namespace Sampling

variable {ι : Type*} (z : ProcessGroups)

def init : Sampling ι where
  stats := ⟨0, fun _ _ => 0, fun _ _ => 0⟩
  numPhases := 0
  coreStats := fun _ _ => 0
  scheduledPid := fun _ => none
  earned := fun _ _ => 0
  updated := false

/-- The slot of the process on a core; the last one is for idle cores. -/
def slot (s : Sampling ι) (cid : ℕ) : ℕ :=
  match s.scheduledPid cid with
  | none => z.lineSize - 1
  | some p => z.groupIdx p

def incWalk (diff : ι → ℕ) (slot : ℕ) (procStats : ℕ → ι → ℕ) : ℕ → ι → ℕ :=
  Function.update procStats slot fun i => procStats slot i + diff i

/-- What a core counted since the last update. -/
def pending (s : Sampling ι) (cid : ℕ) (i : ι) : ℕ := s.coreStats cid i - s.stats.lastBuf cid i

def update (s : Sampling ι) : Option (Sampling ι) :=
  if s.stats.lastUpdatePhase = s.numPhases then some s
  else if s.stats.lastUpdatePhase < s.numPhases then
    some { s with stats :=
      { lastUpdatePhase := s.numPhases
        lastBuf := s.coreStats
        procStats := (List.range z.numCores).foldl
          (fun procStats cid => incWalk (s.pending cid) (s.slot z cid) procStats)
          s.stats.procStats } }
  else none

inductive Op (ι : Type*)
  /-- A core counts. -/
  | advance (cid : ℕ) (counts : ι → ℕ)
  | schedule (cid p : ℕ)
  | deschedule (cid : ℕ)
  /-- A counter of a process is read. -/
  | dump
  | endOfPhase

/-- What a core counts is earned by the process on it. -/
def advance (cid : ℕ) (counts : ι → ℕ) (s : Sampling ι) : Sampling ι :=
  { s with
    coreStats := Function.update s.coreStats cid fun i => s.coreStats cid i + counts i
    earned := incWalk counts (s.slot z cid) s.earned
    updated := false }

def setPid (cid : ℕ) (next : Option ℕ) (s : Sampling ι) : Sampling ι :=
  { s with scheduledPid := Function.update s.scheduledPid cid next }

def step : Op ι → Sampling ι → Option (Sampling ι)
  | .advance cid counts, s => if cid < z.numCores then some (s.advance z cid counts) else none
  | .schedule cid p, s =>
    if cid < z.numCores ∧ p < z.lineSize ∧ s.scheduledPid cid = none then
      some { s.setPid cid (some p) with updated := false }
    else none
  | .deschedule cid, s =>
    if cid < z.numCores ∧ s.scheduledPid cid ≠ none then
      (s.update z).map fun s => { s.setPid cid none with updated := true }
    else none
  | .dump, s => (s.update z).map fun s => { s with updated := true }
  | .endOfPhase, s => some { s with numPhases := s.numPhases + 1, updated := false }

/-! ### What the statistics should be -/

/-- Each slot has what was earned for it, but for what is pending on its cores; and after an update
all slots together have what the cores counted. -/
structure Attributed (s : Sampling ι) : Prop where
  balanced : ∀ i, Balanced z.numCores (s.slot z) (fun cid => s.pending cid i)
    (fun slot => s.stats.procStats slot i) fun slot => s.earned slot i
  total : s.updated = true → ∀ i, ∑ slot ∈ Finset.range z.lineSize, s.stats.procStats slot i =
    ∑ cid ∈ Finset.range z.numCores, s.coreStats cid i

/-- An update would be the first one in its phase, or has nothing to do. -/
def InTime (s : Sampling ι) : Prop :=
  s.stats.lastUpdatePhase ≠ s.numPhases ∨ ∀ cid < z.numCores, ∀ i, s.pending cid i = 0

/-- Updates are in time, and nothing is pending on an idle core that a process is scheduled on,
unless its slot is the one for idle cores. -/
def Prompt : Op ι → Sampling ι → Prop
  | .schedule cid p, s => (∀ i, s.pending cid i = 0) ∨ z.groupIdx p = s.slot z cid
  | .deschedule _, s | .dump, s => s.InTime z
  | _, _ => True

instance [Fintype ι] (s : Sampling ι) : Decidable (s.InTime z) :=
  inferInstanceAs (Decidable (_ ∨ _))

instance [Fintype ι] : ∀ (op : Op ι) (s : Sampling ι), Decidable (Prompt z op s)
  | .schedule _ _, _ => inferInstanceAs (Decidable (_ ∨ _))
  | .deschedule _, s => inferInstanceAs (Decidable (s.InTime z))
  | .dump, s => inferInstanceAs (Decidable (s.InTime z))
  | .advance _ _, _ => isTrue trivial
  | .endOfPhase, _ => isTrue trivial

structure Inv (s : Sampling ι) : Prop where
  le : ∀ cid i, s.stats.lastBuf cid i ≤ s.coreStats cid i
  pid : ∀ cid p, s.scheduledPid cid = some p → p < z.lineSize
  total : ∀ i, ∑ slot ∈ Finset.range z.lineSize, s.stats.procStats slot i =
    ∑ cid ∈ Finset.range z.numCores, s.stats.lastBuf cid i
  phase : s.stats.lastUpdatePhase ≤ s.numPhases

variable {z} {s s' : Sampling ι} {cid p : ℕ} {i : ι}

theorem slot_lt (h : Inv z s) (cid : ℕ) : s.slot z cid < z.lineSize := by
  unfold slot
  cases hp : s.scheduledPid cid with
  | none => exact Nat.sub_lt z.line_pos Nat.one_pos
  | some p => exact z.groupIdx_lt p (h.pid cid p hp)

/-- The walk charges each slot with what is pending on its cores. -/
theorem walk_eq (s : Sampling ι) (n : ℕ) (procStats : ℕ → ι → ℕ) (k : ℕ) (i : ι) :
    (List.range n).foldl (fun procStats cid => incWalk (s.pending cid) (s.slot z cid) procStats)
      procStats k i = procStats k i + owed n (s.slot z) (fun cid => s.pending cid i) k := by
  induction n with
  | zero => rfl
  | succ n ih =>
    rw [List.range_succ, List.foldl_append, List.foldl_cons, List.foldl_nil, owed,
      Finset.sum_range_succ, ← owed, ← Nat.add_assoc, ← ih]
    unfold incWalk
    by_cases hslot : s.slot z n = k
    · subst hslot
      rw [Function.update_self, if_pos rfl]
    · rw [Function.update_of_ne (Ne.symm hslot), if_neg hslot, Nat.add_zero]

/-- The last totals are those of the cores exactly when nothing is pending. -/
theorem total_iff (h : Inv z s) :
    (∀ i, ∑ slot ∈ Finset.range z.lineSize, s.stats.procStats slot i =
      ∑ cid ∈ Finset.range z.numCores, s.coreStats cid i) ↔
    ∀ cid < z.numCores, ∀ i, s.pending cid i = 0 := by
  have hle (i : ι) : ∀ cid ∈ Finset.range z.numCores, s.stats.lastBuf cid i ≤ s.coreStats cid i :=
    fun cid _ => h.le cid i
  simp only [h.total, Finset.sum_eq_sum_iff_of_le (hle _), Finset.mem_range, pending,
    Nat.sub_eq_zero_iff_le]
  constructor
  case mp => exact fun heq cid hcid i => (heq i cid hcid).ge
  case mpr => exact fun hge i cid hcid => le_antisymm (h.le cid i) (hge cid hcid i)

/-- The first update in a phase leaves nothing pending. -/
theorem update_spec (h : Inv z s) (hattributed : Attributed z s)
    (hphase : s.stats.lastUpdatePhase ≠ s.numPhases) :
    ∃ s', s.update z = some s' ∧ Inv z s' ∧ Attributed z { s' with updated := true } ∧
      ∀ cid i, s'.pending cid i = 0 := by
  have hlt := Nat.lt_of_le_of_ne h.phase hphase
  refine ⟨_, (if_neg hphase).trans (if_pos hlt), ?_⟩
  dsimp only
  have hwalk := s.walk_eq (z := z) z.numCores s.stats.procStats
  generalize (List.range z.numCores).foldl _ _ = procStats at hwalk ⊢
  have hzero (cid : ℕ) (i : ι) : s.coreStats cid i - s.coreStats cid i = 0 := Nat.sub_self _
  have htotal (i : ι) : ∑ k ∈ Finset.range z.lineSize, procStats k i =
      ∑ cid ∈ Finset.range z.numCores, s.coreStats cid i := by
    simp only [hwalk, Finset.sum_add_distrib]
    rw [sum_owed fun cid _ => slot_lt h cid, h.total, ← Finset.sum_add_distrib]
    exact sum_unchanged fun cid _ => Nat.add_sub_cancel' (h.le cid i)
  refine ⟨⟨fun cid i => le_rfl, h.pid, htotal, le_rfl⟩, ⟨fun i k => ?_, fun _ => htotal⟩, hzero⟩
  refine ((hattributed.balanced i k).trans (hwalk k i).symm).trans ?_
  exact (congrArg (procStats k i + ·) (owed_zero (fun cid _ => hzero cid i) k)).symm

/-- A core may change hands exactly when nothing is pending on it, or to the same slot. -/
theorem setPid_balanced (hattributed : Attributed z s) (hcid : cid < z.numCores)
    (next : Option ℕ) :
    (∀ i, Balanced z.numCores ((s.setPid cid next).slot z) (fun c => s.pending c i)
      (fun slot => s.stats.procStats slot i) fun slot => s.earned slot i) ↔
    (∀ i, s.pending cid i = 0) ∨ (s.setPid cid next).slot z cid = s.slot z cid := by
  have hother : ∀ c < z.numCores, c ≠ cid → (s.setPid cid next).slot z c = s.slot z c := by
    intro c _ hne
    unfold slot setPid
    dsimp only
    rw [Function.update_of_ne hne]
  rw [← forall_or_right]
  exact forall_congr' fun i => (hattributed.balanced i).transfer_iff hcid hother

theorem setPid_inv (h : Inv z s) {next : Option ℕ} (hnext : ∀ p ∈ next, p < z.lineSize)
    (updated : Bool) : Inv z { s.setPid cid next with updated } := by
  refine ⟨h.le, fun c p hp => ?_, h.total, h.phase⟩
  change Function.update s.scheduledPid cid next c = some p at hp
  by_cases hne : c = cid
  · subst hne
    rw [Function.update_self] at hp
    exact hnext p hp
  · rw [Function.update_of_ne hne] at hp
    exact h.pid c p hp

theorem setPid_slot (s : Sampling ι) (cid p : ℕ) :
    (s.setPid cid (some p)).slot z cid = z.groupIdx p := by
  unfold slot setPid
  dsimp only
  rw [Function.update_self]

/-! ### Steps -/

theorem advance_spec (h : Inv z s) (hattributed : Attributed z s) (hcid : cid < z.numCores)
    (counts : ι → ℕ) :
    Inv z (s.advance z cid counts) ∧ Attributed z (s.advance z cid counts) := by
  have hcore (c : ℕ) (i : ι) : (s.advance z cid counts).coreStats c i =
      s.coreStats c i + if c = cid then counts i else 0 := by
    unfold advance
    by_cases hne : c = cid
    · subst hne
      simp
    · simp [hne]
  have hpending (c : ℕ) (i : ι) : (s.advance z cid counts).pending c i =
      s.pending c i + if c = cid then counts i else 0 := by
    have hle := h.le c i
    unfold pending
    rw [hcore]
    change _ - s.stats.lastBuf c i = _
    omega
  constructor
  case left =>
    refine ⟨fun c i => ?_, h.pid, h.total, h.phase⟩
    rw [hcore]
    exact le_trans (h.le c i) (Nat.le_add_right _ _)
  case right =>
    refine ⟨fun i => ?_, nofun⟩
    refine (hattributed.balanced i).accrue (d := counts i) hcid (fun c _ hne => ?_) ?_ fun k => ?_
    · rw [hpending, if_neg hne, Nat.add_zero]
    · rw [hpending, if_pos rfl]
    · change incWalk counts (s.slot z cid) s.earned k i = _
      unfold incWalk
      by_cases hslot : s.slot z cid = k
      · subst hslot
        rw [Function.update_self, if_pos rfl]
      · rw [Function.update_of_ne (Ne.symm hslot), if_neg hslot, Nat.add_zero]

theorem schedule_spec (h : Inv z s) (hattributed : Attributed z s) (hcid : cid < z.numCores)
    (hp : p < z.lineSize) :
    Inv z { s.setPid cid (some p) with updated := false } ∧
      (Attributed z { s.setPid cid (some p) with updated := false } ↔
        (∀ i, s.pending cid i = 0) ∨ z.groupIdx p = s.slot z cid) := by
  refine ⟨setPid_inv h (by rintro _ ⟨⟩; exact hp) false, ?_⟩
  rw [← s.setPid_slot cid p, ← setPid_balanced hattributed hcid]
  exact ⟨fun h => h.balanced, fun h => ⟨h, nofun⟩⟩

/-- Each slot has what the cores counted for it, and nothing is pending. -/
def UpToDate (z : ProcessGroups) (s : Sampling ι) : Prop :=
  Attributed z { s with updated := true } ∧ ∀ cid < z.numCores, ∀ i, s.pending cid i = 0

/-- What an update in time leaves is up to date; after another the totals are not those of the
cores. -/
theorem update_cases (h : Inv z s) (hattributed : Attributed z s) :
    ∃ s', s.update z = some s' ∧ Inv z s' ∧ (s.InTime z ∧ UpToDate z s' ∨
      ¬ s.InTime z ∧ ∃ i, ∑ slot ∈ Finset.range z.lineSize, s'.stats.procStats slot i ≠
        ∑ cid ∈ Finset.range z.numCores, s'.coreStats cid i) := by
  by_cases hphase : s.stats.lastUpdatePhase = s.numPhases
  case pos =>
    refine ⟨s, if_pos hphase, h, ?_⟩
    by_cases hzero : ∀ cid < z.numCores, ∀ i, s.pending cid i = 0
    · exact .inl ⟨.inr hzero, ⟨hattributed.balanced, fun _ => (total_iff h).mpr hzero⟩, hzero⟩
    · refine .inr ⟨fun hprompt => hprompt.elim (absurd hphase) hzero, ?_⟩
      exact not_forall.mp fun htotal => hzero ((total_iff h).mp htotal)
  case neg =>
    obtain ⟨s', hs', hinv, hattributed', hzero⟩ := update_spec h hattributed hphase
    exact ⟨s', hs', hinv, .inl ⟨.inl hphase, hattributed', fun cid _ i => hzero cid i⟩⟩

theorem step_spec {op : Op ι} (h : Inv z s) (hattributed : Attributed z s)
    (hsome : (s.step z op).isSome) :
    ∃ s', s.step z op = some s' ∧ Inv z s' ∧ (Attributed z s' ↔ Prompt z op s) := by
  obtain ⟨s', hs'⟩ := Option.isSome_iff_exists.mp hsome
  cases op with
  | advance cid counts =>
    obtain ⟨hcid, heq⟩ := Option.ite_none_right_eq_some.mp hs'
    obtain ⟨hinv, hattributed'⟩ := advance_spec h hattributed hcid counts
    exact ⟨_, if_pos hcid, hinv, iff_of_true hattributed' trivial⟩
  | schedule cid p =>
    obtain ⟨hcid, heq⟩ := Option.ite_none_right_eq_some.mp hs'
    exact ⟨_, if_pos hcid, schedule_spec h hattributed hcid.1 hcid.2.1⟩
  | deschedule cid =>
    obtain ⟨hcid, heq⟩ := Option.ite_none_right_eq_some.mp hs'
    obtain ⟨s1, hs1, hinv, hcases⟩ := update_cases h hattributed
    have hnone : ∀ p ∈ (none : Option ℕ), p < z.lineSize := nofun
    refine ⟨{ s1.setPid cid none with updated := true }, ?_, setPid_inv hinv hnone true, ?_⟩
    · exact (if_pos hcid).trans (by rw [hs1]; rfl)
    · rcases hcases with ⟨hprompt, hattributed', hzero⟩ | ⟨hlate, i, hne⟩
      · have hbalanced := (setPid_balanced hattributed' hcid.1 none).mpr (.inl (hzero cid hcid.1))
        exact iff_of_true ⟨hbalanced, hattributed'.total⟩ hprompt
      · exact iff_of_false (fun h => hne (h.total rfl i)) hlate
  | dump =>
    obtain ⟨s1, hs1, hinv, hcases⟩ := update_cases h hattributed
    refine ⟨{ s1 with updated := true }, ?_, ⟨hinv.le, hinv.pid, hinv.total, hinv.phase⟩, ?_⟩
    · rw [step, hs1]
      rfl
    · rcases hcases with ⟨hprompt, hattributed', -⟩ | ⟨hlate, i, hne⟩
      · exact iff_of_true hattributed' hprompt
      · exact iff_of_false (fun h => hne (h.total rfl i)) hlate
  | endOfPhase =>
    exact ⟨_, rfl, ⟨h.le, h.pid, h.total, Nat.le_succ_of_le h.phase⟩,
      iff_of_true ⟨hattributed.balanced, fun h => absurd h Bool.false_ne_true⟩ trivial⟩

theorem init_inv : Inv z (init : Sampling ι) :=
  ⟨fun _ _ => le_rfl, nofun, fun _ => by simp [init], le_rfl⟩

theorem init_attributed : Attributed z (init : Sampling ι) := by
  refine ⟨fun i k => ?_, nofun⟩
  have howed : owed z.numCores ((init : Sampling ι).slot z)
      (fun cid => (init : Sampling ι).pending cid i) k = 0 := owed_zero (fun _ _ => rfl) k
  rw [howed]
  rfl

/-- All along a run each slot has what was earned for it, but for what is pending on its cores, and
each update makes the totals those of the cores, if and only if nothing is pending on a core that
changes hands and no update comes late in its phase. -/
theorem attributed_iff (z : ProcessGroups) (ops : List (Op ι))
    (hrun : (run (step z) ops init).isSome) :
    Always (step z) (Attributed z) ops init ↔ Along (step z) (Prompt z) ops init :=
  always_iff_along (fun _ _ h hattributed hsome => .inr (step_spec h hattributed hsome)) ops
    init_inv init_attributed ((run_isSome_iff (fun _ _ => Iff.rfl) ops _).mp hrun)

/-- One core, and as many groups as processes. -/
def oneCore : ProcessGroups := ⟨4, 1, id, fun _ h => h, Nat.one_pos, by decide⟩

theorem attributed_example :
    Always (step oneCore) (Attributed oneCore) [.endOfPhase, .schedule 0 0, .advance 0 fun () => 5,
      .deschedule 0, .endOfPhase, .schedule 0 1, .advance 0 fun () => 7, .dump] init :=
  (attributed_iff oneCore [.endOfPhase, .schedule 0 0, .advance 0 fun () => 5, .deschedule 0,
    .endOfPhase, .schedule 0 1, .advance 0 fun () => 7, .dump] (by decide)).mpr (by decide)

/-- Two processes are descheduled in one phase, and what the second one did is charged to the first,
which comes back. -/
def twice : List (Op Unit) := [.endOfPhase, .schedule 0 0, .advance 0 fun () => 5, .deschedule 0,
  .schedule 0 1, .advance 0 fun () => 7, .deschedule 0, .schedule 0 0, .endOfPhase, .dump]

theorem not_attributed :
    (run (step oneCore) twice init).map (fun s => (s.stats.procStats 0 (), s.stats.procStats 1 (),
      s.earned 0 (), s.earned 1 ())) = some (12, 0, 5, 7) ∧
    ¬ Always (step oneCore) (Attributed oneCore) twice init := by
  have hrun : (run (step oneCore) twice init).map (fun s => (s.stats.procStats 0 (),
      s.stats.procStats 1 (), s.earned 0 (), s.earned 1 ())) = some (12, 0, 5, 7) := by decide
  refine ⟨hrun, fun hall => ?_⟩
  have hlast := hall.last (Option.some_get
    (show (run (step oneCore) twice init).isSome = true by decide)).symm
  exact absurd (hlast.balanced () 1) (by decide)

end Sampling

end Doppelganger.Procs
