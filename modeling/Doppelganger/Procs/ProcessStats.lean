import Doppelganger.Lib.Charges
import Doppelganger.Lib.Run

/-! `ProcessStats`, which charges the cycles and instructions of cores to the processes on them.  It
charges groups of processes, but is asked for processes, and is right about those whose group has
their own number. -/

namespace Doppelganger.Procs

open Lib

/-- The sizes, and the group of each process. -/
structure ProcessGroups where
  lineSize : ℕ
  numCores : ℕ
  groupIdx : ℕ → ℕ
  groupIdx_lt : ∀ p < lineSize, groupIdx p < lineSize
  cores_pos : 0 < numCores
  line_pos : 0 < lineSize

/-- What is counted: `getCycles` and `getInstrs` of a core. -/
inductive Count
  | cycles
  | instrs
deriving DecidableEq, Repr

/-- `processCycles` and `processInstrs`, `lastCoreCycles` and `lastCoreInstrs`. -/
structure ProcessStats where
  process : Count → ℕ → ℕ
  lastCore : Count → ℕ → ℕ
  lastUpdatePhase : ℕ

/-- The simulation, as `ProcessStats` sees it, and what each process has executed. -/
structure Simulation where
  stats : ProcessStats
  numPhases : ℕ
  core : Count → ℕ → ℕ
  scheduledPid : ℕ → Option ℕ
  executed : Count → ℕ → ℕ

namespace Simulation

variable (z : ProcessGroups)

def init : Simulation where
  stats := ⟨fun _ _ => 0, fun _ _ => 0, 0⟩
  numPhases := 0
  core := fun _ _ => 0
  scheduledPid := fun _ => none
  executed := fun _ _ => 0

/-! ### The functions of `ProcessStats` -/

/-- An entry is charged with what a core counted since the last time. -/
def charge (cid p : ℕ) (s : Simulation) : Simulation :=
  { s with stats := { s.stats with
    process := fun x => Function.update (s.stats.process x) p
      (s.stats.process x p + (s.core x cid - s.stats.lastCore x cid))
    lastCore := fun x => Function.update (s.stats.lastCore x) cid (s.core x cid) } }

def updateCore (cid p : ℕ) (s : Simulation) : Option Simulation :=
  let p := z.groupIdx p
  if s.stats.lastCore .cycles cid ≤ s.core .cycles cid ∧
      s.stats.lastCore .instrs cid ≤ s.core .instrs cid then some (s.charge cid p)
  else none

/-- The body of the loop of `update`. -/
def updateScheduled (s : Simulation) (cid : ℕ) : Option Simulation :=
  match s.scheduledPid cid with
  | none => some s
  | some p => if p < z.lineSize then s.updateCore z cid p else none

def update (s : Simulation) : Option Simulation :=
  if s.stats.lastUpdatePhase < s.numPhases then
    ((List.range z.numCores).foldlM (updateScheduled z) s).map fun s =>
      { s with stats := { s.stats with lastUpdatePhase := s.numPhases } }
  else none

/-- `getProcessCycles` and `getProcessInstrs`. -/
def getProcess (x : Count) (p : ℕ) (s : Simulation) : Option (Simulation × ℕ) :=
  (if s.stats.lastUpdatePhase ≠ s.numPhases then s.update z else some s).bind fun s =>
    if p < z.lineSize then some (s, s.stats.process x p) else none

def notifyDeschedule (cid outgoingPid : ℕ) (s : Simulation) : Option Simulation :=
  if cid < z.numCores ∧ outgoingPid < z.lineSize then s.updateCore z cid outgoingPid else none

/-! ### The rest of the simulation -/

/-- The events that are called at the end of a phase ask for these counts. -/
def callbacks : List (Count × ℕ) → Simulation → Option (Simulation × List ℕ)
  | [], s => some (s, [])
  | (x, p) :: asked, s => (s.getProcess z x p).bind fun (s, value) =>
      (callbacks asked s).map fun (s, values) => (s, value :: values)

/-- An adaptive event is due in a later phase than the one that it is inserted in, so that none asks
at the end of the first. -/
def endOfPhase (asked : List (Count × ℕ)) (s : Simulation) : Option (Simulation × List ℕ) :=
  if s.numPhases = 0 ∧ asked ≠ [] then none
  else
    (s.callbacks z asked).map fun (s, values) =>
      ({ s with numPhases := s.numPhases + 1 }, values)

inductive Op
  /-- A core counts. -/
  | advance (cid : ℕ) (counts : Count → ℕ)
  | schedule (cid p : ℕ)
  | deschedule (cid : ℕ)
  | endOfPhase (asked : List (Count × ℕ))

/-- What a core counts is executed by the process on it. -/
def advance (cid : ℕ) (counts : Count → ℕ) (s : Simulation) : Simulation :=
  { s with
    core := fun x => Function.update (s.core x) cid (s.core x cid + counts x)
    executed := fun x => match s.scheduledPid cid with
      | none => s.executed x
      | some p => Function.update (s.executed x) p (s.executed x p + counts x) }

def step : Op → Simulation → Option Simulation
  | .advance cid counts, s => if cid < z.numCores then some (s.advance cid counts) else none
  | .schedule cid p, s =>
    if cid < z.numCores ∧ p < z.lineSize ∧ s.scheduledPid cid = none then
      some { s with scheduledPid := Function.update s.scheduledPid cid (some p) }
    else none
  | .deschedule cid, s => (s.scheduledPid cid).bind fun p =>
      notifyDeschedule z cid p { s with scheduledPid := Function.update s.scheduledPid cid none }
  | .endOfPhase asked, s => (s.endOfPhase z asked).map Prod.fst

/-! ### What the counts should be -/

/-- What the processes of a group have executed. -/
def groupExecuted (s : Simulation) (x : Count) (group : ℕ) : ℕ :=
  owed z.lineSize z.groupIdx (s.executed x) group

/-- Each entry has what its group has executed, and all entries what the cores have counted. -/
structure Charged (s : Simulation) : Prop where
  entry : ∀ x group, s.stats.process x group = s.groupExecuted z x group
  total : ∀ x, ∑ group ∈ Finset.range z.lineSize, s.stats.process x group =
    ∑ cid ∈ Finset.range z.numCores, s.core x cid

/-- A core counts only while a process is scheduled on it. -/
def Busy : Op → Simulation → Prop
  | .advance cid counts, s => s.scheduledPid cid ≠ none ∨ ∀ x, counts x = 0
  | _, _ => True

/-! ### The accounts -/

/-- The group that a core counts for. -/
def owner (s : Simulation) (cid : ℕ) : Option ℕ := (s.scheduledPid cid).map z.groupIdx

def pending (s : Simulation) (x : Count) (cid : ℕ) : ℕ := s.core x cid - s.stats.lastCore x cid

/-- Entries as the accounts of their groups; an idle core has none. -/
def accounts (entry : ℕ → ℕ) : Option ℕ → ℕ
  | none => 0
  | some group => entry group

structure Accounted (s : Simulation) : Prop where
  le : ∀ x cid, s.stats.lastCore x cid ≤ s.core x cid
  idle : ∀ x, ∀ cid < z.numCores, s.scheduledPid cid = none → s.pending x cid = 0
  pid : ∀ cid p, s.scheduledPid cid = some p → p < z.lineSize
  balanced : ∀ x, Balanced z.numCores (s.owner z) (s.pending x) (accounts (s.stats.process x))
    (accounts (s.groupExecuted z x))
  total : ∀ x, ∑ group ∈ Finset.range z.lineSize, s.stats.process x group =
    ∑ cid ∈ Finset.range z.numCores, s.stats.lastCore x cid

/-- The statistics are the only thing that may differ. -/
structure Same (s s' : Simulation) : Prop where
  core : s'.core = s.core
  scheduledPid : s'.scheduledPid = s.scheduledPid
  executed : s'.executed = s.executed
  numPhases : s'.numPhases = s.numPhases

/-- All that the cores counted is charged. -/
def Settled (s : Simulation) : Prop := ∀ x, ∀ cid < z.numCores, s.pending x cid = 0

variable {z : ProcessGroups} {s s' s'' : Simulation} {cid p : ℕ} {x : Count}

theorem Same.refl (s : Simulation) : Same s s := ⟨rfl, rfl, rfl, rfl⟩

theorem Same.trans (h : Same s s') (h' : Same s' s'') : Same s s'' :=
  ⟨h'.core.trans h.core, h'.scheduledPid.trans h.scheduledPid, h'.executed.trans h.executed,
    h'.numPhases.trans h.numPhases⟩

theorem Same.groupExecuted (h : Same s s') : s'.groupExecuted z = s.groupExecuted z := by
  unfold Simulation.groupExecuted
  rw [h.executed]

theorem updateCore_eq (h : Accounted z s) (cid p : ℕ) :
    s.updateCore z cid p = some (s.charge cid (z.groupIdx p)) :=
  if_pos ⟨h.le .cycles cid, h.le .instrs cid⟩

theorem charge_pending (s : Simulation) (cid group : ℕ) (x : Count) :
    (s.charge cid group).pending x = Function.update (s.pending x) cid 0 := by
  funext i
  unfold pending charge
  by_cases hi : i = cid
  · subst hi
    simp
  · simp [hi]

theorem charge_accounted (h : Accounted z s) (hcid : cid < z.numCores)
    (hp : s.scheduledPid cid = some p) : Accounted z (s.charge cid (z.groupIdx p)) := by
  have howner : s.owner z cid = some (z.groupIdx p) := by
    rw [owner, hp]
    rfl
  constructor
  case le =>
    intro x i
    change Function.update (s.stats.lastCore x) cid (s.core x cid) i ≤ s.core x i
    by_cases hi : i = cid
    · subst hi
      rw [Function.update_self]
    · rw [Function.update_of_ne hi]
      exact h.le x i
  case idle =>
    intro x i hi hnone
    rw [charge_pending]
    by_cases hne : i = cid
    · rw [hne, Function.update_self]
    · rw [Function.update_of_ne hne]
      exact h.idle x i hi hnone
  case pid => exact h.pid
  case balanced =>
    intro x
    refine (h.balanced x).settle hcid (fun i _ hne => ?_) ?_ fun k => ?_
    · rw [charge_pending, Function.update_of_ne hne]
    · rw [charge_pending, Function.update_self]
    · rw [howner]
      cases k with
      | none => rfl
      | some group =>
        change Function.update (s.stats.process x) _ _ group = s.stats.process x group + _
        by_cases hgroup : z.groupIdx p = group
        · subst hgroup
          rw [Function.update_self, if_pos rfl]
          rfl
        · rw [Function.update_of_ne (Ne.symm hgroup), if_neg (by simpa using hgroup), Nat.add_zero]
  case total =>
    intro x
    have hle := h.le x cid
    have hlast : s.core x cid = s.stats.lastCore x cid + s.pending x cid := by
      unfold pending
      omega
    change ∑ group ∈ _, Function.update (s.stats.process x) _ (_ + s.pending x cid) group =
      ∑ i ∈ _, Function.update (s.stats.lastCore x) cid (s.core x cid) i
    rw [hlast, sum_update_add _ hcid, sum_update_add _ (z.groupIdx_lt p (h.pid cid p hp)),
      h.total x]

/-- The loop of `update` settles the cores that it comes to. -/
theorem loop_spec (h : Accounted z s) (cids : List ℕ) (hcids : ∀ cid ∈ cids, cid < z.numCores) :
    ∃ s', cids.foldlM (updateScheduled z) s = some s' ∧ Accounted z s' ∧ Same s s' ∧
      ∀ x i, i < z.numCores → (i ∈ cids ∨ s.pending x i = 0) → s'.pending x i = 0 := by
  induction cids generalizing s with
  | nil => exact ⟨s, rfl, h, .refl s, fun x i _ hi => hi.elim nofun id⟩
  | cons cid cids ih =>
    have hrest : ∀ i ∈ cids, i < z.numCores := fun i hi => hcids i (by simp [hi])
    have hcid := hcids cid (by simp)
    rw [List.foldlM_cons]
    cases hp : s.scheduledPid cid with
    | none =>
      obtain ⟨s', hs', hacc, hsame, hsettled⟩ := ih h hrest
      have hstep : updateScheduled z s cid = some s := by rw [updateScheduled, hp]
      refine ⟨s', by rw [hstep]; exact hs', hacc, hsame, fun x i hlt hi => hsettled x i hlt ?_⟩
      rcases hi with hi | hzero
      · rcases List.mem_cons.mp hi with rfl | hi
        · exact .inr (h.idle x i hlt hp)
        · exact .inl hi
      · exact .inr hzero
    | some p =>
      have hstep : updateScheduled z s cid = some (s.charge cid (z.groupIdx p)) := by
        rw [updateScheduled, hp]
        exact (if_pos (h.pid cid p hp)).trans (updateCore_eq h cid p)
      obtain ⟨s', hs', hacc, hsame, hsettled⟩ := ih (charge_accounted h hcid hp) hrest
      have hsame' : Same s (s.charge cid (z.groupIdx p)) := ⟨rfl, rfl, rfl, rfl⟩
      refine ⟨s', by rw [hstep]; exact hs', hacc, hsame'.trans hsame,
        fun x i hlt hi => hsettled x i hlt ?_⟩
      rw [charge_pending]
      by_cases hne : i = cid
      · exact .inr (by rw [hne, Function.update_self])
      · rw [Function.update_of_ne hne]
        exact hi.imp_left fun hi => (List.mem_cons.mp hi).resolve_left hne

theorem update_spec (h : Accounted z s) (hphase : s.stats.lastUpdatePhase < s.numPhases) :
    ∃ s', s.update z = some s' ∧ Accounted z s' ∧ Same s s' ∧ s'.Settled z ∧
      s'.stats.lastUpdatePhase = s'.numPhases := by
  obtain ⟨s1, hs1, hacc, hsame, hloop⟩ :=
    loop_spec h (List.range z.numCores) fun cid hcid => List.mem_range.mp hcid
  refine ⟨{ s1 with stats := { s1.stats with lastUpdatePhase := s1.numPhases } }, ?_,
    ⟨hacc.le, hacc.idle, hacc.pid, hacc.balanced, hacc.total⟩,
    ⟨hsame.core, hsame.scheduledPid, hsame.executed, hsame.numPhases⟩, ?_, rfl⟩
  · rw [update, if_pos hphase, hs1]
    rfl
  · exact fun x i hi => hloop x i hi (.inl (List.mem_range.mpr hi))

/-- Nothing has been counted since the last update, if it was in this phase. -/
def Fresh (z : ProcessGroups) (s : Simulation) : Prop :=
  s.stats.lastUpdatePhase < s.numPhases ∨
    s.stats.lastUpdatePhase = s.numPhases ∧ s.Settled z

theorem Accounted.entry (h : Accounted z s) (hsettled : s.Settled z) (x : Count) (group : ℕ) :
    s.stats.process x group = s.groupExecuted z x group :=
  ((h.balanced x).settled (hsettled x) (some group)).symm

theorem Accounted.charged (h : Accounted z s) (hsettled : s.Settled z) : Charged z s := by
  refine ⟨h.entry hsettled, fun x => (h.total x).trans (sum_unchanged fun cid hcid => ?_)⟩
  have hle := h.le x cid
  have hzero : s.core x cid - s.stats.lastCore x cid = 0 := hsettled x cid hcid
  omega

theorem getProcess_spec (h : Accounted z s) (hfresh : Fresh z s) (x : Count) (p : ℕ) :
    ∃ s', Accounted z s' ∧ Same s s' ∧ s'.Settled z ∧ Fresh z s' ∧
      s.getProcess z x p = if p < z.lineSize then some (s', s.groupExecuted z x p) else none := by
  have hnow : ∃ s', (if s.stats.lastUpdatePhase ≠ s.numPhases then s.update z else some s) =
      some s' ∧ Accounted z s' ∧ Same s s' ∧ s'.Settled z ∧
        s'.stats.lastUpdatePhase = s'.numPhases := by
    rcases hfresh with hphase | ⟨hphase, hsettled⟩
    · rw [if_pos (Nat.ne_of_lt hphase)]
      exact update_spec h hphase
    · exact ⟨s, if_neg (not_not_intro hphase), h, .refl s, hsettled, hphase⟩
  obtain ⟨s', hs', hacc, hsame, hsettled, hphase⟩ := hnow
  refine ⟨s', hacc, hsame, hsettled, .inr ⟨hphase, hsettled⟩, ?_⟩
  rw [getProcess, hs', ← hsame.groupExecuted, ← hacc.entry hsettled]
  rfl

/-- The events get what the groups with the numbers of the processes have executed. -/
theorem callbacks_spec (h : Accounted z s) (hfresh : Fresh z s) (asked : List (Count × ℕ))
    (hasked : ∀ e ∈ asked, e.2 < z.lineSize) :
    ∃ s', s.callbacks z asked = some (s', asked.map fun e => s.groupExecuted z e.1 e.2) ∧
      Accounted z s' ∧ Same s s' ∧ Fresh z s' ∧ (asked ≠ [] → s'.Settled z) := by
  induction asked generalizing s with
  | nil => exact ⟨s, rfl, h, .refl s, hfresh, absurd rfl⟩
  | cons e asked ih =>
    obtain ⟨s1, hacc1, hsame1, hsettled1, hfresh1, hget⟩ := getProcess_spec h hfresh e.1 e.2
    rw [if_pos (hasked e (by simp))] at hget
    obtain ⟨s', hs', hacc, hsame, hfresh', hsettled⟩ :=
      ih hacc1 hfresh1 fun e he => hasked e (by simp [he])
    refine ⟨s', ?_, hacc, hsame1.trans hsame, hfresh', fun _ => ?_⟩
    · rw [callbacks, hget, Option.bind_some]
      change (callbacks z asked s1).map _ = _
      rw [hs', hsame1.groupExecuted]
      rfl
    · by_cases hempty : asked = []
      · subst hempty
        obtain rfl := (Prod.mk.inj (Option.some.inj hs')).1
        exact hsettled1
      · exact hsettled hempty

/-- Events ask for processes that there can be. -/
theorem callbacks_lt : ∀ {asked : List (Count × ℕ)} {s : Simulation},
    (s.callbacks z asked).isSome → ∀ e ∈ asked, e.2 < z.lineSize
  | [], _, _ => nofun
  | (x, p) :: asked, s, h => by
    obtain ⟨r, hr⟩ := Option.isSome_iff_exists.mp h
    obtain ⟨⟨s1, value⟩, hget, hrest⟩ := Option.bind_eq_some_iff.mp hr
    obtain ⟨r1, hr1, -⟩ := Option.map_eq_some_iff.mp hrest
    obtain ⟨s2, -, hvalue⟩ := Option.bind_eq_some_iff.mp hget
    intro e he
    rcases List.mem_cons.mp he with rfl | he
    · exact (Option.ite_none_right_eq_some.mp hvalue).1
    · exact callbacks_lt (Option.isSome_iff_exists.mpr ⟨r1, hr1⟩) e he

/-! ### Runs -/

/-- The accounts, and that no update was made in this phase yet, unless it is the first. -/
structure Inv (z : ProcessGroups) (s : Simulation) : Prop extends Accounted z s where
  phase : s.stats.lastUpdatePhase < s.numPhases ∨ s.numPhases = 0 ∧ s.stats.lastUpdatePhase = 0

theorem init_inv : Inv z init where
  le := fun _ _ => le_rfl
  idle := fun _ _ _ _ => rfl
  pid := nofun
  balanced := fun x k => by
    have howed : owed z.numCores (init.owner z) (init.pending x) k = 0 :=
      owed_zero (fun _ _ => rfl) k
    rw [howed]
    cases k with
    | none => rfl
    | some group => exact owed_zero (fun _ _ => rfl) group
  total := fun _ => by simp [init]
  phase := .inr ⟨rfl, rfl⟩

/-- What the end of a phase answers, and what it leaves. -/
theorem endOfPhase_spec (h : Inv z s) {asked : List (Count × ℕ)} {values : List ℕ}
    (hend : s.endOfPhase z asked = some (s', values)) :
    Inv z s' ∧ values = asked.map (fun e => s.groupExecuted z e.1 e.2) ∧
      (asked ≠ [] → Charged z s') := by
  obtain ⟨hfirst, hend⟩ := Option.ite_none_left_eq_some.mp hend
  obtain ⟨⟨s1, values1⟩, hcallbacks, heq⟩ := Option.map_eq_some_iff.mp hend
  obtain ⟨rfl, rfl⟩ := Prod.mk.inj heq
  rcases h.phase with hphase | ⟨hzero, hlast⟩
  case inl =>
    obtain ⟨s2, hs2, hacc, hsame, hfresh, hsettled⟩ := callbacks_spec h.toAccounted (.inl hphase)
      asked (callbacks_lt (Option.isSome_iff_exists.mpr ⟨_, hcallbacks⟩))
    obtain ⟨rfl, rfl⟩ := Prod.mk.inj (Option.some.inj (hcallbacks.symm.trans hs2))
    refine ⟨⟨⟨hacc.le, hacc.idle, hacc.pid, hacc.balanced, hacc.total⟩, .inl ?_⟩, rfl,
      fun hne => ?_⟩
    · change s1.stats.lastUpdatePhase < s1.numPhases + 1
      rcases hfresh with hlt | ⟨heq, -⟩
      · exact Nat.lt_succ_of_lt hlt
      · exact Nat.lt_succ_of_le heq.le
    · obtain ⟨hentry, htotal⟩ := hacc.charged (hsettled hne)
      exact ⟨hentry, htotal⟩
  case inr =>
    obtain rfl : asked = [] := by
      by_contra hne
      exact hfirst ⟨hzero, hne⟩
    obtain ⟨rfl, rfl⟩ := Prod.mk.inj (Option.some.inj hcallbacks)
    refine ⟨⟨⟨h.le, h.idle, h.pid, h.balanced, h.total⟩, .inl ?_⟩, rfl, absurd rfl⟩
    change s.stats.lastUpdatePhase < s.numPhases + 1
    omega

/-- What a core counts is executed by the group that it counts for. -/
theorem advance_executed (hpid : ∀ p, s.scheduledPid cid = some p → p < z.lineSize)
    {counts : Count → ℕ} (hbusy : s.scheduledPid cid ≠ none ∨ ∀ x, counts x = 0)
    (x : Count) (k : Option ℕ) :
    accounts ((s.advance cid counts).groupExecuted z x) k =
      accounts (s.groupExecuted z x) k + if s.owner z cid = k then counts x else 0 := by
  unfold owner groupExecuted advance
  cases hp : s.scheduledPid cid with
  | none =>
    have hzero := hbusy.resolve_left (not_not_intro hp) x
    rw [hzero, ite_self]
    rfl
  | some p =>
    cases k with
    | none => rfl
    | some group =>
      refine (owed_update_add _ _ (hpid p hp) (counts x) group).trans ?_
      change owed _ _ _ group + (if z.groupIdx p = group then counts x else 0) =
        owed _ _ _ group + if some (z.groupIdx p) = some group then counts x else 0
      simp only [Option.some.injEq]

theorem advance_inv (h : Inv z s) (hcid : cid < z.numCores) {counts : Count → ℕ}
    (hbusy : s.scheduledPid cid ≠ none ∨ ∀ x, counts x = 0) : Inv z (s.advance cid counts) := by
  have hpending (x : Count) : (s.advance cid counts).pending x =
      Function.update (s.pending x) cid (s.pending x cid + counts x) := by
    funext i
    unfold pending advance
    have hle := h.le x cid
    by_cases hi : i = cid
    · subst hi
      simp only [Function.update_self]
      omega
    · simp only [Function.update_of_ne hi]
  refine ⟨⟨fun x i => ?le, fun x i hi hnone => ?idle, h.pid, fun x => ?balanced, h.total⟩, h.phase⟩
  case le =>
    change s.stats.lastCore x i ≤ Function.update (s.core x) cid (s.core x cid + counts x) i
    by_cases hi : i = cid
    · subst hi
      rw [Function.update_self]
      exact le_trans (h.le x i) (Nat.le_add_right _ _)
    · rw [Function.update_of_ne hi]
      exact h.le x i
  case idle =>
    rw [hpending]
    by_cases hne : i = cid
    · subst hne
      rw [Function.update_self, h.idle x i hi hnone, hbusy.resolve_left (not_not_intro hnone) x]
    · rw [Function.update_of_ne hne]
      exact h.idle x i hi hnone
  case balanced =>
    refine (h.balanced x).accrue hcid (fun i _ hne => ?_) ?_ (advance_executed (h.pid cid) hbusy x)
    · rw [hpending, Function.update_of_ne hne]
    · rw [hpending, Function.update_self]

/-- A core changes hands when nothing is pending on it. -/
theorem transfer_accounted (h : Accounted z s) (hcid : cid < z.numCores)
    (hzero : ∀ x, s.pending x cid = 0) (next : Option ℕ) (hnext : ∀ p ∈ next, p < z.lineSize) :
    Accounted z { s with scheduledPid := Function.update s.scheduledPid cid next } := by
  refine ⟨h.le, fun x i hi hnone => ?idle, fun i p hp => ?pid, fun x => ?balanced, h.total⟩
  case idle =>
    by_cases hne : i = cid
    · subst hne
      exact hzero x
    · exact h.idle x i hi ((Function.update_of_ne hne _ _).symm.trans hnone)
  case pid =>
    by_cases hne : i = cid
    · subst hne
      change Function.update s.scheduledPid i next i = some p at hp
      rw [Function.update_self] at hp
      exact hnext p hp
    · exact h.pid i p ((Function.update_of_ne hne _ _).symm.trans hp)
  case balanced =>
    have howner : ∀ i < z.numCores, i ≠ cid →
        owner z { s with scheduledPid := Function.update s.scheduledPid cid next } i =
          s.owner z i :=
      fun i _ hne => congrArg (Option.map z.groupIdx) (Function.update_of_ne hne _ _)
    exact ((h.balanced x).transfer_iff hcid howner).mpr (.inl (hzero x))

theorem deschedule_inv (h : Inv z s) (hp : s.scheduledPid cid = some p)
    (hs' : notifyDeschedule z cid p
      { s with scheduledPid := Function.update s.scheduledPid cid none } = some s') :
    Inv z s' := by
  obtain ⟨⟨hcid, -⟩, hs'⟩ := Option.ite_none_right_eq_some.mp hs'
  have hcharge : s' = { s.charge cid (z.groupIdx p) with
      scheduledPid := Function.update s.scheduledPid cid none } := by
    obtain ⟨-, hs'⟩ := Option.ite_none_right_eq_some.mp hs'
    exact (Option.some.inj hs').symm
  have hzero (x : Count) : (s.charge cid (z.groupIdx p)).pending x cid = 0 := by
    rw [charge_pending, Function.update_self]
  rw [hcharge]
  exact ⟨transfer_accounted (charge_accounted h.toAccounted hcid hp) hcid hzero none nofun, h.phase⟩

theorem step_inv {op : Op} (h : Inv z s) (hbusy : Busy op s) (hs' : s.step z op = some s') :
    Inv z s' := by
  cases op with
  | advance cid counts =>
    obtain ⟨hcid, hs'⟩ := Option.ite_none_right_eq_some.mp hs'
    cases hs'
    exact advance_inv h hcid hbusy
  | schedule cid p =>
    obtain ⟨⟨hcid, hp, hidle⟩, hs'⟩ := Option.ite_none_right_eq_some.mp hs'
    cases hs'
    refine ⟨transfer_accounted h.toAccounted hcid (fun x => h.idle x cid hcid hidle) (some p) ?_,
      h.phase⟩
    rintro _ ⟨⟩
    exact hp
  | deschedule cid =>
    obtain ⟨p, hp, hs'⟩ := Option.bind_eq_some_iff.mp hs'
    exact deschedule_inv h hp hs'
  | endOfPhase asked =>
    obtain ⟨⟨s1, values⟩, hend, rfl⟩ := Option.map_eq_some_iff.mp hs'
    exact (endOfPhase_spec h hend).1

/-- A value that was answered for `p` is right: it is what `p` executed, or what its group did. -/
def Right (z : ProcessGroups) (s : Simulation) (x : Count) (p value : ℕ) : Prop :=
  value = s.executed x p ∨ value = s.groupExecuted z x (z.groupIdx p)

/-- Whatever runs before it, the end of a phase answers what it is asked about `p` rightly. -/
def AnswersRight (z : ProcessGroups) (p : ℕ) : Prop :=
  ∀ ops s, run (step z) ops init = some s → Along (step z) Busy ops init →
    ∀ asked s' values, s.endOfPhase z asked = some (s', values) →
      ∀ e ∈ asked.zip values, e.1.2 = p → Right z s e.1.1 p e.2

/-- A process runs on the first core for a phase, in which everything is counted once. -/
def runAlone (p : ℕ) : List Op := [.schedule 0 p, .advance 0 fun _ => 1, .endOfPhase []]

theorem runAlone_spec {p : ℕ} (hp : p < z.lineSize) :
    ∃ s, run (step z) (runAlone p) init = some s ∧ Along (step z) Busy (runAlone p) init ∧
      s.numPhases = 1 ∧ s.stats.lastUpdatePhase = 0 ∧
      s.executed .instrs = Function.update (fun _ => 0) p 1 := by
  let s1 : Simulation := { init with scheduledPid := Function.update init.scheduledPid 0 (some p) }
  have h1 : step z (.schedule 0 p) init = some s1 := if_pos ⟨z.cores_pos, hp, rfl⟩
  have h2 : step z (.advance 0 fun _ => 1) s1 = some (s1.advance 0 fun _ => 1) := if_pos z.cores_pos
  have h3 (s : Simulation) : step z (.endOfPhase []) s =
      some { s with numPhases := s.numPhases + 1 } := by
    rw [step, endOfPhase, if_neg (by simp)]
    rfl
  have hpid : s1.scheduledPid 0 = some p := by
    change Function.update init.scheduledPid 0 (some p) 0 = some p
    rw [Function.update_self]
  refine ⟨{ s1.advance 0 fun _ => 1 with numPhases := 1 }, ?_, ?_, rfl, rfl, ?_⟩
  · rw [runAlone, run, h1, Option.bind_some, run, h2, Option.bind_some, run, h3]
    rfl
  · refine ⟨trivial, fun s hs => ⟨.inl ?_, fun _ _ => ⟨trivial, fun _ _ => trivial⟩⟩⟩
    obtain rfl := Option.some.inj (h1.symm.trans hs)
    rw [hpid]
    exact Option.some_ne_none p
  · change (match s1.scheduledPid 0 with
      | none => s1.executed .instrs
      | some p => Function.update (s1.executed .instrs) p (s1.executed .instrs p + 1)) = _
    rw [hpid]
    rfl

/-- A process whose group has another number executes an instruction, and none is found. -/
theorem answer_wrong {p : ℕ} (hp : p < z.lineSize) (hgroup : z.groupIdx p ≠ p) :
    ¬ AnswersRight z p := by
  intro hright
  obtain ⟨s, hrun, hbusy, hphase, hlast, hexecuted⟩ := runAlone_spec hp
  have hinv : Inv z s :=
    run_preserves (fun _ _ _ h hbusy hs' => step_inv h hbusy hs') init_inv hbusy hrun
  obtain ⟨s', hs', -⟩ := callbacks_spec hinv.toAccounted (.inl (by omega)) [(.instrs, p)]
    (by simpa using hp)
  have hend : s.endOfPhase z [(.instrs, p)] =
      some ({ s' with numPhases := s'.numPhases + 1 }, [s.groupExecuted z .instrs p]) := by
    rw [endOfPhase, if_neg (by simp [hphase]), hs']
    rfl
  have hvalue := hright _ s hrun hbusy _ _ _ hend ((.instrs, p), s.groupExecuted z .instrs p)
    (by simp) rfl
  have hgroups (group : ℕ) : s.groupExecuted z .instrs group =
      if z.groupIdx p = group then 1 else 0 := by
    have howed := owed_update_add z.groupIdx (fun _ => 0) hp 1 group
    rw [owed_zero fun _ _ => rfl, Nat.zero_add, Nat.zero_add] at howed
    rw [groupExecuted, hexecuted, howed]
  unfold Right at hvalue
  rw [hgroups, hgroups, if_neg hgroup, if_pos rfl, hexecuted, Function.update_self] at hvalue
  simp at hvalue

/-- In all runs in which cores count for processes, the entries have at the end of a phase what
their groups executed, and all that the cores counted; and what is answered for a process is right
in all of them if and only if its group has its own number. -/
theorem answers_right_iff (z : ProcessGroups) {p : ℕ} (hp : p < z.lineSize) :
    (∀ ops s, run (step z) ops init = some s → Along (step z) Busy ops init →
      ∀ asked s' values, s.endOfPhase z asked = some (s', values) → asked ≠ [] → Charged z s') ∧
    (AnswersRight z p ↔ z.groupIdx p = p) := by
  have hinv (ops : List Op) (s : Simulation) (hrun : run (step z) ops init = some s)
      (hbusy : Along (step z) Busy ops init) : Inv z s :=
    run_preserves (fun _ _ _ h hbusy hs' => step_inv h hbusy hs') init_inv hbusy hrun
  refine ⟨fun ops s hrun hbusy asked s' values hend =>
    (endOfPhase_spec (hinv ops s hrun hbusy) hend).2.2, ?_⟩
  constructor
  case mp =>
    intro hright
    by_contra hgroup
    exact answer_wrong hp hgroup hright
  case mpr =>
    intro hgroup ops s hrun hbusy asked s' values hend e he hep
    obtain ⟨-, rfl, -⟩ := endOfPhase_spec (hinv ops s hrun hbusy) hend
    obtain ⟨i, hi, rfl⟩ := List.getElem_of_mem he
    rw [List.getElem_zip, List.getElem_map] at *
    refine .inr ?_
    rw [hgroup]
    dsimp only at hep ⊢
    rw [hep]

/-- Two processes, the second of which is in the group of the first, and one core. -/
def oneGroup : ProcessGroups := ⟨2, 1, fun _ => 0, by simp, Nat.one_pos, Nat.two_pos⟩

theorem answers_right_example : AnswersRight oneGroup 0 ∧ ¬ AnswersRight oneGroup 1 :=
  ⟨(answers_right_iff oneGroup (p := 0) (by decide)).2.mpr rfl,
    fun h => absurd ((answers_right_iff oneGroup (p := 1) (by decide)).2.mp h) (by decide)⟩

/-- The second process executes 100 instructions in a phase, and 0 is answered for it. -/
theorem answers_not_right :
    ∃ s, run (step oneGroup) [.schedule 0 1, .advance 0 fun _ => 100, .endOfPhase []] init =
        some s ∧
      (s.endOfPhase oneGroup [(.instrs, 1)]).map Prod.snd = some [0] ∧
      s.executed .instrs 1 = 100 ∧ s.groupExecuted oneGroup .instrs (oneGroup.groupIdx 1) = 100 ∧
      ¬ Right oneGroup s .instrs 1 0 := by
  refine ⟨_, rfl, by decide, by decide, by decide, ?_⟩
  rintro (h | h)
  · exact absurd h (by decide)
  · exact absurd h (by decide)

end Simulation

end Doppelganger.Procs
