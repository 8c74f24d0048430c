import Mathlib.Data.UInt
import Mathlib.Logic.Function.Basic
import Mathlib.Tactic.Common

/-! The stall loop of `watchdogThreadFunc`, which makes the threads that hold up a phase in fake
leaves leave.  It gives up the lock around each `leave`; what other threads do then is a `Turn`. -/

namespace Doppelganger.Watchdog

def getGid (pid tid : UInt32) : UInt32 := (pid <<< 16) ||| tid

def getPid (gid : UInt32) : UInt32 := gid >>> 16

def getTid (gid : UInt32) : UInt32 := gid &&& 0x0FFFF

/-- `FakeLeaveInfo`. -/
structure FakeLeaveInfo where
  pc : UInt64
  th : Nat
  syscallNumber : Int
deriving DecidableEq, Repr

/-- What the lock protects, as far as the loop looks at it; threads are named by numbers. -/
structure Locked where
  fakeLeaves : List FakeLeaveInfo
  cid : Nat → Nat
  curThread : Nat → Option Nat
  blockingSyscalls : UInt32 → List UInt64

/-- What other threads do while the watchdog has given up the lock, before and after `leave` gets
it. -/
structure Turn where
  before : Locked → Locked
  after : Locked → Locked

/-- A call of `leave`: its arguments, the thread whose fake leave was finished for it, the `pc` of
that fake leave, and the thread of the context when `leave` has the lock. -/
structure Release where
  pid : UInt32
  tid : UInt32
  cid : Nat
  th : Nat
  pc : UInt64
  curThread : Option Nat
deriving DecidableEq, Repr

/-- `finishFakeLeave`. -/
def Locked.finishFakeLeave (s : Locked) (th : Nat) : Locked :=
  { s with fakeLeaves := s.fakeLeaves.eraseP (·.th = th) }

/-- A fake leave that is the only one goes to the blacklist of its process. -/
def Locked.blacklist (s : Locked) (pid : UInt32) (fl : FakeLeaveInfo) : Locked :=
  if s.fakeLeaves.length = 1 then
    { s with blockingSyscalls :=
        Function.update s.blockingSyscalls pid (fl.pc :: s.blockingSyscalls pid) }
  else s

variable (gid : Nat → UInt32)

/-- The loop, from the fake leave `fl` of a thread on; `turns` are as many as there are turns. -/
def stallLoop (pid : UInt32) (pc : UInt64) :
    List Turn → FakeLeaveInfo → UInt32 → Nat → Locked → List Release
  | [], _, _, _, _ => []
  | turn :: turns, fl, tid, cid, s =>
    let th := fl.th
    let s := turn.before (s.finishFakeLeave th)
    let released : Release := ⟨pid, tid, cid, th, fl.pc, s.curThread cid⟩
    let s := turn.after s
    released :: match s.fakeLeaves with
      | [] => []
      | fl :: rest =>
        -- The guard looks at the thread that has just left.
        if getPid (gid th) ≠ pid ∨ fl.pc ≠ pc then []
        else if (fl :: rest).length > 8 then
          stallLoop pid pc turns fl (getTid (gid fl.th)) (s.cid fl.th) s
        else []

/-- The branch of `watchdogThreadFunc` for a stall; `matchesBlacklist` is the regular expression of
a process. -/
def leaveStalled (matchesBlacklist : UInt32 → Int → Bool) (turns : List Turn) (s : Locked) :
    List Release :=
  match s.fakeLeaves with
  | [] => []
  | fl :: _ =>
    let pid := getPid (gid fl.th)
    let tid := getTid (gid fl.th)
    let cid := s.cid fl.th
    if matchesBlacklist pid fl.syscallNumber then
      stallLoop gid pid fl.pc turns fl tid cid (s.blacklist pid fl)
    else []

/-- A call of `leave` names the process, the thread and the context of the thread whose fake leave
was finished, the thread is of the process `pid` at `pc`, and the assertion on its `gid` holds. -/
structure Release.Right (pid : UInt32) (pc : UInt64) (r : Release) : Prop where
  named : getPid (gid r.th) = r.pid ∧ getTid (gid r.th) = r.tid ∧ r.curThread = some r.th
  stalled : getPid (gid r.th) = pid ∧ r.pc = pc
  asserted : r.curThread.map gid = some (getGid r.pid r.tid)

/-- What other threads do after a `leave` that is for the first fake leave. -/
def Turn.next (turn : Turn) (s : Locked) (fl : FakeLeaveInfo) : Locked :=
  turn.after (turn.before (s.finishFakeLeave fl.th))

/-- The first fake leave is of a thread of the process `pid`, which is still the thread of its
context when `leave` gets the lock; and so is the one that is the first then, when it is at the same
`pc` and there are more than eight. -/
def TakesOwn (pid : UInt32) (pc : UInt64) : List Turn → Locked → Prop
  | [], _ => True
  | turn :: turns, s => ∀ fl ∈ s.fakeLeaves.head?,
      (getPid (gid fl.th) = pid ∧
        (turn.before (s.finishFakeLeave fl.th)).curThread (s.cid fl.th) = some fl.th) ∧
      ∀ fl' ∈ (turn.next s fl).fakeLeaves.head?, fl'.pc = pc →
        8 < (turn.next s fl).fakeLeaves.length → TakesOwn pid pc turns (turn.next s fl)

/-- The other threads only make the context of a thread that leaves run another one. -/
structure Turn.Quiet (turn : Turn) : Prop where
  leaves_before : ∀ s, (turn.before s).fakeLeaves = s.fakeLeaves
  runs_before : ∀ s c, (turn.before s).curThread c = s.curThread c
  cid_before : ∀ s th, (turn.before s).cid th = s.cid th
  leaves_after : ∀ s, (turn.after s).fakeLeaves = s.fakeLeaves
  runs_after : ∀ s, ∀ fl ∈ s.fakeLeaves, (turn.after s).curThread (s.cid fl.th) =
    s.curThread (s.cid fl.th)
  cid_after : ∀ s, ∀ fl ∈ s.fakeLeaves, (turn.after s).cid fl.th = s.cid fl.th

variable {gid} {s : Locked} {r : Release} {pid : UInt32} {pc : UInt64}

theorem blacklist_cid (s : Locked) (pid : UInt32) (fl : FakeLeaveInfo) :
    (s.blacklist pid fl).cid = s.cid := by
  unfold Locked.blacklist
  split
  case isTrue => rfl
  case isFalse => rfl

theorem blacklist_leaves (s : Locked) (pid : UInt32) (fl : FakeLeaveInfo) :
    (s.blacklist pid fl).fakeLeaves = s.fakeLeaves := by
  unfold Locked.blacklist
  split
  case isTrue => rfl
  case isFalse => rfl

theorem getGid_eq (g : UInt32) : getGid (getPid g) (getTid g) = g := by
  unfold getGid getPid getTid
  apply UInt32.toBitVec_inj.mp
  apply BitVec.eq_of_getLsbD_eq
  intro i hi
  have hmask : (65535#32).getLsbD i = decide (i < 16) := by
    rw [BitVec.getLsbD_ofNat, show 65535 = 2 ^ 16 - 1 from rfl, Nat.testBit_two_pow_sub_one]
    simp [hi]
  obtain hlow | hhigh := Nat.lt_or_ge i 16
  · simp [hmask, hlow]
  · have hshift : 16 + (i - 16) = i := by omega
    simp [-BitVec.getLsbD_eq_getElem, hmask, hi, Nat.not_lt.mpr hhigh, hshift]

/-- A call that names what the loop says is right when its thread is of the process and still runs
in its context. -/
theorem right_iff (hpid : r.pid = pid) (htid : r.tid = getTid (gid r.th)) (hpc : r.pc = pc) :
    r.Right gid pid pc ↔ getPid (gid r.th) = pid ∧ r.curThread = some r.th := by
  constructor
  · exact fun h => ⟨h.stalled.1, h.named.2.2⟩
  · rintro ⟨hstalled, hcontext⟩
    refine ⟨⟨hstalled.trans hpid.symm, htid.symm, hcontext⟩, ⟨hstalled, hpc⟩, ?_⟩
    rw [hcontext, Option.map_some, htid, hpid, ← hstalled, getGid_eq]

/-- The calls of the loop are right when the fake leaves that come to be the first are of the
process. -/
theorem stallLoop_right_iff {turns : List Turn} : ∀ {fl : FakeLeaveInfo} {s : Locked},
    s.fakeLeaves.head? = some fl → fl.pc = pc →
    ((∀ r ∈ stallLoop gid pid pc turns fl (getTid (gid fl.th)) (s.cid fl.th) s,
      r.Right gid pid pc) ↔ TakesOwn gid pid pc turns s) := by
  induction turns with
  | nil => exact fun _ _ => iff_of_true (fun r hr => absurd hr List.not_mem_nil) trivial
  | cons turn turns ih =>
    intro fl s hfirst hpc
    unfold stallLoop TakesOwn Turn.next
    rw [hfirst]
    simp only [List.forall_mem_cons, Option.mem_some_iff, forall_eq']
    have hreleased : Release.Right gid pid pc ⟨pid, getTid (gid fl.th), s.cid fl.th, fl.th, fl.pc,
        (turn.before (s.finishFakeLeave fl.th)).curThread (s.cid fl.th)⟩ ↔ _ :=
      right_iff rfl rfl hpc
    refine (and_congr_left' hreleased).trans (and_congr_right fun hright => ?_)
    generalize turn.after (turn.before (s.finishFakeLeave fl.th)) = s'
    cases hleaves : s'.fakeLeaves with
    | nil => exact iff_of_true (fun r hr => absurd hr List.not_mem_nil) nofun
    | cons fl' rest =>
      simp only [List.head?_cons, Option.mem_some_iff, forall_eq']
      -- The thread that has just left is of the process, so that only the `pc` decides.
      by_cases hpc' : fl'.pc = pc
      · rw [if_neg (by simp [hright.1, hpc'])]
        split
        case isTrue hlong =>
          rw [ih (by rw [hleaves, List.head?_cons]) hpc']
          exact ⟨fun h _ _ => h, fun h => h hpc' hlong⟩
        case isFalse hshort =>
          exact iff_of_true (fun r hr => absurd hr List.not_mem_nil) fun _ hlong =>
            absurd hlong hshort
      · rw [if_pos (.inr hpc')]
        exact iff_of_true (fun r hr => absurd hr List.not_mem_nil) fun h => absurd h hpc'

/-- The calls of `leave` for a stall are right exactly when the fake leaves that come to be the
first, while they are at the `pc` of the first one and more than eight, are of its process, and each
thread of them keeps its context until the call. -/
theorem leaves_right_iff (matchesBlacklist : UInt32 → Int → Bool) (turns : List Turn) (s : Locked) :
    (∀ fl ∈ s.fakeLeaves.head?, ∀ r ∈ leaveStalled gid matchesBlacklist turns s,
      r.Right gid (getPid (gid fl.th)) fl.pc) ↔
    ∀ fl ∈ s.fakeLeaves.head?, matchesBlacklist (getPid (gid fl.th)) fl.syscallNumber = true →
      TakesOwn gid (getPid (gid fl.th)) fl.pc turns (s.blacklist (getPid (gid fl.th)) fl) := by
  refine forall₂_congr fun fl hfl => ?_
  unfold leaveStalled
  cases hleaves : s.fakeLeaves with
  | nil => exact absurd hfl (by simp [hleaves])
  | cons first rest =>
    rw [hleaves, List.head?_cons, Option.mem_some_iff] at hfl
    subst hfl
    dsimp only
    split
    case isTrue hmatches =>
      rw [← blacklist_cid s (getPid (gid first.th)) first,
        stallLoop_right_iff (by rw [blacklist_leaves, hleaves, List.head?_cons]) rfl]
      exact ⟨fun h _ => h, fun h => h hmatches⟩
    case isFalse hskips =>
      exact iff_of_true (fun r hr => absurd hr List.not_mem_nil) fun h => absurd h hskips

/-- When the other threads are quiet, these are the first fake leave and those after it at the same
`pc`, up to the first at another one and but for the last eight. -/
theorem takesOwn_quiet {turns : List Turn} (hquiet : ∀ turn ∈ turns, turn.Quiet) :
    ∀ {s : Locked} {fl : FakeLeaveInfo} {rest : List FakeLeaveInfo}, s.fakeLeaves = fl :: rest →
    (TakesOwn gid pid pc turns s ↔
      ∀ e ∈ (fl :: (rest.take (rest.length - 8)).takeWhile (·.pc = pc)).take turns.length,
        getPid (gid e.th) = pid ∧ s.curThread (s.cid e.th) = some e.th) := by
  induction turns with
  | nil => exact fun _ => iff_of_true trivial fun e he => absurd he List.not_mem_nil
  | cons turn turns ih =>
    intro s fl rest hleaves
    obtain ⟨hturn, hquiet⟩ := List.forall_mem_cons.mp hquiet
    have hfinished : (s.finishFakeLeave fl.th).fakeLeaves = rest := by
      simp [Locked.finishFakeLeave, hleaves]
    have hbefore : (turn.before (s.finishFakeLeave fl.th)).fakeLeaves = rest :=
      (hturn.leaves_before _).trans hfinished
    have hnext : (turn.next s fl).fakeLeaves = rest := (hturn.leaves_after _).trans hbefore
    have hruns : ∀ e ∈ rest, (turn.next s fl).curThread ((turn.next s fl).cid e.th) =
        s.curThread (s.cid e.th) := by
      intro e he
      unfold Turn.next
      rw [hturn.cid_after _ e (hbefore ▸ he), hturn.runs_after _ e (hbefore ▸ he),
        hturn.runs_before, hturn.cid_before]
      rfl
    unfold TakesOwn
    rw [hleaves, List.length_cons, List.take_succ_cons, List.forall_mem_cons]
    simp only [List.head?_cons, Option.mem_some_iff, forall_eq']
    rw [hturn.runs_before, hnext]
    refine and_congr_right fun _ => ?_
    cases rest with
    | nil => exact iff_of_true nofun (by simp)
    | cons fl' rest =>
      simp only [List.head?_cons, Option.mem_some_iff, forall_eq']
      by_cases htaken : fl'.pc = pc ∧ 8 < (fl' :: rest).length
      · obtain ⟨hpc, hlong⟩ := htaken
        have hlength : (fl' :: rest).length - 8 = rest.length - 8 + 1 := by
          rw [List.length_cons] at hlong ⊢
          omega
        rw [ih hquiet hnext, hlength, List.take_succ_cons, List.takeWhile_cons_of_pos (by simpa)]
        simp only [hpc, hlong, forall_const]
        refine forall₂_congr fun e he => and_congr_right' (Eq.congr_left (hruns e ?_))
        exact ((List.take_sublist _ _).trans ((List.takeWhile_sublist _).trans
          (List.take_sublist _ _) |>.cons_cons fl')).mem he
      · have hnone : ((fl' :: rest).take ((fl' :: rest).length - 8)).takeWhile
            (fun e => decide (e.pc = pc)) = [] := by
          obtain hpc | hshort := not_and_or.mp htaken
          · cases (fl' :: rest).length - 8 with
            | zero => rfl
            | succ n => rw [List.take_succ_cons, List.takeWhile_cons_of_neg (by simpa)]
          · rw [Nat.sub_eq_zero_of_le (Nat.le_of_not_lt hshort), List.take_zero, List.takeWhile_nil]
        rw [hnone, List.take_nil]
        exact iff_of_true (fun hpc hlong => absurd ⟨hpc, hlong⟩ htaken) (List.forall_mem_nil _)

/-- Thread 0 is of process 1, and the nine other threads of process 2, at the same `pc`. -/
def twoProcesses : Locked where
  fakeLeaves := (List.range 10).map fun th => ⟨4194304, th, 0⟩
  cid := id
  curThread := some
  blockingSyscalls := fun _ => []

/-- After the leave of thread 0, the loop calls `leave` for a thread of the other process in the
name of the first. -/
theorem leave_other_process : ∃ fl ∈ twoProcesses.fakeLeaves.head?,
    ∃ r ∈ leaveStalled (fun th => if th = 0 then 65536 else 131072) (fun _ _ => true)
      [⟨id, id⟩, ⟨id, id⟩] twoProcesses,
    ¬ r.Right (fun th => if th = 0 then 65536 else 131072)
      (getPid (if fl.th = 0 then 65536 else 131072)) fl.pc := by
  refine ⟨⟨4194304, 0, 0⟩, rfl, ⟨1, 0, 1, 1, 4194304, some 1⟩, by decide +kernel, fun h => ?_⟩
  exact absurd h.asserted (by decide +kernel)

end Doppelganger.Watchdog
