import Doppelganger.Lib.Run
import Doppelganger.Lib.Tally
import Doppelganger.Procs.ProcessTree

/-! The counters of processes in fast-forward.  Whether an entry is synced depends on the number of
processes at that time, and an exit asks again: the two agree unless the process entered
fast-forward alone and leaves it after another one was created. -/

namespace Doppelganger.Procs

open Lib

/-- The state with the number of processes at each process's last entry into fast-forward. -/
structure Traced where
  zinfo : GlobSimInfo
  entered : Nat → UInt32

/-- The entries after `op`. -/
def entries (op : ProcOp) (t : Traced) : Nat → UInt32 :=
  match op with
  | .enter p | .ffiFire p => Function.update t.entered p t.zinfo.numProcs
  | .start p =>
    if (t.zinfo.procArray p).any ProcessTreeNode.started then t.entered
    else Function.update t.entered p t.zinfo.numProcs
  | _ => t.entered

def stepTraced (op : ProcOp) (t : Traced) : Option Traced :=
  (stepProc op t.zinfo).map fun zinfo => ⟨zinfo, entries op t⟩

/-- Process `p` is started, running and in fast-forward. -/
def inFF (t : Traced) (p : Nat) : Bool :=
  (t.zinfo.procArray p).any fun node =>
    node.started && node.inFastForward && t.zinfo.procExited p = .running

/-- Process `p` is in a fast-forward that was entered as synced. -/
def inSyncedFF (t : Traced) (p : Nat) : Bool :=
  inFF t p && (t.zinfo.procArray p).any (ProcessTreeNode.getSyncedFastForward (t.entered p))

/-- The counters are the numbers of such processes. -/
structure Counted (t : Traced) : Prop where
  ff : t.zinfo.globalFFProcs.toNat = ∑ p ∈ Finset.range t.zinfo.numProcs.toNat, (inFF t p).toNat
  synced : t.zinfo.globalSyncedFFProcs.toNat =
    ∑ p ∈ Finset.range t.zinfo.numProcs.toNat, (inSyncedFF t p).toNat

/-- What holds between two operations. -/
structure Inv (t : Traced) : Prop where
  counted : Counted t
  bound : t.zinfo.numProcs.toNat ≤ t.zinfo.lineSize.toNat
  null : ∀ p, t.zinfo.numProcs.toNat ≤ p →
    t.zinfo.procArray p = none ∧ t.zinfo.procExited p = .running
  running : ∀ p node, t.zinfo.procArray p = some node → node.inFastForward = true ∨
    node.started = false → t.zinfo.procExited p = .running
  entered : ∀ p, (t.entered p).toNat ≤ t.zinfo.numProcs.toNat

/-- An operation that changes nothing but process `p` and its entry. -/
structure Only (p : Nat) (t t' : Traced) : Prop where
  numProcs : t'.zinfo.numProcs = t.zinfo.numProcs
  lineSize : t'.zinfo.lineSize = t.zinfo.lineSize
  node : ∀ q, q ≠ p → t'.zinfo.procArray q = t.zinfo.procArray q
  exited : ∀ q, q ≠ p → t'.zinfo.procExited q = t.zinfo.procExited q
  entered : ∀ q, q ≠ p → t'.entered q = t.entered q

variable {p : Nat} {t t' : Traced} {node node' : ProcessTreeNode}

theorem Only.inFF (h : Only p t t') {q : Nat} (hq : q ≠ p) : inFF t' q = inFF t q := by
  simp only [Procs.inFF, h.node q hq, h.exited q hq]

theorem Only.inSyncedFF (h : Only p t t') {q : Nat} (hq : q ≠ p) :
    inSyncedFF t' q = inSyncedFF t q := by
  simp only [Procs.inSyncedFF, h.inFF hq, h.node q hq, h.entered q hq]

theorem Inv.lt (h : Inv t) (hnode : t.zinfo.procArray p = some node) :
    p < t.zinfo.numProcs.toNat := by
  by_contra hge
  rw [(h.null p (by omega)).1] at hnode
  cases hnode

/-- The invariant after a change of process `p`, whose share of the counters changes with it. -/
theorem Inv.only (h : Inv t) (honly : Only p t t') (hnode : t.zinfo.procArray p = some node)
    (hnode' : t'.zinfo.procArray p = some node')
    (hff : t'.zinfo.globalFFProcs.toNat + (inFF t p).toNat =
      t.zinfo.globalFFProcs.toNat + (inFF t' p).toNat)
    (hsynced : t'.zinfo.globalSyncedFFProcs.toNat + (inSyncedFF t p).toNat =
      t.zinfo.globalSyncedFFProcs.toNat + (inSyncedFF t' p).toNat)
    (hrunning : node'.inFastForward = true ∨ node'.started = false →
      t'.zinfo.procExited p = .running)
    (hentered : (t'.entered p).toNat ≤ t.zinfo.numProcs.toNat) : Inv t' := by
  have hp := h.lt hnode
  refine ⟨⟨?_, ?_⟩, ?_, fun q hq => ?_, fun q node1 hnode1 => ?_, fun q => ?_⟩
  · have hsum := sum_changed (f := fun q => (inFF t q).toNat) (g := fun q => (inFF t' q).toNat) hp
      fun q _ hq => by rw [honly.inFF hq]
    have hcounted := h.counted.ff
    rw [honly.numProcs]
    omega
  · have hsum := sum_changed (f := fun q => (inSyncedFF t q).toNat)
      (g := fun q => (inSyncedFF t' q).toNat) hp fun q _ hq => by rw [honly.inSyncedFF hq]
    have hcounted := h.counted.synced
    rw [honly.numProcs]
    omega
  · rw [honly.numProcs, honly.lineSize]
    exact h.bound
  · rw [honly.numProcs] at hq
    rw [honly.node q (by omega), honly.exited q (by omega)]
    exact h.null q hq
  · by_cases hq : q = p
    · subst hq
      rw [hnode'] at hnode1
      cases hnode1
      exact hrunning
    · rw [honly.node q hq] at hnode1
      rw [honly.exited q hq]
      exact h.running q node1 hnode1
  · rw [honly.numProcs]
    by_cases hq : q = p
    · subst hq
      exact hentered
    · rw [honly.entered q hq]
      exact h.entered q

/-! ### The counters -/

theorem inFF_eq (hnode : t.zinfo.procArray p = some node) :
    inFF t p = (node.started && node.inFastForward && t.zinfo.procExited p = .running) := by
  simp only [inFF, hnode, Option.any_some]

theorem inSyncedFF_eq (hnode : t.zinfo.procArray p = some node) :
    inSyncedFF t p = (inFF t p && node.getSyncedFastForward (t.entered p)) := by
  simp only [inSyncedFF, hnode, Option.any_some]

theorem not_counted (hnode : t.zinfo.procArray p = some node) (hout : node.inFastForward = false) :
    inFF t p = false ∧ inSyncedFF t p = false := by
  simp [inSyncedFF, inFF_eq hnode, hout]

/-- What is counted of a process that changes otherwise. -/
theorem counted_eq (hnode : t.zinfo.procArray p = some node)
    (hnode' : t'.zinfo.procArray p = some node') (hstarted : node'.started = node.started)
    (hin : node'.inFastForward = node.inFastForward)
    (hmode : node'.syncedFastForward = node.syncedFastForward)
    (hexited : t'.zinfo.procExited p = t.zinfo.procExited p)
    (hentered : t'.entered p = t.entered p) :
    inFF t' p = inFF t p ∧ inSyncedFF t' p = inSyncedFF t p := by
  have hff : inFF t' p = inFF t p := by
    rw [inFF_eq hnode, inFF_eq hnode', hstarted, hin, hexited]
  refine ⟨hff, ?_⟩
  rw [inSyncedFF_eq hnode, inSyncedFF_eq hnode', hff, hentered]
  simp only [ProcessTreeNode.getSyncedFastForward, hmode]

/-- A process that is not counted yet can be: the counters are below the number of processes. -/
theorem Inv.room (h : Inv t) (hp : p < t.zinfo.numProcs.toNat) (hout : inFF t p = false) :
    t.zinfo.globalFFProcs.toNat + 1 < 2 ^ 32 ∧ t.zinfo.globalSyncedFFProcs.toNat + 1 < 2 ^ 32 := by
  have hbound := h.bound
  have hlt := t.zinfo.lineSize.toNat_lt
  have hff := sum_lt (f := fun q => (inFF t q).toNat) (fun q => Bool.toNat_le _) hp (by simp [hout])
  have hsynced := sum_lt (f := fun q => (inSyncedFF t q).toNat) (fun q => Bool.toNat_le _) hp
    (by simp [inSyncedFF, hout])
  rw [← h.counted.ff] at hff
  rw [← h.counted.synced] at hsynced
  omega

theorem toNat_add_syncedCount {count n : UInt32} (h : count.toNat + 1 < 2 ^ 32) :
    (count + syncedCount n node).toNat =
      count.toNat + (node.getSyncedFastForward n).toNat := by
  unfold syncedCount
  cases node.getSyncedFastForward n
  · simp
  · simp only [if_true, UInt32.toNat_add, UInt32.toNat_one, Bool.toNat_true]
    omega

theorem toNat_sub_syncedCount {count n : UInt32}
    (h : (node.getSyncedFastForward n).toNat ≤ count.toNat) :
    (count - syncedCount n node).toNat + (node.getSyncedFastForward n).toNat = count.toNat := by
  unfold syncedCount
  have hlt := count.toNat_lt
  cases hsynced : node.getSyncedFastForward n
  · simp
  · rw [hsynced, Bool.toNat_true] at h
    simp only [if_true, UInt32.toNat_sub, UInt32.toNat_one, Bool.toNat_true]
    omega

/-- Process `p` enters fast-forward, or starts in it. -/
theorem Inv.enter (h : Inv t) (honly : Only p t t') (hnode : t.zinfo.procArray p = some node)
    (hout : inFF t p = false) (hnode' : t'.zinfo.procArray p = some node')
    (hff : t'.zinfo.globalFFProcs = t.zinfo.globalFFProcs + 1)
    (hsynced : t'.zinfo.globalSyncedFFProcs =
      t.zinfo.globalSyncedFFProcs + syncedCount t.zinfo.numProcs node)
    (hmode : node'.syncedFastForward = node.syncedFastForward) (hstarted : node'.started = true)
    (hin : node'.inFastForward = true) (hrunning : t'.zinfo.procExited p = .running)
    (hentered : t'.entered p = t.zinfo.numProcs) : Inv t' := by
  obtain ⟨hroom, hroom'⟩ := h.room (h.lt hnode) hout
  have hin' : inFF t' p = true := by
    rw [inFF_eq hnode', hstarted, hin, hrunning]
    rfl
  have hcount : inSyncedFF t' p = node.getSyncedFastForward t.zinfo.numProcs := by
    rw [inSyncedFF_eq hnode', hin', hentered, Bool.true_and]
    simp only [ProcessTreeNode.getSyncedFastForward, hmode]
  apply h.only honly hnode hnode' _ _ (fun _ => hrunning)
  · rw [hentered]
  · rw [hff, UInt32.toNat_add, hout, hin', UInt32.toNat_one, Bool.toNat_true, Bool.toNat_false]
    omega
  · rw [hsynced, toNat_add_syncedCount hroom', hcount, inSyncedFF_eq hnode, hout, Bool.false_and,
      Bool.toNat_false, Nat.add_zero]

/-- The answers of `getSyncedFastForward` at the entry and now. -/
theorem Inv.agrees (h : Inv t)
    (hsteady : node.syncedFastForward = .multiprocess →
      ¬ (t.entered p ≤ 1 ∧ t.zinfo.numProcs > 1)) :
    node.getSyncedFastForward (t.entered p) = node.getSyncedFastForward t.zinfo.numProcs := by
  have hle := h.entered p
  unfold ProcessTreeNode.getSyncedFastForward
  cases hmode : node.syncedFastForward with
  | always => rfl
  | never => rfl
  | multiprocess =>
    have hboth := hsteady hmode
    have hiff : t.entered p > 1 ↔ t.zinfo.numProcs > 1 := by
      simp only [gt_iff_lt, UInt32.le_iff_toNat_le, UInt32.lt_iff_toNat_lt] at hboth ⊢
      omega
    simp [hiff]

/-- Process `p` leaves fast-forward: both counters can be decremented. -/
theorem Inv.leave (h : Inv t) (hnode : t.zinfo.procArray p = some node) (hin : inFF t p = true)
    (hsteady : node.syncedFastForward = .multiprocess →
      ¬ (t.entered p ≤ 1 ∧ t.zinfo.numProcs > 1)) :
    (t.zinfo.globalFFProcs - 1).toNat + 1 = t.zinfo.globalFFProcs.toNat ∧
      (t.zinfo.globalSyncedFFProcs - syncedCount t.zinfo.numProcs node).toNat +
        (inSyncedFF t p).toNat = t.zinfo.globalSyncedFFProcs.toNat := by
  have hff := le_sum (f := fun q => (inFF t q).toNat) (h.lt hnode)
  have hsynced := le_sum (f := fun q => (inSyncedFF t q).toNat) (h.lt hnode)
  rw [← h.counted.ff, hin, Bool.toNat_true] at hff
  rw [← h.counted.synced] at hsynced
  have hcount : inSyncedFF t p = node.getSyncedFastForward t.zinfo.numProcs := by
    rw [inSyncedFF_eq hnode, hin, Bool.true_and, h.agrees hsteady]
  have hlt := t.zinfo.globalFFProcs.toNat_lt
  constructor
  · rw [UInt32.toNat_sub, UInt32.toNat_one]
    omega
  · rw [hcount] at hsynced ⊢
    exact toNat_sub_syncedCount hsynced

/-! ### Steps -/

/-- The operation keeps to the processes that are there, and no process leaves a fast-forward that
it entered alone after another process was created, when its mode depends on that. -/
def Steady (op : ProcOp) (t : Traced) : Prop :=
  match op with
  | .ffiFire p => t.zinfo.procExited p = .running
  | .exit p | .finish p => ∀ node ∈ t.zinfo.procArray p, node.inFastForward = true →
    node.syncedFastForward = .multiprocess → ¬ (t.entered p ≤ 1 ∧ t.zinfo.numProcs > 1)
  | _ => True

instance decidableSteady : ∀ (op : ProcOp) (t : Traced), Decidable (Steady op t)
  | .ffiFire p, t => inferInstanceAs (Decidable (t.zinfo.procExited p = .running))
  | .exit p, t | .finish p, t => inferInstanceAs (Decidable (∀ node ∈ t.zinfo.procArray p,
    node.inFastForward = true → node.syncedFastForward = .multiprocess →
      ¬ (t.entered p ≤ 1 ∧ t.zinfo.numProcs > 1)))
  | .start _, _ | .fork _, _ | .enter _, _ | .restart _, _ | .terminate, _ => isTrue trivial

theorem Inv.enterFastForward {zinfo : GlobSimInfo} (h : Inv t)
    (hstarted : (t.zinfo.procArray p).any ProcessTreeNode.started = true)
    (hrunning : t.zinfo.procExited p = .running)
    (henter : Procs.enterFastForward p t.zinfo = some zinfo) :
    Inv ⟨zinfo, Function.update t.entered p t.zinfo.numProcs⟩ := by
  obtain ⟨node, hnode, hrest⟩ := Option.bind_eq_some_iff.mp henter
  rw [Option.ite_none_left_eq_some] at hrest
  obtain ⟨hout, heq⟩ := hrest
  rw [hnode, Option.any_some] at hstarted
  cases heq
  have hinFF : inFF t p = false := by
    rw [inFF_eq hnode]
    simp [hout]
  refine h.enter ?only hnode hinFF
    (?node' : GlobSimInfo.procArray _ p = some { node with inFastForward := true }) ?ff ?synced
    rfl hstarted rfl ?running ?entered
  case only =>
    exact ⟨rfl, rfl, fun q hq => Function.update_of_ne hq .., fun _ _ => rfl,
      fun q hq => Function.update_of_ne hq ..⟩
  case node' => exact Function.update_self ..
  case ff => rfl
  case synced => rfl
  case running => exact hrunning
  case entered => exact Function.update_self ..

theorem Inv.notifyStart {zinfo : GlobSimInfo} (h : Inv t)
    (hstart : Procs.notifyStart p t.zinfo = some zinfo) : Inv ⟨zinfo, entries (.start p) t⟩ := by
  obtain ⟨node, hnode, hrest⟩ := Option.bind_eq_some_iff.mp hstart
  by_cases hstarted : node.started = true
  · rw [if_pos hstarted] at hrest
    cases hrest
    simp only [entries, hnode, Option.any_some, hstarted, if_true]
    exact h
  · rw [if_neg hstarted, Option.ite_none_left_eq_some] at hrest
    simp only [entries, hnode, Option.any_some, hstarted, if_neg, Bool.false_eq_true,
      not_false_eq_true]
    have hrunning := h.running p node hnode (.inr (by simpa using hstarted))
    have hinFF : inFF t p = false := by
      rw [inFF_eq hnode]
      simp [hstarted]
    obtain ⟨-, hrest⟩ := hrest
    by_cases hin : node.inFastForward = true
    · rw [if_pos hin] at hrest
      cases hrest
      refine h.enter ?only hnode hinFF
        (?node' : GlobSimInfo.procArray _ p = some { node with started := true }) ?ff ?synced
        rfl rfl hin ?running ?entered
      case only =>
        exact ⟨rfl, rfl, fun q hq => Function.update_of_ne hq .., fun _ _ => rfl,
          fun q hq => Function.update_of_ne hq ..⟩
      case node' => exact Function.update_self ..
      case ff => rfl
      case synced => rfl
      case running => exact hrunning
      case entered => exact Function.update_self ..
    · rw [if_neg hin] at hrest
      cases hrest
      have hnode' : (t.zinfo.setNode p { node with started := true }).procArray p =
          some { node with started := true } := Function.update_self ..
      have hout := not_counted (t := ⟨{ t.zinfo.setNode p { node with started := true } with
        globalActiveProcs := t.zinfo.globalActiveProcs + 1 },
        Function.update t.entered p t.zinfo.numProcs⟩) hnode' (by simpa using hin)
      have hout' := not_counted hnode (by simpa using hin)
      refine h.only ?only hnode hnode' ?ff ?synced ?running ?entered
      case only =>
        exact ⟨rfl, rfl, fun q hq => Function.update_of_ne hq .., fun _ _ => rfl,
          fun q hq => Function.update_of_ne hq ..⟩
      case ff =>
        rw [hout.1, hout'.1]
        rfl
      case synced =>
        rw [hout.2, hout'.2]
        rfl
      case running => exact fun _ => hrunning
      case entered =>
        show (Function.update t.entered p t.zinfo.numProcs p).toNat ≤ _
        rw [Function.update_self]

theorem Inv.exitFastForward {zinfo : GlobSimInfo} (h : Inv t) (hlive : isLive p t.zinfo = true)
    (hexit : Procs.exitFastForward p t.zinfo = some zinfo) (hsteady : Steady (.exit p) t) :
    Inv ⟨zinfo, t.entered⟩ := by
  obtain ⟨node, hnode, hrest⟩ := Option.bind_eq_some_iff.mp hexit
  rw [Option.ite_none_right_eq_some] at hrest
  obtain ⟨hin, heq⟩ := hrest
  have hlive' : (node.started && decide (t.zinfo.procExited p = .running)) = true := by
    rwa [isLive, hnode, Option.any_some] at hlive
  have hinFF : inFF t p = true := by
    rw [inFF_eq hnode, hin, Bool.and_true]
    exact hlive'
  obtain ⟨hff, hsynced⟩ := h.leave hnode hinFF (hsteady node hnode hin)
  cases heq
  have hnode' : ({ t.zinfo.setNode p { node with inFastForward := false } with
      globalSyncedFFProcs := t.zinfo.globalSyncedFFProcs - syncedCount t.zinfo.numProcs node
      globalFFProcs := t.zinfo.globalFFProcs - 1 } : GlobSimInfo).procArray p =
      some { node with inFastForward := false } := Function.update_self ..
  have hout := not_counted (t := ⟨_, t.entered⟩) hnode' rfl
  refine h.only ?only hnode hnode' ?ff ?synced ?running ?entered
  case only =>
    exact ⟨rfl, rfl, fun q hq => Function.update_of_ne hq .., fun _ _ => rfl, fun _ _ => rfl⟩
  case ff =>
    rw [hinFF, hout.1]
    exact hff
  case synced =>
    rw [hout.2]
    exact hsynced
  case running =>
    intro _
    simp only [Bool.and_eq_true, decide_eq_true_eq] at hlive'
    exact hlive'.2
  case entered => exact h.entered p

/-- The end of a process that is not in fast-forward. -/
theorem Inv.ended {zinfo : GlobSimInfo} (h : Inv t) (hnode : t.zinfo.procArray p = some node)
    (hout : node.inFastForward = false)
    (hnode' : zinfo.procArray p = some node') (hout' : node'.inFastForward = false)
    (hstarted' : node'.started = true) (honly : Only p t ⟨zinfo, t.entered⟩)
    (hff : zinfo.globalFFProcs = t.zinfo.globalFFProcs)
    (hsynced : zinfo.globalSyncedFFProcs = t.zinfo.globalSyncedFFProcs) :
    Inv ⟨zinfo, t.entered⟩ := by
  have hcount := not_counted hnode hout
  have hcount' := not_counted (t := ⟨zinfo, t.entered⟩) hnode' hout'
  refine h.only honly hnode hnode' ?ff ?synced ?running (h.entered p)
  case ff => rw [hcount.1, hcount'.1, hff]
  case synced => rw [hcount.2, hcount'.2, hsynced]
  case running =>
    intro hor
    rw [hout', hstarted'] at hor
    simp at hor

theorem Inv.notifyEnd {zinfo : GlobSimInfo} (h : Inv t)
    (hstarted : (t.zinfo.procArray p).any ProcessTreeNode.started = true)
    (hend : Procs.notifyEnd p t.zinfo = some zinfo) (hsteady : Steady (.finish p) t) :
    Inv ⟨zinfo, t.entered⟩ := by
  obtain ⟨node, hnode, hrest⟩ := Option.bind_eq_some_iff.mp hend
  obtain ⟨zinfo1, hexit, hrest⟩ := Option.bind_eq_some_iff.mp hrest
  rw [hnode, Option.any_some] at hstarted
  -- The state after the exit from fast-forward, if there was one.
  have h1 : Inv ⟨zinfo1, t.entered⟩ ∧
      zinfo1.procArray p = some { node with inFastForward := false } := by
    by_cases hin : node.inFastForward = true
    · rw [if_pos hin] at hexit
      have hlive : isLive p t.zinfo = true := by
        rw [isLive, hnode, Option.any_some, hstarted, h.running p node hnode (.inl hin)]
        rfl
      refine ⟨h.exitFastForward hlive hexit hsteady, ?_⟩
      rw [Procs.exitFastForward, hnode, Option.bind_some, if_pos hin] at hexit
      cases hexit
      exact Function.update_self ..
    · rw [if_neg hin] at hexit
      cases hexit
      refine ⟨h, ?_⟩
      rw [hnode]
      simp only [Bool.not_eq_true] at hin
      rw [← hin]
  obtain ⟨hinv, hnode1⟩ := h1
  rw [Option.ite_none_left_eq_some] at hrest
  obtain ⟨-, hrest⟩ := hrest
  split at hrest
  · cases hrest
    refine hinv.ended hnode1 rfl (?node' : GlobSimInfo.procArray _ p = some { node with
      inFastForward := false, restartsLeft := node.restartsLeft - 1 }) rfl hstarted ?only rfl rfl
    case node' => exact Function.update_self ..
    case only =>
      exact ⟨rfl, rfl, fun q hq => Function.update_of_ne hq ..,
        fun q hq => Function.update_of_ne hq .., fun _ _ => rfl⟩
  · cases hrest
    refine hinv.ended hnode1 rfl
      (?node' : GlobSimInfo.procArray _ p = some { node with inFastForward := false })
      rfl hstarted ?only rfl rfl
    case node' => exact hnode1
    case only =>
      exact ⟨rfl, rfl, fun _ _ => rfl, fun q hq => Function.update_of_ne hq .., fun _ _ => rfl⟩

theorem Inv.restart (h : Inv t) (hstatus : t.zinfo.procExited p = .restartMe) :
    Inv ⟨t.zinfo.setExited p .running, t.entered⟩ := by
  have hinFF : ∀ q, inFF ⟨t.zinfo.setExited p .running, t.entered⟩ q = inFF t q := by
    intro q
    cases hnode : t.zinfo.procArray q with
    | none => simp only [inFF, GlobSimInfo.setExited, hnode, Option.any_none]
    | some node =>
      have hnode' : (t.zinfo.setExited p .running).procArray q = some node := hnode
      by_cases hq : q = p
      · subst hq
        have hout : node.inFastForward = false := by
          by_contra hin
          rw [h.running q node hnode (.inl (by simpa using hin))] at hstatus
          cases hstatus
        have hcount := not_counted hnode hout
        have hcount' := not_counted (t := ⟨_, t.entered⟩) hnode' hout
        rw [hcount.1]
        exact hcount'.1
      · simp only [inFF, GlobSimInfo.setExited, Function.update_of_ne hq]
  have hrunning : ∀ q, t.zinfo.procExited q = .running →
      (t.zinfo.setExited p .running).procExited q = .running := by
    intro q hq
    show Function.update t.zinfo.procExited p .running q = .running
    by_cases hqp : q = p
    · rw [hqp, Function.update_self]
    · rw [Function.update_of_ne hqp, hq]
  refine ⟨⟨?_, ?_⟩, h.bound, fun q hq => ⟨(h.null q hq).1, hrunning q (h.null q hq).2⟩,
    fun q node hnode hor => hrunning q (h.running q node hnode hor), h.entered⟩
  · simp only [hinFF]
    exact h.counted.ff
  · simp only [inSyncedFF, hinFF]
    exact h.counted.synced

/-- A child that is created has not started. -/
theorem Inv.create {parent : ProcessTreeNode} {children : List Nat} {curChildren : Nat} (h : Inv t)
    (hnode : t.zinfo.procArray p = some node) (hlt : t.zinfo.numProcs < t.zinfo.lineSize)
    (hparent : parent = { node with children := children, curChildren := curChildren }) :
    Inv ⟨({ t.zinfo with numProcs := t.zinfo.numProcs + 1 }.setNode p parent).setNode
      t.zinfo.numProcs.toNat { node with started := false, curChildren := 0, children := [] },
      t.entered⟩ := by
  have hp := h.lt hnode
  have hnum : (t.zinfo.numProcs + 1).toNat = t.zinfo.numProcs.toNat + 1 := by
    have hline := t.zinfo.lineSize.toNat_lt
    rw [UInt32.lt_iff_toNat_lt] at hlt
    rw [UInt32.toNat_add, UInt32.toNat_one]
    omega
  generalize hzinfo : ({ t.zinfo with numProcs := t.zinfo.numProcs + 1 }.setNode p parent).setNode
      t.zinfo.numProcs.toNat { node with started := false, curChildren := 0, children := [] } =
    zinfo
  have hchild : zinfo.procArray t.zinfo.numProcs.toNat =
      some { node with started := false, curChildren := 0, children := [] } := by
    rw [← hzinfo]
    exact Function.update_self ..
  have hnode' : zinfo.procArray p = some parent := by
    rw [← hzinfo]
    show Function.update (Function.update t.zinfo.procArray p (some parent)) _ _ p = some parent
    rw [Function.update_of_ne (Nat.ne_of_lt hp), Function.update_self]
  have hother : ∀ q, q ≠ p → q ≠ t.zinfo.numProcs.toNat →
      zinfo.procArray q = t.zinfo.procArray q := by
    intro q hq hqn
    rw [← hzinfo]
    show Function.update (Function.update t.zinfo.procArray p (some parent)) _ _ q = _
    rw [Function.update_of_ne hqn, Function.update_of_ne hq]
  have hexited : zinfo.procExited = t.zinfo.procExited := by
    rw [← hzinfo]
    rfl
  have hnum' : zinfo.numProcs.toNat = t.zinfo.numProcs.toNat + 1 := by
    rw [← hzinfo]
    exact hnum
  have hold : ∀ q < t.zinfo.numProcs.toNat, inFF ⟨zinfo, t.entered⟩ q = inFF t q ∧
      inSyncedFF ⟨zinfo, t.entered⟩ q = inSyncedFF t q := by
    intro q hq
    by_cases hqp : q = p
    · subst hqp
      exact counted_eq hnode hnode' (by rw [hparent]) (by rw [hparent])
        (by rw [hparent]) (by rw [hexited]) rfl
    · have hsame := hother q hqp (by omega)
      simp only [inSyncedFF, inFF, hsame, hexited, and_self]
  have hnew : inFF ⟨zinfo, t.entered⟩ t.zinfo.numProcs.toNat = false ∧
      inSyncedFF ⟨zinfo, t.entered⟩ t.zinfo.numProcs.toNat = false := by
    simp [inSyncedFF, inFF, hchild]
  refine ⟨⟨?_, ?_⟩, ?_, fun q hq => ?_, fun q node1 hnode1 hor => ?_, fun q => ?_⟩
  · rw [hnum', Finset.sum_range_succ, hnew.1,
      sum_unchanged (f := fun q => (inFF ⟨zinfo, t.entered⟩ q).toNat) fun q hq => by
        rw [(hold q hq).1]]
    have hff := h.counted.ff
    rw [Bool.toNat_false, Nat.add_zero, ← hzinfo]
    exact hff
  · rw [hnum', Finset.sum_range_succ, hnew.2,
      sum_unchanged (f := fun q => (inSyncedFF ⟨zinfo, t.entered⟩ q).toNat) fun q hq => by
        rw [(hold q hq).2]]
    have hsynced := h.counted.synced
    rw [Bool.toNat_false, Nat.add_zero, ← hzinfo]
    exact hsynced
  · rw [hnum', ← hzinfo]
    exact Nat.succ_le_of_lt hlt
  · rw [hnum'] at hq
    rw [hother q (by omega) (by omega), hexited]
    exact h.null q (by omega)
  · rw [hexited]
    by_cases hqp : q = p
    · subst hqp
      rw [hnode'] at hnode1
      cases hnode1
      rw [hparent] at hor
      exact h.running q node hnode hor
    · by_cases hqn : q = t.zinfo.numProcs.toNat
      · rw [hqn]
        exact (h.null _ (Nat.le_refl _)).2
      · rw [hother q hqp hqn] at hnode1
        exact h.running q node1 hnode1 hor
  · rw [hnum']
    have hentered := h.entered q
    simp only
    omega

theorem Inv.getNextChild {zinfo : GlobSimInfo} {child : Nat} (h : Inv t)
    (hnext : Procs.getNextChild p t.zinfo = some (child, zinfo)) : Inv ⟨zinfo, t.entered⟩ := by
  obtain ⟨node, hnode, hrest⟩ := Option.bind_eq_some_iff.mp hnext
  split at hrest
  · rw [Option.ite_none_left_eq_some] at hrest
    obtain ⟨hlt, heq⟩ := hrest
    cases heq
    exact h.create hnode (by simpa using hlt) rfl
  · obtain ⟨c, hc, heq⟩ := Option.map_eq_some_iff.mp hrest
    cases heq
    have hnode' : (t.zinfo.setNode p
        { node with curChildren := node.curChildren + 1 }).procArray p =
        some { node with curChildren := node.curChildren + 1 } := Function.update_self ..
    have hcount := @counted_eq p t ⟨_, t.entered⟩ _ _ hnode hnode' rfl rfl rfl rfl rfl
    refine h.only ?only hnode hnode' ?ff ?synced ?running (h.entered p)
    case only =>
      exact ⟨rfl, rfl, fun q hq => Function.update_of_ne hq .., fun _ _ => rfl, fun _ _ => rfl⟩
    case ff =>
      rw [← hcount.1]
      rfl
    case synced =>
      rw [← hcount.2]
      rfl
    case running => exact fun hor => h.running p node hnode hor

theorem Inv.step {op : ProcOp} (h : Inv t) (hsteady : Steady op t)
    (hstep : stepTraced op t = some t') : Inv t' := by
  obtain ⟨zinfo, hproc, rfl⟩ := Option.map_eq_some_iff.mp hstep
  cases op with
  | start p => exact h.notifyStart hproc
  | fork p =>
    obtain ⟨-, hmap⟩ := Option.ite_none_right_eq_some.mp hproc
    obtain ⟨⟨child, zinfo'⟩, hnext, rfl⟩ := Option.map_eq_some_iff.mp hmap
    exact h.getNextChild hnext
  | enter p =>
    obtain ⟨hlive, henter⟩ := Option.ite_none_right_eq_some.mp hproc
    obtain ⟨node, hnode, hboth⟩ := (Option.any_eq_true _ _).mp hlive
    rw [Bool.and_eq_true, decide_eq_true_eq] at hboth
    exact h.enterFastForward (by rw [hnode]; exact hboth.1) hboth.2 henter
  | ffiFire p =>
    obtain ⟨hstarted, henter⟩ := Option.ite_none_right_eq_some.mp hproc
    exact h.enterFastForward hstarted hsteady henter
  | exit p =>
    obtain ⟨hlive, hexit⟩ := Option.ite_none_right_eq_some.mp hproc
    exact h.exitFastForward hlive hexit hsteady
  | finish p =>
    obtain ⟨hstarted, hend⟩ := Option.ite_none_right_eq_some.mp hproc
    exact h.notifyEnd hstarted hend hsteady
  | restart p =>
    obtain ⟨hstatus, heq⟩ := Option.ite_none_right_eq_some.mp hproc
    cases heq
    exact h.restart hstatus
  | terminate =>
    cases hproc
    exact ⟨⟨h.counted.ff, h.counted.synced⟩, h.bound, h.null, h.running, h.entered⟩

theorem createProcessTree_inv {lineSize : UInt32} {configs : List ProcessConfig}
    {zinfo : GlobSimInfo} (h : createProcessTree lineSize configs = some zinfo) :
    Inv ⟨zinfo, fun _ => 0⟩ := by
  rw [createProcessTree, Option.ite_none_left_eq_some] at h
  obtain ⟨hle, heq⟩ := h
  cases heq
  have hnum : (UInt32.ofNat configs.length).toNat = configs.length := by
    have hlt := lineSize.toNat_lt
    rw [UInt32.toNat_ofNat', Nat.mod_eq_of_lt (by omega)]
  generalize hzinfo : ({
    lineSize := lineSize
    numProcs := UInt32.ofNat configs.length
    procArray := fun p => configs[p]?.map ProcessConfig.node
    procExited := fun _ => .running
    globalActiveProcs := 0
    globalFFProcs := 0
    globalSyncedFFProcs := 0
    terminationConditionMet := false } : GlobSimInfo) = zinfo
  -- No process has started.
  have hout : ∀ p, inFF ⟨zinfo, fun _ => 0⟩ p = false := by
    intro p
    rw [← hzinfo]
    cases hconfig : configs[p]? <;> simp [inFF, hconfig, ProcessConfig.node]
  rw [← hzinfo] at hout ⊢
  refine ⟨⟨?_, ?_⟩, ?_, fun p hp => ⟨?_, rfl⟩, fun _ _ _ _ => rfl, fun _ => Nat.zero_le _⟩
  · simp [hout]
  · simp [inSyncedFF, hout]
  · simp only [hnum]
    omega
  · simp only [hnum] at hp
    simp [List.getElem?_eq_none hp]

/-- An exit changes the process alone and leaves it outside fast-forward. -/
theorem exitFastForward_only {zinfo : GlobSimInfo}
    (hexit : exitFastForward p t.zinfo = some zinfo) :
    Only p t ⟨zinfo, t.entered⟩ ∧
      ∃ node, zinfo.procArray p = some node ∧ node.inFastForward = false := by
  obtain ⟨node, -, hrest⟩ := Option.bind_eq_some_iff.mp hexit
  obtain ⟨-, heq⟩ := Option.ite_none_right_eq_some.mp hrest
  cases heq
  refine ⟨⟨rfl, rfl, fun q hq => Function.update_of_ne hq .., fun _ _ => rfl, fun _ _ => rfl⟩, ?_⟩
  exact ⟨_, Function.update_self .., rfl⟩

/-- So does the end of a process. -/
theorem notifyEnd_only {zinfo : GlobSimInfo} (hend : notifyEnd p t.zinfo = some zinfo) :
    Only p t ⟨zinfo, t.entered⟩ ∧
      ∃ node, zinfo.procArray p = some node ∧ node.inFastForward = false := by
  obtain ⟨node, hnode, hrest⟩ := Option.bind_eq_some_iff.mp hend
  obtain ⟨zinfo1, hexit, hrest⟩ := Option.bind_eq_some_iff.mp hrest
  have h1 : Only p t ⟨zinfo1, t.entered⟩ ∧
      ∃ node, zinfo1.procArray p = some node ∧ node.inFastForward = false := by
    split at hexit
    · exact exitFastForward_only hexit
    · rename_i hout
      cases hexit
      exact ⟨⟨rfl, rfl, fun _ _ => rfl, fun _ _ => rfl, fun _ _ => rfl⟩, node, hnode,
        by simpa using hout⟩
  obtain ⟨honly, node1, hnode1, hout1⟩ := h1
  obtain ⟨-, hrest⟩ := Option.ite_none_left_eq_some.mp hrest
  split at hrest
  · cases hrest
    refine ⟨⟨honly.numProcs, honly.lineSize, fun q hq => ?_, fun q hq => ?_, fun _ _ => rfl⟩, ?_⟩
    · exact (Function.update_of_ne hq ..).trans (honly.node q hq)
    · exact (Function.update_of_ne hq ..).trans (honly.exited q hq)
    · exact ⟨_, Function.update_self .., rfl⟩
  · cases hrest
    refine ⟨⟨honly.numProcs, honly.lineSize, honly.node, fun q hq => ?_, fun _ _ => rfl⟩, ?_⟩
    · exact (Function.update_of_ne hq ..).trans (honly.exited q hq)
    · exact ⟨node1, hnode1, hout1⟩

/-- An exit, or the end of a process in fast-forward, undoes what its entry did. -/
theorem Inv.undoes {op : ProcOp} (h : Inv t) (hop : op = .exit p ∨ op = .finish p)
    (hsteady : Steady op t) (hstep : stepTraced op t = some t') :
    t'.zinfo.globalFFProcs.toNat + (inFF t p).toNat = t.zinfo.globalFFProcs.toNat ∧
      t'.zinfo.globalSyncedFFProcs.toNat + (inSyncedFF t p).toNat =
        t.zinfo.globalSyncedFFProcs.toNat := by
  have h' := h.step hsteady hstep
  obtain ⟨zinfo, hproc, rfl⟩ := Option.map_eq_some_iff.mp hstep
  have hentries : entries op t = t.entered := by
    rcases hop with rfl | rfl <;> rfl
  rw [hentries] at h' ⊢
  obtain ⟨honly, node, hnode, hout⟩ : Only p t ⟨zinfo, t.entered⟩ ∧
      ∃ node, zinfo.procArray p = some node ∧ node.inFastForward = false := by
    rcases hop with rfl | rfl
    · exact exitFastForward_only (Option.ite_none_right_eq_some.mp hproc).2
    · exact notifyEnd_only (Option.ite_none_right_eq_some.mp hproc).2
  have hp : p < t.zinfo.numProcs.toNat := by
    rw [← honly.numProcs]
    exact h'.lt hnode
  have hcount := not_counted (t := ⟨zinfo, t.entered⟩) hnode hout
  have hff := sum_changed (f := fun q => (inFF t q).toNat)
    (g := fun q => (inFF ⟨zinfo, t.entered⟩ q).toNat) hp fun q _ hq => by rw [honly.inFF hq]
  have hsynced := sum_changed (f := fun q => (inSyncedFF t q).toNat)
    (g := fun q => (inSyncedFF ⟨zinfo, t.entered⟩ q).toNat) hp fun q _ hq => by
      rw [honly.inSyncedFF hq]
  rw [hcount.1, Bool.toNat_false] at hff
  rw [hcount.2, Bool.toNat_false] at hsynced
  have hcounted := h.counted.ff
  have hcounted' := h'.counted.ff
  have hcountedSynced := h.counted.synced
  have hcountedSynced' := h'.counted.synced
  rw [honly.numProcs] at hcounted' hcountedSynced'
  omega

/-- In a run whose steps are steady the counters are what they count, exits undo entries without
an underflow, and the wait at the end of a phase is over when no process is in a fast-forward
that was entered as synced. -/
theorem run_counted {lineSize : UInt32} {configs : List ProcessConfig} {zinfo : GlobSimInfo}
    {ops : List ProcOp} (hinit : createProcessTree lineSize configs = some zinfo)
    (hsteady : Along stepTraced Steady ops ⟨zinfo, fun _ => 0⟩)
    (hrun : run stepTraced ops ⟨zinfo, fun _ => 0⟩ = some t) :
    Counted t ∧
      (t.zinfo.globalSyncedFFProcs = 0 ↔ ∀ p < t.zinfo.numProcs.toNat, inSyncedFF t p = false) ∧
      ∀ op p t', op = .exit p ∨ op = .finish p → Steady op t → stepTraced op t = some t' →
        t'.zinfo.globalFFProcs.toNat + (inFF t p).toNat = t.zinfo.globalFFProcs.toNat ∧
        t'.zinfo.globalSyncedFFProcs.toNat + (inSyncedFF t p).toNat =
          t.zinfo.globalSyncedFFProcs.toNat := by
  have hinv : Inv t := run_preserves (fun op s s' hs hok hstep => hs.step hok hstep)
    (createProcessTree_inv hinit) hsteady hrun
  refine ⟨hinv.counted, ?_, fun op p t' hop hsteady hstep => hinv.undoes hop hsteady hstep⟩
  rw [← UInt32.toNat_inj, hinv.counted.synced]
  simp

/-- One process that starts in fast-forward, leaves it, enters it again and ends. -/
theorem run_counted_one : ∃ zinfo t,
    createProcessTree 64 [⟨[], true, 0, .multiprocess⟩] = some zinfo ∧
    run stepTraced [.start 0, .exit 0, .enter 0, .finish 0] ⟨zinfo, fun _ => 0⟩ = some t ∧
    (Counted t ∧
      (t.zinfo.globalSyncedFFProcs = 0 ↔ ∀ p < t.zinfo.numProcs.toNat, inSyncedFF t p = false) ∧
      ∀ op p t', op = .exit p ∨ op = .finish p → Steady op t → stepTraced op t = some t' →
        t'.zinfo.globalFFProcs.toNat + (inFF t p).toNat = t.zinfo.globalFFProcs.toNat ∧
        t'.zinfo.globalSyncedFFProcs.toNat + (inSyncedFF t p).toNat =
          t.zinfo.globalSyncedFFProcs.toNat) :=
  ⟨_, _, rfl, rfl, @run_counted _ 64 [⟨[], true, 0, .multiprocess⟩] _
    [.start 0, .exit 0, .enter 0, .finish 0] rfl (by decide) rfl⟩

/-- A process that is alone enters fast-forward unsynced; the child that it creates there makes its
exit count as synced, and the exit of the child wraps the counter. -/
theorem run_wraps : ∃ zinfo t,
    createProcessTree 64 [⟨[], true, 0, .multiprocess⟩] = some zinfo ∧
    run stepTraced [.start 0, .fork 0, .start 1, .exit 0, .exit 1] ⟨zinfo, fun _ => 0⟩ = some t ∧
    t.zinfo.globalSyncedFFProcs = 4294967295 ∧ inFF t 0 = false ∧ inFF t 1 = false ∧
    ¬ Counted t := by
  refine ⟨_, _, rfl, rfl, rfl, rfl, rfl, fun hcounted => ?_⟩
  exact absurd hcounted.synced (by decide)

end Doppelganger.Procs
