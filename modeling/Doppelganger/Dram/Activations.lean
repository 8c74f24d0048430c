import Doppelganger.Dram.ActWindows
import Doppelganger.Dram.Spacing
import Doppelganger.Dram.Service

/-! The activations of a rank.  Its window keeps any four of them within `tFAW`; activations of
different banks are only as far apart as the window and the banks happen to make them, as `tRRD` is
counted from the last activation of the same bank. -/

namespace Doppelganger.Dram

open Lib

/-! ### What the device asks for -/

/-- Two cycles are at least `d` apart. -/
def Far (d k k' : Nat) : Prop := k + d ≤ k' ∨ k' + d ≤ k

instance (d k k' : Nat) : Decidable (Far d k k') := inferInstanceAs (Decidable (_ ∨ _))

/-- ACTs to different banks of a rank are at least `tRRD` apart. -/
def RankApart (t : Timing) : Command → Command → Prop
  | .act l k, .act l' k' => l.rank = l'.rank → l.bank ≠ l'.bank → Far t.tRRD k k'
  | _, _ => True

/-- The cycles of the ACTs to a rank. -/
def actsOf (rank : Nat) (log : List Command) : List Nat :=
  log.filterMap fun
    | .act l k => if l.rank = rank then some k else none
    | _ => none

/-- A window of `tFAW` cycles has at most four ACTs of a rank. -/
def FourActs (t : Timing) (log : List Command) : Prop :=
  ∀ rank start, (actsOf rank log).countP (fun k => start ≤ k ∧ k < start + t.tFAW) ≤ 4

/-! ### Steps that activate -/

/-- The request whose row a step opens. -/
def activating (cfg : Config) : Op → DDRMemory → Option Request
  | .fire ev, s => (s.pending.lookup ev).bind fun startCycle =>
    if s.schedEvents ev = .QUEUED then
      (s.ctl.readyRequest cfg (cfg.sysToMemCycle startCycle)).filter fun r => !s.ctl.rowHit r
    else none
  | _, _ => none

def Controller.window (c : Controller) (r : Request) : ActWindow := c.rankActWindows r.loc.rank

/-- What an ACT waits for: its request, and PRE after that when a row is open; the end of PRE; the
last ACT of its bank; the oldest ACT of its window. -/
def Controller.actWaits (cfg : Config) (c : Controller) (r : Request) : List Nat :=
  [if (c.bankOf r).isOpen then r.arrivalCycle + cfg.timing.tRP else r.arrivalCycle,
    (c.bankOf r).minPreCycle + cfg.timing.tRP, (c.bankOf r).lastActCycle + cfg.timing.tRRD,
    (c.window r).minActCycle + cfg.timing.tFAW]

/-- The cycles of the ACTs to the other banks of a rank. -/
def actsOfOthers (loc : AddrLoc) (log : List Command) : List Nat :=
  log.filterMap fun
    | .act l k => if l.rank = loc.rank ∧ l.bank ≠ loc.bank then some k else none
    | _ => none

/-- For each of the ACTs so far to the other banks of its rank, the ACT of a step waits for
something until `tRRD` after it, or for nothing until less than `tRRD` before it. -/
def ActClear (cfg : Config) (op : Op) (x : List Command × DDRMemory) : Prop :=
  ∀ r ∈ activating cfg op x.2, ∀ k ∈ actsOfOthers r.loc x.1,
    (∃ w ∈ x.2.ctl.actWaits cfg r, k + cfg.timing.tRRD ≤ w) ∨
      ∀ w ∈ x.2.ctl.actWaits cfg r, w + cfg.timing.tRRD ≤ k

instance (cfg : Config) (op : Op) (x : List Command × DDRMemory) : Decidable (ActClear cfg op x) :=
  Option.decidableForallMem _

/-- The ACT of a step is not before the one that its window leaves as the oldest. -/
def ActNotOldest (cfg : Config) (op : Op) (s : DDRMemory) : Prop :=
  (activating cfg op s).all fun r => decide ((s.ctl.window r).NotOldest (s.ctl.actCycle cfg r))

/-- The ACT of a step is at least `tRRD` from those in the window of its rank. -/
def ActFar (cfg : Config) (op : Op) (s : DDRMemory) : Prop :=
  (activating cfg op s).all fun r =>
    (s.ctl.window r).buf.all fun k => decide (Far cfg.timing.tRRD (s.ctl.actCycle cfg r) k)

instance (cfg : Config) (op : Op) (s : DDRMemory) : Decidable (ActNotOldest cfg op s) :=
  inferInstanceAs (Decidable (_ = true))

instance (cfg : Config) (op : Op) (s : DDRMemory) : Decidable (ActFar cfg op s) :=
  inferInstanceAs (Decidable (_ = true))

namespace Controller

variable {cfg : Config} {c c' : Controller} {r r' req : Request} {cur sys m : Nat}

theorem finishEvent_windows {ev cycle : Nat} (h : c.finishEvent ev cycle = some c') :
    c'.rankActWindows = c.rankActWindows := by
  obtain ⟨-, h⟩ := Option.ite_none_right_eq_some.mp h
  cases h
  rfl

theorem queue_windows (h : c.queue cfg req m = some (c', req')) :
    c'.rankActWindows = c.rankActWindows := by
  unfold queue at h
  dsimp only at h
  obtain ⟨c1, hanswered, heq⟩ := Option.map_eq_some_iff.mp h
  have h1 : c1.rankActWindows = c.rankActWindows := by
    split at hanswered
    · obtain ⟨ev, -, hfinish⟩ := Option.bind_eq_some_iff.mp hanswered
      exact finishEvent_windows hfinish
    · cases hanswered
      rfl
  refine Eq.trans ?_ h1
  generalize insertRequest cfg _ _ _ = inserted at heq
  split at heq
  all_goals
    obtain ⟨rfl, rfl⟩ := Prod.mk.inj heq
    rfl

/-- The window of the rank is the only one that an issue changes, and only when no row is hit. -/
theorem issue_windows {w : Bool} (h : c.issue cfg r w cur sys = some c') :
    c.rowHit r = true ∧ c'.rankActWindows = c.rankActWindows ∨
      c.rowHit r = false ∧ ∃ win, (c.window r).addActivation (c.actCycle cfg r) = some win ∧
        c'.rankActWindows = Function.update c.rankActWindows r.loc.rank win := by
  obtain ⟨c1, hact, h⟩ := Option.bind_eq_some_iff.mp h
  obtain ⟨-, h⟩ := Option.ite_none_right_eq_some.mp h
  obtain ⟨c2, hrespond, rfl⟩ := Option.map_eq_some_iff.mp h
  have h2 : (c2.dequeue r w).rankActWindows = c1.rankActWindows := by
    have hdequeue : (c2.dequeue r w).rankActWindows = c2.rankActWindows := by
      unfold dequeue
      split <;> rfl
    rw [hdequeue]
    unfold respond at hrespond
    split at hrespond
    · obtain ⟨-, hfinish⟩ := Option.ite_none_right_eq_some.mp hrespond
      exact (finishEvent_windows hfinish).trans rfl
    · cases hrespond
      rfl
  rw [h2]
  unfold activate at hact
  split at hact
  case isTrue hhit =>
    cases hact
    exact .inl ⟨hhit, rfl⟩
  case isFalse hmiss =>
    obtain ⟨win, hwin, rfl⟩ := Option.map_eq_some_iff.mp hact
    exact .inr ⟨Bool.eq_false_iff.mpr hmiss, win, hwin, rfl⟩

/-- The activation of a request that `trySchedule` issues. -/
structure Activated (cfg : Config) (r : Request) (log : List Command) (c c' : Controller) :
    Prop where
  mem : r ∈ c.requests
  log : ∃ cycle, log = [.pre r.loc (c.preCycle r), .act r.loc (c.actCycle cfg r),
    .column r.loc r.write cycle]
  window : ∃ win, (c.window r).addActivation (c.actCycle cfg r) = some win ∧
    c'.rankActWindows = Function.update c.rankActWindows r.loc.rank win

/-- What a step does to the windows: it activates `r`, or nothing. -/
def Activation (cfg : Config) (r : Option Request) (log : List Command) (c c' : Controller) :
    Prop :=
  r.elim ((∀ rank, actsOf rank log = []) ∧ c'.rankActWindows = c.rankActWindows)
    fun r => Activated cfg r log c c'

theorem Activation.none {log : List Command} (hlog : ∀ rank, actsOf rank log = [])
    (h : c'.rankActWindows = c.rankActWindows) : Activation cfg Option.none log c c' := ⟨hlog, h⟩

theorem Activation.same {c'' : Controller} {r : Option Request} {log : List Command}
    (h : Activation cfg r log c c') (hsame : c''.rankActWindows = c'.rankActWindows) :
    Activation cfg r log c c'' := by
  cases r with
  | none => exact ⟨h.1, hsame.trans h.2⟩
  | some r =>
    obtain ⟨win, hwin, heq⟩ := h.window
    exact ⟨h.mem, h.log, win, hwin, hsame.trans heq⟩

theorem trySchedule_activation {next : Option Nat}
    (h : c.trySchedule cfg cur sys = some (c', next)) :
    Activation cfg ((c.readyRequest cfg cur).filter fun r => !c.rowHit r) (c.commands cfg cur)
      c c' := by
  unfold commands
  obtain ⟨r, hready, hissue⟩ | ⟨hnone, rfl⟩ := trySchedule_spec h
  · rw [hready, Option.elim_some]
    unfold requestCommands
    obtain ⟨hhit, hsame⟩ | ⟨hmiss, hwin⟩ := issue_windows hissue
    · rw [Option.filter_some, hhit, if_neg (by decide), if_pos rfl]
      exact .none (fun _ => rfl) hsame
    · rw [Option.filter_some, hmiss, if_pos (by decide), if_neg (by decide)]
      exact ⟨(readyRequest_mem hready).1, ⟨_, rfl⟩, hwin⟩
  · rw [hnone]
    exact .none (fun _ => rfl) rfl

theorem takeOverflow_windows {next next' : Option Nat}
    (h : DDRMemory.takeOverflow cfg c next m = some (c', next')) :
    c'.rankActWindows = c.rankActWindows := by
  obtain ⟨rfl, -⟩ | ⟨ovfReq, rest, req, -, -, hqueue⟩ := takeOverflow_spec h
  · rfl
  · have hwindows := queue_windows hqueue
    exact hwindows

end Controller

section

open Controller

variable {cfg : Config} {s s' : DDRMemory} {op : Op}

theorem enqueue_windows {lineAddr : UInt64} {write : Bool} {sysCycle : Nat}
    (hstep : s.enqueue cfg lineAddr write sysCycle = some s') :
    s'.ctl.rankActWindows = s.ctl.rankActWindows := by
  obtain ⟨loc, -, ⟨-, hctl⟩ | ⟨-, req, hqueue⟩⟩ := enqueue_spec hstep
  · rw [hctl]
  · have hwindows := queue_windows hqueue
    exact hwindows

/-- What a step does to the windows. -/
theorem step_activation (hstep : step cfg op s = some s') :
    Activation cfg (activating cfg op s) (commands cfg op s) s.ctl s'.ctl := by
  cases op with
  | enqueue lineAddr write sysCycle => exact .none (fun _ => rfl) (enqueue_windows hstep)
  | refresh =>
    cases hstep
    exact .none (fun _ => rfl) rfl
  | fire ev =>
    obtain ⟨startCycle, hlookup, hcases⟩ := fire_ctl hstep
    unfold activating commands
    dsimp only
    rw [hlookup, Option.bind_some, Option.elim_some]
    obtain ⟨hqueued, c, next, next', htry, htake⟩ | ⟨hqueued, hctl⟩ := hcases
    · rw [if_pos hqueued, if_pos hqueued]
      exact (trySchedule_activation htry).same (takeOverflow_windows htake)
    · rw [if_neg hqueued, if_neg hqueued, hctl]
      exact .none (fun _ => rfl) rfl

end

/-! ### What the windows remember -/

/-- The windows keep four cycles each, and cover the ACTs so far. -/
structure Windowed (cfg : Config) (log : List Command) (c : Controller) : Prop where
  wf : ∀ rank, (c.rankActWindows rank).Wf
  length : ∀ rank, (c.rankActWindows rank).order.length = 4
  covers : ∀ rank, Covers cfg.timing.tFAW (actsOf rank log) (c.rankActWindows rank).order

/-- The windows hold the last four ACTs of each rank, with the zeros that they start with. -/
def Remembered (log : List Command) (c : Controller) : Prop :=
  ∀ rank, Largest (actsOf rank log ++ List.replicate 4 0) (c.rankActWindows rank).order

section

open Controller

variable {cfg : Config} {c c' : Controller} {r : Request} {log new : List Command} {rank k : Nat}
  {t : Timing}

theorem actsOf_append : actsOf rank (log ++ new) = actsOf rank log ++ actsOf rank new :=
  List.filterMap_append

theorem mem_actsOf : k ∈ actsOf rank log ↔ ∃ l, l.rank = rank ∧ .act l k ∈ log := by
  unfold actsOf
  rw [List.mem_filterMap]
  constructor
  · rintro ⟨cmd, hcmd, h⟩
    cases cmd with
    | act l k' =>
      obtain ⟨hrank, h⟩ := Option.ite_none_right_eq_some.mp h
      cases h
      exact ⟨l, hrank, hcmd⟩
    | pre => cases h
    | column => cases h
    | refresh => cases h
  · rintro ⟨l, hrank, hl⟩
    exact ⟨_, hl, if_pos hrank⟩

theorem actsOf_activated (h : Activated cfg r new c c') (rank : Nat) :
    actsOf rank new = if r.loc.rank = rank then [c.actCycle cfg r] else [] := by
  obtain ⟨cycle, rfl⟩ := h.log
  unfold actsOf
  split <;> simp [*]

theorem minActCycle_le_actCycle :
    (c.window r).minActCycle + cfg.timing.tFAW ≤ c.actCycle cfg r := le_max_right _ _

/-- The ACT takes the place of the oldest entry of the window of its rank, and comes at least `tFAW`
after it. -/
theorem activated_window (h : Activated cfg r new c c') (hw : (c.window r).Wf) :
    ∃ a rest, (c.window r).order = a :: rest ∧ a + cfg.timing.tFAW ≤ c.actCycle cfg r ∧
      (c'.window r).Wf ∧ (c'.window r).order.Perm (c.actCycle cfg r :: rest) ∧
      ((c.window r).order.Pairwise (· ≤ ·) → ((c'.window r).order.Pairwise (· ≤ ·) ↔
        (c.window r).NotOldest (c.actCycle cfg r))) := by
  obtain ⟨win, hwin, hc'⟩ := h.window
  obtain ⟨a, rest, horder⟩ := hw.exists_order
  have hle : (c.window r).minActCycle + cfg.timing.tFAW ≤ c.actCycle cfg r :=
    minActCycle_le_actCycle
  rw [ActWindow.minActCycle_eq hw horder] at hle
  obtain ⟨w', hw', hwf, hperm, hsorted⟩ :=
    ActWindow.addActivation_spec hw horder (Nat.le_of_add_right_le hle)
  have hnew : c'.window r = w' := by
    obtain rfl := Option.some.inj (hwin.symm.trans hw')
    unfold window
    rw [hc', Function.update_self]
  rw [hnew]
  exact ⟨a, rest, horder, hle, hwf, hperm, hsorted⟩

theorem activated_other (h : Activated cfg r new c c') (hrank : r.loc.rank ≠ rank) :
    c'.rankActWindows rank = c.rankActWindows rank := by
  obtain ⟨win, -, hc'⟩ := h.window
  rw [hc', Function.update_of_ne hrank.symm]

theorem Windowed.activation {r : Option Request} (h : Windowed cfg log c)
    (hact : Activation cfg r new c c') : Windowed cfg (log ++ new) c' := by
  cases r with
  | none =>
    obtain ⟨hnone, hsame⟩ := hact
    constructor
    case wf => exact hsame ▸ h.wf
    case length => exact hsame ▸ h.length
    case covers =>
      intro rank
      rw [actsOf_append, hnone, List.append_nil, hsame]
      exact h.covers rank
  | some r =>
    obtain ⟨a, rest, horder, hle, hwf, hperm, -⟩ := activated_window hact (h.wf r.loc.rank)
    have hothers : ∀ rank, r.loc.rank ≠ rank → c'.rankActWindows rank = c.rankActWindows rank :=
      fun rank => activated_other hact
    constructor
    case wf =>
      intro rank
      by_cases hrank : r.loc.rank = rank
      · exact hrank ▸ hwf
      · exact hothers rank hrank ▸ h.wf rank
    case length =>
      intro rank
      by_cases hrank : r.loc.rank = rank
      · have hold := h.length rank
        subst hrank
        rw [show c.rankActWindows r.loc.rank = c.window r from rfl, horder] at hold
        exact hperm.length_eq.trans hold
      · exact hothers rank hrank ▸ h.length rank
    case covers =>
      intro rank
      rw [actsOf_append, actsOf_activated hact]
      by_cases hrank : r.loc.rank = rank
      · subst hrank
        rw [if_pos rfl]
        exact (h.covers _).replace (.of_eq horder) hle hperm
      · rw [if_neg hrank, List.append_nil, hothers rank hrank]
        exact h.covers rank

theorem Remembered.activation {r : Option Request} (h : Remembered log c)
    (hwf : ∀ rank, (c.rankActWindows rank).Wf) (hact : Activation cfg r new c c')
    (hnot : ∀ req ∈ r, (c.window req).NotOldest (c.actCycle cfg req)) :
    Remembered (log ++ new) c' := by
  intro rank
  cases r with
  | none =>
    obtain ⟨hnone, hsame⟩ := hact
    rw [actsOf_append, hnone, List.append_nil, hsame]
    exact h rank
  | some r =>
    rw [actsOf_append, actsOf_activated hact]
    by_cases hrank : r.loc.rank = rank
    · subst hrank
      obtain ⟨a, rest, horder, hle, -, hperm, hsorted⟩ := activated_window hact (hwf r.loc.rank)
      have hold : Largest _ (c.window r).order := h r.loc.rank
      have hnew := (hsorted hold.sorted).mpr (hnot r rfl)
      rw [horder] at hold
      rw [if_pos rfl]
      refine (hold.replace (Nat.le_of_add_right_le hle) hperm hnew).of_perm ?_
      rw [List.append_assoc, List.singleton_append]
      exact List.perm_middle.symm
    · rw [if_neg hrank, List.append_nil, activated_other hact hrank]
      exact h rank

/-! ### Different banks -/

/-- An ACT to a bank comes at least `tRRD` after the ones before it. -/
theorem act_of_bank (htimed : Timed cfg log c) (hras : cfg.timing.tRRD ≤ cfg.timing.tRAS +
    cfg.timing.tRP) (hr : r ∈ c.requests) {l : AddrLoc} (hl : .act l k ∈ log)
    (hbank : l.rank = r.loc.rank ∧ l.bank = r.loc.bank) :
    k + cfg.timing.tRRD ≤ c.actCycle cfg r := by
  have hold := (htimed.banks _ _ (htimed.inRange r hr)).acts l k hl hbank
  have hpre : (c.banks r.loc.rank r.loc.bank).minPreCycle ≤ c.preCycle r := le_preCycle
  have hact : c.preCycle r + cfg.timing.tRP ≤ c.actCycle cfg r := preCycle_le_actCycle
  omega

/-- An ACT is at least `tRRD` from all others of its rank if it is so far from those in the
window. -/
theorem far_iff (htimed : Timed cfg log c) (hwin : Windowed cfg log c) (hrem : Remembered log c)
    (hras : cfg.timing.tRRD ≤ cfg.timing.tRAS + cfg.timing.tRP)
    (hfaw : cfg.timing.tRRD ≤ cfg.timing.tFAW) (hr : r ∈ c.requests) :
    (∀ l k, .act l k ∈ log → l.rank = r.loc.rank → l.bank ≠ r.loc.bank →
      Far cfg.timing.tRRD k (c.actCycle cfg r)) ↔
    ∀ k ∈ (c.window r).buf, Far cfg.timing.tRRD (c.actCycle cfg r) k := by
  have hlargest : Largest _ (c.window r).order := hrem r.loc.rank
  have hwf : (c.window r).Wf := hwin.wf r.loc.rank
  obtain ⟨a, rest, horder⟩ := hwf.exists_order
  have hle : (c.window r).minActCycle + cfg.timing.tFAW ≤ c.actCycle cfg r :=
    minActCycle_le_actCycle
  rw [ActWindow.minActCycle_eq hwf horder] at hle
  constructor
  · intro hfar k hk
    have hk : k ∈ (c.window r).order := List.mem_rotate.mpr hk
    obtain hk | hk := List.mem_append.mp (hlargest.subset hk)
    · obtain ⟨l, hrank, hl⟩ := mem_actsOf.mp hk
      by_cases hbank : l.bank = r.loc.bank
      · exact .inr (act_of_bank htimed hras hr hl ⟨hrank, hbank⟩)
      · exact (hfar l k hl hrank hbank).symm
    · obtain rfl := List.eq_of_mem_replicate hk
      exact .inr (by omega)
  · intro hfar l k hl hrank _
    have hk : k ∈ actsOf r.loc.rank log := mem_actsOf.mpr ⟨l, hrank, hl⟩
    rw [horder] at hlargest
    obtain hk | hk := hlargest.mem_or_le (List.mem_append_left _ hk)
    · rw [← horder] at hk
      exact (hfar k (List.mem_rotate.mp hk)).symm
    · exact .inl (by omega)

theorem mem_actsOfOthers {loc : AddrLoc} : k ∈ actsOfOthers loc log ↔
    ∃ l, .act l k ∈ log ∧ l.rank = loc.rank ∧ l.bank ≠ loc.bank := by
  unfold actsOfOthers
  rw [List.mem_filterMap]
  constructor
  · rintro ⟨cmd, hcmd, h⟩
    cases cmd with
    | act l k' =>
      obtain ⟨hother, h⟩ := Option.ite_none_right_eq_some.mp h
      cases h
      exact ⟨l, hcmd, hother⟩
    | pre => cases h
    | column => cases h
    | refresh => cases h
  · rintro ⟨l, hl, hother⟩
    exact ⟨_, hl, if_pos hother⟩

/-- An ACT is when the last of what it waits for is over. -/
theorem actCycle_spec (cfg : Config) (c : Controller) (r : Request) :
    c.actCycle cfg r ∈ c.actWaits cfg r ∧ ∀ w ∈ c.actWaits cfg r, w ≤ c.actCycle cfg r := by
  unfold actCycle actWaits preCycle window
  simp only [List.mem_cons, List.not_mem_nil, or_false, forall_eq_or_imp, forall_eq]
  split <;> omega

/-- An ACT is far from a cycle when it waits for something until that long after it, or for nothing
until that long before it. -/
theorem far_actCycle_iff {d : Nat} : Far d k (c.actCycle cfg r) ↔
    (∃ w ∈ c.actWaits cfg r, k + d ≤ w) ∨ ∀ w ∈ c.actWaits cfg r, w + d ≤ k := by
  obtain ⟨hmem, hle⟩ := actCycle_spec cfg c r
  refine or_congr ⟨fun h => ⟨_, hmem, h⟩, ?_⟩ ⟨fun h w hw => ?_, fun h => h _ hmem⟩
  · rintro ⟨w, hw, h⟩
    exact h.trans (hle w hw)
  · exact (Nat.add_le_add_right (hle w hw) d).trans h

/-- ACTs to different banks of a rank are at least `tRRD` apart. -/
def RanksSpaced (t : Timing) (log : List Command) : Prop := log.Pairwise (RankApart t)

theorem rankApart_of_not_act {cmd cmd' : Command} (h : ∀ l k, cmd' ≠ .act l k) :
    RankApart t cmd cmd' := by
  cases cmd' with
  | act l k => exact absurd rfl (h l k)
  | pre => cases cmd <;> trivial
  | column => cases cmd <;> trivial
  | refresh => cases cmd <;> trivial

/-- What an ACT adds to spaced commands. -/
theorem spaced_iff {r : Option Request} (hact : Activation cfg r new c c')
    (hspaced : RanksSpaced t log) :
    RanksSpaced t (log ++ new) ↔ ∀ req ∈ r, ∀ l k, .act l k ∈ log → l.rank = req.loc.rank →
      l.bank ≠ req.loc.bank → Far t.tRRD k (c.actCycle cfg req) := by
  unfold RanksSpaced
  rw [List.pairwise_append]
  cases r with
  | none =>
    have hnone : ∀ cmd ∈ new, ∀ l k, cmd ≠ .act l k := by
      rintro cmd hcmd l k rfl
      have hk : k ∈ actsOf l.rank new := mem_actsOf.mpr ⟨l, rfl, hcmd⟩
      rw [hact.1] at hk
      exact absurd hk List.not_mem_nil
    refine iff_of_true ⟨hspaced, List.pairwise_of_forall_mem_list ?_, ?_⟩ (fun _ h => nomatch h)
    · exact fun _ _ cmd hcmd => rankApart_of_not_act (hnone cmd hcmd)
    · exact fun _ _ cmd hcmd => rankApart_of_not_act (hnone cmd hcmd)
  | some r =>
    obtain ⟨cycle, rfl⟩ := hact.log
    constructor
    case mp =>
      rintro ⟨-, -, hcross⟩ req hreq l k hl hrank hbank
      cases hreq
      exact hcross _ hl (.act r.loc (c.actCycle cfg r)) (by simp) hrank hbank
    case mpr =>
      intro hfar
      refine ⟨hspaced, by simp [RankApart], fun cmd hcmd cmd' hcmd' => ?_⟩
      simp only [List.mem_cons, List.not_mem_nil, or_false] at hcmd'
      obtain rfl | rfl | rfl := hcmd'
      · exact rankApart_of_not_act (by simp)
      · cases cmd with
        | act l k => exact fun hrank hbank => hfar r rfl l k hcmd hrank hbank
        | pre => trivial
        | column => trivial
        | refresh => trivial
      · exact rankApart_of_not_act (by simp)

theorem init_windowed (cfg : Config) : Windowed cfg [] (.init cfg) where
  wf _ := by simp [Controller.init, ActWindow.init, ActWindow.Wf]
  length _ := by simp [Controller.init, ActWindow.init, ActWindow.order]
  covers _ _ := Nat.zero_le _

theorem init_remembered (cfg : Config) : Remembered [] (.init cfg) := by
  intro rank
  exact Largest.self (List.pairwise_replicate.mpr (.inr le_rfl))

end

/-! ### Runs -/

/-- `tRRD` is short next to the other constraints. -/
theorem Args.rrd_le {args : Args} {cfg : Config} (h : args.config = some cfg) :
    cfg.timing.tRRD ≤ cfg.timing.tRAS + cfg.timing.tRP ∧ cfg.timing.tRRD ≤ cfg.timing.tFAW := by
  obtain ⟨timing, htiming, h⟩ := Option.bind_eq_some_iff.mp h
  obtain ⟨-, h⟩ := Option.ite_none_left_eq_some.mp h
  obtain ⟨addrMap, -, rfl⟩ := Option.map_eq_some_iff.mp h
  obtain ⟨tBL, rfl⟩ := initTech_eq htiming
  dsimp only
  cases args.tech <;> decide

theorem run_windowed {cfg : Config} {ops : List Op} {s : DDRMemory}
    (hrun : run (step cfg) ops (.init cfg) = some s) :
    Windowed cfg (commandsOf cfg ops) s.ctl :=
  @run_emits _ _ _ _ _ (fun log (s : DDRMemory) => Windowed cfg log s.ctl)
    (fun _ _ _ _ h hstep => h.activation (step_activation hstep)) ops [] _ _ (init_windowed cfg)
    hrun

section

variable {cfg : Config} {s s' : DDRMemory} {op : Op} {log : List Command}

theorem actNotOldest_iff : ActNotOldest cfg op s ↔ ∀ r ∈ activating cfg op s,
    (s.ctl.window r).NotOldest (s.ctl.actCycle cfg r) := by
  unfold ActNotOldest
  cases activating cfg op s <;> simp

/-- What a step adds to spaced commands. -/
theorem spaced_step_iff (hstep : step cfg op s = some s') (hspaced : RanksSpaced cfg.timing log) :
    RanksSpaced cfg.timing (log ++ commands cfg op s) ↔ ActClear cfg op (log, s) := by
  rw [spaced_iff (step_activation hstep) hspaced]
  refine forall₂_congr fun r _ => ?_
  simp only [mem_actsOfOthers, far_actCycle_iff]
  exact ⟨fun h k ⟨l, hl, hrank, hbank⟩ => h l k hl hrank hbank,
    fun h l k hl hrank hbank => h k ⟨l, hl, hrank, hbank⟩⟩

theorem actFar_iff : ActFar cfg op s ↔ ∀ r ∈ activating cfg op s, ∀ k ∈ (s.ctl.window r).buf,
    Far cfg.timing.tRRD (s.ctl.actCycle cfg r) k := by
  unfold ActFar
  cases activating cfg op s <;> simp

/-- What the controller remembers of the commands so far. -/
structure Memory (cfg : Config) (log : List Command) (c : Controller) : Prop where
  timed : Timed cfg log c
  windowed : Windowed cfg log c
  remembered : Remembered log c

theorem Memory.step (hv : cfg.Valid) (h : Memory cfg log s.ctl)
    (hnot : ActNotOldest cfg op s) (hstep : step cfg op s = some s') :
    Memory cfg (log ++ commands cfg op s) s'.ctl where
  timed := h.timed.step hv hstep
  windowed := h.windowed.activation (step_activation hstep)
  remembered := h.remembered.activation h.windowed.wf (step_activation hstep)
    (actNotOldest_iff.mp hnot)

theorem Memory.spaced (h : Memory cfg log s.ctl)
    (hras : cfg.timing.tRRD ≤ cfg.timing.tRAS + cfg.timing.tRP)
    (hfaw : cfg.timing.tRRD ≤ cfg.timing.tFAW) (hstep : Dram.step cfg op s = some s')
    (hspaced : RanksSpaced cfg.timing log) :
    RanksSpaced cfg.timing (log ++ commands cfg op s) ↔ ActFar cfg op s := by
  have hact := step_activation hstep
  rw [spaced_iff hact hspaced, actFar_iff]
  refine forall₂_congr fun r hr => ?_
  rw [Option.mem_def.mp hr] at hact
  exact far_iff h.timed h.windowed h.remembered hras hfaw hact.mem

end

/-- If no ACT is before the one that its window leaves as the oldest, the ACTs in its window decide
whether it is far enough from all. -/
theorem spaced_iff_windows {args : Args} {cfg : Config} (h : args.config = some cfg)
    (ops : List Op) {s : DDRMemory} (hrun : run (step cfg) ops (.init cfg) = some s)
    (hnot : Along (step cfg) (ActNotOldest cfg) ops (.init cfg)) :
    RanksSpaced cfg.timing (commandsOf cfg ops) ↔
      Along (step cfg) (ActFar cfg) ops (.init cfg) := by
  obtain ⟨hras, hfaw⟩ := Args.rrd_le h
  exact @emits_iff_along _ _ _ _ _ _ _ (fun log (s : DDRMemory) => Memory cfg log s.ctl)
    (RanksSpaced cfg.timing) (fun log more hlog => (List.pairwise_append.mp hlog).1)
    (fun _ _ _ _ hmemory hnotOldest hstep => ⟨hmemory.step (Args.valid h) hnotOldest hstep,
      hmemory.spaced hras hfaw hstep⟩) ops [] _ _
    ⟨init_timed cfg, init_windowed cfg, init_remembered cfg⟩ List.Pairwise.nil hnot hrun

end Doppelganger.Dram
