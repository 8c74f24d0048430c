import Doppelganger.Dram.Scheduling
import Doppelganger.Dram.DDRMemory

/-! The commands that the controller puts on the bus: PRE, ACT, RD and WR for the requests that
`trySchedule` issues, and the refreshes.  `trySchedule` computes the cycles of all commands of a
request when it issues the RD or WR. -/

namespace Doppelganger.Dram

open Lib

/-- A command and its cycle; `column` is RD or WR. -/
inductive Command
  | pre (loc : AddrLoc) (cycle : Nat)
  | act (loc : AddrLoc) (cycle : Nat)
  | column (loc : AddrLoc) (write : Bool) (cycle : Nat)
  | refresh (cycle : Nat)
deriving DecidableEq, Repr

namespace Controller

variable (cfg : Config) (c : Controller)

/-- The request that `trySchedule` issues. -/
def readyRequest (curCycle : Nat) : Option Request :=
  if c.rdQueue = [] ∧ c.wrQueue = [] ∨ curCycle + cfg.timing.tCL < c.minRespCycle then none
  else (c.findReady cfg curCycle (c.chosen cfg) none).1

/-- The commands of a request that is issued. -/
def requestCommands (r : Request) (curCycle : Nat) : List Command :=
  (if c.rowHit r then [] else [.pre r.loc (c.preCycle r), .act r.loc (c.actCycle cfg r)]) ++
    [.column r.loc r.write (c.cmdCycle cfg r curCycle)]

def commands (curCycle : Nat) : List Command :=
  (c.readyRequest cfg curCycle).elim [] fun r => c.requestCommands cfg r curCycle

end Controller

/-- The commands of a step. -/
def commands (cfg : Config) : Op → DDRMemory → List Command
  | .enqueue _ _ _, _ => []
  | .fire ev, s =>
    (s.pending.lookup ev).elim [] fun startCycle =>
      if s.schedEvents ev = .QUEUED then s.ctl.commands cfg (cfg.sysToMemCycle startCycle) else []
  | .refresh, s => [.refresh (s.ctl.minRefreshCycle cfg (cfg.sysToMemCycle s.refreshCycle))]

/-- The commands of a run from the start. -/
def commandsOf (cfg : Config) (ops : List Op) : List Command :=
  emitted (step cfg) (commands cfg) ops (.init cfg)

/-! ### What the device asks for -/

/-- Two places are in the same bank. -/
def AddrLoc.SameBank (l l' : AddrLoc) : Prop := l.rank = l'.rank ∧ l.bank = l'.bank

/-- When a bank may be precharged after RD or WR. -/
def Timing.recovered (t : Timing) (write : Bool) (cycle : Nat) : Nat :=
  if write then cycle + t.tCL + t.tBL + t.tWR else cycle + t.tRTP

/-- How far a command is from one before it. -/
def Apart (t : Timing) : Command → Command → Prop
  -- the burst of a command is from `tCL` after it on, for `tBL`
  | .column _ write cycle, .column _ write' cycle' =>
    cycle + t.tCL + t.tBL ≤ cycle' + t.tCL ∧
      (write = true → write' = false → cycle + t.tCL + t.tBL + t.tWTR ≤ cycle')
  | .act l cycle, .column l' _ cycle' => l.SameBank l' → cycle + t.tRCD ≤ cycle'
  | .act l cycle, .pre l' cycle' => l.SameBank l' → cycle + t.tRAS ≤ cycle'
  | .column l write cycle, .pre l' cycle' => l.SameBank l' → t.recovered write cycle ≤ cycle'
  | .pre l cycle, .act l' cycle' => l.SameBank l' → cycle + t.tRP ≤ cycle'
  | .refresh cycle, .act _ cycle' => cycle + t.tRFC ≤ cycle'
  | _, _ => True

/-- The row that is open in a bank after a command, and the cycle of its ACT. -/
def openedBy (rank bank : Nat) (opened : Option (Nat × Nat)) : Command → Option (Nat × Nat)
  | .pre l _ => if l.rank = rank ∧ l.bank = bank then none else opened
  | .act l cycle => if l.rank = rank ∧ l.bank = bank then some (l.row, cycle) else opened
  | .column _ _ _ => opened
  | .refresh _ => none

/-- The row that the commands so far leave open in a bank, and the cycle of its ACT. -/
def opened (rank bank : Nat) (log : List Command) : Option (Nat × Nat) :=
  log.foldl (openedBy rank bank) none

/-- ACT comes with its own PRE, and RD and WR are to the row that an ACT has opened. -/
def Prepared (t : Timing) (log : List Command) : Command → Prop
  | .act l cycle => ∃ k, log.getLast? = some (.pre l k) ∧ k + t.tRP ≤ cycle
  | .column l _ cycle => ∃ k, opened l.rank l.bank log = some (l.row, k) ∧ k + t.tRCD ≤ cycle
  | _ => True

/-- Each command is prepared by the ones before it, and far enough from them. -/
def Legal (t : Timing) (log : List Command) : Prop :=
  ∀ before cmd after, log = before ++ cmd :: after →
    (∀ cmd' ∈ before, Apart t cmd' cmd) ∧ Prepared t before cmd

variable {t : Timing} {log : List Command} {cmd : Command}

theorem legal_nil : Legal t [] := by
  intro before cmd after h
  exact absurd h.symm (List.append_ne_nil_of_right_ne_nil _ (List.cons_ne_nil _ _))

/-- A legal command after legal ones. -/
theorem Legal.concat (h : Legal t log) (hapart : ∀ cmd' ∈ log, Apart t cmd' cmd)
    (hprepared : Prepared t log cmd) : Legal t (log ++ [cmd]) := by
  intro before cmd' after heq
  rcases List.eq_nil_or_concat after with rfl | ⟨after, last, rfl⟩
  · obtain ⟨rfl, hcmd⟩ := List.append_inj' heq rfl
    rw [← List.singleton_inj.mp hcmd]
    exact ⟨hapart, hprepared⟩
  · rw [List.concat_eq_append, ← List.cons_append, ← List.append_assoc] at heq
    exact h before cmd' after (List.append_inj' heq rfl).1

theorem opened_concat {rank bank : Nat} :
    opened rank bank (log ++ [cmd]) = openedBy rank bank (opened rank bank log) cmd := by
  unfold opened
  rw [List.foldl_append]
  rfl

end Doppelganger.Dram
