import Doppelganger.Dram.Issues

/-! The commands of a run are as far apart as the device asks for.  The controller keeps a few
cycles of each bank; each bounds all commands of one kind that the bank has seen. -/

namespace Doppelganger.Dram

open Lib

/-! ### What the controller remembers -/

/-- The cycles of a bank bound those of its commands so far. -/
structure BankTimed (t : Timing) (log : List Command) (rank bank : Nat) (b : Bank) : Prop where
  row : b.isOpen = true → ∃ k, opened rank bank log = some (b.openRow, k) ∧
    k + t.tRCD ≤ b.lastCmdCycle
  pres : ∀ l k, .pre l k ∈ log → l.rank = rank ∧ l.bank = bank → k ≤ b.minPreCycle
  acts : ∀ l k, .act l k ∈ log → l.rank = rank ∧ l.bank = bank →
    k + t.tRAS ≤ b.minPreCycle ∧ k + t.tRCD ≤ b.lastCmdCycle
  columns : ∀ l write k, .column l write k ∈ log → l.rank = rank ∧ l.bank = bank →
    t.recovered write k ≤ b.minPreCycle
  refreshes : ∀ k, .refresh k ∈ log → k + t.tRFC ≤ b.minPreCycle + t.tRP
  cmd : b.lastCmdCycle ≤ b.minPreCycle

/-- The commands so far are legal, and the controller remembers what it needs of them. -/
structure Timed (cfg : Config) (log : List Command) (c : Controller) : Prop where
  legal : Legal cfg.timing log
  bursts : ∀ l write k, .column l write k ∈ log →
    k + cfg.timing.tCL + cfg.timing.tBL ≤ c.minRespCycle
  turnaround : c.lastCmdWasWrite = false → ∀ l k, .column l true k ∈ log →
    k + cfg.timing.tCL + cfg.timing.tBL + cfg.timing.tWTR + cfg.timing.tCL ≤ c.minRespCycle
  inRange : ∀ r ∈ c.requests, cfg.InRange r.loc
  banks : ∀ rank bank, rank < cfg.ranksPerChannel ∧ bank < cfg.banksPerRank →
    BankTimed cfg.timing log rank bank (c.banks rank bank)

section

variable {cfg : Config} {c c' : Controller} {r : Request} {log : List Command} {cur sys : Nat}
  {t : Timing} {b b' : Bank} {rank bank : Nat}

theorem BankTimed.congr (h : BankTimed t log rank bank b) (hb : b'.timing = b.timing) :
    BankTimed t log rank bank b' := by
  have hisOpen : b'.isOpen = b.isOpen := (congrArg Bank.isOpen hb :)
  have hrow : b'.openRow = b.openRow := (congrArg Bank.openRow hb :)
  have hpre : b'.minPreCycle = b.minPreCycle := (congrArg Bank.minPreCycle hb :)
  have hcmd : b'.lastCmdCycle = b.lastCmdCycle := (congrArg Bank.lastCmdCycle hb :)
  constructor
  case row => rw [hisOpen, hrow, hcmd]; exact h.row
  case pres => rw [hpre]; exact h.pres
  case acts => rw [hpre, hcmd]; exact h.acts
  case columns => rw [hpre]; exact h.columns
  case refreshes => rw [hpre]; exact h.refreshes
  case cmd => rw [hpre, hcmd]; exact h.cmd

theorem Timed.same (h : Timed cfg log c) (hsame : c.SameTiming cfg c') : Timed cfg log c' where
  legal := h.legal
  bursts := hsame.resp ▸ h.bursts
  turnaround := by
    rw [hsame.resp, hsame.wrote]
    exact h.turnaround
  inRange := hsame.requests h.inRange
  banks rank bank hin := (h.banks rank bank hin).congr (hsame.banks rank bank)

theorem init_timed (cfg : Config) : Timed cfg [] (.init cfg) := by
  constructor
  case legal => exact legal_nil
  case bursts => exact fun l w k hk => absurd hk List.not_mem_nil
  case turnaround => exact fun _ l k hk => absurd hk List.not_mem_nil
  case inRange => exact fun r hr => absurd hr List.not_mem_nil
  case banks =>
    intro rank bank _
    constructor
    case row => exact fun hopen => absurd hopen Bool.false_ne_true
    case pres => exact fun l k hk => absurd hk List.not_mem_nil
    case acts => exact fun l k hk => absurd hk List.not_mem_nil
    case columns => exact fun l w k hk => absurd hk List.not_mem_nil
    case refreshes => exact fun k hk => absurd hk List.not_mem_nil
    case cmd => exact le_rfl

/-! ### Refresh -/

theorem Timed.refresh (h : Timed cfg log c) (hv : cfg.Valid) (m : Nat) :
    Timed cfg (log ++ [.refresh (c.minRefreshCycle cfg m)]) (c.refresh cfg m) := by
  have hrp := hv.rp_le
  constructor
  case legal =>
    refine h.legal.concat (fun cmd _ => ?_) trivial
    cases cmd <;> trivial
  case bursts =>
    intro l w k hk
    exact h.bursts l w k (by simpa using hk)
  case turnaround =>
    intro hwrote l k hk
    exact h.turnaround hwrote l k (by simpa using hk)
  case inRange => exact h.inRange
  case banks =>
    intro rank bank hin
    have hold := h.banks rank bank hin
    have hle := (Controller.minRefreshCycle_le_iff.mp (le_refl (c.minRefreshCycle cfg m))).2 rank
      bank hin.1 hin.2
    have hbank : (c.refresh cfg m).banks rank bank = { c.banks rank bank with
        minPreCycle := c.minRefreshCycle cfg m + cfg.timing.tRFC - cfg.timing.tRP
        isOpen := false } := if_pos hin
    rw [hbank]
    constructor
    case row => exact fun hopen => absurd hopen Bool.false_ne_true
    case pres =>
      intro l k hk hl
      have := hold.pres l k (by simpa using hk) hl
      dsimp only
      omega
    case acts =>
      intro l k hk hl
      have := hold.acts l k (by simpa using hk) hl
      dsimp only
      omega
    case columns =>
      intro l w k hk hl
      have := hold.columns l w k (by simpa using hk) hl
      dsimp only
      omega
    case refreshes =>
      intro k hk
      dsimp only
      rcases List.mem_append.mp hk with hk | hk
      · have := hold.refreshes k hk
        omega
      · cases List.mem_singleton.mp hk
        omega
    case cmd =>
      dsimp only
      omega

/-! ### The commands of a request -/

theorem preCycle_le_actCycle : c.preCycle r + cfg.timing.tRP ≤ c.actCycle cfg r := by
  unfold Controller.actCycle
  omega

theorem cmdCycle_spec : c.minRespCycle ≤ c.cmdCycle cfg r cur + cfg.timing.tCL ∧
    (c.lastCmdWasWrite = true → r.write = false →
      c.minRespCycle + cfg.timing.tWTR ≤ c.cmdCycle cfg r cur) ∧
    (c.rowHit r = false → c.actCycle cfg r + cfg.timing.tRCD ≤ c.cmdCycle cfg r cur) := by
  unfold Controller.cmdCycle
  dsimp only
  refine ⟨?_, fun hwrote hread => ?_, fun hmiss => ?_⟩
  · omega
  · rw [hwrote, hread, Bool.not_false, Bool.and_true, if_pos rfl]
    split <;> omega
  · rw [hmiss, if_neg Bool.false_ne_true]
    omega

theorem Timed.apart_pre (h : Timed cfg log c) (hin : cfg.InRange r.loc) :
    ∀ cmd ∈ log, Apart cfg.timing cmd (.pre r.loc (c.preCycle r)) := by
  have hbank := h.banks r.loc.rank r.loc.bank hin
  have hle : (c.banks r.loc.rank r.loc.bank).minPreCycle ≤ c.preCycle r := Controller.le_preCycle
  intro cmd hcmd
  cases cmd with
  | pre => trivial
  | act l k => exact fun hsame => (hbank.acts l k hcmd hsame).1.trans hle
  | column l w k => exact fun hsame => (hbank.columns l w k hcmd hsame).trans hle
  | refresh => trivial

theorem Timed.apart_act (h : Timed cfg log c) (hin : cfg.InRange r.loc) :
    ∀ cmd ∈ log, Apart cfg.timing cmd (.act r.loc (c.actCycle cfg r)) := by
  have hbank := h.banks r.loc.rank r.loc.bank hin
  have hle : (c.banks r.loc.rank r.loc.bank).minPreCycle ≤ c.preCycle r := Controller.le_preCycle
  have hact : c.preCycle r + cfg.timing.tRP ≤ c.actCycle cfg r := preCycle_le_actCycle
  intro cmd hcmd
  cases cmd with
  | pre l k =>
    intro hsame
    have := hbank.pres l k hcmd hsame
    omega
  | act => trivial
  | column => trivial
  | refresh k =>
    have := hbank.refreshes k hcmd
    show k + cfg.timing.tRFC ≤ c.actCycle cfg r
    omega

theorem Timed.apart_column (h : Timed cfg log c) (hin : cfg.InRange r.loc)
    (hlast : (c.bankOf r).lastCmdCycle < c.cmdCycle cfg r cur) :
    ∀ cmd ∈ log, Apart cfg.timing cmd (.column r.loc r.write (c.cmdCycle cfg r cur)) := by
  have hbank := h.banks r.loc.rank r.loc.bank hin
  obtain ⟨hburst, hturn, -⟩ := @cmdCycle_spec cfg c r cur
  intro cmd hcmd
  cases cmd with
  | pre => trivial
  | act l k =>
    intro hsame
    exact (hbank.acts l k hcmd hsame).2.trans hlast.le
  | column l w k =>
    have hold := h.bursts l w k hcmd
    refine ⟨by omega, fun hwrite hread => ?_⟩
    cases hwrote : c.lastCmdWasWrite with
    | true =>
      have := hturn hwrote hread
      omega
    | false =>
      have := h.turnaround hwrote l k (hwrite ▸ hcmd)
      omega
  | refresh => trivial

theorem mem_requestCommands {cmd : Command} : cmd ∈ c.requestCommands cfg r cur ↔
    c.rowHit r = false ∧ (cmd = .pre r.loc (c.preCycle r) ∨ cmd = .act r.loc (c.actCycle cfg r)) ∨
      cmd = .column r.loc r.write (c.cmdCycle cfg r cur) := by
  unfold Controller.requestCommands
  cases c.rowHit r <;> simp [or_assoc]

/-- The row of a request is open when its RD or WR comes. -/
theorem BankTimed.opened (h : BankTimed cfg.timing log r.loc.rank r.loc.bank (c.bankOf r))
    (hlast : (c.bankOf r).lastCmdCycle < c.cmdCycle cfg r cur) :
    ∃ k, opened r.loc.rank r.loc.bank (log ++ c.requestCommands cfg r cur) =
      some (r.loc.row, k) ∧ k + cfg.timing.tRCD ≤ c.cmdCycle cfg r cur := by
  unfold Controller.requestCommands
  cases hhit : c.rowHit r with
  | true =>
    unfold Controller.rowHit at hhit
    obtain ⟨hrow, hopen⟩ := (Bool.and_eq_true _ _).mp hhit
    obtain ⟨k, hk, hle⟩ := h.row hopen
    refine ⟨k, ?_, hle.trans hlast.le⟩
    rw [if_pos rfl, List.nil_append, opened_concat, hk, of_decide_eq_true hrow]
    rfl
  | false =>
    obtain ⟨-, -, hact⟩ := @cmdCycle_spec cfg c r cur
    refine ⟨c.actCycle cfg r, ?_, hact hhit⟩
    rw [if_neg Bool.false_ne_true, ← List.append_assoc, opened_concat, List.append_cons,
      opened_concat]
    exact if_pos ⟨rfl, rfl⟩

theorem opened_of_other (hother : ¬(rank = r.loc.rank ∧ bank = r.loc.bank)) :
    opened rank bank (log ++ c.requestCommands cfg r cur) = opened rank bank log := by
  have hloc : ¬(r.loc.rank = rank ∧ r.loc.bank = bank) := fun h => hother ⟨h.1.symm, h.2.symm⟩
  unfold Controller.requestCommands
  cases c.rowHit r with
  | true =>
    rw [if_pos rfl, List.nil_append, opened_concat]
    rfl
  | false =>
    rw [if_neg Bool.false_ne_true, ← List.append_assoc, opened_concat, List.append_cons,
      opened_concat, opened_concat]
    exact (if_neg hloc).trans (if_neg hloc)

theorem Timed.legal_request (h : Timed cfg log c) (hin : cfg.InRange r.loc)
    (hlast : (c.bankOf r).lastCmdCycle < c.cmdCycle cfg r cur) :
    Legal cfg.timing (log ++ c.requestCommands cfg r cur) := by
  have hcolumn := h.apart_column hin hlast
  have hopened := BankTimed.opened (h.banks r.loc.rank r.loc.bank hin) hlast
  unfold Controller.requestCommands at hopened ⊢
  cases hhit : c.rowHit r with
  | true =>
    rw [hhit, if_pos rfl, List.nil_append, opened_concat] at hopened
    rw [if_pos rfl, List.nil_append]
    exact h.legal.concat hcolumn hopened
  | false =>
    obtain ⟨-, -, hact⟩ := @cmdCycle_spec cfg c r cur
    rw [hhit, if_neg Bool.false_ne_true, ← List.append_assoc, opened_concat] at hopened
    rw [if_neg Bool.false_ne_true, ← List.append_assoc]
    have hpre := h.legal.concat (h.apart_pre hin) trivial
    have hboth : Legal cfg.timing
        (log ++ [.pre r.loc (c.preCycle r), .act r.loc (c.actCycle cfg r)]) := by
      rw [List.append_cons]
      refine hpre.concat (fun cmd hcmd => ?_) ⟨_, List.getLast?_concat, preCycle_le_actCycle⟩
      rcases List.mem_append.mp hcmd with hcmd | hcmd
      · exact h.apart_act hin cmd hcmd
      · cases List.mem_singleton.mp hcmd
        exact fun _ => preCycle_le_actCycle
    refine hboth.concat (fun cmd hcmd => ?_) hopened
    rcases List.mem_append.mp hcmd with hcmd | hcmd
    · exact hcolumn cmd hcmd
    · rcases List.mem_cons.mp hcmd with rfl | hcmd
      · trivial
      · cases List.mem_singleton.mp hcmd
        exact fun _ => hact hhit

/-- The bank of a request, after its commands. -/
theorem BankTimed.issued (h : BankTimed cfg.timing log r.loc.rank r.loc.bank (c.bankOf r))
    (hissued : c.Issued cfg cur r c')
    (hlast : (c.bankOf r).lastCmdCycle < c.cmdCycle cfg r cur) :
    BankTimed cfg.timing (log ++ c.requestCommands cfg r cur) r.loc.rank r.loc.bank
      (c'.bankOf r) := by
  have hopened := h.opened hlast
  have hpre := hissued.pre
  have hcmd := hissued.cmd
  have hcolumn := hissued.column
  have hact : c.preCycle r + cfg.timing.tRP ≤ c.actCycle cfg r := preCycle_le_actCycle
  obtain ⟨-, -, hcmdAct⟩ := @cmdCycle_spec cfg c r cur
  constructor
  case row =>
    intro hopen
    rw [hissued.row hopen, hcmd]
    exact hopened
  case pres =>
    intro l k hk hl
    rcases List.mem_append.mp hk with hk | hk
    · exact (h.pres l k hk hl).trans hpre
    · obtain ⟨hmiss, heq | heq⟩ | heq := mem_requestCommands.mp hk
      · cases heq
        have := hissued.act hmiss
        omega
      · cases heq
      · cases heq
  case acts =>
    intro l k hk hl
    rcases List.mem_append.mp hk with hk | hk
    · have := h.acts l k hk hl
      omega
    · obtain ⟨hmiss, heq | heq⟩ | heq := mem_requestCommands.mp hk
      · cases heq
      · cases heq
        have := hissued.act hmiss
        have := hcmdAct hmiss
        omega
      · cases heq
  case columns =>
    intro l w k hk hl
    rcases List.mem_append.mp hk with hk | hk
    · exact (h.columns l w k hk hl).trans hpre
    · obtain ⟨hmiss, heq | heq⟩ | heq := mem_requestCommands.mp hk
      · cases heq
      · cases heq
      · cases heq
        exact hcolumn
  case refreshes =>
    intro k hk
    rcases List.mem_append.mp hk with hk | hk
    · have := h.refreshes k hk
      omega
    · obtain ⟨hmiss, heq | heq⟩ | heq := mem_requestCommands.mp hk <;> cases heq
  case cmd =>
    unfold Timing.recovered at hcolumn
    split at hcolumn <;> omega

/-- Another bank, after the commands of a request. -/
theorem BankTimed.other (h : BankTimed t log rank bank b)
    (hother : ¬(rank = r.loc.rank ∧ bank = r.loc.bank)) :
    BankTimed t (log ++ c.requestCommands cfg r cur) rank bank b := by
  have hnew : ∀ cmd ∈ c.requestCommands cfg r cur, ∀ l k, cmd = .pre l k ∨ cmd = .act l k ∨
      (∃ w, cmd = .column l w k) → ¬(l.rank = rank ∧ l.bank = bank) := by
    rintro cmd hcmd l k hl ⟨rfl, rfl⟩
    obtain ⟨-, rfl | rfl⟩ | rfl := mem_requestCommands.mp hcmd
    all_goals
      obtain hl | hl | ⟨w, hl⟩ := hl <;> cases hl
      exact hother ⟨rfl, rfl⟩
  constructor
  case row =>
    rw [opened_of_other hother]
    exact h.row
  case pres =>
    intro l k hk hl
    rcases List.mem_append.mp hk with hk | hk
    · exact h.pres l k hk hl
    · exact absurd hl (hnew _ hk l k (.inl rfl))
  case acts =>
    intro l k hk hl
    rcases List.mem_append.mp hk with hk | hk
    · exact h.acts l k hk hl
    · exact absurd hl (hnew _ hk l k (.inr (.inl rfl)))
  case columns =>
    intro l w k hk hl
    rcases List.mem_append.mp hk with hk | hk
    · exact h.columns l w k hk hl
    · exact absurd hl (hnew _ hk l k (.inr (.inr ⟨w, rfl⟩)))
  case refreshes =>
    intro k hk
    rcases List.mem_append.mp hk with hk | hk
    · exact h.refreshes k hk
    · obtain ⟨-, heq | heq⟩ | heq := mem_requestCommands.mp hk <;> cases heq
  case cmd => exact h.cmd

theorem Timed.issue (h : Timed cfg log c) {w : Bool} (hr : r ∈ c.requests)
    (hissue : c.issue cfg r w cur sys = some c') :
    Timed cfg (log ++ c.requestCommands cfg r cur) c' := by
  obtain ⟨hissued, hlast⟩ := Controller.issue_spec hissue
  have hin := h.inRange r hr
  have hresp := hissued.resp
  obtain ⟨hburst, hturn, -⟩ := @cmdCycle_spec cfg c r cur
  constructor
  case legal => exact h.legal_request hin hlast
  case bursts =>
    intro l w k hk
    rcases List.mem_append.mp hk with hk | hk
    · have := h.bursts l w k hk
      omega
    · obtain ⟨-, heq | heq⟩ | heq := mem_requestCommands.mp hk <;> cases heq
      exact hresp.ge
  case turnaround =>
    intro hread l k hk
    rw [hissued.wrote] at hread
    rcases List.mem_append.mp hk with hk | hk
    · have hold := h.bursts l true k hk
      cases hwrote : c.lastCmdWasWrite with
      | true =>
        have := hturn hwrote hread
        omega
      | false =>
        have := h.turnaround hwrote l k hk
        omega
    · obtain ⟨-, heq | heq⟩ | heq := mem_requestCommands.mp hk
      · cases heq
      · cases heq
      · injection heq with _ hwrite
        exact absurd (hwrite.trans hread) (by decide)
  case inRange => exact fun r' hr' => h.inRange r' (hissued.requests r' hr')
  case banks =>
    intro rank bank hbank
    by_cases hhere : rank = r.loc.rank ∧ bank = r.loc.bank
    · obtain ⟨rfl, rfl⟩ := hhere
      exact (h.banks _ _ hbank).issued hissued hlast
    · exact ((h.banks rank bank hbank).other hhere).congr (hissued.others rank bank hhere)

/-! ### Runs -/

/-- The request that is ready is among those of the controller. -/
theorem readyRequest_ready (h : c.readyRequest cfg cur = some r) :
    r ∈ c.chosen cfg ∧ c.first cfg r = true ∧ c.findMinCmdCycle cfg r ≤ cur := by
  unfold Controller.readyRequest at h
  split at h
  case isTrue => cases h
  case isFalse =>
    cases hfind : c.findReady cfg cur (c.chosen cfg) none with
    | mk found next =>
      rw [hfind] at h
      obtain rfl : found = some r := h
      exact Controller.findReady_some hfind

theorem readyRequest_mem (h : c.readyRequest cfg cur = some r) :
    r ∈ c.requests ∧ c.findMinCmdCycle cfg r ≤ cur := by
  obtain ⟨hmem, -, hready⟩ := readyRequest_ready h
  exact ⟨List.mem_append_left _ (Controller.mem_queueOf hmem), hready⟩

/-- `trySchedule` issues the request that is ready, if there is one. -/
theorem trySchedule_spec {next : Option Nat} (h : c.trySchedule cfg cur sys = some (c', next)) :
    (∃ r, c.readyRequest cfg cur = some r ∧
      c.issue cfg r (c.isWriteQueue cfg) cur sys = some c') ∨
    c.readyRequest cfg cur = none ∧ c' = c := by
  unfold Controller.trySchedule at h
  unfold Controller.readyRequest
  split at h
  case isTrue hempty =>
    cases h
    exact .inr ⟨if_pos (.inl hempty), rfl⟩
  case isFalse hqueues =>
    split at h
    case isTrue hearly =>
      cases h
      exact .inr ⟨if_pos (.inr hearly), rfl⟩
    case isFalse hlate =>
      rw [if_neg (not_or.mpr ⟨hqueues, hlate⟩)]
      obtain ⟨-, h⟩ := Option.ite_none_left_eq_some.mp h
      unfold Controller.chosen Controller.queueOf
      split at h
      case h_1 r _ hfind =>
        obtain ⟨c1, hissue, heq⟩ := Option.map_eq_some_iff.mp h
        obtain ⟨rfl, -⟩ := Prod.mk.inj heq
        exact .inl ⟨r, by rw [hfind], hissue⟩
      case h_2 _ hfind =>
        cases h
        exact .inr ⟨by rw [hfind], rfl⟩

theorem Timed.trySchedule (h : Timed cfg log c) {next : Option Nat}
    (htry : c.trySchedule cfg cur sys = some (c', next)) :
    Timed cfg (log ++ c.commands cfg cur) c' := by
  unfold Controller.commands
  obtain ⟨r, hready, hissue⟩ | ⟨hnone, rfl⟩ := trySchedule_spec htry
  · rw [hready, Option.elim_some]
    exact h.issue (readyRequest_mem hready).1 hissue
  · rw [hnone, Option.elim_none, List.append_nil]
    exact h

/-- What `tick` does with the `overflowQueue`: it leaves it alone, or queues its first request. -/
theorem takeOverflow_spec {next next' : Option Nat} {m : Nat}
    (h : DDRMemory.takeOverflow cfg c next m = some (c', next')) :
    c' = c ∧ (c.overflowQueue = [] ∨ c.full cfg = true) ∨
    ∃ ovfReq rest req, c.overflowQueue = ovfReq :: rest ∧ c.full cfg = false ∧
      { c with overflowQueue := rest }.queue cfg ovfReq m = some (c', req) := by
  unfold DDRMemory.takeOverflow at h
  dsimp only at h
  split at h
  case h_1 hover =>
    cases h
    exact .inl ⟨rfl, .inl hover⟩
  case h_2 ovfReq rest hover =>
    split at h
    case isTrue hfull =>
      cases h
      exact .inl ⟨rfl, .inr hfull⟩
    case isFalse hfull =>
      obtain ⟨⟨c1, req⟩, hqueue, heq⟩ := Option.map_eq_some_iff.mp h
      have hc1 : c1 = c' := by
        dsimp only at heq
        split at heq <;> exact (Prod.mk.inj heq).1
      exact .inr ⟨ovfReq, rest, req, hover, Bool.eq_false_of_not_eq_true hfull, hc1 ▸ hqueue⟩

theorem takeOverflow_same (hin : ∀ r ∈ c.requests, cfg.InRange r.loc) {next next' : Option Nat}
    {m : Nat} (h : DDRMemory.takeOverflow cfg c next m = some (c', next')) :
    c.SameTiming cfg c' := by
  obtain ⟨rfl, -⟩ | ⟨ovfReq, rest, req, hover, -, hqueue⟩ := takeOverflow_spec h
  · exact .refl cfg _
  · have hovf : cfg.InRange ovfReq.loc := by
      apply hin
      exact Controller.mem_requests.mpr (.inr (.inr (hover ▸ List.mem_cons_self)))
    have hrest : c.SameTiming cfg { c with overflowQueue := rest } := by
      refine ⟨rfl, rfl, fun _ _ => rfl, fun hc r hr => hc r ?_⟩
      have hr := Controller.mem_requests.mp hr
      exact Controller.mem_requests.mpr
        (hr.imp_right (Or.imp_right fun hr => hover ▸ List.mem_cons_of_mem _ hr))
    exact hrest.trans (Controller.queue_same hovf hqueue)

end

section

variable {cfg : Config} {s s' : DDRMemory} {log : List Command}

theorem recycleEvent_ctl {ev : Nat} (h : s.recycleEvent ev = some s') : s'.ctl = s.ctl := by
  obtain ⟨-, h⟩ := Option.ite_none_left_eq_some.mp h
  cases h
  rfl

theorem wakeAt_ctl {req : Request} {memCycle sysCycle : Nat}
    (h : s.wakeAt cfg req memCycle sysCycle = some s') : s'.ctl = s.ctl := by
  unfold DDRMemory.wakeAt at h
  dsimp only at h
  generalize (if DDRMemory.isAfter s.nextSchedCycle _ then _ else _ : Nat) = cycle at h
  split at h
  case isTrue =>
    obtain ⟨s1, hannul, h⟩ := Option.bind_eq_some_iff.mp h
    have h1 : s1.ctl = s.ctl := by
      cases hnext : s.nextSchedEvent with
      | none =>
        rw [hnext] at hannul
        cases hannul
        rfl
      | some ev =>
        rw [hnext] at hannul
        obtain ⟨-, hannul⟩ := Option.ite_none_right_eq_some.mp hannul
        cases hannul
        rfl
    have h2 : s1.allocEvent.1.ctl = s1.ctl := by
      unfold DDRMemory.allocEvent
      split <;> rfl
    obtain ⟨-, h⟩ := Option.ite_none_right_eq_some.mp h
    cases h
    exact h2.trans h1
  case isFalse =>
    cases h
    rfl

/-- The request of an access event. -/
def DDRMemory.request (cfg : Config) (s : DDRMemory) (loc : AddrLoc) (write : Bool)
    (sysCycle : Nat) : Request :=
  ⟨s.numRequests, loc, write, 0, cfg.sysToMemCycle sysCycle, some s.numRequests⟩

/-- `enqueue` puts its request into the `overflowQueue`, or queues it. -/
theorem enqueue_spec {lineAddr : UInt64} {write : Bool} {sysCycle : Nat}
    (h : s.enqueue cfg lineAddr write sysCycle = some s') :
    ∃ loc, cfg.mapLineAddr lineAddr = some loc ∧
      (s.ctl.full cfg = true ∧ s'.ctl = { s.ctl with
          held := s.numRequests :: s.ctl.held
          overflowQueue := s.ctl.overflowQueue ++ [s.request cfg loc write sysCycle] } ∨
        s.ctl.full cfg = false ∧ ∃ req,
          { s.ctl with held := s.numRequests :: s.ctl.held }.queue cfg
            (s.request cfg loc write sysCycle) (cfg.sysToMemCycle sysCycle) =
              some (s'.ctl, req)) := by
  unfold DDRMemory.enqueue at h
  obtain ⟨loc, hloc, h⟩ := Option.bind_eq_some_iff.mp h
  refine ⟨loc, hloc, ?_⟩
  dsimp only at h
  split at h
  case isTrue hfull =>
    cases h
    exact .inl ⟨hfull, rfl⟩
  case isFalse hfull =>
    obtain ⟨⟨c1, req⟩, hqueue, h⟩ := Option.bind_eq_some_iff.mp h
    have hctl : c1 = s'.ctl := by
      dsimp only at h
      split at h
      · exact (wakeAt_ctl h).symm
      · cases h
        rfl
    exact .inr ⟨Bool.eq_false_of_not_eq_true hfull, req, hctl ▸ hqueue⟩

/-- `tick` schedules, and then looks at the `overflowQueue`. -/
theorem tick_ctl {sys next : Nat} (h : s.tick cfg sys = some (s', next)) :
    ∃ c next' next'', s.ctl.trySchedule cfg (cfg.sysToMemCycle sys) sys = some (c, next') ∧
      DDRMemory.takeOverflow cfg c next' (cfg.sysToMemCycle sys) = some (s'.ctl, next'') := by
  unfold DDRMemory.tick at h
  obtain ⟨-, h⟩ := Option.ite_none_right_eq_some.mp h
  obtain ⟨⟨c1, min1⟩, htry, h⟩ := Option.bind_eq_some_iff.mp h
  obtain ⟨-, h⟩ := Option.ite_none_right_eq_some.mp h
  obtain ⟨⟨c2, min2⟩, htake, heq⟩ := Option.map_eq_some_iff.mp h
  have hctl : c2 = s'.ctl := by
    dsimp only at heq
    split at heq <;> exact congrArg DDRMemory.ctl (Prod.mk.inj heq).1
  exact ⟨c1, min1, min2, htry, hctl ▸ htake⟩

/-- An event that fires ticks the controller, unless it was annulled. -/
theorem fire_ctl {ev : Nat} (h : s.fire cfg ev = some s') :
    ∃ startCycle, s.pending.lookup ev = some startCycle ∧
      (s.schedEvents ev = .QUEUED ∧ (∃ c next next',
          s.ctl.trySchedule cfg (cfg.sysToMemCycle startCycle) startCycle = some (c, next) ∧
          DDRMemory.takeOverflow cfg c next (cfg.sysToMemCycle startCycle) =
            some (s'.ctl, next')) ∨
        s.schedEvents ev ≠ .QUEUED ∧ s'.ctl = s.ctl) := by
  obtain ⟨startCycle, hlookup, h⟩ := Option.bind_eq_some_iff.mp h
  refine ⟨startCycle, hlookup, ?_⟩
  dsimp only at h
  split at h
  case isTrue hqueued =>
    obtain ⟨⟨s1, next⟩, htick, h⟩ := Option.bind_eq_some_iff.mp h
    have hctl : s1.ctl = s'.ctl := by
      dsimp only at h
      split at h
      · cases h
        rfl
      · exact (recycleEvent_ctl h).symm
    have hticked := tick_ctl htick
    rw [hctl] at hticked
    exact .inl ⟨hqueued, hticked⟩
  case isFalse hqueued =>
    obtain ⟨-, h⟩ := Option.ite_none_right_eq_some.mp h
    have hctl := recycleEvent_ctl h
    exact .inr ⟨hqueued, hctl⟩

theorem Timed.enqueue {lineAddr : UInt64} {write : Bool} {sysCycle : Nat}
    (h : Timed cfg log s.ctl) (hstep : s.enqueue cfg lineAddr write sysCycle = some s') :
    Timed cfg log s'.ctl := by
  obtain ⟨loc, hloc, ⟨-, hctl⟩ | ⟨-, req, hqueue⟩⟩ := enqueue_spec hstep
  · refine hctl ▸ h.same ⟨rfl, rfl, fun _ _ => rfl, fun hc r hr => ?_⟩
    obtain hr | hr | hr := Controller.mem_requests.mp hr
    · exact hc r (Controller.mem_requests.mpr (.inl hr))
    · exact hc r (Controller.mem_requests.mpr (.inr (.inl hr)))
    · obtain hr | hr := List.mem_append.mp hr
      · exact hc r (Controller.mem_requests.mpr (.inr (.inr hr)))
      · exact List.mem_singleton.mp hr ▸ Config.mapLineAddr_inRange hloc
  · have hheld : Timed cfg log { s.ctl with held := s.numRequests :: s.ctl.held } :=
      h.same ⟨rfl, rfl, fun _ _ => rfl, fun hc => hc⟩
    exact hheld.same (Controller.queue_same (Config.mapLineAddr_inRange hloc) hqueue)

theorem Timed.fire {ev : Nat} (h : Timed cfg log s.ctl) (hstep : s.fire cfg ev = some s') :
    Timed cfg (log ++ commands cfg (.fire ev) s) s'.ctl := by
  obtain ⟨startCycle, hlookup, hcases⟩ := fire_ctl hstep
  have hcommands : commands cfg (.fire ev) s = if s.schedEvents ev = .QUEUED then
      s.ctl.commands cfg (cfg.sysToMemCycle startCycle) else [] := by
    unfold commands
    dsimp only
    rw [hlookup, Option.elim_some]
  rw [hcommands]
  obtain ⟨hqueued, c, next, next', htry, htake⟩ | ⟨hqueued, hctl⟩ := hcases
  · have h1 := h.trySchedule htry
    rw [if_pos hqueued]
    exact h1.same (takeOverflow_same h1.inRange htake)
  · rw [if_neg hqueued, List.append_nil, hctl]
    exact h

theorem Timed.step (hv : cfg.Valid) {op : Op} (h : Timed cfg log s.ctl)
    (hstep : step cfg op s = some s') : Timed cfg (log ++ commands cfg op s) s'.ctl := by
  cases op with
  | enqueue lineAddr write sysCycle =>
    rw [commands, List.append_nil]
    exact h.enqueue hstep
  | fire ev => exact h.fire hstep
  | refresh =>
    cases hstep
    exact h.refresh hv _

theorem run_timed (hv : cfg.Valid) {ops : List Op} {s : DDRMemory}
    (hrun : run (Dram.step cfg) ops (.init cfg) = some s) :
    Timed cfg (commandsOf cfg ops) s.ctl :=
  @run_emits _ _ _ _ _ (fun log (s : DDRMemory) => Timed cfg log s.ctl)
    (fun _ _ _ _ h hstep => h.step hv hstep) ops [] _ _ (init_timed cfg) hrun

end

/-- In every run, the commands are as far apart as the device asks for; and a request that is ready
comes after the last command of its bank. -/
theorem commands_legal {args : Args} {cfg : Config} (h : args.config = some cfg) (ops : List Op)
    {s : DDRMemory} (hrun : run (step cfg) ops (.init cfg) = some s) :
    Legal cfg.timing (commandsOf cfg ops) ∧
      ∀ curCycle r, s.ctl.readyRequest cfg curCycle = some r →
        ∃ c, s.ctl.activate cfg r = some c ∧
          (c.bankOf r).lastCmdCycle < s.ctl.cmdCycle cfg r curCycle := by
  have hv := Args.valid h
  have htimed := run_timed hv hrun
  refine ⟨htimed.legal, fun curCycle r hready => ?_⟩
  obtain ⟨hmem, hmin⟩ := readyRequest_mem hready
  have hin := htimed.inRange r hmem
  have hlast := Controller.lastCmd_lt (htimed.banks r.loc.rank r.loc.bank hin).cmd hv.act_pos hmin
  obtain ⟨c, hact⟩ := Controller.activate_isSome cfg s.ctl r
  obtain ⟨b, hbanks, -, -, -, -, hcmd, -, -⟩ := Controller.activate_spec hact
  refine ⟨c, hact, ?_⟩
  have hbank : c.bankOf r = b := (hbanks _ _).trans (if_pos ⟨rfl, rfl⟩)
  rw [hbank, hcmd]
  exact hlast.trans_le Controller.le_cmdCycle

theorem commands_legal_run : ∃ cfg s, (exampleArgs 16).config = some cfg ∧
    run (step cfg) [.enqueue 64 false 0, .refresh, .fire 0, .enqueue 128 true 100, .fire 0]
      (.init cfg) = some s ∧ Legal cfg.timing (commandsOf cfg
        [.enqueue 64 false 0, .refresh, .fire 0, .enqueue 128 true 100, .fire 0]) := by
  obtain ⟨s, hrun, -⟩ := (DDRMemory.init_inv _).run_inv
    (@Args.works (exampleArgs 16) _ rfl ⟨by decide, by decide, by decide⟩)
    [.enqueue 64 false 0, .refresh, .fire 0, .enqueue 128 true 100, .fire 0] (by decide +kernel)
  exact ⟨_, s, rfl, hrun, (@commands_legal (exampleArgs 16) _ rfl _ _ hrun).1⟩

end Doppelganger.Dram
