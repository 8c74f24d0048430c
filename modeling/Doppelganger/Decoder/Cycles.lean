import Doppelganger.Decoder.Emit
import Mathlib.Algebra.Group.Nat.Defs

/-! `decodeBbl` of `decoder.cpp`: the uops of a basic block, and the cycles at which the predecoder
and the decoders take its instructions.  The cycles follow the order of the program and fit 16 bits,
and the instructions of a cycle keep the 4-1-1-1 rules, but for what comes after a complex
instruction in the fifth place. -/

namespace Doppelganger.Decoder

open Doppelganger.Core

/-- An instruction of a basic block, with its address and length, whether it `canFuse` with the
next one, and whether its opcode is one of those that are approximated. -/
structure Ins where
  addr : ℕ
  bytes : ℕ
  instr : Instr
  isLocked : Bool
  template : Template
  canFuse : Bool
  inaccurate : Bool

namespace Regs

variable (regs : Regs)

/-- `decodeFusedInstrs`, with the program counter as a second result. -/
def decodeFusedInstrs (REG_RIP : ℕ) (i branch : Instr) : List DynUop :=
  regs.emitBasicOp
    (if i.outRegs = [regs.REG_RFLAGS] ∧ branch.outRegs = [REG_RIP] then
      { i with outRegs := i.outRegs ++ [REG_RIP] }
    else i) 1 PORT_5 0

/-- The loop over the instructions, with the uops that each of them adds.  The last instruction has
no other one to fuse with. -/
def decodeAll (REG_RIP : ℕ) : List Ins → Option (List (List DynUop))
  | [] => some []
  | [ins] => (regs.decodeInstr ins.instr ins.isLocked ins.template).map ([·])
  | ins :: next :: rest =>
    if ins.canFuse then
      (decodeAll REG_RIP rest).map fun uops =>
        regs.decodeFusedInstrs REG_RIP ins.instr next.instr :: [] :: uops
    else
      (regs.decodeInstr ins.instr ins.isLocked ins.template).bind fun uops =>
        (decodeAll REG_RIP (next :: rest)).map (uops :: ·)

/-- `approxInstrs` -/
def approxInstrs : List Ins → ℕ
  | [] => 0
  | ins :: rest =>
    let inaccurate := ins.inaccurate || (regs.emit ins.instr ins.template == some [])
    match rest with
    | [] => if inaccurate then 1 else 0
    | next :: rest =>
      if ins.canFuse then approxInstrs rest
      else (if inaccurate then 1 else 0) + approxInstrs (next :: rest)

end Regs

/-! ### Cycles -/

/-- `pcyc`, `psz`, `pcnt` and `pblk`. -/
structure Predecoder where
  pcyc : ℕ
  psz : ℕ
  pcnt : ℕ
  pblk : ℕ
deriving DecidableEq, Repr

/-- The predecoder takes an instruction, in a new cycle after 16 bytes, after 6 instructions and in
a new block of 16 bytes. -/
def Predecoder.take (startAddr : ℕ) (ins : Ins) (p : Predecoder) : Predecoder :=
  let block := (ins.addr - startAddr) / 16
  if 16 < p.psz + ins.bytes ∨ 6 < p.pcnt + 1 ∨ p.pblk < block then
    ⟨p.pcyc + 1, ins.bytes, 1, block⟩
  else { p with psz := p.psz + ins.bytes, pcnt := p.pcnt + 1 }

/-- `predecCycle` -/
def predecCycles (startAddr : ℕ) : List Ins → Predecoder → List ℕ
  | [], _ => []
  | ins :: rest, p =>
    (p.take startAddr ins).pcyc :: predecCycles startAddr rest (p.take startAddr ins)

/-- `dcyc`, `dsimple` and `dcomplex`. -/
structure Decoders where
  dcyc : ℕ
  dsimple : ℕ
  dcomplex : ℕ
deriving DecidableEq, Repr

/-- An instruction for the decoders: its `predecCycle`, whether it is `simple`, and its uops. -/
structure Slot where
  pcyc : ℕ
  simple : Bool
  uops : List DynUop
deriving DecidableEq, Repr

namespace Decoders

/-- The cycle starts, when the instruction has been predecoded. -/
def await (pcyc : ℕ) (d : Decoders) : Decoders := if d.dcyc < pcyc then ⟨pcyc, 0, 0⟩ else d

/-- `4-1-1-1 rules` -/
def room (simple : Bool) (d : Decoders) : Decoders :=
  if (simple ∧ d.dsimple + d.dcomplex = 4) ∨ (¬ simple ∧ d.dcomplex = 1) then ⟨d.dcyc + 1, 0, 0⟩
  else d

def count (simple : Bool) (d : Decoders) : Decoders :=
  if simple then { d with dsimple := d.dsimple + 1 } else { d with dcomplex := d.dcomplex + 1 }

/-- The decoders take an instruction. -/
def take (slot : Slot) (d : Decoders) : Decoders :=
  ((d.await slot.pcyc).room slot.simple).count slot.simple

end Decoders

/-- The cycles at which the decoders take the instructions. -/
def decCycles : List Slot → Decoders → List ℕ
  | [], _ => []
  | slot :: rest, d => (d.take slot).dcyc :: decCycles rest (d.take slot)

/-- The instructions that have uops, which leaves out the fused branches. -/
def slots (instrs : List Ins) (uops : List (List DynUop)) (predec : List ℕ) : List Slot :=
  ((instrs.zip uops).zip predec).filterMap fun ((ins, uops), pcyc) =>
    if uops.length = 0 then none
    else some ⟨pcyc, uops.length = 1 ∧ ins.bytes < 8, uops⟩

/-- The cycle of an instruction is that of its uops, in 16 bits. -/
def stamp (dcyc : ℕ) (uops : List DynUop) : List DynUop :=
  uops.map fun uop => { uop with decCycle := dcyc % 2 ^ 16 }

/-- The slots of a basic block. -/
def blockSlots (regs : Regs) (REG_RIP : ℕ) (instrs : List Ins) : Option (List Slot) :=
  (regs.decodeAll REG_RIP instrs).map fun uops =>
    slots instrs uops
      (predecCycles ((instrs.map Ins.addr).headD 0 / 16 * 16) instrs ⟨0, 0, 0, 0⟩)

/-- `decodeBbl`, for the out-of-order core. -/
def decodeBbl (regs : Regs) (REG_RIP : ℕ) (instrs : List Ins) : Option BblInfo :=
  (blockSlots regs REG_RIP instrs).map fun slots =>
    { instrs := instrs.length
      bytes := (instrs.map Ins.bytes).sum
      approxInstrs := regs.approxInstrs instrs
      uop := ((decCycles slots ⟨0, 0, 0⟩).zip slots).flatMap fun (dcyc, slot) =>
        stamp dcyc slot.uops }

/-! ### What a cycle takes -/

/-- What the decoders take in a cycle, where `true` is a simple instruction: at most one complex
instruction, and at most four in all.  After four simple ones, a complex one is taken all the same,
and then any number of simple ones. -/
def Decodable (kinds : List Bool) : Prop :=
  kinds.count false ≤ 1 ∧
    (kinds.length ≤ 4 ∨ ∃ m, kinds = [true, true, true, true, false] ++ List.replicate m true)

/-- The kinds of the instructions that are decoded in a cycle. -/
def kindsAt (cycle : ℕ) (slots : List Slot) (d : Decoders) : List Bool :=
  (((decCycles slots d).zip slots).filter fun s => s.1 = cycle).map fun s => s.2.simple

theorem Decodable.nil : Decodable [] := ⟨Nat.zero_le _, .inl (Nat.zero_le _)⟩

theorem Decodable.single (simple : Bool) : Decodable [simple] :=
  ⟨List.count_le_length, .inl (show 1 ≤ 4 by decide)⟩

theorem count_add_count (kinds : List Bool) :
    kinds.count true + kinds.count false = kinds.length := by
  induction kinds with
  | nil => rfl
  | cons k kinds ih =>
    cases k
    all_goals
      simp only [List.count_cons, List.length_cons, beq_self_eq_true, if_true, Bool.true_eq_false,
        beq_iff_eq, if_false, Bool.false_eq_true]
      omega

/-- A simple instruction goes where there are not four others. -/
theorem Decodable.concat_simple {kinds : List Bool} (h : Decodable kinds)
    (hne : kinds.length ≠ 4) : Decodable (kinds ++ [true]) := by
  refine ⟨by simpa using h.1, ?_⟩
  obtain hle | ⟨m, rfl⟩ := h.2
  · exact .inl (by rw [List.length_append, List.length_singleton]; omega)
  · exact .inr ⟨m + 1, by rw [List.append_assoc, List.replicate_succ']⟩

/-- A complex instruction goes where there is no other complex one. -/
theorem Decodable.concat_complex {kinds : List Bool} (h : Decodable kinds)
    (hne : kinds.count false ≠ 1) : Decodable (kinds ++ [false]) := by
  have hzero : kinds.count false = 0 := by
    have := h.1
    omega
  refine ⟨by rw [List.count_append, hzero]; decide, ?_⟩
  obtain hle | ⟨m, rfl⟩ := h.2
  · by_cases hlen : kinds.length = 4
    · refine .inr ⟨0, ?_⟩
      have hall : ∀ k ∈ kinds, k = true := by
        intro k hk
        by_contra hfalse
        rw [Bool.not_eq_true] at hfalse
        exact absurd (hfalse ▸ hk) (List.count_eq_zero.mp hzero)
      rw [List.eq_replicate_of_mem hall, hlen]
      rfl
    · exact .inl (by rw [List.length_append, List.length_singleton]; omega)
  · simp at hzero

namespace Decoders

variable {d : Decoders} {slot : Slot} {kinds : List Bool}

/-- The counters are those of the instructions of the cycle. -/
structure Counts (d : Decoders) (kinds : List Bool) : Prop where
  simple : d.dsimple = kinds.count true
  complex : d.dcomplex = kinds.count false
  decodable : Decodable kinds

theorem Counts.start (dcyc : ℕ) : Counts ⟨dcyc, 0, 0⟩ [] := ⟨rfl, rfl, .nil⟩

theorem Counts.count {simple : Bool} (h : d.Counts kinds)
    (hroom : ¬ ((simple ∧ d.dsimple + d.dcomplex = 4) ∨ (¬ simple ∧ d.dcomplex = 1))) :
    (d.count simple).Counts (kinds ++ [simple]) := by
  have hlen := count_add_count kinds
  rw [← h.simple, ← h.complex] at hlen
  cases simple with
  | true =>
    refine ⟨?_, ?_, h.decodable.concat_simple fun h4 => hroom (.inl ⟨rfl, hlen.trans h4⟩)⟩
    · rw [List.count_append, ← h.simple]
      rfl
    · rw [List.count_append, ← h.complex]
      rfl
  | false =>
    refine ⟨?_, ?_, h.decodable.concat_complex fun h1 =>
      hroom (.inr ⟨Bool.false_ne_true, h.complex.trans h1⟩)⟩
    · rw [List.count_append, ← h.simple]
      rfl
    · rw [List.count_append, ← h.complex]
      rfl

theorem room_start (dcyc : ℕ) (simple : Bool) :
    room simple ⟨dcyc, 0, 0⟩ = ⟨dcyc, 0, 0⟩ := if_neg (by simp)

theorem count_dcyc (simple : Bool) (d : Decoders) : (d.count simple).dcyc = d.dcyc := by
  cases simple
  all_goals rfl

/-- An instruction that has been predecoded is taken in the cycle, or in the next one. -/
theorem room_count (h : d.Counts kinds) (simple : Bool) :
    ((d.room simple).count simple).dcyc = d.dcyc ∧
        ((d.room simple).count simple).Counts (kinds ++ [simple]) ∨
      ((d.room simple).count simple).dcyc = d.dcyc + 1 ∧ kinds ≠ [] ∧
        ((d.room simple).count simple).Counts [simple] := by
  unfold room
  split
  case isTrue hfull =>
    refine .inr ⟨count_dcyc simple _, ?_, (Counts.start (d.dcyc + 1)).count (by simp)⟩
    rintro rfl
    rw [h.simple, h.complex] at hfull
    simp at hfull
  case isFalse hroom => exact .inl ⟨count_dcyc simple d, h.count hroom⟩

/-- An instruction is taken in the same cycle or in a later one. -/
theorem take_spec (h : d.Counts kinds) (slot : Slot) :
    (d.take slot).dcyc = d.dcyc ∧ (d.take slot).Counts (kinds ++ [slot.simple]) ∨
      d.dcyc < (d.take slot).dcyc ∧ (d.take slot).Counts [slot.simple] := by
  unfold take await
  split
  case isTrue hlt =>
    obtain ⟨hcycle, hcounts⟩ | ⟨-, hnil, -⟩ := room_count (.start slot.pcyc) slot.simple
    · rw [hcycle]
      exact .inr ⟨hlt, hcounts⟩
    · exact absurd rfl hnil
  case isFalse =>
    obtain ⟨hcycle, hcounts⟩ | ⟨hcycle, -, hcounts⟩ := room_count h slot.simple
    · exact .inl ⟨hcycle, hcounts⟩
    · rw [hcycle]
      exact .inr ⟨Nat.lt_succ_self _, hcounts⟩

/-- An instruction is taken when it has been predecoded, in the same cycle or in the next one. -/
theorem take_bounds (d : Decoders) (slot : Slot) : d.dcyc ≤ (d.take slot).dcyc ∧
    slot.pcyc ≤ (d.take slot).dcyc ∧ (d.take slot).dcyc ≤ max slot.pcyc (d.dcyc + 1) := by
  unfold take await
  rw [count_dcyc]
  split
  case isTrue hlt =>
    rw [room_start]
    exact ⟨hlt.le, le_rfl, Nat.le_max_left ..⟩
  case isFalse hle =>
    unfold room
    split
    case isTrue =>
      dsimp only
      omega
    case isFalse => omega

end Decoders

open Decoders

variable {d : Decoders} {kinds : List Bool}

theorem kindsAt_cons (cycle : ℕ) (slot : Slot) (rest : List Slot) (d : Decoders) :
    kindsAt cycle (slot :: rest) d = (if (d.take slot).dcyc = cycle then [slot.simple] else []) ++
      kindsAt cycle rest (d.take slot) := by
  simp only [kindsAt, decCycles, List.zip_cons_cons, List.filter_cons, decide_eq_true_eq]
  split
  all_goals rfl

/-- From a state on, the cycle of the state goes on with the instructions that are left, later
cycles start with them, and earlier ones are over. -/
theorem kindsAt_decodable (h : d.Counts kinds) (slots : List Slot) (cycle : ℕ) :
    Decodable ((if cycle = d.dcyc then kinds else []) ++ kindsAt cycle slots d) ∧
      (cycle < d.dcyc → kindsAt cycle slots d = []) := by
  induction slots generalizing d kinds with
  | nil =>
    refine ⟨?_, fun _ => rfl⟩
    change Decodable ((if cycle = d.dcyc then kinds else []) ++ [])
    rw [List.append_nil]
    split
    case isTrue => exact h.decodable
    case isFalse => exact .nil
  | cons slot rest ih =>
    rw [kindsAt_cons]
    obtain ⟨hcycle, hcounts⟩ | ⟨hlt, hcounts⟩ := take_spec h slot
    · obtain ⟨hdec, hpast⟩ := ih hcounts
      rw [hcycle] at hdec hpast ⊢
      refine ⟨?_, fun hlt => by rw [if_neg (by omega), hpast hlt]; rfl⟩
      by_cases hnow : cycle = d.dcyc
      · rw [if_pos hnow] at hdec ⊢
        rwa [if_pos hnow.symm, ← List.append_assoc]
      · rw [if_neg hnow] at hdec ⊢
        rwa [if_neg (Ne.symm hnow)]
    · obtain ⟨hdec, hpast⟩ := ih hcounts
      refine ⟨?_, fun hlt' => by rw [if_neg (by omega), hpast (by omega)]; rfl⟩
      by_cases hnow : cycle = d.dcyc
      · rw [if_pos hnow, if_neg (by omega), hpast (by omega), List.append_nil, List.append_nil]
        exact h.decodable
      · rw [if_neg hnow]
        by_cases hnext : cycle = (d.take slot).dcyc
        · rw [if_pos hnext] at hdec
          rwa [if_pos hnext.symm]
        · rw [if_neg hnext] at hdec
          rwa [if_neg (Ne.symm hnext)]

/-! ### The order of the cycles -/

theorem le_decCycles (slots : List Slot) (d : Decoders) :
    ∀ dcyc ∈ decCycles slots d, d.dcyc ≤ dcyc := by
  induction slots generalizing d with
  | nil => exact nofun
  | cons slot rest ih =>
    have hle := (take_bounds d slot).1
    exact List.forall_mem_cons.mpr ⟨hle, fun dcyc hdcyc => hle.trans (ih _ dcyc hdcyc)⟩

theorem decCycles_sorted (slots : List Slot) (d : Decoders) :
    (decCycles slots d).Pairwise (· ≤ ·) := by
  induction slots generalizing d with
  | nil => exact .nil
  | cons slot rest ih => exact .cons (le_decCycles rest _) (ih _)

theorem length_decCycles (slots : List Slot) (d : Decoders) :
    (decCycles slots d).length = slots.length := by
  induction slots generalizing d with
  | nil => rfl
  | cons slot rest ih => exact congrArg (· + 1) (ih _)

/-- No instruction is decoded before it has been predecoded. -/
theorem pcyc_le_decCycles (slots : List Slot) (d : Decoders) :
    ∀ s ∈ (decCycles slots d).zip slots, s.2.pcyc ≤ s.1 := by
  induction slots generalizing d with
  | nil => exact nofun
  | cons slot rest ih => exact List.forall_mem_cons.mpr ⟨(take_bounds d slot).2.1, ih _⟩

theorem pcyc_take_le (startAddr : ℕ) (ins : Ins) (p : Predecoder) :
    (p.take startAddr ins).pcyc ≤ p.pcyc + 1 := by
  unfold Predecoder.take
  dsimp only
  split
  all_goals dsimp only
  all_goals omega

theorem slots_cons (ins : Ins) (instrs : List Ins) (u : List DynUop) (uops : List (List DynUop))
    (pcyc : ℕ) (predec : List ℕ) : Decoder.slots (ins :: instrs) (u :: uops) (pcyc :: predec) =
      (if u.length = 0 then [] else [⟨pcyc, u.length = 1 ∧ ins.bytes < 8, u⟩]) ++
        Decoder.slots instrs uops predec := by
  simp only [Decoder.slots, List.zip_cons_cons, List.filterMap_cons]
  split
  case h_1 hnone =>
    split at hnone
    case isTrue hlen => rw [if_pos hlen, List.nil_append]
    case isFalse => exact nomatch hnone
  case h_2 slot hsome =>
    obtain ⟨hlen, hslot⟩ := Option.ite_none_left_eq_some.mp hsome
    rw [if_neg hlen, Option.some.inj hslot, List.singleton_append]

/-- Every instruction takes at most one cycle more. -/
theorem decCycles_le {startAddr n : ℕ} (instrs : List Ins) {uops : List (List DynUop)}
    {p : Predecoder} (hp : p.pcyc ≤ n) (hd : d.dcyc ≤ n) :
    ∀ dcyc ∈ decCycles (Decoder.slots instrs uops (predecCycles startAddr instrs p)) d,
      dcyc ≤ n + instrs.length := by
  induction instrs generalizing uops p d n with
  | nil => exact nofun
  | cons ins rest ih =>
    cases uops with
    | nil => exact nofun
    | cons u uops =>
      have hpcyc : (p.take startAddr ins).pcyc ≤ n + 1 := by
        have := pcyc_take_le startAddr ins p
        omega
      rw [predecCycles, slots_cons, List.length_cons, Nat.add_comm rest.length, ← Nat.add_assoc]
      split
      case isTrue => exact ih hpcyc (Nat.le_succ_of_le hd)
      case isFalse =>
        set slot : Slot := ⟨(p.take startAddr ins).pcyc, u.length = 1 ∧ ins.bytes < 8, u⟩
        have hdcyc : (d.take slot).dcyc ≤ n + 1 :=
          (take_bounds d slot).2.2.trans (max_le hpcyc (Nat.succ_le_succ hd))
        exact List.forall_mem_cons.mpr ⟨hdcyc.trans (Nat.le_add_right ..), ih hpcyc hdcyc⟩

/-! ### The basic block -/

/-- The uops of a basic block of fewer than `2 ^ 16` instructions are decoded in the order of the
program, at the cycles of their instructions, and in each cycle the decoders take at most one
complex instruction and at most four instructions, but for the ones after a complex instruction in
the fifth place. -/
theorem decodeBbl_cycles {regs : Regs} {REG_RIP : ℕ} {instrs : List Ins} {bbl : BblInfo}
    (h : decodeBbl regs REG_RIP instrs = some bbl) (hlen : instrs.length < 2 ^ 16) :
    (bbl.uop.map DynUop.decCycle).Pairwise (· ≤ ·) ∧
    ∃ slots, blockSlots regs REG_RIP instrs = some slots ∧
      bbl.uop.map DynUop.decCycle = ((decCycles slots ⟨0, 0, 0⟩).zip slots).flatMap
        (fun (dcyc, slot) => List.replicate slot.uops.length dcyc) ∧
      (∀ s ∈ (decCycles slots ⟨0, 0, 0⟩).zip slots, s.2.pcyc ≤ s.1) ∧
      ∀ cycle, Decodable (kindsAt cycle slots ⟨0, 0, 0⟩) := by
  obtain ⟨slots, hslots, rfl⟩ := Option.map_eq_some_iff.mp h
  have hsmall : ∀ dcyc ∈ decCycles slots ⟨0, 0, 0⟩, dcyc < 2 ^ 16 := by
    obtain ⟨uops, -, rfl⟩ := Option.map_eq_some_iff.mp hslots
    intro dcyc hdcyc
    have := decCycles_le (n := 0) instrs (Nat.zero_le 0) (Nat.zero_le 0) dcyc hdcyc
    omega
  have hcycles : (((decCycles slots ⟨0, 0, 0⟩).zip slots).flatMap fun (dcyc, slot) =>
      stamp dcyc slot.uops).map DynUop.decCycle =
        ((decCycles slots ⟨0, 0, 0⟩).zip slots).flatMap fun (dcyc, slot) =>
          List.replicate slot.uops.length dcyc := by
    rw [List.map_flatMap]
    refine List.flatMap_congr fun s hs => ?_
    change (stamp s.1 s.2.uops).map DynUop.decCycle = List.replicate s.2.uops.length s.1
    rw [stamp, List.map_map, ← List.map_const']
    exact List.map_congr_left fun _ _ => Nat.mod_eq_of_lt (hsmall s.1 (List.of_mem_zip hs).1)
  refine ⟨?_, slots, hslots, hcycles, pcyc_le_decCycles slots _, fun cycle => ?_⟩
  · have hsorted : ((decCycles slots ⟨0, 0, 0⟩).zip slots).Pairwise fun s s' => s.1 ≤ s'.1 := by
      refine List.Pairwise.of_map Prod.fst (fun _ _ => id) ?_
      rw [List.map_fst_zip (length_decCycles ..).le]
      exact decCycles_sorted ..
    dsimp only
    rw [hcycles, List.pairwise_flatMap]
    refine ⟨fun s _ => List.pairwise_replicate.mpr (.inr le_rfl), hsorted.imp fun hle => ?_⟩
    intro x hx y hy
    rw [List.eq_of_mem_replicate hx, List.eq_of_mem_replicate hy]
    exact hle
  · have h := (kindsAt_decodable (Counts.start 0) slots cycle).1
    rwa [ite_self] at h

/-- A `NOP`, and an addition to memory, of one byte each. -/
def nopIns (addr : ℕ) : Ins :=
  ⟨addr, 1, ⟨[], [], [], []⟩, false, .exec [emitExecUop 0 0 0 0 1 PORTS_015 0], false, false⟩

def addIns (addr : ℕ) : Ins :=
  ⟨addr, 1, ⟨[⟨1, 0⟩], [2], [3], [⟨1, 0⟩]⟩, false, .basicOp 1 PORTS_015 0, false, false⟩

/-- Six instructions in one cycle. -/
theorem decodeBbl_cycles_six : ∃ bbl slots,
    decodeBbl tenRegs 7 [nopIns 0, nopIns 1, nopIns 2, nopIns 3, addIns 4, nopIns 5] = some bbl ∧
    blockSlots tenRegs 7 [nopIns 0, nopIns 1, nopIns 2, nopIns 3, addIns 4, nopIns 5] =
      some slots ∧
    kindsAt 0 slots ⟨0, 0, 0⟩ = [true, true, true, true, false, true] ∧
    ∀ cycle, Decodable (kindsAt cycle slots ⟨0, 0, 0⟩) := by
  obtain ⟨slots, hslots, hkinds⟩ := Option.map_eq_some_iff.mp (show
    (blockSlots tenRegs 7 [nopIns 0, nopIns 1, nopIns 2, nopIns 3, addIns 4, nopIns 5]).map
      (kindsAt 0 · ⟨0, 0, 0⟩) = some [true, true, true, true, false, true] by decide)
  obtain ⟨bbl, hbbl⟩ : ∃ bbl,
      decodeBbl tenRegs 7 [nopIns 0, nopIns 1, nopIns 2, nopIns 3, addIns 4, nopIns 5] = some bbl :=
    ⟨_, Option.map_eq_some_iff.mpr ⟨slots, hslots, rfl⟩⟩
  obtain ⟨-, slots', hslots', -, -, hall⟩ := decodeBbl_cycles hbbl (by decide)
  obtain rfl := Option.some.inj (hslots.symm.trans hslots')
  exact ⟨bbl, slots, hbbl, hslots, hkinds, hall⟩

end Doppelganger.Decoder
