import Doppelganger.Core.OooCore

/-! `Decoder` of `decoder.cpp`: the uops that the emit functions make of an instruction.  The
registers are those of Pin, whose numbers are a parameter.  An emit function is `none` when an
assertion fails or it reads a register that was not set. -/

namespace Doppelganger.Decoder

open Doppelganger.Core

/-- The registers of Pin that the decoder names: those from 1 to `REG_LAST` are registers of the
machine. -/
structure Regs where
  REG_LAST : ℕ
  REG_RFLAGS : ℕ
  REG_RAX : ℕ
  REG_RSI : ℕ
  REG_RDI : ℕ
  isFlagsReg : ℕ → Bool
  named : ∀ r, r = REG_RFLAGS ∨ r = REG_RAX ∨ r = REG_RSI ∨ r = REG_RDI → 0 < r ∧ r ≤ REG_LAST

/-- The base and index registers of a memory operand, which are 0 for none. -/
structure MemOp where
  baseReg : ℕ
  indexReg : ℕ
deriving DecidableEq, Repr

/-- An operand, and whether it is read and written. -/
inductive Operand
  | memory (op : MemOp) (read write : Bool)
  | reg (reg : ℕ) (read write : Bool)
  | other

/-- `Decoder::Instr` -/
structure Instr where
  loadOps : List MemOp
  inRegs : List ℕ
  outRegs : List ℕ
  storeOps : List MemOp
deriving DecidableEq, Repr

namespace Instr

def numLoads (i : Instr) : ℕ := i.loadOps.length
def numInRegs (i : Instr) : ℕ := i.inRegs.length
def numOutRegs (i : Instr) : ℕ := i.outRegs.length
def numStores (i : Instr) : ℕ := i.storeOps.length

/-- `srcs` and `dsts` of the emit functions. -/
def srcs (i : Instr) : ℕ := i.numLoads + i.numInRegs
def dsts (i : Instr) : ℕ := i.numStores + i.numOutRegs

/-- An operand is added to the lists that it belongs to. -/
def addOperand (i : Instr) : Operand → Instr
  | .memory op read write =>
    { i with
      loadOps := if read then i.loadOps ++ [op] else i.loadOps
      storeOps := if write then i.storeOps ++ [op] else i.storeOps }
  | .reg reg read write =>
    { i with
      inRegs := if read then i.inRegs ++ [reg] else i.inRegs
      outRegs := if write then i.outRegs ++ [reg] else i.outRegs }
  | .other => i

end Instr

/-- The loop of the bubble sort of `reorderRegs`, which has come to the register `a`. -/
def bubble (isFlagsReg : ℕ → Bool) : ℕ → List ℕ → List ℕ
  | a, [] => [a]
  | a, b :: rest =>
    if isFlagsReg a && !isFlagsReg b then b :: bubble isFlagsReg a rest
    else a :: bubble isFlagsReg b rest

theorem bubble_perm (isFlagsReg : ℕ → Bool) (a : ℕ) (l : List ℕ) :
    (bubble isFlagsReg a l).Perm (a :: l) := by
  fun_induction bubble isFlagsReg a l with
  | case1 a => exact .refl [a]
  | case2 a b rest _ ih => exact (ih.cons b).trans (.swap a b rest)
  | case3 a b rest _ ih => exact ih.cons a

/-- A pass of the bubble sort. -/
def sortPass (isFlagsReg : ℕ → Bool) : List ℕ → List ℕ
  | [] => []
  | a :: rest => bubble isFlagsReg a rest

/-- `reorderRegs`, for as many passes as there are registers. -/
def reorderRegs (isFlagsReg : ℕ → Bool) (l : List ℕ) : List ℕ :=
  (sortPass isFlagsReg)^[l.length] l

theorem reorderRegs_perm (isFlagsReg : ℕ → Bool) (l : List ℕ) :
    (reorderRegs isFlagsReg l).Perm l := by
  have hpass (l : List ℕ) : (sortPass isFlagsReg l).Perm l := by
    cases l with
    | nil => exact .refl []
    | cons a rest => exact bubble_perm isFlagsReg a rest
  unfold reorderRegs
  generalize l.length = n
  induction n with
  | zero => exact .refl l
  | succ n ih =>
    rw [Function.iterate_succ_apply']
    exact (hpass _).trans ih

/-- The constructor of `Instr`, where the operands have the full names of their registers. -/
def Instr.ofOperands (regs : Regs) (operands : List Operand) : Instr :=
  let i := operands.foldl Instr.addOperand ⟨[], [], [], []⟩
  { i with
    inRegs := reorderRegs regs.isFlagsReg i.inRegs
    outRegs := reorderRegs regs.isFlagsReg i.outRegs }

def PORT_0 : BitVec 8 := 0x1
def PORT_1 : BitVec 8 := 0x2
def PORT_2 : BitVec 8 := 0x4
def PORT_3 : BitVec 8 := 0x8
def PORT_4 : BitVec 8 := 0x10
def PORT_5 : BitVec 8 := 0x20
def PORTS_015 : BitVec 8 := PORT_0 ||| PORT_1 ||| PORT_5

/-! ### Uops -/

/-- The load of a memory operand. -/
def loadUop (op : MemOp) (destReg : ℕ) : DynUop :=
  ⟨op.baseReg, op.indexReg, destReg, 0, 0, 0, .LOAD, PORT_2, 0⟩

def emitFence (lat : ℕ) : DynUop := ⟨0, 0, 0, 0, lat, 0, .FENCE, PORT_4, 0⟩

def emitExecUop (rs0 rs1 rd0 rd1 lat : ℕ) (ports : BitVec 8) (extraSlots : ℕ) : DynUop :=
  ⟨rs0, rs1, rd0, rd1, lat, 0, .GENERAL, ports, extraSlots⟩

/-- The latency of a division. -/
def divLat : ℕ → Option ℕ
  | 8 => some 15
  | 16 => some 19
  | 32 => some 23
  | 64 => some 63
  | _ => none

/-- What the category and the opcode of an instruction select; `exec` is for those that emit fixed
uops (`NOP`, `CLD`, `STD`, `PAUSE`), and `none` for those that emit nothing. -/
inductive Template
  | basicMove (lat : ℕ) (ports : BitVec 8)
  | basicOp (lat : ℕ) (ports : BitVec 8) (extraSlots : ℕ)
  | chainedOp (first : ℕ × BitVec 8) (middle : List (ℕ × BitVec 8)) (last : ℕ × BitVec 8)
  | convert2Op (lat1 lat2 : ℕ) (ports1 ports2 : BitVec 8)
  | xchg (lockPrefix : Bool)
  | conditionalMove (lat : ℕ) (ports : BitVec 8)
  | compareAndExchange
  | mul
  | div (width : ℕ)
  | prefetch
  | stos
  | lods
  | movs
  | cmps
  | exec (uops : List DynUop)
  | none

namespace Regs

variable (regs : Regs)

/-! The temporary registers. -/

def REG_LOAD_TEMP : ℕ := regs.REG_LAST + 1
def REG_STORE_TEMP : ℕ := regs.REG_LOAD_TEMP + 4
def REG_STORE_ADDR_TEMP : ℕ := regs.REG_STORE_TEMP + 4
def REG_EXEC_TEMP : ℕ := regs.REG_STORE_ADDR_TEMP + 4

/-- `emitLoad`, with 0 for the temporary register of the load. -/
def emitLoad (i : Instr) (idx destReg : ℕ) : Option (List DynUop) :=
  i.loadOps[idx]?.map fun op =>
    [loadUop op (if destReg = 0 then regs.REG_LOAD_TEMP + idx else destReg)]

/-- The uop that computes the address of a store. -/
def storeAddrUop (idx : ℕ) (op : MemOp) : DynUop :=
  ⟨op.baseReg, op.indexReg, regs.REG_STORE_ADDR_TEMP + idx, 0, 1, 0, .STORE_ADDR, PORT_3, 0⟩

/-- The uop that stores `srcReg`. -/
def storeUop (idx srcReg : ℕ) : DynUop :=
  ⟨regs.REG_STORE_ADDR_TEMP + idx, srcReg, 0, 0, 0, 0, .STORE, PORT_4, 0⟩

def storeUops (idx : ℕ) (op : MemOp) (srcReg : ℕ) : List DynUop :=
  [regs.storeAddrUop idx op, regs.storeUop idx srcReg]

/-- `emitStore`, with 0 for the temporary register of the store. -/
def emitStore (i : Instr) (idx srcReg : ℕ) : Option (List DynUop) :=
  i.storeOps[idx]?.map fun op =>
    regs.storeUops idx op (if srcReg = 0 then regs.REG_STORE_TEMP + idx else srcReg)

def emitLoads (i : Instr) : List DynUop :=
  i.loadOps.zipIdx.map fun (op, idx) => loadUop op (regs.REG_LOAD_TEMP + idx)

def emitStores (i : Instr) : List DynUop :=
  i.storeOps.zipIdx.flatMap fun (op, idx) => regs.storeUops idx op (regs.REG_STORE_TEMP + idx)

/-- The sources and the destinations of `populateRegArrays`. -/
def srcRegs (i : Instr) : List ℕ :=
  (List.range i.numLoads).map (regs.REG_LOAD_TEMP + ·) ++ i.inRegs ++ [0, 0]

def dstRegs (i : Instr) : List ℕ :=
  (List.range i.numStores).map (regs.REG_STORE_TEMP + ·) ++ i.outRegs ++ [0, 0]

/-! ### The emit functions -/

def emitBasicMove (i : Instr) (lat : ℕ) (ports : BitVec 8) : Option (List DynUop) :=
  let inReg := if i.numInRegs = 1 then i.inRegs.headD 0 else 0
  match i.numLoads, i.numStores with
  | 0, 0 => i.outRegs.head?.map fun out => [emitExecUop inReg 0 out 0 lat ports 0]
  | _ + 1, 0 => i.outRegs.head?.bind fun out => regs.emitLoad i 0 out
  | 0, _ + 1 => regs.emitStore i 0 inReg
  | _ + 1, _ + 1 =>
    (regs.emitLoad i 0 0).bind fun load =>
      (regs.emitStore i 0 regs.REG_LOAD_TEMP).map fun store => load ++ store

def emitBasicOp (i : Instr) (lat : ℕ) (ports : BitVec 8) (extraSlots : ℕ) : List DynUop :=
  regs.emitLoads i ++
    [emitExecUop ((regs.srcRegs i).getD 0 0) ((regs.srcRegs i).getD 1 0)
      ((regs.dstRegs i).getD 0 0) ((regs.dstRegs i).getD 1 0) lat ports extraSlots] ++
    regs.emitStores i

/-- The uops of the chain in the middle, from index `k` on. -/
def chainMiddle (src : List ℕ) : ℕ → List (ℕ × BitVec 8) → List DynUop
  | _, [] => []
  | k, (lat, ports) :: rest =>
    emitExecUop regs.REG_EXEC_TEMP (src.getD (k + 1) 0) regs.REG_EXEC_TEMP 0 lat ports 0 ::
      chainMiddle src (k + 1) rest

/-- `emitChainedOp`, with the latencies and ports of the first, the middle and the last uop. -/
def emitChainedOp (i : Instr) (first : ℕ × BitVec 8) (middle : List (ℕ × BitVec 8))
    (last : ℕ × BitVec 8) : Option (List DynUop) :=
  let numUops := middle.length + 2
  let src := regs.srcRegs i
  let dst := regs.dstRegs i
  if numUops + 1 ≤ i.srcs + 2 then
    some (regs.emitLoads i ++
      (emitExecUop (src.getD 0 0) (src.getD 1 0) regs.REG_EXEC_TEMP 0 first.1 first.2 0 ::
        (regs.chainMiddle src 1 middle ++
          [emitExecUop regs.REG_EXEC_TEMP (src.getD (numUops - 1) 0) (dst.getD 0 0) (dst.getD 1 0)
            last.1 last.2 0])) ++ regs.emitStores i)
  else none

/-- `emitConvert2Op`, which emits nothing in the case that it reports. -/
def emitConvert2Op (i : Instr) (lat1 lat2 : ℕ) (ports1 ports2 : BitVec 8) :
    Option (List DynUop) :=
  if 0 < i.numStores ∨ 1 < i.numLoads ∨ i.numOutRegs ≠ 1 ∨ i.numLoads + i.numInRegs ≠ 1 then
    some []
  else
    let src := if i.numLoads ≠ 0 then regs.REG_LOAD_TEMP else i.inRegs.headD 0
    i.outRegs.head?.map fun dst => regs.emitLoads i ++
      [emitExecUop src 0 regs.REG_EXEC_TEMP 0 lat1 ports1 0,
        emitExecUop regs.REG_EXEC_TEMP 0 dst 0 lat2 ports2 0]

def emitXchg (i : Instr) (lockPrefix : Bool) : Option (List DynUop) :=
  let temp := regs.REG_EXEC_TEMP
  match i.inRegs, i.outRegs with
  | [a], [a'] =>
    if i.numLoads = 1 ∧ i.numStores = 1 ∧ a = a' then
      (regs.emitLoad i 0 0).bind fun load => (regs.emitStore i 0 temp).map fun store =>
        load ++ [emitExecUop a 0 temp 0 1 PORTS_015 0,
          emitExecUop regs.REG_LOAD_TEMP 0 a 0 1 PORTS_015 0] ++ store ++
          if lockPrefix then [] else [emitFence 14]
    else none
  | [a, b], [a', b'] =>
    if i.numLoads = 0 ∧ a = a' ∧ b = b' then
      some [emitExecUop a 0 temp 0 1 PORTS_015 0, emitExecUop b 0 a 0 1 PORTS_015 0,
        emitExecUop temp 0 b 0 1 PORTS_015 0]
    else none
  | _, _ => none

def emitConditionalMove (i : Instr) (lat : ℕ) (ports : BitVec 8) : Option (List DynUop) :=
  let temp := regs.REG_EXEC_TEMP
  if i.numStores ≠ 0 then none
  else match i.outRegs, i.loadOps, i.inRegs with
    | [_], [op], [flagsReg] =>
      -- the load depends on the comparison, which takes over its index register
      some [emitExecUop flagsReg op.indexReg temp 0 lat ports 0,
        { loadUop op regs.REG_LOAD_TEMP with rs1 := temp }]
    | [out], [], [a, flagsReg] =>
      some [emitExecUop flagsReg a temp 0 1 ports 0, emitExecUop out temp out 0 lat ports 0]
    | _, _, _ => none

def emitCompareAndExchange (i : Instr) : Option (List DynUop) :=
  let temp := regs.REG_EXEC_TEMP
  match regs.srcRegs i, regs.dstRegs i with
  | [src0, src1, src2, _, _], [dst0, rax, rflags, _, _] =>
    if src2 = rax then
      some (regs.emitLoads i ++ (if i.numLoads = 0 then
          [emitExecUop src0 rax temp rflags 1 PORTS_015 0,
            emitExecUop src1 rflags (temp + 1) 0 2 PORTS_015 0,
            emitExecUop src2 rflags (temp + 2) 0 2 PORTS_015 0,
            emitExecUop temp (temp + 1) dst0 0 2 PORTS_015 0,
            emitExecUop (temp + 1) (temp + 2) rax 0 2 PORTS_015 0]
        else
          [emitExecUop src0 rax temp rflags 2 PORTS_015 0,
            emitExecUop src1 rflags dst0 0 2 PORTS_015 0,
            emitExecUop src2 temp rax 0 2 PORTS_015 0]) ++ regs.emitStores i)
    else none
  | _, _ => none

def emitMul (i : Instr) : Option (List DynUop) :=
  let temp := regs.REG_EXEC_TEMP
  let src := regs.srcRegs i
  let dst := regs.dstRegs i
  if i.dsts = 3 then
    if i.srcs ≤ 2 then
      some (regs.emitLoads i ++
        [emitExecUop (src.getD 0 0) (src.getD 1 0) (dst.getD 0 0) temp 3 PORT_1 0,
          emitExecUop (src.getD 0 0) (src.getD 1 0) (dst.getD 1 0) (temp + 1) 3 PORT_1 0,
          emitExecUop temp (temp + 1) (dst.getD 2 0) 0 1 PORTS_015 0] ++ regs.emitStores i)
    else none
  else some (regs.emitBasicOp i 3 PORT_1 0)

/-- `emitDiv` with `INS_OperandWidth`; it emits nothing in the case that it reports. -/
def emitDiv (i : Instr) (width : ℕ) : Option (List DynUop) :=
  let temp := regs.REG_EXEC_TEMP
  let src := regs.srcRegs i
  let dst := regs.dstRegs i
  if 1 < i.numInRegs then
    (divLat width).map fun lat =>
      if i.srcs = 3 ∧ i.dsts = 3 then
        regs.emitLoads i ++
          [emitExecUop (src.getD 0 0) (src.getD 1 0) temp 0 lat PORTS_015 (lat - 1),
            emitExecUop (src.getD 0 0) (src.getD 2 0) (temp + 1) 0 lat PORTS_015 (lat - 1),
            emitExecUop temp (temp + 1) (dst.getD 0 0) (dst.getD 1 0) 1 PORTS_015 0,
            emitExecUop temp (temp + 1) (dst.getD 2 0) 0 1 PORTS_015 0] ++ regs.emitStores i
      else if i.srcs ≤ 2 ∧ i.dsts ≤ 2 then regs.emitBasicOp i lat PORTS_015 (lat - 1)
      else []
  else none

/-! ### An instruction -/

def emit (i : Instr) : Template → Option (List DynUop)
  | .basicMove lat ports => regs.emitBasicMove i lat ports
  | .basicOp lat ports extraSlots => some (regs.emitBasicOp i lat ports extraSlots)
  | .chainedOp first middle last => regs.emitChainedOp i first middle last
  | .convert2Op lat1 lat2 ports1 ports2 => regs.emitConvert2Op i lat1 lat2 ports1 ports2
  | .xchg lockPrefix => regs.emitXchg i lockPrefix
  | .conditionalMove lat ports => regs.emitConditionalMove i lat ports
  | .compareAndExchange => regs.emitCompareAndExchange i
  | .mul => regs.emitMul i
  | .div width => regs.emitDiv i width
  | .prefetch => some (regs.emitLoads i)
  | .stos =>
    (regs.emitStore i 0 regs.REG_RAX).map fun store =>
      store ++ [emitExecUop regs.REG_RDI 0 regs.REG_RDI 0 1 PORTS_015 0]
  | .lods =>
    (regs.emitLoad i 0 regs.REG_RAX).map fun load =>
      load ++ [emitExecUop regs.REG_RSI 0 regs.REG_RSI 0 1 PORTS_015 0]
  | .movs =>
    (regs.emitLoad i 0 regs.REG_RAX).bind fun load =>
      (regs.emitStore i 0 regs.REG_RAX).map fun store => load ++ store ++
        [emitExecUop regs.REG_RSI 0 regs.REG_RSI 0 1 PORTS_015 0,
          emitExecUop regs.REG_RDI 0 regs.REG_RDI 0 1 PORTS_015 0]
  | .cmps =>
    (regs.emitLoad i 0 regs.REG_LOAD_TEMP).bind fun load0 =>
      (regs.emitLoad i 0 (regs.REG_LOAD_TEMP + 1)).map fun load1 => load0 ++ load1 ++
        [emitExecUop regs.REG_LOAD_TEMP (regs.REG_LOAD_TEMP + 1) regs.REG_RFLAGS 0 1 PORT_5 0,
          emitExecUop regs.REG_RSI 0 regs.REG_RSI 0 1 PORTS_015 0,
          emitExecUop regs.REG_RDI 0 regs.REG_RDI 0 1 PORTS_015 0]
  | .exec uops => some uops
  | .none => some []

/-- `decodeInstr`, from the template on, and whether the instruction is an atomic update. -/
def decodeInstr (i : Instr) (isLocked : Bool) (t : Template) : Option (List DynUop) :=
  (regs.emit i t).bind fun uops =>
    let uops := (if isLocked then [emitFence 0] else []) ++ uops
    -- `Try to produce something approximate...`
    let uops := if uops.length = (if isLocked then 1 else 0) then
        uops ++ regs.emitBasicOp i 1 PORTS_015 0
      else uops
    let uops := uops ++ if isLocked then [emitFence 9] else []
    if uops.length < 12 then some uops else none

end Regs

/-- A machine with ten registers. -/
def tenRegs : Regs := ⟨10, 3, 4, 5, 6, (· = 3), by omega⟩

end Doppelganger.Decoder
