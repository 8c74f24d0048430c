import Doppelganger.Core.OooRuns
import Doppelganger.Decoder.Emit
import Doppelganger.Lib.Flow

/-! The dataflow of the uops of an instruction: its results wait for the operands that the emit
function of the instruction chains them with.  A memory operand stands for its base and index
registers. -/

namespace Doppelganger.Core

open Lib

/-- A uop waits for its sources and leaves a value in its destinations; 0 is no register. -/
instance : Operation DynUop ℕ where
  uses uop := [uop.rs0, uop.rs1].filter (· ≠ 0)
  defs uop := [uop.rd0, uop.rd1].filter (· ≠ 0)

theorem DynUop.mem_uses {uop : DynUop} {r : ℕ} :
    r ∈ uses uop ↔ (r = uop.rs0 ∨ r = uop.rs1) ∧ r ≠ 0 := by
  simp [uses]

theorem DynUop.mem_defs {uop : DynUop} {r : ℕ} :
    r ∈ defs uop ↔ (r = uop.rd0 ∨ r = uop.rd1) ∧ r ≠ 0 := by
  simp [defs]

theorem lastWriter_of_writes {e : Executed} {l : List Executed} {r : ℕ} (h : r ∈ defs e.uop) :
    lastWriter r (e :: l) = some e := by
  have := (DynUop.mem_defs.mp h).1
  exact List.find?_cons_of_pos (decide_eq_true (this.imp Eq.symm Eq.symm))

theorem lastWriter_of_not_writes {e : Executed} {l : List Executed} {r : ℕ} (hr : r ≠ 0)
    (h : r ∉ defs e.uop) : lastWriter r (e :: l) = lastWriter r l := by
  refine List.find?_cons_of_neg fun hw => h (DynUop.mem_defs.mpr ⟨?_, hr⟩)
  exact (of_decide_eq_true hw).imp Eq.symm Eq.symm

/-- The uop as it was emitted, before it was known when it is decoded. -/
def Executed.emitted (e : Executed) : DynUop := { e.uop with decCycle := 0 }

/-- A register waits for those that flow into it: the last uop that writes it ends after the one
that they are from, and that by its own latency. -/
theorem flows_wait {block l : List Executed} (h : Each Executed.Waits (block ++ l)) {x o : ℕ}
    (ho : o ≠ 0) (hflow : Flows (block.map Executed.emitted).reverse x o) {p : Executed}
    (hp : lastWriter x l = some p) : ∃ e, lastWriter o (block ++ l) = some e ∧
      (e = p ∨ p.commit + e.minLat ≤ e.commit) := by
  induction block generalizing o with
  | nil =>
    obtain rfl : x = o := hflow
    exact ⟨p, hp, .inl rfl⟩
  | cons e block ih =>
    obtain ⟨hwaits, hrest⟩ := h
    rw [List.map_cons, List.reverse_cons] at hflow
    obtain ⟨hw, r, hr, hflow⟩ | ⟨hkeep, hflow⟩ := flows_concat.mp hflow
    · obtain ⟨huses, hne⟩ := DynUop.mem_uses.mp hr
      obtain ⟨e', he', hle⟩ := ih hrest hne hflow
      have hready : e'.commit ≤ e.dispatch := hwaits.operands r hne huses e' he'
      have hlat : e.dispatch + e.minLat ≤ e.commit := hwaits.ordered.latency
      refine ⟨e, lastWriter_of_writes hw, .inr ?_⟩
      obtain rfl | hle := hle
      all_goals omega
    · obtain ⟨e', he', hle⟩ := ih hrest ho hflow
      exact ⟨e', (lastWriter_of_not_writes ho hkeep).trans he', hle⟩

end Doppelganger.Core

namespace Doppelganger.Decoder

open Doppelganger.Core Lib

/-- The register of an operand is one of the machine. -/
def Regs.Real (regs : Regs) (r : ℕ) : Prop := r ≠ 0 ∧ r ≤ regs.REG_LAST

instance (regs : Regs) (r : ℕ) : Decidable (regs.Real r) :=
  inferInstanceAs (Decidable (r ≠ 0 ∧ r ≤ regs.REG_LAST))

/-- The registers that an address is computed from. -/
def MemOp.regs (op : MemOp) : List ℕ := [op.baseReg, op.indexReg].filter (· ≠ 0)

/-- The sources of an instruction, each one by the registers that it comes from. -/
def Instr.sources (i : Instr) : List (List ℕ) := i.loadOps.map MemOp.regs ++ i.inRegs.map ([·])

/-- An instruction within the bounds of its arrays, and its operands. -/
structure Instr.Ok (i : Instr) (regs : Regs) : Prop where
  loads : i.numLoads ≤ 4
  stores : i.numStores ≤ 4
  sources : ∀ s ∈ i.sources, ∀ r ∈ s, regs.Real r
  outRegs : ∀ r ∈ i.outRegs, regs.Real r

/-- The registers of an operand are those of the machine. -/
def Operand.Real (regs : Regs) : Operand → Prop
  | .memory op _ _ => ∀ r ∈ op.regs, regs.Real r
  | .reg r _ _ => regs.Real r
  | .other => True

instance (regs : Regs) : (operand : Operand) → Decidable (operand.Real regs)
  | .memory op _ _ => inferInstanceAs (Decidable (∀ r ∈ op.regs, regs.Real r))
  | .reg r _ _ => inferInstanceAs (Decidable (regs.Real r))
  | .other => inferInstanceAs (Decidable True)

def Operand.isMemory : Operand → Bool
  | .memory .. => true
  | _ => false

/-- The constructor has gone over some operands, `n` of them in memory. -/
structure Instr.Read (i : Instr) (regs : Regs) (n : ℕ) : Prop where
  loads : i.numLoads ≤ n
  stores : i.numStores ≤ n
  loadOps : ∀ op ∈ i.loadOps, ∀ r ∈ op.regs, regs.Real r
  inRegs : ∀ r ∈ i.inRegs, regs.Real r
  outRegs : ∀ r ∈ i.outRegs, regs.Real r

theorem Instr.Read.addOperand {i : Instr} {regs : Regs} {n : ℕ} (h : i.Read regs n)
    {operand : Operand} (hreal : operand.Real regs) :
    (i.addOperand operand).Read regs (n + if operand.isMemory then 1 else 0) := by
  have hconcat {α : Type} {P : α → Prop} {l : List α} (hl : ∀ a ∈ l, P a) {a : α} (ha : P a)
      (b : Bool) : ∀ x ∈ if b then l ++ [a] else l, P x := by
    cases b with
    | true => exact List.forall_mem_append.mpr ⟨hl, List.forall_mem_singleton.mpr ha⟩
    | false => exact hl
  cases operand with
  | memory op read write =>
    constructor
    case loads =>
      cases read with
      | true => exact List.length_append.trans_le (Nat.succ_le_succ h.loads)
      | false => exact Nat.le_succ_of_le h.loads
    case stores =>
      cases write with
      | true => exact List.length_append.trans_le (Nat.succ_le_succ h.stores)
      | false => exact Nat.le_succ_of_le h.stores
    case loadOps =>
      exact hconcat (P := fun op : MemOp => ∀ r ∈ op.regs, regs.Real r) h.loadOps hreal read
    case inRegs => exact h.inRegs
    case outRegs => exact h.outRegs
  | reg reg read write =>
    exact ⟨h.loads, h.stores, h.loadOps, hconcat (P := regs.Real) h.inRegs hreal read,
      hconcat (P := regs.Real) h.outRegs hreal write⟩
  | other => exact h

theorem Instr.Read.addOperands {i : Instr} {regs : Regs} {n : ℕ} (h : i.Read regs n)
    {operands : List Operand} (hreal : ∀ operand ∈ operands, operand.Real regs) :
    (operands.foldl Instr.addOperand i).Read regs (n + operands.countP Operand.isMemory) := by
  induction operands generalizing i n with
  | nil => exact h
  | cons operand rest ih =>
    obtain ⟨hfirst, hrest⟩ := List.forall_mem_cons.mp hreal
    rw [List.countP_cons, Nat.add_comm (rest.countP _), ← Nat.add_assoc]
    exact ih (h.addOperand hfirst) hrest

/-- The constructor makes an instruction within its bounds of operands of which at most four are in
memory. -/
theorem Instr.ofOperands_ok {regs : Regs} {operands : List Operand}
    (hreal : ∀ operand ∈ operands, operand.Real regs)
    (hmemory : operands.countP Operand.isMemory ≤ 4) : (ofOperands regs operands).Ok regs := by
  have hstart : Instr.Read ⟨[], [], [], []⟩ regs 0 := ⟨le_rfl, le_rfl, nofun, nofun, nofun⟩
  have h := hstart.addOperands hreal
  rw [Nat.zero_add] at h
  constructor
  case loads => exact h.loads.trans hmemory
  case stores => exact h.stores.trans hmemory
  case sources =>
    intro s hs r hr
    rcases List.mem_append.mp hs with hs | hs
    · obtain ⟨op, hop, rfl⟩ := List.mem_map.mp hs
      exact h.loadOps op hop r hr
    · obtain ⟨reg, hreg, rfl⟩ := List.mem_map.mp hs
      obtain rfl := List.mem_singleton.mp hr
      exact h.inRegs r ((reorderRegs_perm ..).mem_iff.mp hreg)
  case outRegs => exact fun r hr => h.outRegs r ((reorderRegs_perm ..).mem_iff.mp hr)

namespace Regs

variable (regs : Regs)

/-- A register that no uop of a load or store writes. -/
structure Free (r : ℕ) : Prop where
  ne : r ≠ 0
  loads : r ≤ regs.REG_LAST ∨ regs.REG_LOAD_TEMP + 4 ≤ r
  stores : r < regs.REG_STORE_ADDR_TEMP ∨ regs.REG_STORE_ADDR_TEMP + 4 ≤ r

variable {regs} {i : Instr} {x o r : ℕ}

theorem Real.free (h : regs.Real r) : regs.Free r where
  ne := h.1
  loads := .inl h.2
  stores := .inl (by
    unfold REG_STORE_ADDR_TEMP REG_STORE_TEMP REG_LOAD_TEMP
    have := h.2
    omega)

/-! ### Loads and stores -/

theorem writes_load {ops : List MemOp} {n : ℕ} {uop : DynUop}
    (h : uop ∈ (ops.zipIdx n).map fun (op, idx) => loadUop op (regs.REG_LOAD_TEMP + idx))
    (hr : r ∈ defs uop) :
    regs.REG_LOAD_TEMP + n ≤ r ∧ r < regs.REG_LOAD_TEMP + n + ops.length := by
  obtain ⟨⟨op, idx⟩, hmem, rfl⟩ := List.mem_map.mp h
  obtain ⟨hw, hne⟩ := DynUop.mem_defs.mp hr
  have hlow : n ≤ idx := List.le_snd_of_mem_zipIdx hmem
  have hhigh : idx < ops.length + n := List.snd_lt_of_mem_zipIdx hmem
  change r = regs.REG_LOAD_TEMP + idx ∨ r = 0 at hw
  omega

theorem flows_loads_free (hloads : i.numLoads ≤ 4) (hr : regs.Free r) :
    Flows (regs.emitLoads i) x r ↔ x = r := by
  refine flows_unwritten fun uop huop hw => ?_
  obtain ⟨hlow, hhigh⟩ := writes_load huop hw
  change i.loadOps.length ≤ 4 at hloads
  have := hr.loads
  unfold REG_LOAD_TEMP at *
  omega

theorem flows_load (hok : i.Ok regs) {k : ℕ} {op : MemOp} (hop : i.loadOps[k]? = some op) :
    Flows (regs.emitLoads i) x (regs.REG_LOAD_TEMP + k) ↔ x ∈ op.regs := by
  obtain ⟨before, after, hsplit, rfl⟩ :
      ∃ before after, i.loadOps = before ++ op :: after ∧ before.length = k := by
    obtain ⟨hk, hget⟩ := List.getElem?_eq_some_iff.mp hop
    refine ⟨i.loadOps.take k, i.loadOps.drop (k + 1), ?_, List.length_take_of_le hk.le⟩
    rw [← hget, List.cons_getElem_drop_succ, List.take_append_drop]
  have hlen : before.length ≤ 4 := by
    have := hok.loads
    rw [Instr.numLoads, hsplit, List.length_append] at this
    omega
  have hreal : ∀ s ∈ op.regs, regs.Real s := by
    refine hok.sources op.regs (List.mem_append_left _ (List.mem_map_of_mem ?_))
    exact hsplit ▸ List.mem_append_right _ List.mem_cons_self
  have hwrites : regs.REG_LOAD_TEMP + before.length ∈
      defs (loadUop op (regs.REG_LOAD_TEMP + before.length)) :=
    DynUop.mem_defs.mpr ⟨.inl rfl, by unfold REG_LOAD_TEMP; omega⟩
  unfold emitLoads
  rw [hsplit, List.zipIdx_append, List.zipIdx_cons, List.map_append, List.map_cons, Nat.zero_add]
  refine (flows_last hwrites ?_).trans ?_
  case refine_2 =>
    have hkeep (s : ℕ) (hs : s ∈ op.regs) : Flows ((before.zipIdx).map fun (op, idx) =>
        loadUop op (regs.REG_LOAD_TEMP + idx)) x s ↔ x = s :=
      @flows_loads_free regs ⟨before, [], [], []⟩ _ _ hlen (Real.free (hreal s hs))
    constructor
    · rintro ⟨s, hs, hflow⟩
      exact (hkeep s hs).mp hflow ▸ hs
    · exact fun hx => ⟨x, hx, (hkeep x hx).mpr rfl⟩
  case refine_1 =>
    intro uop huop hw
    have := (writes_load huop hw).1
    omega

theorem reads_loads (hok : i.Ok regs) {j : ℕ} :
    x ∈ i.sources.getD j [] ↔ (regs.srcRegs i).getD j 0 ≠ 0 ∧
      Flows (regs.emitLoads i) x ((regs.srcRegs i).getD j 0) := by
  simp only [Instr.sources, srcRegs, Instr.numLoads, List.append_assoc, List.getD_eq_getElem?_getD]
  by_cases hload : j < i.loadOps.length
  · have hop : i.loadOps[j]? = some i.loadOps[j] := List.getElem?_eq_getElem hload
    rw [List.getElem?_append_left (by simpa using hload),
      List.getElem?_append_left (by simpa using hload)]
    simp only [List.getElem?_map, hop, Option.map_some, Option.getD_some,
      List.getElem?_range hload, flows_load hok hop]
    exact ⟨fun hx => ⟨by unfold REG_LOAD_TEMP; omega, hx⟩, And.right⟩
  · rw [List.getElem?_append_right (by simpa using hload),
      List.getElem?_append_right (by simpa using hload), List.length_map, List.length_map,
      List.length_range]
    by_cases hreg : j - i.loadOps.length < i.inRegs.length
    · have hin : i.inRegs[j - i.loadOps.length]? = some i.inRegs[j - i.loadOps.length] :=
        List.getElem?_eq_getElem hreg
      have hreal : regs.Real i.inRegs[j - i.loadOps.length] :=
        hok.sources _ (List.mem_append_right _ (List.mem_map_of_mem (List.getElem_mem hreg)))
          _ (List.mem_singleton_self _)
      rw [List.getElem?_append_left hreg]
      simp only [List.getElem?_map, hin, Option.map_some, Option.getD_some, List.mem_singleton,
        flows_loads_free hok.loads hreal.free]
      exact ⟨fun hx => ⟨hreal.1, hx⟩, And.right⟩
    · rw [List.getElem?_append_right (Nat.le_of_not_lt hreg),
        List.getElem?_eq_none (by simpa using hreg)]
      rcases j - i.loadOps.length - i.inRegs.length with _ | _ | n
      all_goals simp

theorem writes_storeUops {idx srcReg : ℕ} {op : MemOp} {uop : DynUop}
    (h : uop ∈ regs.storeUops idx op srcReg) (hr : r ∈ defs uop) :
    r = regs.REG_STORE_ADDR_TEMP + idx := by
  obtain ⟨hw, hne⟩ := DynUop.mem_defs.mp hr
  simp only [storeUops, List.mem_cons, List.not_mem_nil, or_false] at h
  obtain rfl | rfl := h
  · exact hw.resolve_right hne
  · exact absurd (hw.elim id id) hne

theorem writes_store {ops : List MemOp} {n : ℕ} {uop : DynUop}
    (h : uop ∈ (ops.zipIdx n).flatMap fun (op, idx) =>
      regs.storeUops idx op (regs.REG_STORE_TEMP + idx)) (hr : r ∈ defs uop) :
    regs.REG_STORE_ADDR_TEMP + n ≤ r ∧ r < regs.REG_STORE_ADDR_TEMP + n + ops.length := by
  obtain ⟨⟨op, idx⟩, hmem, huop⟩ := List.mem_flatMap.mp h
  have hlow : n ≤ idx := List.le_snd_of_mem_zipIdx hmem
  have hhigh : idx < ops.length + n := List.snd_lt_of_mem_zipIdx hmem
  have := writes_storeUops huop hr
  omega

theorem flows_stores_free (hstores : i.numStores ≤ 4) (hr : regs.Free r) :
    Flows (regs.emitStores i) x r ↔ x = r := by
  refine flows_unwritten fun uop huop hw => ?_
  obtain ⟨hlow, hhigh⟩ := writes_store huop hw
  change i.storeOps.length ≤ 4 at hstores
  have := hr.stores
  omega

end Regs

/-! ### Results -/

/-- A result of an instruction: a register, or what a store writes. -/
inductive Result
  | reg (r : ℕ)
  | store (k : ℕ)
deriving DecidableEq, Repr

/-- The uop that makes a result, between the ones before it and after it: the last one that writes
the register, or the `k`-th store. -/
def Result.MadeBy (before : List DynUop) (uop : DynUop) (after : List DynUop) : Result → Prop
  | .reg r => r ∈ defs uop ∧ ∀ v ∈ after, r ∉ defs v
  | .store k => uop.type = .STORE ∧ before.countP (fun v => v.type = .STORE) = k

/-- The uops make the result from the value that register `x` has before them. -/
def Reaches (l : List DynUop) (x : ℕ) (res : Result) : Prop :=
  ∃ before uop after, l = before ++ uop :: after ∧ res.MadeBy before uop after ∧
    ∃ r ∈ uses uop, Flows before x r

namespace Instr

def results (i : Instr) : List Result :=
  (List.range i.numStores).map .store ++ i.outRegs.map .reg

end Instr

section Reaches

variable {l l' : List DynUop} {x s r : ℕ} {res : Result}

theorem Reaches.flows (h : Reaches l x (.reg r)) : Flows l x r := by
  obtain ⟨before, uop, after, rfl, ⟨hw, hafter⟩, hread⟩ := h
  exact (flows_last hw hafter).mpr hread

/-- Uops that write no register and do not store can come first. -/
theorem Reaches.prepend (h : Reaches l x res) (hwrites : ∀ v ∈ l', defs v = [])
    (htype : ∀ v ∈ l', v.type ≠ .STORE) : Reaches (l' ++ l) x res := by
  obtain ⟨before, uop, after, rfl, hmade, r, hr, hflow⟩ := h
  have hkeep : Flows (l' ++ before) x r :=
    flows_append.mpr ⟨x, (flows_unwritten fun v hv => by simp [hwrites v hv]).mpr rfl, hflow⟩
  refine ⟨l' ++ before, uop, after, (List.append_assoc ..).symm, ?_, r, hr, hkeep⟩
  cases res with
  | reg r => exact hmade
  | store k =>
    refine ⟨hmade.1, ?_⟩
    rw [List.countP_append, List.countP_eq_zero.mpr fun v hv h => htype v hv (of_decide_eq_true h),
      Nat.zero_add, hmade.2]

/-- Uops that do not write the register change nothing. -/
theorem Reaches.append_reg (h : Reaches l x (.reg r)) (hkeep : ∀ v ∈ l', r ∉ defs v) :
    Reaches (l ++ l') x (.reg r) := by
  obtain ⟨before, uop, after, rfl, ⟨hw, hafter⟩, hread⟩ := h
  refine ⟨before, uop, after ++ l', by simp, ⟨hw, fun v hv => ?_⟩, hread⟩
  rcases List.mem_append.mp hv with hv | hv
  · exact hafter v hv
  · exact hkeep v hv

/-- Uops that write no register can come last. -/
theorem Reaches.append (h : Reaches l x res) (hwrites : ∀ v ∈ l', defs v = []) :
    Reaches (l ++ l') x res := by
  cases res with
  | reg r => exact h.append_reg fun v hv => hwrites v hv ▸ List.not_mem_nil
  | store k =>
    obtain ⟨before, uop, after, rfl, hmade, hread⟩ := h
    exact ⟨before, uop, after ++ l', by simp, hmade, hread⟩

end Reaches

namespace Regs

variable {regs : Regs} {i : Instr} {x s r j k : ℕ} {res : Result}

theorem type_of_mem_emitLoads {uop : DynUop} (h : uop ∈ regs.emitLoads i) : uop.type = .LOAD := by
  obtain ⟨_, -, rfl⟩ := List.mem_map.mp h
  rfl

/-- The `k`-th store among the uops of the stores. -/
theorem emitStores_split (regs : Regs) (hk : k < i.numStores) : ∃ op before after,
    regs.emitStores i = before ++ regs.storeUops k op (regs.REG_STORE_TEMP + k) ++ after ∧
      before.countP (fun v => v.type = .STORE) = k ∧
      ∀ uop ∈ before, ∀ r ∈ defs uop, regs.REG_STORE_ADDR_TEMP ≤ r := by
  have hk' : k < i.storeOps.length := hk
  refine ⟨i.storeOps[k], ((i.storeOps.take k).zipIdx).flatMap fun (op, idx) =>
    regs.storeUops idx op (regs.REG_STORE_TEMP + idx), ((i.storeOps.drop (k + 1)).zipIdx
      (k + 1)).flatMap fun (op, idx) => regs.storeUops idx op (regs.REG_STORE_TEMP + idx),
    ?_, ?_, ?_⟩
  · have hsplit : i.storeOps = i.storeOps.take k ++ i.storeOps[k] :: i.storeOps.drop (k + 1) := by
      rw [List.cons_getElem_drop_succ, List.take_append_drop]
    unfold emitStores
    conv_lhs => rw [hsplit]
    rw [List.zipIdx_append, List.zipIdx_cons, List.flatMap_append, List.flatMap_cons,
      List.length_take_of_le hk'.le, Nat.zero_add, List.append_assoc]
  · have hcount (ops : List MemOp) (n : ℕ) : ((ops.zipIdx n).flatMap fun (op, idx) =>
        regs.storeUops idx op (regs.REG_STORE_TEMP + idx)).countP (fun v => v.type = .STORE) =
          ops.length := by
      induction ops generalizing n with
      | nil => rfl
      | cons op ops ih =>
        rw [List.zipIdx_cons, List.flatMap_cons, List.countP_append, ih (n + 1), List.length_cons,
          Nat.add_comm]
        rfl
    rw [hcount, List.length_take_of_le hk'.le]
  · intro uop huop r hr
    exact (Nat.le_add_right ..).trans (writes_store huop hr).1

/-- The destination of a result: the temporary register of a store, or the register itself. -/
theorem dst_cases (hok : i.Ok regs) (hres : i.results[k]? = some res) :
    k < i.numStores ∧ res = .store k ∧ (regs.dstRegs i).getD k 0 = regs.REG_STORE_TEMP + k ∨
      ∃ r, res = .reg r ∧ (regs.dstRegs i).getD k 0 = r ∧ regs.Real r := by
  simp only [dstRegs, List.append_assoc, List.getD_eq_getElem?_getD]
  rw [Instr.results] at hres
  by_cases hk : k < i.numStores
  · rw [List.getElem?_append_left (by simpa using hk), List.getElem?_map,
      List.getElem?_range hk] at *
    exact .inl ⟨hk, (Option.some.inj hres).symm, rfl⟩
  · rw [List.getElem?_append_right (by simpa using hk)] at *
    simp only [List.length_map, List.length_range, List.getElem?_map] at *
    obtain ⟨r, hr, rfl⟩ := Option.map_eq_some_iff.mp hres
    obtain ⟨hlt, hget⟩ := List.getElem?_eq_some_iff.mp hr
    refine .inr ⟨r, rfl, ?_, hok.outRegs r (hget ▸ List.getElem_mem hlt)⟩
    rw [List.getElem?_append_left hlt, hr, Option.getD_some]

/-- What goes into the destination register of a result, before the stores, goes into the
result. -/
theorem reaches_result (hok : i.Ok regs) {E : List DynUop} (hE : ∀ uop ∈ E, uop.type ≠ .STORE)
    (hres : i.results[k]? = some res) (hload : Flows (regs.emitLoads i) x s)
    (h : Reaches E s (.reg ((regs.dstRegs i).getD k 0))) :
    Reaches (regs.emitLoads i ++ E ++ regs.emitStores i) x res := by
  obtain ⟨hk, rfl, hdst⟩ | ⟨r, rfl, hdst, hreal⟩ := dst_cases hok hres
  case inl =>
    obtain ⟨op, before, after, hstores, hcount, hbefore⟩ := emitStores_split regs hk
    have hstore : regs.REG_STORE_TEMP + k < regs.REG_STORE_ADDR_TEMP := by
      have := hok.stores
      unfold REG_STORE_ADDR_TEMP
      omega
    refine ⟨regs.emitLoads i ++ E ++ before ++ [regs.storeAddrUop k op],
      regs.storeUop k (regs.REG_STORE_TEMP + k), after, ?_, ⟨rfl, ?_⟩, regs.REG_STORE_TEMP + k,
      ?_, ?_⟩
    · rw [hstores]
      simp [storeUops]
    · have hnone (l : List DynUop) (hl : ∀ uop ∈ l, uop.type ≠ .STORE) :
          l.countP (fun v => v.type = .STORE) = 0 :=
        List.countP_eq_zero.mpr fun v hv h => hl v hv (of_decide_eq_true h)
      rw [List.countP_append, List.countP_append, List.countP_append, hnone E hE, hcount,
        hnone (regs.emitLoads i) fun v hv => by rw [type_of_mem_emitLoads hv]; nofun]
      simp [storeAddrUop]
    · exact DynUop.mem_uses.mpr ⟨.inr rfl, by unfold REG_STORE_TEMP REG_LOAD_TEMP; omega⟩
    · rw [List.append_assoc]
      refine flows_append.mpr ⟨regs.REG_STORE_TEMP + k,
        flows_append.mpr ⟨s, hload, hdst ▸ h.flows⟩,
        (flows_unwritten fun uop huop hw => ?_).mpr rfl⟩
      rcases List.mem_append.mp huop with huop | huop
      · have := hbefore uop huop _ hw
        omega
      · obtain rfl := List.mem_singleton.mp huop
        obtain ⟨haddr, hne⟩ := DynUop.mem_defs.mp hw
        change _ = regs.REG_STORE_ADDR_TEMP + k ∨ _ = 0 at haddr
        omega
  case inr =>
    rw [hdst] at h
    obtain ⟨before, uop, after, rfl, ⟨hw, hafter⟩, r', hr', hflow⟩ := h
    refine ⟨regs.emitLoads i ++ before, uop, after ++ regs.emitStores i, by simp, ⟨hw, ?_⟩, r', hr',
      flows_append.mpr ⟨s, hload, hflow⟩⟩
    intro v hv hwrites
    rcases List.mem_append.mp hv with hv | hv
    · exact hafter v hv hwrites
    · obtain ⟨hlow, hhigh⟩ := writes_store hv hwrites
      have := hreal.free.stores
      have : i.storeOps.length ≤ 4 := hok.stores
      omega

end Regs

end Doppelganger.Decoder
