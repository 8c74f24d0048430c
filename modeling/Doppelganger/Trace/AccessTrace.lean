import Doppelganger.Types
import Mathlib.Algebra.Group.Nat.Defs
import Mathlib.Data.List.Basic
import Mathlib.Tactic.Common

/-! Access traces, of `access_tracing.h` and `access_tracing.cpp`.  The writer and the reader each
have a buffer of one chunk; between them is a file whose packet table is a list of records that
grows at its end.  An operation is `none` when it panics, fails an assertion or leaves a buffer. -/

namespace Doppelganger.Trace

open List

structure AccessRecord where
  lineAddr : Address
  reqCycle : UInt64
  latency : UInt32
  childId : UInt32
  type : AccessType
deriving DecidableEq, Repr

structure PackedAccessRecord where
  lineAddr : UInt64
  reqCycle : UInt64
  latency : UInt32
  childId : UInt16
  type : UInt16
deriving DecidableEq, Repr

/-- The value of an `AccessType` in its enumeration. -/
def typeValue : AccessType → UInt16
  | .GETS => 0
  | .GETX => 1
  | .PUTS => 2
  | .PUTX => 3

/-- The cast to `AccessType`, which is one of its values or none. -/
def typeOfValue (type : UInt16) : Option AccessType :=
  if type = 0 then some .GETS
  else if type = 1 then some .GETX
  else if type = 2 then some .PUTS
  else if type = 3 then some .PUTX
  else none

/-- The record that `write` stores. -/
def AccessRecord.pack (acc : AccessRecord) : PackedAccessRecord :=
  ⟨acc.lineAddr, acc.reqCycle, acc.latency, acc.childId.toUInt16, typeValue acc.type⟩

/-- The record that `read` returns. -/
def PackedAccessRecord.unpack (pr : PackedAccessRecord) : Option AccessRecord :=
  (typeOfValue pr.type).map fun type =>
    ⟨pr.lineAddr, pr.reqCycle, pr.latency, pr.childId.toUInt32, type⟩

/-- `PT_CHUNKSIZE`, in records. -/
def ptChunkSize : Nat := 1024 * 256

/-- A trace file: the packet table `accs` and the two attributes. -/
structure TraceFile where
  accs : List PackedAccessRecord
  numChildren : UInt32
  finished : Bool

/-- `H5PTappend` of the first `n` records of `buf`. -/
def TraceFile.append (n : Nat) (buf : List PackedAccessRecord) (file : TraceFile) :
    Option TraceFile :=
  if n ≤ buf.length then some { file with accs := file.accs ++ buf.take n } else none

/-- `H5PTread_packets`: the buffer after `n` records from `start` on are read to its front. -/
def TraceFile.readPackets (start n : Nat) (buf : List PackedAccessRecord) (file : TraceFile) :
    Option (List PackedAccessRecord) :=
  if start + n ≤ file.accs.length ∧ n ≤ buf.length then
    some ((file.accs.drop start).take n ++ buf.drop n)
  else none

/-- A record as `gm_calloc` leaves it. -/
def zeroRecord : PackedAccessRecord := ⟨0, 0, 0, 0, 0⟩

/-! ### The writer -/

structure AccessTraceWriter where
  buf : List PackedAccessRecord
  cur : Nat
  max : Nat
  file : TraceFile

namespace AccessTraceWriter

def init (numChildren : UInt32) : AccessTraceWriter :=
  ⟨replicate ptChunkSize zeroRecord, 0, ptChunkSize, ⟨[], numChildren, false⟩⟩

def dump (cont : Bool) (tw : AccessTraceWriter) : Option AccessTraceWriter :=
  (tw.file.append tw.cur tw.buf).map fun file =>
    if cont then { tw with cur := 0, file := file }
    else ⟨[], 0, 0, { file with finished := true }⟩

def write (acc : AccessRecord) (tw : AccessTraceWriter) : Option AccessTraceWriter :=
  if tw.cur < tw.buf.length then
    let tw := { tw with buf := tw.buf.set tw.cur acc.pack, cur := tw.cur + 1 }
    if tw.cur = tw.max then
      (tw.dump true).bind fun tw => if tw.cur < tw.max then some tw else none
    else some tw
  else none

/-- All records are written, and then dumped. -/
def writeAll : List AccessRecord → AccessTraceWriter → Option AccessTraceWriter
  | [], tw => tw.dump false
  | acc :: accs, tw => (tw.write acc).bind (writeAll accs)

end AccessTraceWriter

/-! ### The reader -/

structure AccessTraceReader where
  buf : List PackedAccessRecord
  cur : Nat
  max : Nat
  curFrameRecord : Nat
  numRecords : Nat
  numChildren : UInt32
  file : TraceFile

namespace AccessTraceReader

def init (file : TraceFile) : Option AccessTraceReader :=
  if file.finished then
    let numRecords := file.accs.length
    let max := min ptChunkSize numRecords
    (file.readPackets 0 max (replicate max zeroRecord)).map fun buf =>
      ⟨buf, 0, max, 0, numRecords, file.numChildren, file⟩
  else none

def empty (tr : AccessTraceReader) : Bool := tr.cur == tr.max

def nextChunk (tr : AccessTraceReader) : Option AccessTraceReader :=
  if tr.cur = tr.max then
    let curFrameRecord := tr.curFrameRecord + tr.max
    if curFrameRecord < tr.numRecords then
      let max := min ptChunkSize (tr.numRecords - curFrameRecord)
      (tr.file.readPackets curFrameRecord max tr.buf).map fun buf =>
        { tr with buf := buf, cur := 0, max := max, curFrameRecord := curFrameRecord }
    else if curFrameRecord = tr.numRecords then
      some { tr with curFrameRecord := curFrameRecord }
    else none
  else none

def read (tr : AccessTraceReader) : Option (AccessRecord × AccessTraceReader) :=
  if tr.cur < tr.max then
    tr.buf[tr.cur]?.bind fun pr =>
      let tr := { tr with cur := tr.cur + 1 }
      pr.unpack.bind fun rec =>
        (if tr.cur = tr.max then tr.nextChunk else some tr).map fun tr => (rec, tr)
  else none

/-- `n` calls of `read`. -/
def readMany : Nat → AccessTraceReader → Option (List AccessRecord × AccessTraceReader)
  | 0, tr => some ([], tr)
  | n + 1, tr => tr.read.bind fun (rec, tr) =>
    (readMany n tr).map fun (recs, tr) => (rec :: recs, tr)

end AccessTraceReader

/-! ### Records -/

theorem typeOfValue_typeValue (type : AccessType) : typeOfValue (typeValue type) = some type := by
  cases type <;> decide

/-- A record whose `childId` fits in 16 bits is read as it was written. -/
theorem unpack_pack {acc : AccessRecord} (h : acc.childId.toNat < 2 ^ 16) :
    acc.pack.unpack = some acc := by
  have hchild : acc.childId.toUInt16.toUInt32 = acc.childId := by
    apply UInt32.toNat_inj.mp
    simp
    omega
  simp [AccessRecord.pack, PackedAccessRecord.unpack, typeOfValue_typeValue, hchild]

theorem ptChunkSize_pos : 0 < ptChunkSize := by decide

/-! ### What was written -/

/-- The writer between two calls: the records written are in the file and at the front of the
buffer. -/
structure AccessTraceWriter.Wrote (numChildren : UInt32) (accs : List AccessRecord)
    (tw : AccessTraceWriter) : Prop where
  length : tw.buf.length = ptChunkSize
  max : tw.max = ptChunkSize
  cur : tw.cur < ptChunkSize
  numChildren : tw.file.numChildren = numChildren
  finished : tw.file.finished = false
  accs : tw.file.accs ++ tw.buf.take tw.cur = accs.map AccessRecord.pack

namespace AccessTraceWriter

variable {numChildren : UInt32} {accs : List AccessRecord} {tw : AccessTraceWriter}

theorem init_wrote : Wrote numChildren [] (init numChildren) where
  length := length_replicate
  max := rfl
  cur := ptChunkSize_pos
  numChildren := rfl
  finished := rfl
  accs := rfl

theorem Wrote.write (h : Wrote numChildren accs tw) (acc : AccessRecord) :
    ∃ tw', tw.write acc = some tw' ∧ Wrote numChildren (accs ++ [acc]) tw' := by
  have hlength := h.length
  have hcur := h.cur
  have hmax := h.max
  have hbuf : (tw.buf.set tw.cur acc.pack).take (tw.cur + 1) =
      tw.buf.take tw.cur ++ [acc.pack] := by
    rw [take_add_one, take_set_of_le (Nat.le_refl _), getElem?_set_self (by omega)]
    rfl
  have haccs : tw.file.accs ++ (tw.buf.set tw.cur acc.pack).take (tw.cur + 1) =
      (accs ++ [acc]).map AccessRecord.pack := by
    rw [hbuf, ← append_assoc, h.accs, map_append]
    rfl
  unfold AccessTraceWriter.write
  rw [if_pos (by omega)]
  by_cases hfull : tw.cur + 1 = tw.max
  · -- The buffer is full and goes to the file.
    refine ⟨⟨tw.buf.set tw.cur acc.pack, 0, tw.max, { tw.file with
      accs := (accs ++ [acc]).map AccessRecord.pack }⟩, ?_, ?_⟩
    · have hpos := ptChunkSize_pos
      have hle : tw.cur + 1 ≤ (tw.buf.set tw.cur acc.pack).length := by
        rw [length_set]
        omega
      simp only [hfull, if_true, dump, TraceFile.append, ← haccs, if_pos (hfull ▸ hle),
        Option.map_some, Option.bind_some]
      rw [if_pos (by omega)]
    · refine ⟨by simpa using hlength, hmax, ptChunkSize_pos, h.numChildren, h.finished, ?_⟩
      simp
  · refine ⟨_, if_neg hfull, ?_, hmax, ?_, h.numChildren, h.finished, haccs⟩
    · simpa using hlength
    · simp only
      omega

theorem Wrote.writeAll (h : Wrote numChildren accs tw) (accs' : List AccessRecord) :
    ∃ tw', writeAll accs' tw = some tw' ∧
      tw'.file = ⟨(accs ++ accs').map AccessRecord.pack, numChildren, true⟩ := by
  induction accs' generalizing accs tw with
  | nil =>
    have hle : tw.cur ≤ tw.buf.length := by
      rw [h.length]
      exact Nat.le_of_lt h.cur
    refine ⟨_, by rw [AccessTraceWriter.writeAll, dump, TraceFile.append, if_pos hle]; rfl, ?_⟩
    simp [h.accs, h.numChildren]
  | cons acc accs' ih =>
    obtain ⟨tw1, h1, hwrote⟩ := h.write acc
    obtain ⟨tw', h2, hfile⟩ := ih hwrote
    refine ⟨tw', by rw [AccessTraceWriter.writeAll, h1]; exact h2, ?_⟩
    rw [hfile, append_assoc]
    rfl

end AccessTraceWriter

/-! ### What is read -/

/-- The reader after `n` reads: it is at its end, or record `n` is in the buffer. -/
structure AccessTraceReader.ReadsAt (file : TraceFile) (n : Nat) (tr : AccessTraceReader) : Prop
    where
  source : tr.file = file
  numRecords : tr.numRecords = file.accs.length
  length : tr.buf.length = min ptChunkSize file.accs.length
  position : tr.cur = tr.max ∧ n = file.accs.length ∨ tr.cur < tr.max ∧
    n = tr.curFrameRecord + tr.cur ∧
    tr.max = min ptChunkSize (file.accs.length - tr.curFrameRecord) ∧
    ∀ i < tr.max, tr.buf[i]? = file.accs[tr.curFrameRecord + i]?

namespace AccessTraceReader

variable {file : TraceFile} {n : Nat} {tr : AccessTraceReader}

theorem ReadsAt.empty_iff (h : ReadsAt file n tr) : tr.empty = true ↔ n = file.accs.length := by
  rw [empty, beq_iff_eq]
  rcases h.position with ⟨hcur, hn⟩ | ⟨hcur, hn, hmax, -⟩
  · exact iff_of_true hcur hn
  · constructor <;> intro heq <;> omega

/-- A chunk that is read from the file starts with its first record. -/
theorem readPackets_spec {start max : Nat} {buf : List PackedAccessRecord}
    (hlen : start + max ≤ file.accs.length) (hbuf : max ≤ buf.length) :
    ∃ buf', file.readPackets start max buf = some buf' ∧ buf'.length = buf.length ∧
      ∀ i < max, buf'[i]? = file.accs[start + i]? := by
  refine ⟨_, if_pos ⟨hlen, hbuf⟩, ?_, fun i hi => ?_⟩
  · simp only [length_append, length_take, length_drop]
    omega
  · rw [getElem?_append_left (by simp; omega), getElem?_take_of_lt hi, getElem?_drop]

theorem init_readsAt (hfinished : file.finished = true) : ∃ tr, init file = some tr ∧
    ReadsAt file 0 tr ∧ tr.numChildren = file.numChildren := by
  obtain ⟨buf, hread, hlength, hbuf⟩ := @readPackets_spec file 0 (min ptChunkSize file.accs.length)
    (replicate (min ptChunkSize file.accs.length) zeroRecord) (by omega) (by simp)
  have hpos := ptChunkSize_pos
  refine ⟨⟨buf, 0, min ptChunkSize file.accs.length, 0, file.accs.length, file.numChildren, file⟩,
    ?_, ⟨rfl, rfl, ?_, ?_⟩, rfl⟩
  · simp only [init, hfinished, if_true, hread, Option.map_some]
  · rw [hlength, length_replicate]
  · by_cases hempty : file.accs.length = 0
    · exact .inl ⟨by simp [hempty], hempty.symm⟩
    · refine .inr ⟨?_, rfl, rfl, hbuf⟩
      simp only
      omega

/-- `nextChunk` after the last record of a chunk. -/
theorem nextChunk_spec (hsource : tr.file = file) (hnum : tr.numRecords = file.accs.length)
    (hlength : tr.buf.length = min ptChunkSize file.accs.length) (hcur : tr.cur = tr.max)
    (hpos : 0 < tr.max) (hmax : tr.max = min ptChunkSize (file.accs.length - tr.curFrameRecord)) :
    ∃ tr', tr.nextChunk = some tr' ∧ ReadsAt file (tr.curFrameRecord + tr.max) tr' := by
  unfold nextChunk
  rw [if_pos hcur]
  by_cases hmore : tr.curFrameRecord + tr.max < tr.numRecords
  · obtain ⟨buf, hread, hlen, hbuf⟩ := @readPackets_spec tr.file (tr.curFrameRecord + tr.max)
      (min ptChunkSize (tr.numRecords - (tr.curFrameRecord + tr.max))) tr.buf
      (by rw [hsource]; omega) (by omega)
    refine ⟨{ tr with
      buf := buf
      cur := 0
      max := min ptChunkSize (tr.numRecords - (tr.curFrameRecord + tr.max))
      curFrameRecord := tr.curFrameRecord + tr.max }, ?_, hsource, hnum, hlen.trans hlength, ?_⟩
    · simp only [if_pos hmore, hread, Option.map_some]
    · refine .inr ⟨?_, rfl, by simp only [hnum], hsource ▸ hbuf⟩
      have hchunk := ptChunkSize_pos
      simp only
      omega
  · have hlast : tr.curFrameRecord + tr.max = tr.numRecords := by omega
    refine ⟨{ tr with curFrameRecord := tr.curFrameRecord + tr.max }, ?_, hsource, hnum, hlength,
      ?_⟩
    · simp only [if_neg hmore, if_pos hlast]
    · exact .inl ⟨hcur, hlast.trans hnum⟩

/-- `read` gives the next record of the file. -/
theorem ReadsAt.read {rec : AccessRecord} {pr : PackedAccessRecord} (h : ReadsAt file n tr)
    (hpr : file.accs[n]? = some pr) (hrec : pr.unpack = some rec) :
    ∃ tr', tr.read = some (rec, tr') ∧ ReadsAt file (n + 1) tr' := by
  have hn : n < file.accs.length := (List.getElem?_eq_some_iff.mp hpr).1
  obtain ⟨hcur, hn', hmax, hbuf⟩ : tr.cur < tr.max ∧ n = tr.curFrameRecord + tr.cur ∧
      tr.max = min ptChunkSize (file.accs.length - tr.curFrameRecord) ∧
      ∀ i < tr.max, tr.buf[i]? = file.accs[tr.curFrameRecord + i]? := by
    rcases h.position with ⟨-, hend⟩ | hin
    · omega
    · exact hin
  unfold AccessTraceReader.read
  rw [if_pos hcur, hbuf _ hcur, ← hn', hpr, Option.bind_some, hrec, Option.bind_some]
  by_cases hlast : tr.cur + 1 = tr.max
  · obtain ⟨tr', hnext, hreads⟩ := @nextChunk_spec file { tr with cur := tr.cur + 1 } h.source
      h.numRecords h.length hlast (Nat.zero_lt_of_lt hcur) hmax
    refine ⟨tr', by simp only [if_pos hlast, hnext, Option.map_some], ?_⟩
    have hsucc : tr.curFrameRecord + tr.max = n + 1 := by omega
    exact hsucc ▸ hreads
  · refine ⟨{ tr with cur := tr.cur + 1 }, by simp only [if_neg hlast, Option.map_some], h.source,
      h.numRecords, h.length, .inr ⟨?_, ?_, hmax, hbuf⟩⟩ <;> simp only <;> omega

/-- `n` reads give the next `n` records. -/
theorem ReadsAt.readMany {accs : List AccessRecord} (haccs : file.accs = accs.map AccessRecord.pack)
    (hfit : ∀ acc ∈ accs, acc.childId.toNat < 2 ^ 16) {m : Nat} (h : ReadsAt file m tr) :
    m + n ≤ accs.length →
      ∃ tr', tr.readMany n = some ((accs.drop m).take n, tr') ∧ ReadsAt file (m + n) tr' := by
  induction n generalizing m tr with
  | zero => exact fun _ => ⟨tr, by simp [AccessTraceReader.readMany], h⟩
  | succ n ih =>
    intro hle
    have hm : m < accs.length := by omega
    have hpr : file.accs[m]? = some accs[m].pack := by
      rw [haccs, getElem?_map, getElem?_eq_getElem hm, Option.map_some]
    obtain ⟨tr1, hread, h1⟩ := h.read hpr (unpack_pack (hfit _ (getElem_mem hm)))
    obtain ⟨tr', hmany, h'⟩ := ih h1 (by omega)
    refine ⟨tr', ?_, by rw [← Nat.succ_add_eq_add_succ]; exact h'⟩
    rw [AccessTraceReader.readMany, hread, drop_eq_getElem_cons hm, take_succ_cons]
    simp only [Option.bind_some, hmany, Option.map_some]

end AccessTraceReader

/-- What is written is read back, and the reader is empty just after the last record. -/
theorem trace_roundTrip (numChildren : UInt32) {accs : List AccessRecord}
    (hfit : ∀ acc ∈ accs, acc.childId.toNat < 2 ^ 16) :
    ∃ tw tr, (AccessTraceWriter.init numChildren).writeAll accs = some tw ∧
      AccessTraceReader.init tw.file = some tr ∧ tr.numChildren = numChildren ∧
      tr.numRecords = accs.length ∧
      ∀ n ≤ accs.length, ∃ tr', tr.readMany n = some (accs.take n, tr') ∧
        (tr'.empty = true ↔ n = accs.length) := by
  obtain ⟨tw, hwrite, hfile⟩ :=
    (@AccessTraceWriter.init_wrote numChildren).writeAll accs
  have haccs : tw.file.accs = accs.map AccessRecord.pack := by rw [hfile, nil_append]
  have hlen : tw.file.accs.length = accs.length := by rw [haccs, length_map]
  obtain ⟨tr, hinit, hreads, hchildren⟩ := @AccessTraceReader.init_readsAt tw.file (by rw [hfile])
  refine ⟨tw, tr, hwrite, hinit, by rw [hchildren, hfile], by rw [hreads.numRecords, hlen],
    fun n hn => ?_⟩
  obtain ⟨tr', hmany, h'⟩ := hreads.readMany (n := n) haccs hfit (by omega)
  refine ⟨tr', hmany, ?_⟩
  rw [h'.empty_iff, hlen, Nat.zero_add]

/-- A trace of two records. -/
theorem trace_roundTrip_pair : ∃ tw tr,
    (AccessTraceWriter.init 2).writeAll [⟨64, 5, 9, 0, .GETS⟩, ⟨65, 7, 30, 1, .PUTX⟩] = some tw ∧
      AccessTraceReader.init tw.file = some tr ∧ tr.numChildren = 2 ∧ tr.numRecords = 2 ∧
      ∀ n ≤ 2, ∃ tr',
        tr.readMany n =
          some ([⟨64, 5, 9, 0, .GETS⟩, ⟨65, 7, 30, 1, .PUTX⟩].take n, tr') ∧
        (tr'.empty = true ↔ n = 2) :=
  trace_roundTrip 2 (by decide)

end Doppelganger.Trace
