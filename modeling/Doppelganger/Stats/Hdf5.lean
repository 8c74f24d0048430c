import Doppelganger.Lib.Run
import Mathlib.Algebra.GroupWithZero.Nat
import Mathlib.Data.List.Forall2
import Mathlib.Logic.Function.Basic

/-! `HDF5BackendImpl` of `hdf5_stats.cpp`: the table of statistics, one record for each dump.  The
statistics are those of `stats.h` after `makeImmutable`; what they count is a function of the state
of the simulator.  An operation is `none` when the source panics, fails an assertion or writes
behind its buffer, or when the library refuses a type. -/

namespace Doppelganger.Stats

open List Lib

inductive Stat (σ : Type)
  | scalar (name : String) (value : σ → UInt64)
  | vector (name : String) (counts : List (σ → UInt64))
  | aggregate (name : String) (isRegular : Bool) (children : List (Stat σ))

/-- The types of the library that the back end uses. -/
inductive H5Type
  | ulong
  | array (elem : H5Type) (dim : Nat)
  /-- `H5Tcreate(H5T_COMPOUND, size)`. -/
  | compound (size : Nat)
  /-- `H5Tinsert(type, name, offset, member)`. -/
  | insert (type : H5Type) (name : String) (offset : Nat) (member : H5Type)
deriving DecidableEq

/-- `H5Tget_size`, in bytes. -/
def H5Type.getSize : H5Type → Nat
  | ulong => 8
  | array elem dim => dim * elem.getSize
  | compound size => size
  | insert type _ _ _ => type.getSize

namespace Stat

variable {σ : Type}

def name : Stat σ → String
  | scalar name _ => name
  | vector name _ => name
  | aggregate name _ _ => name

def isVector : Stat σ → Bool
  | vector _ _ => true
  | _ => false

def isAggregate : Stat σ → Bool
  | aggregate _ _ _ => true
  | _ => false

end Stat

/-- How the back end was set up. -/
structure Format where
  skipVectors : Bool
  sumRegularAggregates : Bool

namespace Format

variable {σ : Type} (fmt : Format)

def skipStat (s : Stat σ) : Bool := fmt.skipVectors && s.isVector

/-! ### Types -/

/-- The second pass over the children. -/
def insertAll (res : H5Type) (offset : Nat) : List (String × H5Type) → H5Type
  | [] => res
  | (name, childType) :: fields =>
    insertAll (.insert res name offset childType) (offset + childType.getSize) fields

/-- The compound type of the children of an irregular aggregate.  The library refuses empty types
and members of one name; then there is no type, where the code goes on with the error codes of
`H5Tcreate` and `H5Tinsert`. -/
def compoundType (fields : List (String × H5Type)) : Option H5Type :=
  let size := (fields.map fun field => field.2.getSize).sum
  if size = 0 ∨ ¬(fields.map Prod.fst).Nodup then none
  else some (insertAll (.compound size) 0 fields)

/-- The type of a regular aggregate, from those of its children. -/
def regularType : List H5Type → Option H5Type
  | [] => none
  | childType :: types =>
    if ∀ otherType ∈ types, otherType = childType then
      if fmt.sumRegularAggregates then some childType
      else some (.array childType (types.length + 1))
    else none

mutual

def getH5Type : Stat σ → Option H5Type
  | .scalar _ _ => some .ulong
  | .vector _ counts =>
    if 1 < counts.length then some (.array .ulong counts.length)
    else if counts.length = 1 then some .ulong
    else none
  | .aggregate _ isRegular children =>
    if isRegular then
      if (children.head?.map fmt.skipStat) = some true then none
      else (childTypes children).bind (regularType fmt)
    else (fieldTypes children).bind compoundType

def childTypes : List (Stat σ) → Option (List H5Type)
  | [] => some []
  | child :: children =>
    (getH5Type child).bind fun type => (childTypes children).map (type :: ·)

/-- Those of the children that are not skipped, with their names. -/
def fieldTypes : List (Stat σ) → Option (List (String × H5Type))
  | [] => some []
  | child :: children =>
    if fmt.skipStat child then fieldTypes children
    else (getH5Type child).bind fun type =>
      (fieldTypes children).map ((child.name, type) :: ·)

end

/-! ### Dumps -/

/-- `dataBuf`, in words, and the index in it of `curPtr`. -/
structure Buffer where
  mem : Nat → UInt64
  curPtr : Nat

/-- `*(curPtr++) = v`, in a buffer of `words` words. -/
def push (words : Nat) (v : UInt64) (b : Buffer) : Option Buffer :=
  if b.curPtr < words then some ⟨Function.update b.mem b.curPtr v, b.curPtr + 1⟩ else none

def pushAll (words : Nat) : List UInt64 → Buffer → Option Buffer
  | [], b => some b
  | v :: vs, b => (push words v b).bind (pushAll words vs)

/-- `startPtr[j] += tmpPtr[j]` for the `j` below `sz`. -/
def addRecord (startPtr tmpPtr sz : Nat) (mem : Nat → UInt64) : Nat → UInt64 :=
  (range sz).foldl (fun mem j =>
    Function.update mem (startPtr + j) (mem (startPtr + j) + mem (tmpPtr + j))) mem

mutual

def dumpWalk (words : Nat) (sys : σ) : Stat σ → Buffer → Option Buffer
  | .scalar _ value, b => push words (value sys) b
  | .vector _ counts, b =>
    if fmt.skipVectors then some b else pushAll words (counts.map fun count => count sys) b
  | .aggregate _ isRegular [], b =>
    -- `get(0)` of no children.
    if isRegular && fmt.sumRegularAggregates then none else some b
  | .aggregate _ isRegular (child :: children), b =>
    (dumpWalk words sys child b).bind fun b' =>
      if isRegular && fmt.sumRegularAggregates then
        dumpAdd words sys b.curPtr (b'.curPtr - b.curPtr) children b'
      else dumpAll words sys children b'

def dumpAll (words : Nat) (sys : σ) : List (Stat σ) → Buffer → Option Buffer
  | [], b => some b
  | child :: children, b => (dumpWalk words sys child b).bind (dumpAll words sys children)

/-- The loop that adds the records of the other children to that of the first one. -/
def dumpAdd (words : Nat) (sys : σ) (startPtr sz : Nat) : List (Stat σ) → Buffer → Option Buffer
  | [], b => some b
  | child :: children, b =>
    (dumpWalk words sys child b).bind fun b' =>
      if b'.curPtr = b.curPtr + sz then
        dumpAdd words sys startPtr sz children
          ⟨addRecord startPtr b.curPtr sz b'.mem, b.curPtr⟩
      else none

end

end Format

/-- What the constructor sets, the sizes in bytes. -/
structure HDF5BackendImpl (σ : Type) where
  rootStat : Stat σ
  fmt : Format
  recordSize : Nat
  recordsPerWrite : Nat
  bufSize : Nat

/-- What a dump changes, and the records in the file. -/
structure Table where
  buf : Format.Buffer
  bufferedRecords : Nat
  file : List (List UInt64)

namespace HDF5BackendImpl

variable {σ : Type}

/-- The constructor, for the aggregate that is the root. -/
def init (name : String) (isRegular : Bool) (children : List (Stat σ)) (bytesPerWrite : Nat)
    (fmt : Format) : Option (HDF5BackendImpl σ) :=
  let rootStat := .aggregate name isRegular children
  (fmt.getH5Type rootStat).map fun rootType =>
    let recordSize := rootType.getSize
    let recordsPerWrite := (bytesPerWrite / recordSize + 1) % 2 ^ 32
    let bufSize := recordsPerWrite * recordSize
    ⟨rootStat, fmt, recordSize, recordsPerWrite,
      if fmt.sumRegularAggregates then bufSize + recordSize else bufSize⟩

/-- The table after the constructor, with what the buffer holds then. -/
def start (mem : Nat → UInt64) : Table := ⟨⟨mem, 0⟩, 0, []⟩

variable (impl : HDF5BackendImpl σ)

/-- The records of a table that are buffered. -/
def pending (t : Table) : List (List UInt64) :=
  let words := impl.recordSize / 8
  (range t.bufferedRecords).map fun k => (range words).map fun j => t.buf.mem (k * words + j)

/-- `dump(buffered)`, in the state `op.2` of the simulator. -/
def dump (op : Bool × σ) (t : Table) : Option Table :=
  (impl.fmt.dumpWalk (impl.bufSize / 8) op.2 impl.rootStat t.buf).bind fun buf =>
    let t := { t with buf := buf, bufferedRecords := t.bufferedRecords + 1 }
    if t.bufferedRecords * impl.recordSize / 8 = buf.curPtr then
      if t.bufferedRecords = impl.recordsPerWrite ∨ op.1 = false then
        some ⟨⟨buf.mem, 0⟩, 0, t.file ++ impl.pending t⟩
      else some t
    else none

end HDF5BackendImpl

/-! ### Records -/

namespace Format

variable {σ : Type} (fmt : Format)

/-- The sums of records, place by place. -/
def addUp : List (List UInt64) → List UInt64
  | [] => []
  | record :: records => records.foldl (zipWith (· + ·)) record

mutual

/-- The record of a statistic. -/
def record (sys : σ) : Stat σ → List UInt64
  | .scalar _ value => [value sys]
  | .vector _ counts => if fmt.skipVectors then [] else counts.map fun count => count sys
  | .aggregate _ isRegular children =>
    if isRegular && fmt.sumRegularAggregates then addUp (records sys children)
    else (records sys children).flatten

def records (sys : σ) : List (Stat σ) → List (List UInt64)
  | [] => []
  | child :: children => record sys child :: records sys children

end

/-- How many words a dump leaves in the buffer, and how many it writes to at most. -/
structure Extent where
  size : Nat
  peak : Nat

def inTurn : List Extent → Extent
  | [] => ⟨0, 0⟩
  | e :: es => ⟨e.size + (inTurn es).size, max e.peak (e.size + (inTurn es).peak)⟩

/-- The records of the other children go behind that of the first one. -/
def addedUp : List Extent → Extent
  | [] => ⟨0, 0⟩
  | e :: es => ⟨e.size, max e.peak (es.foldr (fun e' peak => max (e.size + e'.peak) peak) e.size)⟩

mutual

def extent : Stat σ → Extent
  | .scalar _ _ => ⟨1, 1⟩
  | .vector _ counts => if fmt.skipVectors then ⟨0, 0⟩ else ⟨counts.length, counts.length⟩
  | .aggregate _ isRegular children =>
    if isRegular && fmt.sumRegularAggregates then addedUp (extents children)
    else inTurn (extents children)

def extents : List (Stat σ) → List Extent
  | [] => []
  | child :: children => extent child :: extents children

end

end Format

/-- All children of a regular aggregate are aggregates, as `stats.h` asks for. -/
inductive Stat.Proper {σ : Type} : Stat σ → Prop
  | scalar (name value) : Proper (.scalar name value)
  | vector (name counts) : Proper (.vector name counts)
  | aggregate {name isRegular children} :
    (isRegular = true → ∀ child ∈ children, child.isAggregate = true) →
    (∀ child ∈ children, Proper child) → Proper (.aggregate name isRegular children)

/-- No aggregate in the statistic is regular. -/
inductive Stat.Plain {σ : Type} : Stat σ → Prop
  | scalar (name value) : Plain (.scalar name value)
  | vector (name counts) : Plain (.vector name counts)
  | aggregate {name children} :
    (∀ child ∈ children, Plain child) → Plain (.aggregate name false children)

/-- No regular aggregate in the statistic is in another one. -/
inductive Stat.Flat {σ : Type} : Stat σ → Prop
  | scalar (name value) : Flat (.scalar name value)
  | vector (name counts) : Flat (.vector name counts)
  | aggregate {name isRegular children} :
    (isRegular = true → ∀ child ∈ children, child.Plain) → (∀ child ∈ children, Flat child) →
    Flat (.aggregate name isRegular children)

namespace Format

variable {σ : Type} {fmt : Format} {sys : σ} {words : Nat}

/-! ### Writes -/

/-- The words that lead from one buffer to another, which keeps what was before them. -/
structure Wrote (b b' : Buffer) (l : List UInt64) : Prop where
  curPtr : b'.curPtr = b.curPtr + l.length
  below : ∀ i < b.curPtr, b'.mem i = b.mem i
  written : ∀ j v, l[j]? = some v → b'.mem (b.curPtr + j) = v

theorem Wrote.nil (b : Buffer) : Wrote b b [] where
  curPtr := rfl
  below _ _ := rfl
  written _ _ hv := by cases hv

theorem Wrote.append {b b' b'' : Buffer} {l l' : List UInt64} (h : Wrote b b' l)
    (h' : Wrote b' b'' l') : Wrote b b'' (l ++ l') where
  curPtr := by rw [h'.curPtr, h.curPtr, length_append, Nat.add_assoc]
  below i hi := by
    have hle : i < b'.curPtr := by
      rw [h.curPtr]
      exact Nat.lt_add_right _ hi
    rw [h'.below i hle, h.below i hi]
  written j v hv := by
    by_cases hj : j < l.length
    · rw [getElem?_append_left hj] at hv
      have hle : b.curPtr + j < b'.curPtr := by
        rw [h.curPtr]
        exact Nat.add_lt_add_left hj _
      rw [h'.below _ hle, h.written j v hv]
    · have hle : l.length ≤ j := Nat.le_of_not_lt hj
      rw [getElem?_append_right hle] at hv
      have hsame := h'.written _ v hv
      rwa [h.curPtr, Nat.add_assoc, Nat.add_sub_cancel' hle] at hsame

/-- A walk writes `l` if the buffer has room for `peak` words, and otherwise behind the buffer. -/
structure Writes (words : Nat) (walk : Buffer → Option Buffer) (l : List UInt64) (peak : Nat) :
    Prop where
  le : l.length ≤ peak
  fits : ∀ b, b.curPtr + peak ≤ words → ∃ b', walk b = some b' ∧ Wrote b b' l
  spills : ∀ b, b.curPtr ≤ words → words < b.curPtr + peak → walk b = none

theorem Writes.nil : Writes words some [] 0 where
  le := Nat.le_refl 0
  fits b _ := ⟨b, rfl, .nil b⟩
  spills _ hb hspill := absurd hspill (Nat.not_lt_of_le hb)

theorem Writes.bind {f g : Buffer → Option Buffer} {l l' : List UInt64} {peak peak' : Nat}
    (hf : Writes words f l peak) (hg : Writes words g l' peak') :
    Writes words (fun b => (f b).bind g) (l ++ l') (max peak (l.length + peak')) where
  le := by
    have := hg.le
    rw [length_append]
    omega
  fits b hb := by
    obtain ⟨b', hb', hw⟩ := hf.fits b (by omega)
    have hptr := hw.curPtr
    obtain ⟨b'', hb'', hw'⟩ := hg.fits b' (by omega)
    exact ⟨b'', by rw [hb', Option.bind_some, hb''], hw.append hw'⟩
  spills b hb hspill := by
    by_cases hpeak : b.curPtr + peak ≤ words
    · obtain ⟨b', hb', hw⟩ := hf.fits b hpeak
      have hptr := hw.curPtr
      have hle := hf.le
      rw [hb', Option.bind_some]
      exact hg.spills b' (by omega) (by omega)
    · rw [hf.spills b hb (by omega), Option.bind_none]

theorem Writes.push (v : UInt64) : Writes words (push words v) [v] 1 where
  le := Nat.le_refl 1
  fits b hb := by
    refine ⟨_, if_pos (by omega), rfl, fun i hi => ?_, fun j w hw => ?_⟩
    · exact Function.update_of_ne (Nat.ne_of_lt hi) ..
    · obtain ⟨rfl, rfl⟩ : j = 0 ∧ v = w := by
        cases j with
        | zero => exact ⟨rfl, Option.some.inj hw⟩
        | succ j => cases hw
      exact Function.update_self ..
  spills b hb hspill := if_neg (by omega)

theorem Writes.pushAll (l : List UInt64) : Writes words (pushAll words l) l l.length := by
  induction l with
  | nil => exact .nil
  | cons v vs ih =>
    have hpush := (Writes.push v).bind ih
    rw [length_singleton, Nat.max_eq_right (Nat.le_add_right 1 _), Nat.add_comm] at hpush
    exact hpush

/-! ### Sums -/

theorem addRecord_apply {startPtr tmpPtr sz : Nat} (hsz : startPtr + sz ≤ tmpPtr)
    (mem : Nat → UInt64) (i : Nat) : addRecord startPtr tmpPtr sz mem i =
      if startPtr ≤ i ∧ i < startPtr + sz then mem i + mem (tmpPtr + (i - startPtr))
      else mem i := by
  -- Only words below `startPtr + n` have changed after `n` rounds of the loop.
  induction sz generalizing i with
  | zero => rw [if_neg (by omega), addRecord, range_zero, foldl_nil]
  | succ n ih =>
    have hn : startPtr + n ≤ tmpPtr := by omega
    have hround : addRecord startPtr tmpPtr (n + 1) mem =
        Function.update (addRecord startPtr tmpPtr n mem) (startPtr + n)
          (mem (startPtr + n) + mem (tmpPtr + n)) := by
      rw [addRecord, range_succ, foldl_append, foldl_cons, foldl_nil, ← addRecord, ih hn, ih hn,
        if_neg (by omega), if_neg (by omega)]
    rw [hround, Function.update_apply]
    by_cases hi : i = startPtr + n
    · rw [if_pos hi, if_pos (by omega), hi, Nat.add_sub_cancel_left]
    · rw [if_neg hi, ih hn]
      by_cases hlt : startPtr ≤ i ∧ i < startPtr + n
      · rw [if_pos hlt, if_pos (by omega)]
      · rw [if_neg hlt, if_neg (by omega)]

/-- A record behind the sums so far is added to them. -/
theorem Wrote.add {b0 b b' : Buffer} {acc l : List UInt64} (h : Wrote b0 b acc)
    (h' : Wrote b b' l) (hl : l.length = acc.length) :
    Wrote b0 ⟨addRecord b0.curPtr b.curPtr acc.length b'.mem, b.curPtr⟩
      (zipWith (· + ·) acc l) where
  curPtr := by
    rw [length_zipWith, hl, Nat.min_self]
    exact h.curPtr
  below i hi := by
    have hptr := h.curPtr
    dsimp only
    rw [addRecord_apply (by omega), if_neg (by omega), h'.below i (by omega), h.below i hi]
  written j v hv := by
    have hptr := h.curPtr
    obtain ⟨x, y, hx, hy, rfl⟩ := getElem?_zipWith_eq_some.mp hv
    have hj := (List.getElem?_eq_some_iff.mp hx).1
    dsimp only
    rw [addRecord_apply (by omega), if_pos (by omega), Nat.add_sub_cancel_left,
      h'.written j y hy, h'.below _ (by omega), h.written j x hx]

/-! ### Walks -/

/-- The records have the sizes of their statistics, as far as they are added up. -/
inductive Sound (fmt : Format) : Stat σ → Prop
  | scalar (name value) : Sound fmt (.scalar name value)
  | vector (name counts) : Sound fmt (.vector name counts)
  | aggregate {name isRegular children} :
    ((isRegular && fmt.sumRegularAggregates) = true → children ≠ [] ∧
      ∀ child ∈ children, ∀ other ∈ children,
        (fmt.extent child).size = (fmt.extent other).size) →
    (∀ child ∈ children, Sound fmt child) → Sound fmt (.aggregate name isRegular children)

/-- What is to be shown of the walk over a statistic. -/
structure Dumps (fmt : Format) (words : Nat) (sys : σ) (s : Stat σ) : Prop where
  writes : Writes words (fmt.dumpWalk words sys s) (fmt.record sys s) (fmt.extent s).peak
  size : (fmt.record sys s).length = (fmt.extent s).size

theorem dumpAll_writes {children : List (Stat σ)}
    (h : ∀ child ∈ children, Dumps fmt words sys child) :
    Writes words (fmt.dumpAll words sys children) (fmt.records sys children).flatten
        (inTurn (fmt.extents children)).peak ∧
      (fmt.records sys children).flatten.length = (inTurn (fmt.extents children)).size := by
  induction children with
  | nil => exact ⟨.nil, rfl⟩
  | cons child children ih =>
    obtain ⟨hwrites, hsize⟩ := ih fun c hc => h c (mem_cons_of_mem child hc)
    have hchild := h child mem_cons_self
    have hboth := hchild.writes.bind hwrites
    rw [hchild.size] at hboth
    refine ⟨hboth, ?_⟩
    rw [records, flatten_cons, length_append, hchild.size, hsize]
    rfl

/-- The loop over the other children of a regular aggregate, after the records of the first ones
have been added up to `acc`. -/
theorem dumpAdd_spec {children : List (Stat σ)} {b0 b : Buffer} {acc : List UInt64}
    (h : ∀ child ∈ children, Dumps fmt words sys child)
    (hsize : ∀ child ∈ children, (fmt.extent child).size = acc.length)
    (hacc : Wrote b0 b acc) (hb : b.curPtr ≤ words) :
    ((∀ child ∈ children, b.curPtr + (fmt.extent child).peak ≤ words) →
      ∃ b', fmt.dumpAdd words sys b0.curPtr acc.length children b = some b' ∧
        Wrote b0 b' ((fmt.records sys children).foldl (zipWith (· + ·)) acc)) ∧
      (¬(∀ child ∈ children, b.curPtr + (fmt.extent child).peak ≤ words) →
        fmt.dumpAdd words sys b0.curPtr acc.length children b = none) := by
  induction children generalizing b acc with
  | nil => exact ⟨fun _ => ⟨b, rfl, hacc⟩, fun hspill => absurd (forall_mem_nil _) hspill⟩
  | cons child children ih =>
    have hchild := h child mem_cons_self
    have hlength : (fmt.record sys child).length = acc.length := by
      rw [hchild.size, hsize child mem_cons_self]
    rw [dumpAdd, forall_mem_cons]
    by_cases hpeak : b.curPtr + (fmt.extent child).peak ≤ words
    · obtain ⟨b', hb', hw⟩ := hchild.writes.fits b hpeak
      have hptr : b'.curPtr = b.curPtr + acc.length := by rw [hw.curPtr, hlength]
      have hadd := hacc.add hw hlength
      have hkeep : (zipWith (· + ·) acc (fmt.record sys child)).length = acc.length := by
        rw [length_zipWith, hlength, Nat.min_self]
      have hrest := ih (fun c hc => h c (mem_cons_of_mem child hc))
        (fun c hc => (hsize c (mem_cons_of_mem child hc)).trans hkeep.symm) hadd hb
      rw [hkeep] at hrest
      rw [hb', Option.bind_some, if_pos hptr]
      exact ⟨fun hfits => hrest.1 hfits.2, fun hspill => hrest.2 fun hfits => hspill ⟨hpeak, hfits⟩⟩
    · rw [hchild.writes.spills b hb (by omega), Option.bind_none]
      exact ⟨fun hfits => absurd hfits.1 hpeak, fun _ => rfl⟩

theorem foldr_peak_le {size bound : Nat} (es : List Extent) :
    es.foldr (fun e peak => max (size + e.peak) peak) size ≤ bound ↔
      size ≤ bound ∧ ∀ e ∈ es, size + e.peak ≤ bound := by
  induction es with
  | nil => simp
  | cons e es ih =>
    rw [foldr_cons, Nat.max_le, ih, forall_mem_cons]
    exact and_left_comm

theorem extents_eq (children : List (Stat σ)) :
    fmt.extents children = children.map fmt.extent := by
  induction children with
  | nil => rfl
  | cons child children ih => rw [extents, ih, map_cons]

theorem length_addUp (acc : List UInt64) (rs : List (List UInt64))
    (h : ∀ r ∈ rs, r.length = acc.length) :
    (rs.foldl (zipWith (· + ·)) acc).length = acc.length := by
  induction rs generalizing acc with
  | nil => rfl
  | cons r rs ih =>
    have hkeep : (zipWith (· + ·) acc r).length = acc.length := by
      rw [length_zipWith, h r mem_cons_self, Nat.min_self]
    rw [foldl_cons, ih _ fun r' hr' => (h r' (mem_cons_of_mem r hr')).trans hkeep.symm, hkeep]

theorem records_eq (children : List (Stat σ)) :
    fmt.records sys children = children.map (fmt.record sys) := by
  induction children with
  | nil => rfl
  | cons child children ih => rw [records, ih, map_cons]

/-- A regular aggregate whose children are added up. -/
theorem dumps_sum {name : String} {isRegular : Bool} {child : Stat σ} {children : List (Stat σ)}
    (hsum : (isRegular && fmt.sumRegularAggregates) = true)
    (h : ∀ c ∈ child :: children, Dumps fmt words sys c)
    (hsize : ∀ c ∈ children, (fmt.extent c).size = (fmt.extent child).size) :
    Dumps fmt words sys (.aggregate name isRegular (child :: children)) := by
  obtain ⟨hchild, hrest⟩ := forall_mem_cons.mp h
  have hrecord : fmt.record sys (.aggregate name isRegular (child :: children)) =
      (fmt.records sys children).foldl (zipWith (· + ·)) (fmt.record sys child) := by
    rw [record, if_pos hsum]
    rfl
  have hpeak : ∀ room, (fmt.extent (.aggregate name isRegular (child :: children))).peak ≤ room ↔
      (fmt.extent child).peak ≤ room ∧ (fmt.extent child).size ≤ room ∧
        ∀ c ∈ children, (fmt.extent child).size + (fmt.extent c).peak ≤ room := by
    intro room
    rw [extent, if_pos hsum, extents, addedUp, Nat.max_le, foldr_peak_le, extents_eq,
      forall_mem_map]
  have hsame : (fmt.extent (.aggregate name isRegular (child :: children))).size =
      (fmt.extent child).size := by
    rw [extent, if_pos hsum]
    rfl
  have hrecordSize : (fmt.record sys (.aggregate name isRegular (child :: children))).length =
      (fmt.extent child).size := by
    rw [hrecord, length_addUp, hchild.size]
    intro r hr
    rw [records_eq] at hr
    obtain ⟨c, hc, rfl⟩ := mem_map.mp hr
    rw [(hrest c hc).size, hsize c hc, hchild.size]
  refine ⟨⟨?_, fun b hb => ?_, fun b hb hspill => ?_⟩, by rw [hrecordSize, hsame]⟩
  · rw [hrecordSize]
    exact ((hpeak _).mp (Nat.le_refl _)).2.1
  · obtain ⟨hfirst, hroom, hothers⟩ := (hpeak (words - b.curPtr)).mp (by omega)
    obtain ⟨b', hb', hw⟩ := hchild.writes.fits b (by omega)
    have hptr : b'.curPtr = b.curPtr + (fmt.extent child).size := by rw [hw.curPtr, hchild.size]
    obtain ⟨b'', hb'', hw'⟩ := (dumpAdd_spec hrest
      (fun c hc => (hsize c hc).trans hchild.size.symm) hw (by omega)).1 fun c hc => by
        have := hothers c hc
        omega
    refine ⟨b'', ?_, by rw [hrecord]; exact hw'⟩
    rw [dumpWalk, hb', Option.bind_some, if_pos hsum, hptr, Nat.add_sub_cancel_left, ← hchild.size]
    exact hb''
  · have hnot := (hpeak (words - b.curPtr)).not.mp (by omega)
    rw [dumpWalk]
    by_cases hfirst : b.curPtr + (fmt.extent child).peak ≤ words
    · obtain ⟨b', hb', hw⟩ := hchild.writes.fits b hfirst
      have hle := hchild.writes.le
      have hptr : b'.curPtr = b.curPtr + (fmt.extent child).size := by rw [hw.curPtr, hchild.size]
      rw [hchild.size] at hle
      rw [hb', Option.bind_some, if_pos hsum, hptr, Nat.add_sub_cancel_left, ← hchild.size]
      refine (dumpAdd_spec hrest (fun c hc => (hsize c hc).trans hchild.size.symm) hw
        (by omega)).2 fun hothers => hnot ⟨by omega, by omega, fun c hc => ?_⟩
      have := hothers c hc
      omega
    · rw [hchild.writes.spills b hb (by omega), Option.bind_none]

/-- A dump of a statistic writes its record. -/
theorem Sound.dumps {s : Stat σ} (h : Sound fmt s) : Dumps fmt words sys s := by
  induction h with
  | scalar name value => exact ⟨.push _, rfl⟩
  | vector name counts =>
    have hwalk : fmt.dumpWalk words sys (.vector name counts) = fun b =>
        if fmt.skipVectors then some b
        else pushAll words (counts.map fun count => count sys) b := by
      funext b
      rw [dumpWalk]
    constructor
    · rw [hwalk, record, extent]
      cases fmt.skipVectors with
      | true => exact .nil
      | false =>
        have hpush : Writes words (pushAll words (counts.map fun count => count sys)) _ _ :=
          Writes.pushAll _
        rwa [length_map] at hpush
    · rw [record, extent]
      split
      · rfl
      · rw [length_map]
  | @aggregate name isRegular children hsum _ ih =>
    cases hadd : isRegular && fmt.sumRegularAggregates with
    | true =>
      obtain ⟨hne, hsize⟩ := hsum hadd
      cases children with
      | nil => exact absurd rfl hne
      | cons child children =>
        exact dumps_sum hadd ih fun c hc => hsize c (mem_cons_of_mem child hc) child mem_cons_self
    | false =>
      have hneg : ¬(isRegular && fmt.sumRegularAggregates) = true := by rw [hadd]; decide
      obtain ⟨hwrites, hsize⟩ := dumpAll_writes ih
      have hrecord : fmt.record sys (.aggregate name isRegular children) =
          (fmt.records sys children).flatten := by rw [record, if_neg hneg]
      have hextent : fmt.extent (.aggregate name isRegular children) =
          inTurn (fmt.extents children) := by rw [extent, if_neg hneg]
      have hwalk : fmt.dumpWalk words sys (.aggregate name isRegular children) =
          fmt.dumpAll words sys children := by
        funext b
        cases children with
        | nil => rw [dumpWalk, if_neg hneg, dumpAll]
        | cons child children =>
          rw [dumpWalk, dumpAll]
          congr
          funext b'
          rw [if_neg hneg]
      refine ⟨?_, by rw [hrecord, hextent, hsize]⟩
      rw [hrecord, hextent, hwalk]
      exact hwrites

end Format

end Doppelganger.Stats
