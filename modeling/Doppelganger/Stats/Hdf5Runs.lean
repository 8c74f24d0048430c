import Doppelganger.Stats.Hdf5

/-! Runs of the back end: the types of the statistics have the sizes of their records, and the file
and the buffer have the records of all dumps. -/

namespace Doppelganger.Stats

open List Lib

namespace Format

variable {σ : Type} {fmt : Format}

/-! ### Types -/

theorem childTypes_eq {children : List (Stat σ)} {types : List H5Type}
    (h : fmt.childTypes children = some types) :
    Forall₂ (fun child type => fmt.getH5Type child = some type) children types := by
  induction children generalizing types with
  | nil =>
    cases h
    exact .nil
  | cons child children ih =>
    obtain ⟨type, htype, h⟩ := Option.bind_eq_some_iff.mp h
    obtain ⟨types, htypes, rfl⟩ := Option.map_eq_some_iff.mp h
    exact .cons htype (ih htypes)

/-- All types are the first one, when the type of a regular aggregate is made from them. -/
theorem same_type {R : Stat σ → H5Type → Prop} {type : H5Type} {children : List (Stat σ)}
    {types : List H5Type} (h : Forall₂ R children types) (hall : ∀ other ∈ types, other = type) :
    ∀ child ∈ children, R child type := by
  induction h with
  | nil => exact forall_mem_nil _
  | cons hchild _ ih =>
    obtain ⟨rfl, hrest⟩ := forall_mem_cons.mp hall
    exact forall_mem_cons.mpr ⟨hchild, ih hrest⟩

/-- Only vectors are skipped. -/
theorem skipStat_vector {s : Stat σ} (h : fmt.skipStat s = true) :
    fmt.skipVectors = true ∧ ∃ name counts, s = .vector name counts := by
  obtain ⟨hvectors, hs⟩ := (Bool.and_eq_true _ _).mp h
  cases s with
  | scalar name value => cases hs
  | vector name counts => exact ⟨hvectors, name, counts, rfl⟩
  | aggregate name isRegular children => cases hs

theorem sum_sizes {α : Type} {f : α → Nat} {n : Nat} {l : List α} (h : ∀ a ∈ l, f a * 8 = n) :
    (l.map f).sum * 8 = l.length * n := by
  induction l with
  | nil => rw [map_nil, sum_nil, length_nil, Nat.zero_mul, Nat.zero_mul]
  | cons a l ih =>
    obtain ⟨ha, hrest⟩ := forall_mem_cons.mp h
    rw [map_cons, sum_cons, Nat.add_mul, ha, ih hrest, length_cons, Nat.succ_mul, Nat.add_comm]

theorem insertAll_getSize (fields : List (String × H5Type)) (res : H5Type) (offset : Nat) :
    (insertAll res offset fields).getSize = res.getSize := by
  induction fields generalizing res offset with
  | nil => rfl
  | cons field fields ih =>
    rw [insertAll, ih]
    rfl

theorem inTurn_size (es : List Extent) : (inTurn es).size = (es.map Extent.size).sum := by
  induction es with
  | nil => rfl
  | cons e es ih => rw [inTurn, map_cons, sum_cons, ih]

/-- A type has the size of the record, which is not empty. -/
structure Sized (fmt : Format) (s : Stat σ) (type : H5Type) : Prop where
  sound : Sound fmt s
  size : (fmt.extent s).size * 8 = type.getSize
  pos : 0 < type.getSize

theorem fieldTypes_sized {children : List (Stat σ)}
    (h : ∀ child ∈ children, ∀ type, fmt.getH5Type child = some type →
      fmt.skipStat child = false → Sized fmt child type)
    {fields : List (String × H5Type)} (hfields : fmt.fieldTypes children = some fields) :
    (∀ child ∈ children, Sound fmt child) ∧
      (inTurn (fmt.extents children)).size * 8 =
        (fields.map fun field => field.2.getSize).sum := by
  induction children generalizing fields with
  | nil =>
    cases hfields
    exact ⟨forall_mem_nil _, rfl⟩
  | cons child children ih =>
    have hrest := fun c hc => h c (mem_cons_of_mem child hc)
    rw [fieldTypes] at hfields
    rw [extents, inTurn, forall_mem_cons]
    dsimp only
    rw [Nat.add_mul]
    split at hfields
    · next hskip =>
      obtain ⟨hsound, hsize⟩ := ih hrest hfields
      obtain ⟨hvectors, name, counts, rfl⟩ := skipStat_vector hskip
      rw [extent, if_pos hvectors, hsize]
      exact ⟨⟨.vector name counts, hsound⟩, Nat.zero_add _⟩
    · next hskip =>
      obtain ⟨type, htype, hfields⟩ := Option.bind_eq_some_iff.mp hfields
      obtain ⟨others, hothers, rfl⟩ := Option.map_eq_some_iff.mp hfields
      obtain ⟨hsound, hsize⟩ := ih hrest hothers
      have hchild := h child mem_cons_self type htype (by simpa using hskip)
      rw [map_cons, sum_cons, hsize, hchild.size]
      exact ⟨⟨hchild.sound, hsound⟩, rfl⟩

theorem regular_sized {name : String} {children : List (Stat σ)} {types : List H5Type}
    {type : H5Type} (hregular : regularType fmt types = some type)
    (h : Forall₂ (Sized fmt) children types) :
    Sized fmt (.aggregate name true children) type := by
  cases h with
  | nil => cases hregular
  | @cons child childType children types hchild hrest =>
    rw [regularType] at hregular
    obtain ⟨hall, hregular⟩ := Option.ite_none_right_eq_some.mp hregular
    have hsized : ∀ c ∈ child :: children, Sized fmt c childType :=
      forall_mem_cons.mpr ⟨hchild, same_type hrest hall⟩
    have hsame : ∀ c ∈ child :: children, (fmt.extent c).size * 8 = childType.getSize :=
      fun c hc => (hsized c hc).size
    have hsound : Sound fmt (.aggregate name true (child :: children)) := by
      refine .aggregate (fun _ => ⟨cons_ne_nil _ _, fun c hc d hd => ?_⟩)
        fun c hc => (hsized c hc).sound
      have hc := hsame c hc
      have hd := hsame d hd
      omega
    cases hsum : fmt.sumRegularAggregates with
    | true =>
      rw [hsum, if_pos rfl] at hregular
      cases hregular
      refine ⟨hsound, ?_, hchild.pos⟩
      rw [extent, hsum]
      exact hchild.size
    | false =>
      rw [hsum, if_neg Bool.false_ne_true] at hregular
      cases hregular
      refine ⟨hsound, ?_, ?_⟩
      · rw [extent, hsum, extents_eq, Bool.and_false, if_neg Bool.false_ne_true, inTurn_size,
          map_map]
        rw [H5Type.getSize, ← hrest.length_eq]
        exact sum_sizes hsame
      · exact Nat.mul_pos (Nat.succ_pos _) hchild.pos

/-- The record of a statistic with a type is as long as the type. -/
theorem getH5Type_sized {s : Stat σ} (h : s.Proper) {type : H5Type}
    (htype : fmt.getH5Type s = some type) (hskip : fmt.skipStat s = false) :
    Sized fmt s type := by
  induction h generalizing type with
  | scalar name value =>
    cases htype
    exact ⟨.scalar name value, rfl, by decide⟩
  | vector name counts =>
    have hvectors : ¬fmt.skipVectors = true := by
      rw [skipStat] at hskip
      simpa [Stat.isVector] using hskip
    rw [getH5Type] at htype
    have hextent : (fmt.extent (.vector name counts)).size = counts.length := by
      rw [extent, if_neg hvectors]
    split at htype
    · next hlong =>
      cases htype
      refine ⟨.vector name counts, by rw [hextent]; rfl, ?_⟩
      exact Nat.mul_pos (Nat.zero_lt_of_lt hlong) (by decide)
    · split at htype
      · next hone =>
        cases htype
        exact ⟨.vector name counts, by rw [hextent, hone]; rfl, by decide⟩
      · cases htype
  | @aggregate name isRegular children hregular _ ih =>
    rw [getH5Type] at htype
    cases isRegular with
    | true =>
      rw [if_pos rfl] at htype
      obtain ⟨-, htype⟩ := Option.ite_none_left_eq_some.mp htype
      obtain ⟨types, htypes, htype⟩ := Option.bind_eq_some_iff.mp htype
      have hboth := (forall₂_and_left _ _).mpr
        ⟨fun c hc => And.intro hc (hregular rfl c hc), childTypes_eq htypes⟩
      refine regular_sized htype (hboth.imp ?_)
      rintro c ctype ⟨⟨hc, haggregate⟩, hctype⟩
      refine ih c hc hctype ?_
      cases c with
      | scalar name value => cases haggregate
      | vector name counts => cases haggregate
      | aggregate name isRegular cs => exact Bool.and_false _
    | false =>
      rw [if_neg Bool.false_ne_true] at htype
      obtain ⟨fields, hfields, htype⟩ := Option.bind_eq_some_iff.mp htype
      obtain ⟨hsound, hsize⟩ := fieldTypes_sized (fun c hc type => ih c hc) hfields
      rw [compoundType] at htype
      obtain ⟨hok, htype⟩ := Option.ite_none_left_eq_some.mp htype
      cases htype
      have hextent : (fmt.extent (.aggregate name false children)).size =
          (inTurn (fmt.extents children)).size := by rw [extent]; rfl
      refine ⟨.aggregate (fun hsum => absurd hsum Bool.false_ne_true) hsound, ?_, ?_⟩
      · rw [hextent, hsize, insertAll_getSize]
        rfl
      · rw [insertAll_getSize]
        exact Nat.pos_of_ne_zero fun hzero => hok (.inl hzero)

theorem inTurn_peak {children : List (Stat σ)}
    (h : ∀ child ∈ children, (fmt.extent child).peak = (fmt.extent child).size) :
    (inTurn (fmt.extents children)).peak = (inTurn (fmt.extents children)).size := by
  induction children with
  | nil => rfl
  | cons child children ih =>
    obtain ⟨hchild, hrest⟩ := forall_mem_cons.mp h
    rw [extents, inTurn]
    dsimp only
    rw [hchild, ih hrest, Nat.max_eq_right (Nat.le_add_right _ _)]

/-- Nothing is written behind the record when nothing is added up. -/
theorem peak_eq {s : Stat σ} (hsum : fmt.sumRegularAggregates = false) (h : Sound fmt s) :
    (fmt.extent s).peak = (fmt.extent s).size := by
  induction h with
  | scalar name value => rfl
  | vector name counts =>
    rw [extent]
    split <;> rfl
  | @aggregate name isRegular children _ _ ih =>
    rw [extent, hsum, Bool.and_false, if_neg Bool.false_ne_true]
    exact inTurn_peak ih

/-! ### Regular aggregates that are not in one another -/

theorem plain_peak (fmt : Format) {s : Stat σ} (h : s.Plain) :
    (fmt.extent s).peak = (fmt.extent s).size := by
  induction h with
  | scalar name value => rfl
  | vector name counts =>
    rw [extent]
    split <;> rfl
  | aggregate _ ih =>
    rw [extent, Bool.false_and, if_neg Bool.false_ne_true]
    exact inTurn_peak ih

theorem inTurn_peak_le {children : List (Stat σ)}
    (h : ∀ child ∈ children, (fmt.extent child).peak ≤ 2 * (fmt.extent child).size) :
    (inTurn (fmt.extents children)).peak ≤ 2 * (inTurn (fmt.extents children)).size := by
  induction children with
  | nil => exact Nat.le_refl 0
  | cons child children ih =>
    obtain ⟨hchild, hrest⟩ := forall_mem_cons.mp h
    have hrest := ih hrest
    rw [extents, inTurn]
    dsimp only
    omega

/-- The room for one record is enough for them. -/
theorem flat_peak {s : Stat σ} (h : s.Flat) (hsound : Sound fmt s) :
    (fmt.extent s).peak ≤ 2 * (fmt.extent s).size := by
  induction h with
  | scalar name value => exact Nat.le_succ 1
  | vector name counts =>
    rw [extent]
    split
    · exact Nat.le_refl 0
    · exact Nat.le_mul_of_pos_left _ (by decide)
  | @aggregate name isRegular children hplain _ ih =>
    cases hsound with
    | aggregate hsum hchildren =>
      rw [extent]
      split
      · next hadd =>
        obtain ⟨hne, hsame⟩ := hsum hadd
        have hregular : isRegular = true := (Bool.and_eq_true _ _ ▸ hadd).1
        cases children with
        | nil => exact absurd rfl hne
        | cons child children =>
          have hpeak := plain_peak fmt (hplain hregular child mem_cons_self)
          rw [extents, addedUp, Nat.max_le, foldr_peak_le, extents_eq, forall_mem_map]
          refine ⟨by dsimp only; omega, by dsimp only; omega, fun c hc => ?_⟩
          have hc' := mem_cons_of_mem child hc
          have hsize := hsame c hc' child mem_cons_self
          have hcpeak := plain_peak fmt (hplain hregular c hc')
          dsimp only
          omega
      · exact inTurn_peak_le fun c hc => ih c hc (hchildren c hc)

end Format

/-! ### Runs -/

namespace HDF5BackendImpl

variable {σ : Type} {impl : HDF5BackendImpl σ} {size : Nat} {t : Table} {op : Bool × σ}

/-- What the constructor has found out, for a record of `size` words. -/
structure Made (impl : HDF5BackendImpl σ) (size : Nat) : Prop where
  sound : Format.Sound impl.fmt impl.rootStat
  extent : (impl.fmt.extent impl.rootStat).size = size
  pos : 0 < size
  recordSize : impl.recordSize = size * 8
  recordsPerWrite : 0 < impl.recordsPerWrite
  bufSize : impl.bufSize / 8 = impl.recordsPerWrite * size +
    if impl.fmt.sumRegularAggregates then size else 0

theorem init_made {name : String} {isRegular : Bool} {children : List (Stat σ)}
    {bytesPerWrite : Nat} {fmt : Format}
    (h : init name isRegular children bytesPerWrite fmt = some impl)
    (hproper : (Stat.aggregate name isRegular children).Proper) (hbytes : bytesPerWrite < 2 ^ 32) :
    Made impl (impl.recordSize / 8) ∧ impl.rootStat = .aggregate name isRegular children ∧
      impl.fmt = fmt := by
  obtain ⟨rootType, htype, rfl⟩ := Option.map_eq_some_iff.mp h
  have hsized := Format.getH5Type_sized hproper htype (Bool.and_false _)
  have hsize := hsized.size
  have hpos := hsized.pos
  have hsize' : rootType.getSize / 8 * 8 = rootType.getSize := by omega
  have hwords : 8 ≤ rootType.getSize := by omega
  have hcount : bytesPerWrite / rootType.getSize + 1 < 2 ^ 32 := by
    have hle : bytesPerWrite / rootType.getSize ≤ bytesPerWrite / 8 :=
      Nat.div_le_div_left hwords (by decide)
    omega
  refine ⟨⟨hsized.sound, ?_, ?_, hsize'.symm, ?_, ?_⟩, rfl, rfl⟩
  · dsimp only
    omega
  · dsimp only
    omega
  · dsimp only
    rw [Nat.mod_eq_of_lt hcount]
    exact Nat.succ_pos _
  · dsimp only
    generalize (bytesPerWrite / rootType.getSize + 1) % 2 ^ 32 = n
    rw [← hsize', Nat.mul_div_cancel _ (by decide : 0 < 8), ← Nat.mul_assoc]
    split
    · rw [← Nat.add_mul, Nat.mul_div_cancel _ (by decide : 0 < 8)]
    · rw [Nat.mul_div_cancel _ (by decide : 0 < 8), Nat.add_zero]

/-- The records of `size` words at the start of the buffer. -/
def recordsIn (size : Nat) (mem : Nat → UInt64) (n : Nat) : List (List UInt64) :=
  (range n).map fun k => (range size).map fun j => mem (k * size + j)

theorem Made.pending (h : Made impl size) (t : Table) :
    impl.pending t = recordsIn size t.buf.mem t.bufferedRecords := by
  rw [HDF5BackendImpl.pending, h.recordSize, Nat.mul_div_cancel _ (by decide)]
  rfl

/-- A record behind the others. -/
theorem recordsIn_succ {n : Nat} {b b' : Format.Buffer} {l : List UInt64}
    (hw : Format.Wrote b b' l) (hptr : b.curPtr = n * size) (hl : l.length = size) :
    recordsIn size b'.mem (n + 1) = recordsIn size b.mem n ++ [l] := by
  rw [recordsIn, range_succ, map_append, map_singleton]
  congr 1
  · refine map_congr_left fun k hk => map_congr_left fun j hj => hw.below _ ?_
    rw [mem_range] at hk hj
    calc k * size + j < k * size + size := Nat.add_lt_add_left hj _
      _ = (k + 1) * size := (Nat.succ_mul k size).symm
      _ ≤ n * size := Nat.mul_le_mul_right size hk
      _ = b.curPtr := hptr.symm
  · congr 1
    refine ext_getElem (by rw [length_map, length_range, hl]) fun j hj hj' => ?_
    rw [getElem_map, getElem_range, ← hptr]
    exact hw.written j _ (List.getElem?_eq_getElem hj')

/-- A table between two dumps, after the records `past`. -/
structure Holds (impl : HDF5BackendImpl σ) (size : Nat) (t : Table) (past : List (List UInt64)) :
    Prop where
  room : t.bufferedRecords < impl.recordsPerWrite
  curPtr : t.buf.curPtr = t.bufferedRecords * size
  records : t.file ++ impl.pending t = past

theorem Made.holds_start (h : Made impl size) (mem : Nat → UInt64) :
    Holds impl size (start mem) [] where
  room := h.recordsPerWrite
  curPtr := (Nat.zero_mul size).symm
  records := rfl

/-- A dump that stays in the buffer. -/
theorem Made.dump_fits (h : Made impl size) (op : Bool × σ) {past : List (List UInt64)}
    (ht : Holds impl size t past)
    (hfits : t.buf.curPtr + (impl.fmt.extent impl.rootStat).peak ≤ impl.bufSize / 8) :
    ∃ t', impl.dump op t = some t' ∧
      Holds impl size t' (past ++ [impl.fmt.record op.2 impl.rootStat]) ∧
      t'.bufferedRecords =
        if t.bufferedRecords + 1 = impl.recordsPerWrite ∨ op.1 = false then 0
        else t.bufferedRecords + 1 := by
  have hdumps : Format.Dumps impl.fmt (impl.bufSize / 8) op.2 impl.rootStat := h.sound.dumps
  obtain ⟨b, hb, hw⟩ := hdumps.writes.fits t.buf hfits
  have hl : (impl.fmt.record op.2 impl.rootStat).length = size := by rw [hdumps.size, h.extent]
  have hptr : b.curPtr = (t.bufferedRecords + 1) * size := by
    rw [hw.curPtr, hl, ht.curPtr, Nat.succ_mul]
  have hassert : (t.bufferedRecords + 1) * impl.recordSize / 8 = b.curPtr := by
    rw [h.recordSize, ← Nat.mul_assoc, Nat.mul_div_cancel _ (by decide), hptr]
  have hrecords : t.file ++ recordsIn size b.mem (t.bufferedRecords + 1) =
      past ++ [impl.fmt.record op.2 impl.rootStat] := by
    rw [recordsIn_succ hw ht.curPtr hl, ← append_assoc, ← h.pending, ht.records]
  have hpending : impl.pending ⟨b, t.bufferedRecords + 1, t.file⟩ =
      recordsIn size b.mem (t.bufferedRecords + 1) := h.pending _
  rw [dump, hb, Option.bind_some]
  dsimp only
  rw [if_pos hassert, hpending]
  by_cases hflush : t.bufferedRecords + 1 = impl.recordsPerWrite ∨ op.1 = false
  · rw [if_pos hflush, if_pos hflush]
    refine ⟨_, rfl, ⟨h.recordsPerWrite, (Nat.zero_mul size).symm, ?_⟩, rfl⟩
    rw [h.pending]
    exact (append_nil _).trans hrecords
  · rw [if_neg hflush, if_neg hflush]
    refine ⟨_, rfl, ⟨?_, hptr, ?_⟩, rfl⟩
    · have := ht.room
      have := not_or.mp hflush
      dsimp only
      omega
    · rw [hpending]
      exact hrecords

/-- A dump that writes behind the buffer. -/
theorem Made.dump_spills (h : Made impl size) {past : List (List UInt64)}
    (ht : Holds impl size t past)
    (hspill : impl.bufSize / 8 < t.buf.curPtr + (impl.fmt.extent impl.rootStat).peak) :
    impl.dump op t = none := by
  have hdumps : Format.Dumps impl.fmt (impl.bufSize / 8) op.2 impl.rootStat := h.sound.dumps
  have hroom : t.buf.curPtr ≤ impl.bufSize / 8 := by
    rw [ht.curPtr, h.bufSize]
    exact Nat.le_add_right_of_le (Nat.mul_le_mul_right size (Nat.le_of_lt ht.room))
  rw [dump, hdumps.writes.spills t.buf hroom hspill, Option.bind_none]

/-- The buffer has room for the record and what goes behind it. -/
theorem Made.fits (h : Made impl size)
    (hpeak : impl.fmt.sumRegularAggregates = true →
      (impl.fmt.extent impl.rootStat).peak ≤ 2 * size) {past : List (List UInt64)}
    (ht : Holds impl size t past) :
    t.buf.curPtr + (impl.fmt.extent impl.rootStat).peak ≤ impl.bufSize / 8 := by
  have hroom : (t.bufferedRecords + 1) * size ≤ impl.recordsPerWrite * size :=
    Nat.mul_le_mul_right size ht.room
  rw [Nat.succ_mul] at hroom
  rw [h.bufSize, ht.curPtr]
  cases hsum : impl.fmt.sumRegularAggregates with
  | true =>
    have hpeak := hpeak hsum
    rw [if_pos rfl]
    omega
  | false =>
    rw [Format.peak_eq hsum h.sound, h.extent, if_neg Bool.false_ne_true]
    omega

theorem Made.run_holds (h : Made impl size)
    (hpeak : impl.fmt.sumRegularAggregates = true →
      (impl.fmt.extent impl.rootStat).peak ≤ 2 * size) (ops : List (Bool × σ))
    {past : List (List UInt64)} (ht : Holds impl size t past) :
    ∃ t', run impl.dump ops t = some t' ∧
      Holds impl size t' (past ++ ops.map fun op => impl.fmt.record op.2 impl.rootStat) := by
  induction ops generalizing t past with
  | nil => exact ⟨t, rfl, by rw [map_nil, append_nil]; exact ht⟩
  | cons op ops ih =>
    obtain ⟨t1, ht1, hholds, -⟩ := h.dump_fits op ht (h.fits hpeak ht)
    obtain ⟨t2, ht2, hholds⟩ := ih hholds
    refine ⟨t2, by rw [run, ht1, Option.bind_some, ht2], ?_⟩
    rwa [append_assoc, singleton_append] at hholds

/-- Dumps that are buffered come to the end of the buffer, or fail before. -/
theorem Made.run_buffered (h : Made impl size) (sys : σ) (mem : Nat → UInt64) (n : Nat)
    (hn : n < impl.recordsPerWrite) :
    run impl.dump (replicate n (true, sys)) (start mem) = none ∨
      ∃ t past, run impl.dump (replicate n (true, sys)) (start mem) = some t ∧
        Holds impl size t past ∧ t.bufferedRecords = n := by
  induction n with
  | zero => exact .inr ⟨_, _, rfl, h.holds_start mem, rfl⟩
  | succ n ih =>
    rw [replicate_succ', run_append]
    rcases ih (Nat.lt_of_succ_lt hn) with hnone | ⟨t, past, ht, hholds, hbuffered⟩
    · rw [hnone]
      exact .inl rfl
    · rw [ht, Option.bind_some, run]
      by_cases hfits : t.buf.curPtr + (impl.fmt.extent impl.rootStat).peak ≤ impl.bufSize / 8
      · obtain ⟨t1, ht1, hholds1, hbuffered1⟩ := h.dump_fits (true, sys) hholds hfits
        rw [hbuffered, if_neg (by simp; omega)] at hbuffered1
        exact .inr ⟨t1, _, by rw [ht1]; rfl, hholds1, hbuffered1⟩
      · rw [h.dump_spills hholds (Nat.lt_of_not_le hfits)]
        exact .inl rfl

/-- Records that need more room behind them come to the end of the buffer. -/
theorem Made.run_spills (h : Made impl size) (sys : σ) (mem : Nat → UInt64)
    (hsum : impl.fmt.sumRegularAggregates = true)
    (hpeak : 2 * size < (impl.fmt.extent impl.rootStat).peak) :
    run impl.dump (replicate impl.recordsPerWrite (true, sys)) (start mem) = none := by
  obtain ⟨n, hn⟩ := Nat.exists_eq_succ_of_ne_zero (Nat.ne_of_gt h.recordsPerWrite)
  rw [hn, replicate_succ', run_append]
  rcases h.run_buffered sys mem n (by omega) with hnone | ⟨t, past, ht, hholds, hbuffered⟩
  · rw [hnone]
    rfl
  · have hspill : impl.bufSize / 8 < t.buf.curPtr + (impl.fmt.extent impl.rootStat).peak := by
      rw [h.bufSize, hn, hholds.curPtr, hbuffered, hsum, if_pos rfl, Nat.succ_mul]
      omega
    rw [ht, Option.bind_some, run, h.dump_spills hholds hspill]
    rfl

end HDF5BackendImpl

/-- When the root has a type, the dumps of every run pass their assertions and stay in the buffer,
and the file and the buffer have their records in turn, all in the file after a dump that is not to
be buffered, if and only if the records of regular aggregates that are added up need at most as much
room behind the record as it has itself; so they do when regular aggregates are not in one
another. -/
theorem dumps_recorded {σ : Type} {name : String} {isRegular : Bool} {children : List (Stat σ)}
    {bytesPerWrite : Nat} {fmt : Format} {impl : HDF5BackendImpl σ}
    (hinit : HDF5BackendImpl.init name isRegular children bytesPerWrite fmt = some impl)
    (hproper : (Stat.aggregate name isRegular children).Proper) (hbytes : bytesPerWrite < 2 ^ 32)
    (mem : Nat → UInt64) (sys : σ) :
    ((∀ ops, ∃ t, run impl.dump ops (HDF5BackendImpl.start mem) = some t ∧
      (t.file ++ impl.pending t =
        ops.map fun op => fmt.record op.2 (.aggregate name isRegular children)) ∧
      ∀ op, ops.getLast? = some op → op.1 = false → impl.pending t = []) ↔
    (fmt.sumRegularAggregates = true →
      (fmt.extent (.aggregate name isRegular children)).peak ≤
        2 * (fmt.extent (.aggregate name isRegular children)).size)) ∧
    ((Stat.aggregate name isRegular children).Flat →
      (fmt.extent (.aggregate name isRegular children)).peak ≤
        2 * (fmt.extent (.aggregate name isRegular children)).size) := by
  obtain ⟨hmade, hroot, hfmt⟩ := HDF5BackendImpl.init_made hinit hproper hbytes
  have hsound := hmade.sound
  rw [hroot, hfmt] at hsound
  refine ⟨?_, fun hflat => Format.flat_peak hflat hsound⟩
  rw [← hroot, ← hfmt, hmade.extent]
  constructor
  · intro hall hsum
    by_contra hpeak
    obtain ⟨t, ht, -⟩ := hall (replicate impl.recordsPerWrite (true, sys))
    rw [hmade.run_spills sys mem hsum (Nat.lt_of_not_le hpeak)] at ht
    cases ht
  · intro hpeak ops
    have hstart := hmade.holds_start mem
    rcases eq_nil_or_concat' ops with rfl | ⟨front, op, rfl⟩
    · exact ⟨_, rfl, rfl, fun op hop => by cases hop⟩
    · obtain ⟨t, ht, hholds⟩ := hmade.run_holds hpeak front hstart
      obtain ⟨t', ht', hholds', hbuffered⟩ :=
        hmade.dump_fits op hholds (hmade.fits hpeak hholds)
      refine ⟨t', ?_, ?_, fun last hlast hflush => ?_⟩
      · rw [run_append, ht, Option.bind_some, run, ht']
        rfl
      · rw [hholds'.records, nil_append, map_append, map_singleton]
      · rw [getLast?_concat] at hlast
        cases hlast
        rw [if_pos (.inr hflush)] at hbuffered
        rw [hmade.pending, hbuffered]
        rfl

/-! ### The hits of two caches -/

/-- The hits of cache `i`. -/
def tinyCache (i : Nat) : Stat (Nat → UInt64) :=
  .aggregate "l1" false [.scalar "hits" fun sys => sys i]

/-- The caches are a regular aggregate beside a counter. -/
def tinyChildren : List (Stat (Nat → UInt64)) :=
  [.aggregate "l1" true [tinyCache 0, tinyCache 1], .scalar "phase" fun sys => sys 2]

def tinyFormat : Format := ⟨false, true⟩

def tinyBackend : HDF5BackendImpl (Nat → UInt64) :=
  ⟨.aggregate "root" false tinyChildren, tinyFormat, 16, 1, 32⟩

theorem tiny_getH5Type : tinyFormat.getH5Type (.aggregate "root" false tinyChildren) =
    some (.insert (.insert (.compound 16) "l1" 0 (.insert (.compound 8) "hits" 0 .ulong))
      "phase" 8 .ulong) := by
  decide +kernel

theorem tinyBackend_init :
    HDF5BackendImpl.init "root" false tinyChildren 0 tinyFormat = some tinyBackend := by
  rw [HDF5BackendImpl.init]
  dsimp only
  rw [tiny_getH5Type]
  rfl

theorem tinyCache_proper (i : Nat) : (tinyCache i).Proper :=
  .aggregate (fun h => absurd h Bool.false_ne_true)
    (forall_mem_singleton.mpr (.scalar _ _))

theorem tiny_proper : (Stat.aggregate "root" false tinyChildren).Proper := by
  refine .aggregate (fun h => absurd h Bool.false_ne_true) ?_
  rw [tinyChildren, forall_mem_cons, forall_mem_singleton]
  refine ⟨.aggregate (fun _ => ?_) ?_, .scalar _ _⟩
  · rw [forall_mem_cons, forall_mem_singleton]
    exact ⟨rfl, rfl⟩
  · rw [forall_mem_cons, forall_mem_singleton]
    exact ⟨tinyCache_proper 0, tinyCache_proper 1⟩

theorem dumps_recorded_tiny :
    ((∀ ops, ∃ t, run tinyBackend.dump ops (HDF5BackendImpl.start fun _ => 0) = some t ∧
      (t.file ++ tinyBackend.pending t =
        ops.map fun op => tinyFormat.record op.2 (.aggregate "root" false tinyChildren)) ∧
      ∀ op, ops.getLast? = some op → op.1 = false → tinyBackend.pending t = []) ↔
    (tinyFormat.sumRegularAggregates = true →
      (tinyFormat.extent (.aggregate "root" false tinyChildren)).peak ≤
        2 * (tinyFormat.extent (.aggregate "root" false tinyChildren)).size)) ∧
    ((Stat.aggregate "root" false tinyChildren).Flat →
      (tinyFormat.extent (.aggregate "root" false tinyChildren)).peak ≤
        2 * (tinyFormat.extent (.aggregate "root" false tinyChildren)).size) :=
  dumps_recorded tinyBackend_init tiny_proper (by decide) (fun _ => 0) fun _ => 0

/-- With nothing else in the record, regular aggregates in one another need more room than there
is. -/
example :
    let caches : Stat (Nat → UInt64) := .aggregate "l1s" true [tinyCache 0, tinyCache 1]
    let e := tinyFormat.extent (.aggregate "root" false [.aggregate "groups" true [caches, caches]])
    e.size = 1 ∧ e.peak = 3 := ⟨rfl, rfl⟩

end Doppelganger.Stats
