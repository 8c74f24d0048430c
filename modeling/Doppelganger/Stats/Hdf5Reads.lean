import Doppelganger.Stats.Hdf5Runs

/-! Records as a reader of the file sees them: what the type of the root locates at a path of names
and indices is what the counters on this path have counted. -/

namespace Doppelganger.Stats

open List Lib

/-- A step into a value of a compound type or of an array type. -/
inductive Step
  | member (name : String)
  | elem (i : Nat)
deriving DecidableEq

/-- Where a reader of the file finds a part of a value, in bytes, and of which type it is. -/
def H5Type.locate : H5Type → List Step → Option (Nat × H5Type)
  | type, [] => some (0, type)
  | .array elem dim, .elem i :: path =>
    if i < dim then (elem.locate path).map fun place => (i * elem.getSize + place.1, place.2)
    else none
  | .insert type name offset member, .member name' :: path =>
    if name' = name then (member.locate path).map fun place => (offset + place.1, place.2)
    else type.locate (.member name' :: path)
  | _, _ :: _ => none

theorem H5Type.locate_nil (type : H5Type) : type.locate [] = some (0, type) := by
  cases type <;> rfl

theorem H5Type.locate_ulong (step : Step) (path : List Step) :
    H5Type.ulong.locate (step :: path) = none := by
  simp [H5Type.locate]

namespace Format

variable {σ : Type} (fmt : Format)

mutual

/-- What the counters that a path leads to have counted: it leads to all members of a regular
aggregate whose records are added up. -/
def valuesAt (sys : σ) : Stat σ → List Step → Option (List UInt64)
  | s, [] => some (fmt.record sys s)
  | .vector _ counts, [.elem i] => counts[i]?.map fun count => [count sys]
  | .aggregate _ isRegular children, step :: path =>
    if isRegular then
      if fmt.sumRegularAggregates then (allAt sys children (step :: path)).map addUp
      else match step with
        | .elem i => elemAt sys i children path
        | .member _ => none
    else match step with
      | .member name => memberAt sys name children path
      | .elem _ => none
  | _, _ :: _ => none

def allAt (sys : σ) : List (Stat σ) → List Step → Option (List (List UInt64))
  | [], _ => some []
  | child :: children, path =>
    (valuesAt sys child path).bind fun values => (allAt sys children path).map (values :: ·)

def elemAt (sys : σ) (i : Nat) : List (Stat σ) → List Step → Option (List UInt64)
  | [], _ => none
  | child :: children, path =>
    if i = 0 then valuesAt sys child path else elemAt sys (i - 1) children path

def memberAt (sys : σ) (name : String) : List (Stat σ) → List Step → Option (List UInt64)
  | [], _ => none
  | child :: children, path =>
    if fmt.skipStat child = false ∧ child.name = name then valuesAt sys child path
    else memberAt sys name children path

end

theorem valuesAt_aggregate (sys : σ) (name : String) (isRegular : Bool) (children : List (Stat σ))
    (step : Step) (path : List Step) :
    fmt.valuesAt sys (.aggregate name isRegular children) (step :: path) =
      if isRegular then
        if fmt.sumRegularAggregates then (fmt.allAt sys children (step :: path)).map addUp
        else match step with
          | .elem i => fmt.elemAt sys i children path
          | .member _ => none
      else match step with
        | .member name => fmt.memberAt sys name children path
        | .elem _ => none := by
  rw [valuesAt.eq_def]
  cases step <;> cases path <;> rfl

/-- `n` words of a record from place `o` on are `values`. -/
structure Slice (record : List UInt64) (o n : Nat) (values : List UInt64) : Prop where
  le : o + n ≤ record.length
  eq : (record.drop o).take n = values

namespace Slice

variable {record record' values values' : List UInt64} {o o' n : Nat}

theorem length (h : Slice record o n values) : values.length = n := by
  have := h.le
  rw [← h.eq, length_take, length_drop]
  omega

theorem whole (record : List UInt64) : Slice record 0 record.length record where
  le := Nat.le_of_eq (Nat.zero_add _)
  eq := by rw [drop_zero, take_length]

/-- A slice of a record that is behind others. -/
theorem append_left (h : Slice record o n values) (front : List UInt64) :
    Slice (front ++ record) (front.length + o) n values where
  le := by
    have := h.le
    rw [length_append]
    omega
  eq := by rw [drop_length_add_append, h.eq]

/-- A slice of a record that is before others. -/
theorem append_right (h : Slice record o n values) (back : List UInt64) :
    Slice (record ++ back) o n values where
  le := by
    have := h.le
    rw [length_append]
    omega
  eq := by
    have := h.le
    rw [drop_append_of_le_length (by omega),
      take_append_of_le_length (by rw [length_drop]; omega), h.eq]

theorem zipWith (h : Slice record o n values) (h' : Slice record' o n values') :
    Slice (List.zipWith (· + ·) record record') o n (List.zipWith (· + ·) values values') where
  le := by
    have := h.le
    have := h'.le
    rw [length_zipWith]
    omega
  eq := by rw [drop_zipWith, take_zipWith, h.eq, h'.eq]

end Slice

variable {fmt : Format} {sys : σ}

/-- What a reader finds is what the path leads to. -/
structure Reads (fmt : Format) (sys : σ) (s : Stat σ) (type : H5Type) : Prop where
  sized : Sized fmt s type
  found : ∀ path off part, type.locate path = some (off, part) → ∃ values o,
    fmt.valuesAt sys s path = some values ∧ off = o * 8 ∧
      Slice (fmt.record sys s) o values.length values ∧ values.length * 8 = part.getSize

theorem Sized.length_record {s : Stat σ} {type : H5Type} (h : Sized fmt s type) (sys : σ) :
    (fmt.record sys s).length * 8 = type.getSize := by
  have hdumps : Dumps fmt 0 sys s := h.sound.dumps
  rw [hdumps.size, h.size]

/-- The whole record, at no path. -/
theorem Sized.whole {s : Stat σ} {type part : H5Type} (h : Sized fmt s type) (sys : σ) {off : Nat}
    (hloc : type.locate [] = some (off, part)) : ∃ values o,
    fmt.valuesAt sys s [] = some values ∧ off = o * 8 ∧
      Slice (fmt.record sys s) o values.length values ∧ values.length * 8 = part.getSize := by
  rw [H5Type.locate_nil] at hloc
  cases hloc
  refine ⟨fmt.record sys s, 0, ?_, rfl, .whole _, h.length_record sys⟩
  cases s <;> rfl

theorem reads_vector {name : String} {counts : List (σ → UInt64)} {type : H5Type}
    (hvectors : ¬fmt.skipVectors = true) (h : Sized fmt (.vector name counts) type)
    (htype : type = .ulong ∨ type = .array .ulong counts.length) :
    Reads fmt sys (.vector name counts) type := by
  refine ⟨h, fun path off part hloc => ?_⟩
  cases path with
  | nil => exact h.whole sys hloc
  | cons step path =>
    rcases htype with rfl | rfl
    · rw [H5Type.locate_ulong] at hloc
      cases hloc
    · cases step with
      | member name => cases hloc
      | elem i =>
        rw [H5Type.locate] at hloc
        obtain ⟨hi, hloc⟩ := Option.ite_none_right_eq_some.mp hloc
        cases path with
        | cons step path =>
          rw [H5Type.locate_ulong] at hloc
          cases hloc
        | nil =>
          cases hloc
          have hrecord : fmt.record sys (.vector name counts) =
              counts.map fun count => count sys := by rw [record, if_neg hvectors]
          refine ⟨[counts[i] sys], i, ?_, rfl, ⟨?_, ?_⟩, rfl⟩
          · rw [valuesAt, List.getElem?_eq_getElem hi]
            rfl
          · rw [hrecord, length_map]
            exact hi
          · rw [hrecord, length_singleton, drop_eq_getElem_cons (by rwa [length_map]),
              take_succ_cons, take_zero, getElem_map]

theorem memberAt_cons {name : String} {child : Stat σ} {children : List (Stat σ)}
    {path : List Step} : fmt.memberAt sys name (child :: children) path =
      if fmt.skipStat child = false ∧ child.name = name then fmt.valuesAt sys child path
      else fmt.memberAt sys name children path := by
  rw [memberAt]

/-- The members of a compound type, after others in `res`. -/
theorem member_found {children : List (Stat σ)}
    (h : ∀ child ∈ children, ∀ type, fmt.getH5Type child = some type →
      fmt.skipStat child = false → Reads fmt sys child type)
    {fields : List (String × H5Type)} (hfields : fmt.fieldTypes children = some fields)
    (hnodup : (fields.map Prod.fst).Nodup) {res : H5Type} {offset off : Nat} {part : H5Type}
    {name : String} {path : List Step}
    (hloc : (insertAll res offset fields).locate (.member name :: path) = some (off, part)) :
    (name ∈ fields.map Prod.fst ∧ ∃ values o,
      fmt.memberAt sys name children path = some values ∧ off = offset + o * 8 ∧
        Slice (fmt.records sys children).flatten o values.length values ∧
        values.length * 8 = part.getSize) ∨
      name ∉ fields.map Prod.fst ∧ res.locate (.member name :: path) = some (off, part) := by
  induction children generalizing fields res offset with
  | nil =>
    cases hfields
    exact .inr ⟨not_mem_nil, hloc⟩
  | cons child children ih =>
    have hrest := fun c hc => h c (mem_cons_of_mem child hc)
    rw [fieldTypes] at hfields
    rw [memberAt_cons, records, flatten_cons]
    split at hfields
    · next hskip =>
      rw [if_neg (by rw [hskip]; simp)]
      have hnothing : fmt.record sys child = [] := by
        obtain ⟨hvectors, name, counts, rfl⟩ := skipStat_vector hskip
        rw [record, if_pos hvectors]
      rw [hnothing, nil_append]
      exact ih hrest hfields hnodup hloc
    · next hskip =>
      obtain ⟨type, htype, hfields⟩ := Option.bind_eq_some_iff.mp hfields
      obtain ⟨others, hothers, rfl⟩ := Option.map_eq_some_iff.mp hfields
      have hskip : fmt.skipStat child = false := by simpa using hskip
      have hchild := h child mem_cons_self type htype hskip
      rw [map_cons, nodup_cons] at hnodup
      rw [insertAll] at hloc
      rcases ih hrest hothers hnodup.2 hloc with ⟨hmem, values, o, hvalues, hoff, hslice, hsize⟩ |
        ⟨hnot, hloc⟩
      · left
        have hne : ¬(fmt.skipStat child = false ∧ child.name = name) := by
          rintro ⟨-, rfl⟩
          exact hnodup.1 hmem
        refine ⟨mem_cons_of_mem _ hmem, values, (fmt.record sys child).length + o, ?_, ?_,
          hslice.append_left _, hsize⟩
        · rw [if_neg hne, hvalues]
        · rw [hoff, Nat.add_mul, hchild.sized.length_record, Nat.add_assoc]
      · rw [H5Type.locate] at hloc
        by_cases hname : name = child.name
        · subst hname
          rw [if_pos rfl] at hloc
          obtain ⟨⟨off', part'⟩, hplace, hloc⟩ := Option.map_eq_some_iff.mp hloc
          cases hloc
          obtain ⟨values, o, hvalues, hoff, hslice, hsize⟩ := hchild.found path off' _ hplace
          refine .inl ⟨mem_cons_self, values, o, ?_, ?_, hslice.append_right _, hsize⟩
          · rw [if_pos ⟨hskip, rfl⟩, hvalues]
          · dsimp only
            rw [hoff]
        · rw [if_neg hname] at hloc
          right
          refine ⟨fun hmem => ?_, hloc⟩
          rcases mem_cons.mp hmem with heq | hmem
          · exact hname heq
          · exact hnot hmem

/-- The elements of an array. -/
theorem elem_found {children : List (Stat σ)} {childType : H5Type}
    (h : ∀ child ∈ children, Reads fmt sys child childType) {i off : Nat}
    (hi : i < children.length) {path : List Step} {part : H5Type}
    (hloc : childType.locate path = some (off, part)) : ∃ values o,
      fmt.elemAt sys i children path = some values ∧
        i * childType.getSize + off = o * 8 ∧
        Slice (fmt.records sys children).flatten o values.length values ∧
        values.length * 8 = part.getSize := by
  induction children generalizing i with
  | nil => exact absurd hi (Nat.not_lt_zero i)
  | cons child children ih =>
    obtain ⟨hchild, hrest⟩ := forall_mem_cons.mp h
    rw [elemAt, records, flatten_cons]
    cases i with
    | zero =>
      obtain ⟨values, o, hvalues, hoff, hslice, hsize⟩ := hchild.found path off part hloc
      refine ⟨values, o, by rw [if_pos rfl, hvalues], ?_, hslice.append_right _, hsize⟩
      rw [Nat.zero_mul, Nat.zero_add, hoff]
    | succ i =>
      obtain ⟨values, o, hvalues, hoff, hslice, hsize⟩ := ih hrest (Nat.lt_of_succ_lt_succ hi)
      refine ⟨values, (fmt.record sys child).length + o, ?_, ?_, hslice.append_left _, hsize⟩
      · rw [if_neg (Nat.succ_ne_zero i), Nat.add_sub_cancel, hvalues]
      · have hlength := hchild.sized.length_record sys
        rw [Nat.succ_mul]
        omega

/-- The sums of the members of a regular aggregate, after those in `acc`. -/
theorem sum_found {children : List (Stat σ)} {childType : H5Type}
    (h : ∀ child ∈ children, Reads fmt sys child childType) {off : Nat} {path : List Step}
    {part : H5Type} (hloc : childType.locate path = some (off, part)) {acc values : List UInt64}
    {o : Nat} (hoff : off = o * 8) (hacc : Slice acc o values.length values)
    (hsize : values.length * 8 = part.getSize) : ∃ all,
      fmt.allAt sys children path = some all ∧
        Slice ((fmt.records sys children).foldl (List.zipWith (· + ·)) acc) o values.length
          (all.foldl (List.zipWith (· + ·)) values) := by
  induction children generalizing acc values with
  | nil => exact ⟨[], rfl, hacc⟩
  | cons child children ih =>
    obtain ⟨hchild, hrest⟩ := forall_mem_cons.mp h
    obtain ⟨values', o', hvalues, hoff', hslice, hsize'⟩ := hchild.found path off part hloc
    obtain rfl : o = o' := by omega
    have hlength : values'.length = values.length := by omega
    rw [hlength] at hslice
    have hadd := hacc.zipWith hslice
    have hkeep := hadd.length
    rw [← hkeep] at hadd
    obtain ⟨all, hall, hfold⟩ := ih hrest hadd (by rw [hkeep, hsize])
    refine ⟨values' :: all, by rw [allAt, hvalues, Option.bind_some, hall]; rfl, ?_⟩
    rw [hkeep] at hfold
    exact hfold

theorem reads_regular {name : String} {children : List (Stat σ)} {types : List H5Type}
    {type : H5Type} (hregular : regularType fmt types = some type)
    (h : Forall₂ (Reads fmt sys) children types) :
    Reads fmt sys (.aggregate name true children) type := by
  have hsized : Sized fmt (.aggregate name true children) type :=
    regular_sized hregular (h.imp fun _ _ hchild => hchild.sized)
  refine ⟨hsized, fun path off part hloc => ?_⟩
  cases path with
  | nil => exact hsized.whole sys hloc
  | cons step path =>
    cases h with
    | nil => cases hregular
    | @cons child childType children types hchild hrest =>
      rw [regularType] at hregular
      obtain ⟨hall, hregular⟩ := Option.ite_none_right_eq_some.mp hregular
      have hreads : ∀ c ∈ children, Reads fmt sys c childType := same_type hrest hall
      rw [valuesAt_aggregate, if_pos rfl, record]
      cases hsum : fmt.sumRegularAggregates with
      | true =>
        rw [hsum, if_pos rfl] at hregular
        cases hregular
        obtain ⟨values, o, hvalues, hoff, hslice, hsize⟩ := hchild.found _ _ _ hloc
        obtain ⟨all, hallAt, hsums⟩ := sum_found hreads hloc hoff hslice hsize
        have hlength := hsums.length
        refine ⟨all.foldl (List.zipWith (· + ·)) values, o, ?_, hoff, ?_, by rw [hlength, hsize]⟩
        · rw [if_pos rfl, allAt, hvalues, Option.bind_some, hallAt]
          rfl
        · rw [hlength]
          exact hsums
      | false =>
        rw [hsum, if_neg Bool.false_ne_true] at hregular
        cases hregular
        cases step with
        | member name => cases hloc
        | elem i =>
          rw [H5Type.locate] at hloc
          obtain ⟨hi, hloc⟩ := Option.ite_none_right_eq_some.mp hloc
          obtain ⟨⟨off', part'⟩, hplace, hloc⟩ := Option.map_eq_some_iff.mp hloc
          cases hloc
          rw [← hrest.length_eq] at hi
          exact elem_found (forall_mem_cons.mpr ⟨hchild, hreads⟩) hi hplace

theorem locate_compound (size : Nat) (step : Step) (path : List Step) :
    (H5Type.compound size).locate (step :: path) = none := by
  simp [H5Type.locate]

theorem locate_insertAll (i : Nat) (path : List Step)
    (fields : List (String × H5Type)) {res : H5Type} (hres : res.locate (.elem i :: path) = none)
    (offset : Nat) (hinsert : ∀ elem dim, res ≠ .array elem dim) :
    (insertAll res offset fields).locate (.elem i :: path) = none := by
  induction fields generalizing res offset with
  | nil => exact hres
  | cons field fields ih => exact ih (by simp [H5Type.locate]) _ fun _ _ => H5Type.noConfusion

/-- Whatever a reader locates in a record by its type is what the path leads to. -/
theorem getH5Type_reads (sys : σ) {s : Stat σ} (h : s.Proper) {type : H5Type}
    (htype : fmt.getH5Type s = some type) (hskip : fmt.skipStat s = false) :
    Reads fmt sys s type := by
  have hsized := getH5Type_sized h htype hskip
  induction h generalizing type with
  | scalar name value =>
    cases htype
    refine ⟨hsized, fun path off part hloc => ?_⟩
    cases path with
    | nil => exact hsized.whole sys hloc
    | cons step path =>
      rw [H5Type.locate_ulong] at hloc
      cases hloc
  | vector name counts =>
    have hvectors : ¬fmt.skipVectors = true := by
      rw [skipStat] at hskip
      simpa [Stat.isVector] using hskip
    refine reads_vector hvectors hsized ?_
    rw [getH5Type] at htype
    split at htype
    · exact .inr (Option.some.inj htype).symm
    · obtain ⟨-, htype⟩ := Option.ite_none_right_eq_some.mp htype
      exact .inl (Option.some.inj htype).symm
  | @aggregate name isRegular children hregular hproper ih =>
    rw [getH5Type] at htype
    cases isRegular with
    | true =>
      rw [if_pos rfl] at htype
      obtain ⟨-, htype⟩ := Option.ite_none_left_eq_some.mp htype
      obtain ⟨types, htypes, htype⟩ := Option.bind_eq_some_iff.mp htype
      have hboth := (forall₂_and_left _ _).mpr
        ⟨fun c hc => And.intro hc (hregular rfl c hc), childTypes_eq htypes⟩
      refine reads_regular htype (hboth.imp ?_)
      rintro c ctype ⟨⟨hc, haggregate⟩, hctype⟩
      have hkept : fmt.skipStat c = false := by
        cases c with
        | scalar name value => cases haggregate
        | vector name counts => cases haggregate
        | aggregate name isRegular cs => exact Bool.and_false _
      exact ih c hc hctype hkept (getH5Type_sized (hproper c hc) hctype hkept)
    | false =>
      rw [if_neg Bool.false_ne_true] at htype
      obtain ⟨fields, hfields, htype⟩ := Option.bind_eq_some_iff.mp htype
      rw [compoundType] at htype
      obtain ⟨hok, htype⟩ := Option.ite_none_left_eq_some.mp htype
      cases htype
      refine ⟨hsized, fun path off part hloc => ?_⟩
      cases path with
      | nil => exact hsized.whole sys hloc
      | cons step path =>
        rw [valuesAt_aggregate, if_neg Bool.false_ne_true, record]
        cases step with
        | elem i =>
          rw [locate_insertAll i path fields (locate_compound _ _ _) 0
            fun _ _ => H5Type.noConfusion] at hloc
          cases hloc
        | member member =>
          have hchildren : ∀ child ∈ children, ∀ type, fmt.getH5Type child = some type →
              fmt.skipStat child = false → Reads fmt sys child type :=
            fun c hc type htype hkept =>
              ih c hc htype hkept (getH5Type_sized (hproper c hc) htype hkept)
          rcases member_found hchildren hfields (of_not_not fun h => hok (.inr h)) hloc with
            ⟨-, values, o, hvalues, hoff, hslice, hsize⟩ | ⟨-, hloc⟩
          · exact ⟨values, o, hvalues, by rw [hoff, Nat.zero_add], hslice, hsize⟩
          · rw [locate_compound] at hloc
            cases hloc

end Format

/-- What a reader of the file locates in a record by a path of names and indices, with the type of
the root, are the counters that the path leads to, those of the members of a regular aggregate added
up if that was asked for. -/
theorem record_read {σ : Type} {fmt : Format} {name : String} {isRegular : Bool}
    {children : List (Stat σ)} {type : H5Type}
    (hproper : (Stat.aggregate name isRegular children).Proper)
    (htype : fmt.getH5Type (.aggregate name isRegular children) = some type) (sys : σ)
    {path : List Step} {off : Nat} {part : H5Type}
    (hloc : type.locate path = some (off, part)) :
    ∃ values, fmt.valuesAt sys (.aggregate name isRegular children) path = some values ∧
      values.length * 8 = part.getSize ∧ off % 8 = 0 ∧
      ((fmt.record sys (.aggregate name isRegular children)).drop (off / 8)).take
        (part.getSize / 8) = values := by
  have hreads := Format.getH5Type_reads sys hproper htype (Bool.and_false _)
  obtain ⟨values, o, hvalues, rfl, hslice, hsize⟩ := hreads.found path off part hloc
  refine ⟨values, hvalues, hsize, Nat.mul_mod_left o 8, ?_⟩
  rw [← hsize, Nat.mul_div_cancel _ (by decide), Nat.mul_div_cancel _ (by decide)]
  exact hslice.eq

/-- The hits of both caches are one word. -/
theorem record_read_tiny : ∃ values,
    tinyFormat.valuesAt (fun i => 10 + i.toUInt64) (.aggregate "root" false tinyChildren)
        [.member "l1", .member "hits"] = some values ∧
      values.length * 8 = H5Type.ulong.getSize ∧ 0 % 8 = 0 ∧
      ((tinyFormat.record (fun i => 10 + i.toUInt64) (.aggregate "root" false tinyChildren)).drop
        (0 / 8)).take (H5Type.ulong.getSize / 8) = values :=
  record_read tiny_proper tiny_getH5Type (fun i => 10 + i.toUInt64) (by decide)

end Doppelganger.Stats
