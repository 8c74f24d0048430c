import Doppelganger.Trace.SortTrace
import Doppelganger.Lib.Merge
import Mathlib.Data.List.Nodup

/-! What `sorttrace` writes.  While it runs, what is not written is in the queues of the children or
still to be read; a child without a head has no access that was read, and the loop that writes runs
only while each child has a head or nothing is left to read. -/

namespace Doppelganger.Trace.SortTrace

open List Lib

/-! ### Heads -/

theorem neg_toInt {a : UInt64} (ha : a.toNat < 2 ^ 63) : (-a).toInt64.toInt = -a.toNat := by
  have hsmall : a.toBitVec.toInt = a.toNat := BitVec.toInt_eq_toNat_of_lt (by simp; omega)
  calc (-a).toInt64.toInt = (-a.toBitVec).toInt := rfl
    _ = (-(a.toNat : Int)).bmod (2 ^ 64) := by rw [BitVec.toInt_neg, hsmall]
    _ = -a.toNat := Int.bmod_eq_of_le (by omega) (by omega)

theorem Head.less_iff {a b : Head} : a.less b = true ↔
    a.1.toInt < b.1.toInt ∨ a.1.toInt = b.1.toInt ∧ a.2.toNat < b.2.toNat := by
  rw [less, Bool.or_eq_true, Bool.and_eq_true, decide_eq_true_iff, decide_eq_true_iff, beq_iff_eq,
    Int64.lt_iff_toInt_lt, UInt32.lt_iff_toNat_lt, Int64.toInt_inj]

theorem Head.less_false_iff {a b : Head} : a.less b = false ↔
    ¬(a.1.toInt < b.1.toInt ∨ a.1.toInt = b.1.toInt ∧ a.2.toNat < b.2.toNat) := by
  rw [← Head.less_iff, Bool.not_eq_true]

/-- The head of an earlier access is not less. -/
theorem cycle_le_of_less {a b : AccessRecord} (ha : a.reqCycle.toNat < 2 ^ 63)
    (hb : b.reqCycle.toNat < 2 ^ 63) (h : (headOf a).less (headOf b) = false) :
    a.reqCycle.toNat ≤ b.reqCycle.toNat := by
  have hless := Head.less_false_iff.mp h
  rw [headOf, headOf, neg_toInt ha, neg_toInt hb] at hless
  omega

theorem foldl_top (head : Head) (heads : List Head) :
    (heads.foldl (fun a b => if a.less b then b else a) head) ∈ head :: heads ∧
      ∀ x ∈ head :: heads,
        (heads.foldl (fun a b => if a.less b then b else a) head).less x = false := by
  induction heads generalizing head with
  | nil =>
    refine ⟨mem_cons_self .., fun x hx => ?_⟩
    rw [mem_singleton.mp hx, foldl_nil, Head.less_false_iff]
    omega
  | cons y heads ih =>
    rw [foldl_cons]
    split
    case isTrue hless =>
      obtain ⟨hmem, hmax⟩ := ih y
      generalize heads.foldl (fun a b => if a.less b then b else a) y = next at hmem hmax
      refine ⟨mem_cons_of_mem _ hmem, fun x hx => ?_⟩
      rcases mem_cons.mp hx with rfl | hx
      · have hy := Head.less_false_iff.mp (hmax y (mem_cons_self ..))
        have hless := Head.less_iff.mp hless
        rw [Head.less_false_iff]
        omega
      · exact hmax x hx
    case isFalse hless =>
      obtain ⟨hmem, hmax⟩ := ih head
      generalize heads.foldl (fun a b => if a.less b then b else a) head = next at hmem hmax
      have hhead := Head.less_false_iff.mp (hmax head (mem_cons_self ..))
      refine ⟨?_, fun x hx => ?_⟩
      · exact (mem_cons.mp hmem).elim (fun h => h ▸ mem_cons_self ..)
          fun h => mem_cons_of_mem _ (mem_cons_of_mem _ h)
      · rcases mem_cons.mp hx with rfl | hx
        · exact hmax x (mem_cons_self ..)
        · rcases mem_cons.mp hx with rfl | hx
          · rw [Head.less_iff] at hless
            rw [Head.less_false_iff]
            omega
          · exact hmax x (mem_cons_of_mem _ hx)

/-- `top` is a head that is less than no other one. -/
theorem top_spec {heads : List Head} (hne : heads ≠ []) :
    ∃ next ∈ heads, top heads = some next ∧ ∀ head ∈ heads, next.less head = false := by
  obtain ⟨head, heads, rfl⟩ := exists_cons_of_ne_nil hne
  obtain ⟨hmem, hmax⟩ := foldl_top head heads
  exact ⟨_, hmem, rfl, hmax⟩

/-! ### What the state holds -/

/-- The accesses of a child that are read and not written, and those that are not read. -/
def State.rest (s : State) (unread : List AccessRecord) (k : UInt32) : List AccessRecord :=
  (s.accs k).getD [] ++ unread.filter (·.childId = k)

/-- What is a trace that the reader can read. -/
structure Input (file : TraceFile) (input : List AccessRecord) : Prop where
  accs : file.accs = input.map AccessRecord.pack
  fits : ∀ acc ∈ input, acc.childId.toNat < 2 ^ 16
  children : ∀ acc ∈ input, acc.childId < file.numChildren
  cycles : ∀ acc ∈ input, acc.reqCycle.toNat < 2 ^ 63

/-- What holds after `r` records were read, and `out` was written. -/
structure Sorting (file : TraceFile) (input : List AccessRecord) (r : Nat) (out : List AccessRecord)
    (s : State) : Prop where
  reads : s.tr.ReadsAt file r
  wrote : s.tw.Wrote file.numChildren out
  numChildren : s.numChildren = file.numChildren
  total : s.totalRecords = input.length
  read : s.readRecords = r
  written : s.writtenRecords = out.length
  le : r ≤ input.length
  merging : Merging (·.childId) input out (s.rest (input.drop r))
  ordered : (∀ k, (input.filter (·.childId = k)).Pairwise
      (·.reqCycle.toNat ≤ ·.reqCycle.toNat)) →
    MergedInOrder (·.reqCycle.toNat) out (s.rest (input.drop r))
  queues : ∀ k, s.accs k ≠ some []
  heads : ∀ head, head ∈ s.heads ↔
    ∃ acc queue, s.accs head.2 = some (acc :: queue) ∧ headOf acc = head
  nodup : (s.heads.map Prod.snd).Nodup

variable {file : TraceFile} {input out : List AccessRecord} {r : Nat} {s : State}

theorem start_sorting (hin : Input file input) (hfinished : file.finished = true) :
    ∃ s, start file = some s ∧ s.heads = [] ∧ Sorting file input 0 [] s := by
  obtain ⟨tr, hinit, hreads, hchildren⟩ := AccessTraceReader.init_readsAt hfinished
  refine ⟨_, by rw [start, hinit, Option.map_some], rfl, ?_⟩
  have hrest : ∀ s : State, s.accs = (fun _ => none) →
      s.rest (input.drop 0) = fun k => input.filter (·.childId = k) := fun s hs => by
    funext k
    simp [State.rest, hs]
  constructor
  case reads => exact hreads
  case wrote => exact hchildren ▸ AccessTraceWriter.init_wrote
  case numChildren => exact hchildren
  case total => simp [hreads.numRecords, hin.accs]
  case read => rfl
  case written => rfl
  case le => exact Nat.zero_le _
  case merging =>
    rw [hrest _ rfl]
    exact Merging.init _ _
  case ordered => exact fun _ => MergedInOrder.init _ _
  case queues => exact fun _ => nofun
  case heads => exact fun head => iff_of_false List.not_mem_nil (by simp)
  case nodup => exact nodup_nil

theorem report_eq (htotal : 0 < s.totalRecords) (count : Nat) : s.report count = some s := by
  unfold State.report
  split
  · rw [printProgress, if_neg (Nat.pos_iff_ne_zero.mp htotal), Option.map_some]
  · rfl

namespace Sorting

/-- A record that is read goes from the ones to be read to the queue of its child. -/
theorem rest_read {acc : AccessRecord} (hacc : input[r]? = some acc) {s' : State}
    (haccs : s'.accs = Function.update s.accs acc.childId
      (some ((s.accs acc.childId).getD [] ++ [acc]))) :
    s'.rest (input.drop (r + 1)) = s.rest (input.drop r) := by
  have hdrop : input.drop r = acc :: input.drop (r + 1) := by
    obtain ⟨hr, rfl⟩ := List.getElem?_eq_some_iff.mp hacc
    exact drop_eq_getElem_cons hr
  funext k
  rw [State.rest, State.rest, haccs, hdrop]
  rcases eq_or_ne k acc.childId with rfl | hk
  · simp
  · simp [Function.update_of_ne hk, hk.symm]

theorem queue_cons (h : Sorting file input r out s) {k : UInt32} {queue : List AccessRecord}
    (hqueue : s.accs k = some queue) : ∃ first others, queue = first :: others := by
  refine exists_cons_of_ne_nil ?_
  rintro rfl
  exact h.queues k hqueue

theorem addRecord (h : Sorting file input r out s) (hin : Input file input) {acc : AccessRecord}
    {tr : AccessTraceReader} (hacc : input[r]? = some acc) (htr : tr.ReadsAt file (r + 1)) :
    ∃ s', { s with tr := tr, readRecords := s.readRecords + 1 }.addRecord acc = some s' ∧
      Sorting file input (r + 1) out s' := by
  obtain ⟨hr, hget⟩ := List.getElem?_eq_some_iff.mp hacc
  have hchild : acc.childId < s.numChildren :=
    h.numChildren ▸ hin.children acc (mem_of_getElem? hacc)
  unfold State.addRecord
  simp only [if_pos hchild]
  cases hqueue : s.accs acc.childId with
  | none =>
    have hrest : State.rest { s with
        tr := tr
        readRecords := s.readRecords + 1
        accs := Function.update s.accs acc.childId (some [acc])
        heads := s.heads ++ [headOf acc] } (input.drop (r + 1)) = s.rest (input.drop r) :=
      rest_read hacc (by simp [hqueue])
    have hnone : ∀ head ∈ s.heads, head.2 ≠ acc.childId := fun head hhead heq => by
      obtain ⟨a, q, hsome, -⟩ := (h.heads head).mp hhead
      rw [heq, hqueue] at hsome
      exact nomatch hsome
    refine ⟨_, rfl, htr, h.wrote, h.numChildren, h.total, congrArg (· + 1) h.read, h.written, hr,
      hrest ▸ h.merging, hrest ▸ h.ordered, fun k => ?_, fun head => ?_, ?_⟩
    · rcases eq_or_ne k acc.childId with rfl | hk
      · simp
      · simpa [Function.update_of_ne hk] using h.queues k
    · dsimp only
      rw [mem_append, mem_singleton]
      rcases eq_or_ne head.2 acc.childId with hhead | hhead
      · rw [hhead, Function.update_self, or_iff_right fun hmem => hnone head hmem hhead]
        simp [eq_comm]
      · rw [Function.update_of_ne hhead, h.heads,
          or_iff_left fun heq : head = headOf acc => hhead (heq ▸ rfl)]
    · rw [map_append, nodup_append]
      refine ⟨h.nodup, by simp, fun k hk k' hk' => ?_⟩
      obtain ⟨head, hhead, rfl⟩ := mem_map.mp hk
      rw [mem_singleton.mp hk']
      exact hnone head hhead
  | some queue =>
    have hrest : State.rest { s with
        tr := tr
        readRecords := s.readRecords + 1
        accs := Function.update s.accs acc.childId (some (queue ++ [acc])) } (input.drop (r + 1)) =
          s.rest (input.drop r) := rest_read hacc (by simp [hqueue])
    obtain ⟨first, others, rfl⟩ := h.queue_cons hqueue
    refine ⟨_, rfl, htr, h.wrote, h.numChildren, h.total, congrArg (· + 1) h.read, h.written, hr,
      hrest ▸ h.merging, hrest ▸ h.ordered, fun k => ?_, fun head => ?_, h.nodup⟩
    · rcases eq_or_ne k acc.childId with rfl | hk
      · simp
      · simpa [Function.update_of_ne hk] using h.queues k
    · dsimp only
      rcases eq_or_ne head.2 acc.childId with hhead | hhead
      · rw [h.heads, hhead, Function.update_self, hqueue]
        simp
      · rw [Function.update_of_ne hhead, h.heads]

theorem readRecord (h : Sorting file input r out s) (hin : Input file input)
    (hr : r < input.length) :
    ∃ s', s.readRecord = some s' ∧ Sorting file input (r + 1) out s' := by
  have hacc : input[r]? = some input[r] := getElem?_eq_getElem hr
  have hpr : file.accs[r]? = some input[r].pack := by rw [hin.accs, getElem?_map, hacc]; rfl
  obtain ⟨tr, hread, htr⟩ := h.reads.read hpr (unpack_pack (hin.fits _ (getElem_mem hr)))
  obtain ⟨s', hadd, h'⟩ := h.addRecord hin hacc htr
  have hreport := @report_eq { s with tr := tr, readRecords := s.readRecords + 1 }
    (h.total ▸ Nat.zero_lt_of_lt hr) (s.readRecords + 1)
  refine ⟨s', ?_, h'⟩
  rw [State.readRecord, hread, Option.bind_some]
  dsimp only
  rw [hreport, Option.bind_some, hadd]

theorem empty_iff (h : Sorting file input r out s) (hin : Input file input) :
    s.tr.empty = true ↔ r = input.length := by
  rw [h.reads.empty_iff, hin.accs, length_map]

/-- A batch reads at least one record. -/
theorem readBatch {n : Nat} (h : Sorting file input r out s) (hin : Input file input)
    (hr : r < input.length) :
    ∃ r' s', r < r' ∧ s.readBatch (n + 1) = some s' ∧ Sorting file input r' out s' := by
  induction n generalizing r s with
  | zero =>
    obtain ⟨s1, hread, h1⟩ := h.readRecord hin hr
    refine ⟨r + 1, s1, Nat.lt_succ_self r, ?_, h1⟩
    rw [State.readBatch, hread, Option.bind_some, State.readBatch, ite_self]
  | succ n ih =>
    obtain ⟨s1, hread, h1⟩ := h.readRecord hin hr
    rw [State.readBatch, hread, Option.bind_some]
    split
    case isTrue => exact ⟨r + 1, s1, Nat.lt_succ_self r, rfl, h1⟩
    case isFalse hmore =>
      have hmore : r + 1 < input.length := by
        rw [h1.empty_iff hin] at hmore
        exact Nat.lt_of_le_of_ne h1.le hmore
      obtain ⟨r', s', hlt, hbatch, h'⟩ := ih h1 hmore
      exact ⟨r', s', Nat.lt_of_succ_lt hlt, hbatch, h'⟩

/-- The first access in a queue is not written yet. -/
theorem mem_rest (_h : Sorting file input r out s) {k : UInt32} {acc : AccessRecord}
    {queue : List AccessRecord} (hqueue : s.accs k = some (acc :: queue)) :
    acc ∈ s.rest (input.drop r) k := by
  rw [State.rest, hqueue]
  exact mem_append_left _ (mem_cons_self ..)

theorem child_lt (h : Sorting file input r out s) (hin : Input file input) {head : Head}
    (hhead : head ∈ s.heads) : head.2 < file.numChildren := by
  obtain ⟨acc, queue, hqueue, rfl⟩ := (h.heads head).mp hhead
  exact hin.children acc (h.merging.mem_input (h.mem_rest hqueue))

theorem heads_subperm (h : Sorting file input r out s) (hin : Input file input) :
    (s.heads.map fun head => head.2.toNat).Subperm (range file.numChildren.toNat) := by
  refine subperm_of_subset ?_ fun k hk => ?_
  · have hnodup := Nodup.map (fun _ _ => UInt32.toNat_inj.mp) h.nodup
    rwa [map_map] at hnodup
  · obtain ⟨head, hhead, rfl⟩ := mem_map.mp hk
    exact mem_range.mpr (UInt32.lt_iff_toNat_lt.mp (h.child_lt hin hhead))

theorem heads_le (h : Sorting file input r out s) (hin : Input file input) :
    s.heads.length ≤ file.numChildren.toNat := by
  simpa using (h.heads_subperm hin).length_le

/-- When there are as many heads as children, each child has one. -/
theorem exists_head (h : Sorting file input r out s) (hin : Input file input)
    (hall : s.heads.length = file.numChildren.toNat) {k : UInt32} (hk : k < file.numChildren) :
    s.accs k ≠ none := by
  have hperm := (h.heads_subperm hin).perm_of_length_le (by simp [hall])
  have hmem := hperm.symm.subset (mem_range.mpr (UInt32.lt_iff_toNat_lt.mp hk))
  obtain ⟨head, hhead, heq⟩ := mem_map.mp hmem
  obtain ⟨acc, queue, hqueue, -⟩ := (h.heads head).mp hhead
  rw [← UInt32.toNat_inj.mp heq, hqueue]
  exact nofun

/-- The head that is taken is of least cycle, when each child that is not done has one. -/
theorem least (h : Sorting file input r out s) (hin : Input file input)
    (hall : s.heads.length = file.numChildren.toNat ∨ r = input.length) {next : Head}
    (hmax : ∀ head ∈ s.heads, next.less head = false) {acc : AccessRecord} (hacc : acc ∈ input)
    (hnext : headOf acc = next) (k : UInt32) :
    ∀ y ∈ (s.rest (input.drop r) k).head?, acc.reqCycle.toNat ≤ y.reqCycle.toNat := by
  intro y hy
  have hmem : y ∈ s.rest (input.drop r) k := mem_of_head? hy
  have hyin := h.merging.mem_input hmem
  cases hqueue : s.accs k with
  | none =>
    have hunread : y ∈ (input.drop r).filter (·.childId = k) := by
      simpa [State.rest, hqueue] using hmem
    obtain hall | rfl := hall
    · have hchild : y.childId = k := h.merging.key_eq hmem
      exact absurd hqueue (h.exists_head hin hall (hchild ▸ hin.children y hyin))
    · simp at hunread
  | some queue =>
    obtain ⟨first, others, rfl⟩ := h.queue_cons hqueue
    obtain rfl : first = y := by simpa [State.rest, hqueue] using hy
    have hchild : first.childId = k := h.merging.key_eq hmem
    have hhead : headOf first ∈ s.heads :=
      (h.heads _).mpr ⟨first, others, by rw [headOf, hchild, hqueue], rfl⟩
    exact cycle_le_of_less (hin.cycles acc hacc) (hin.cycles first hyin)
      (hnext ▸ hmax _ hhead)

/-- Writing a record takes the first access of a child away. -/
theorem rest_write {k : UInt32} {acc : AccessRecord} {queue unread : List AccessRecord} {s' : State}
    (hqueue : s.accs k = some (acc :: queue))
    (haccs : s'.accs = Function.update s.accs k (if queue = [] then none else some queue)) :
    s.rest unread k = acc :: (queue ++ unread.filter (·.childId = k)) ∧
      s'.rest unread =
        Function.update (s.rest unread) k (queue ++ unread.filter (·.childId = k)) := by
  refine ⟨by rw [State.rest, hqueue]; rfl, ?_⟩
  funext k'
  rw [State.rest, haccs]
  rcases eq_or_ne k' k with rfl | hk
  · rw [Function.update_self, Function.update_self]
    cases queue <;> simp
  · rw [Function.update_of_ne hk, Function.update_of_ne hk]
    rfl

theorem writeRecord_eq {next : Head} {acc : AccessRecord} {queue : List AccessRecord}
    {tw : AccessTraceWriter} (htotal : 0 < s.totalRecords) (htop : top s.heads = some next)
    (hqueue : s.accs next.2 = some (acc :: queue)) (hwrite : s.tw.write acc = some tw) :
    s.writeRecord = some { s with
      tw := tw
      writtenRecords := s.writtenRecords + 1
      accs := Function.update s.accs next.2 (if queue = [] then none else some queue)
      heads := s.heads.erase next ++ (queue.head?.map headOf).toList } := by
  have hreport := @report_eq { s with tw := tw, writtenRecords := s.writtenRecords + 1 } htotal
    (s.writtenRecords + 1)
  unfold State.writeRecord
  rw [htop, Option.bind_some]
  simp only [hqueue, hwrite, Option.bind_some, hreport, Option.map_some]
  cases queue with
  | nil => simp
  | cons acc queue => simp

theorem writeRecord (h : Sorting file input r out s) (hin : Input file input)
    (hne : s.heads ≠ [])
    (hall : s.heads.length = file.numChildren.toNat ∨ r = input.length) :
    ∃ acc s', s.writeRecord = some s' ∧ Sorting file input r (out ++ [acc]) s' := by
  obtain ⟨next, hmem, htop, hmax⟩ := top_spec hne
  obtain ⟨acc, queue, hqueue, hnext⟩ := (h.heads next).mp hmem
  have hacc := h.merging.mem_input (h.mem_rest hqueue)
  obtain ⟨tw, hwrite, hwrote⟩ := h.wrote.write acc
  have hleast := h.least hin hall hmax hacc hnext
  refine ⟨acc, _, writeRecord_eq (h.total ▸ length_pos_of_mem hacc) htop hqueue hwrite, ?_⟩
  obtain ⟨hrest, hrest'⟩ := @rest_write s next.2 acc queue (input.drop r) { s with
    tw := tw
    writtenRecords := s.writtenRecords + 1
    accs := Function.update s.accs next.2 (if queue = [] then none else some queue)
    heads := s.heads.erase next ++ (queue.head?.map headOf).toList } hqueue rfl
  -- the head of a child is the one of the first access in its queue
  have hothers : ∀ head ∈ s.heads.erase next, head.2 ≠ next.2 := by
    intro head hhead heq
    have hold := List.mem_of_mem_erase hhead
    have hsame : head = next := inj_on_of_nodup_map h.nodup hold hmem heq
    exact (List.Nodup.not_mem_erase (Nodup.of_map _ h.nodup)) (hsame ▸ hhead)
  have hnew : ∀ head ∈ (queue.head?.map headOf).toList, head.2 = next.2 := by
    intro head hhead
    obtain ⟨a, ha, rfl⟩ := Option.map_eq_some_iff.mp (Option.mem_toList.mp hhead)
    have hleft : a ∈ s.rest (input.drop r) next.2 :=
      hrest ▸ mem_cons_of_mem _ (mem_append_left _ (mem_of_head? ha))
    exact h.merging.key_eq hleft
  constructor
  case reads => exact h.reads
  case wrote => exact hwrote
  case numChildren => exact h.numChildren
  case total => exact h.total
  case read => exact h.read
  case written => simp [h.written]
  case le => exact h.le
  case merging => exact hrest' ▸ h.merging.pop hrest
  case ordered =>
    intro hsorted
    exact hrest' ▸ (h.ordered hsorted).pop (h.merging.sorted hsorted) hrest hleast
  case queues =>
    intro k
    dsimp only
    rcases eq_or_ne k next.2 with rfl | hk
    · rw [Function.update_self]
      split
      case isTrue => exact nofun
      case isFalse hsome => exact fun heq => hsome (Option.some.inj heq)
    · rw [Function.update_of_ne hk]
      exact h.queues k
  case heads =>
    intro head
    dsimp only
    rw [mem_append]
    rcases eq_or_ne head.2 next.2 with hhead | hhead
    · rw [hhead, Function.update_self, or_iff_right fun hold => hothers head hold hhead]
      cases queue with
      | nil => simp
      | cons a queue => simp [eq_comm]
    · rw [Function.update_of_ne hhead, or_iff_left fun hfresh => hhead (hnew head hfresh),
        mem_erase_of_ne fun heq : head = next => hhead (heq ▸ rfl), h.heads]
  case nodup =>
    dsimp only
    rw [map_append, nodup_append]
    refine ⟨h.nodup.sublist (erase_sublist.map _), ?_, fun k hk k' hk' => ?_⟩
    · cases queue.head? <;> simp
    · obtain ⟨head, hhead, rfl⟩ := mem_map.mp hk
      obtain ⟨head', hhead', rfl⟩ := mem_map.mp hk'
      exact hnew head' hhead' ▸ hothers head hhead

/-! ### The loops -/

/-- The loop that writes ends before a child without a head, or at the end of the trace. -/
theorem writeRecords {fuel : Nat} (h : Sorting file input r out s) (hin : Input file input)
    (hchildren : 0 < file.numChildren.toNat) (hfuel : input.length < fuel + out.length) :
    ∃ out' s', s.writeRecords fuel = some s' ∧ Sorting file input r out' s' ∧
      s'.heads.length ≠ file.numChildren.toNat ∧ (r = input.length → s'.heads = []) := by
  induction fuel generalizing out s with
  | zero =>
    have hle := h.merging.subperm.length_le
    omega
  | succ fuel ih =>
    simp only [State.writeRecords, h.empty_iff hin, h.numChildren]
    split
    case isTrue hgo =>
      have hne : s.heads ≠ [] := by
        intro hnil
        simp only [hnil, length_nil, ne_eq, not_true_eq_false, and_false, or_false] at hgo
        omega
      obtain ⟨acc, s1, hwrite, h1⟩ := h.writeRecord hin hne (hgo.imp_right And.left)
      rw [hwrite, Option.bind_some]
      exact ih h1 (by rw [length_append, length_singleton]; omega)
    case isFalse hstop =>
      rw [not_or, not_and, not_not] at hstop
      exact ⟨out, s, rfl, h, hstop⟩

/-- A round reads at least one record. -/
theorem round {fuel : Nat} (h : Sorting file input r out s) (hin : Input file input)
    (hr : r < input.length) (hheads : s.heads.length ≠ file.numChildren.toNat)
    (hfuel : input.length < fuel) :
    ∃ r' out' s', r < r' ∧ s.round fuel = some s' ∧ Sorting file input r' out' s' ∧
      s'.heads.length ≠ file.numChildren.toNat ∧ (r' = input.length → s'.heads = []) := by
  have hlt : s.heads.length < file.numChildren.toNat := Nat.lt_of_le_of_ne (h.heads_le hin) hheads
  have hmore : s.tr.empty = false := by
    rw [← Bool.not_eq_true, h.empty_iff hin]
    exact Nat.ne_of_lt hr
  obtain ⟨r', s1, hlt', hbatch, h1⟩ := h.readBatch (n := 1023) hin hr
  obtain ⟨out', s', hwrite, h', hstop⟩ :=
    h1.writeRecords hin (Nat.zero_lt_of_lt hlt) (Nat.lt_add_right _ hfuel)
  refine ⟨r', out', s', hlt', ?_, h', hstop⟩
  rw [State.round, h.numChildren, if_pos ⟨hmore, hlt⟩, hbatch, Option.bind_some, h1.numChildren,
    if_pos (h1.heads_le hin), hwrite]

theorem rounds {fuel writes : Nat} (h : Sorting file input r out s) (hin : Input file input)
    (hheads : s.heads.length ≠ file.numChildren.toNat) (hend : r = input.length → s.heads = [])
    (hfuel : input.length < fuel + r) (hwrites : input.length < writes) :
    ∃ out' s', s.rounds writes fuel = some s' ∧
      Sorting file input input.length out' s' ∧ s'.heads = [] := by
  induction fuel generalizing r out s with
  | zero =>
    have hle := h.le
    omega
  | succ fuel ih =>
    rw [State.rounds]
    by_cases hr : r = input.length
    · have hempty : s.tr.empty = true := (h.empty_iff hin).mpr hr
      rw [if_neg (by simp [hempty, hend hr])]
      exact ⟨out, s, rfl, hr ▸ h, hend hr⟩
    · have hmore : s.tr.empty = false := by
        rw [← Bool.not_eq_true, h.empty_iff hin]
        exact hr
      obtain ⟨r', out', s1, hlt, hround, h1, hheads1, hend1⟩ :=
        h.round hin (Nat.lt_of_le_of_ne h.le hr) hheads hwrites
      rw [if_pos (.inl hmore), hround, Option.bind_some]
      exact ih h1 hheads1 hend1 (by omega)

/-- At the end all accesses are written. -/
theorem rest_nil (h : Sorting file input input.length out s) (hheads : s.heads = []) (k : UInt32) :
    s.rest (input.drop input.length) k = [] := by
  cases hqueue : s.accs k with
  | none => simp [State.rest, hqueue]
  | some queue =>
    obtain ⟨first, others, rfl⟩ := h.queue_cons hqueue
    have hchild : first.childId = k := h.merging.key_eq (h.mem_rest hqueue)
    have hhead : headOf first ∈ s.heads :=
      (h.heads _).mpr ⟨first, others, by rw [headOf, hchild, hqueue], rfl⟩
    rw [hheads] at hhead
    exact absurd hhead List.not_mem_nil

theorem finish (h : Sorting file input input.length out s) (hne : input ≠ [])
    (hperm : out.Perm input) :
    s.finish = some ⟨out.map AccessRecord.pack, file.numChildren, true⟩ := by
  obtain ⟨tw, hdump, hfile⟩ := h.wrote.writeAll []
  have htotal : s.totalRecords ≠ 0 := by simpa [h.total] using hne
  have hwritten : input.length = s.writtenRecords := h.written ▸ hperm.length_eq.symm
  rw [AccessTraceWriter.writeAll] at hdump
  rw [State.finish, printProgress, if_neg htotal, Option.bind_some, h.read, h.total,
    if_pos ⟨hwritten, rfl⟩, hdump, Option.map_some, hfile, append_nil]

/-- Without records the loop ends at once, and then the progress is printed. -/
theorem finish_nil (h : Sorting file [] 0 [] s) (hin : Input file []) (hheads : s.heads = []) :
    s.rounds 1 1 = some s ∧ s.totalRecords = 0 ∧
      printProgress s.readRecords s.writtenRecords s.totalRecords = none := by
  have hempty : s.tr.empty = true := (h.empty_iff hin).mpr rfl
  have htotal : s.totalRecords = 0 := h.total
  refine ⟨?_, htotal, ?_⟩
  · rw [State.rounds, if_neg (by simp [hempty, hheads])]
  · rw [printProgress, if_pos htotal]

/-- Without records `main` fails. -/
theorem main_nil (h : Sorting file [] 0 [] s) (hin : Input file []) (hheads : s.heads = [])
    (hstart : start file = some s) : main file = none := by
  obtain ⟨hrounds, htotal, hprint⟩ := h.finish_nil hin hheads
  rw [main, hstart, Option.bind_some, htotal, hrounds, Option.bind_some, State.finish, hprint,
    Option.bind_none]

end Sorting

/-- What `sorttrace` should do: write the same accesses, those of each child in the same order, and
in the order of their cycles if those of each child are. -/
def Sorts (file : TraceFile) (input : List AccessRecord) : Prop :=
  ∃ out : List AccessRecord,
    main file = some ⟨out.map AccessRecord.pack, file.numChildren, true⟩ ∧ out.Perm input ∧
    (∀ k : UInt32, out.filter (·.childId = k) = input.filter (·.childId = k)) ∧
    ((∀ k : UInt32, (input.filter (·.childId = k)).Pairwise
        (·.reqCycle.toNat ≤ ·.reqCycle.toNat)) →
      out.Pairwise (·.reqCycle.toNat ≤ ·.reqCycle.toNat))

/-- A trace is sorted if and only if it has a record: the percentages of none are divisions by
zero. -/
theorem sorts_iff (hfinished : file.finished = true) (hin : Input file input) :
    Sorts file input ↔ input ≠ [] := by
  obtain ⟨s, hstart, hheads, h⟩ := start_sorting hin hfinished
  constructor
  · rintro ⟨out, hmain, -⟩ rfl
    exact nomatch (h.main_nil hin hheads hstart).symm.trans hmain
  · intro hne
    obtain ⟨acc, hacc⟩ := exists_mem_of_ne_nil _ hne
    have hchildren : s.heads.length ≠ file.numChildren.toNat := by
      have hlt := UInt32.lt_iff_toNat_lt.mp (hin.children acc hacc)
      rw [hheads, length_nil]
      omega
    have hpos := length_pos_of_mem hacc
    obtain ⟨out, s', hrounds, h', hend⟩ := h.rounds hin hchildren (fun _ => hheads)
      (Nat.lt_succ_self _) (Nat.lt_succ_self _)
    have hrest := h'.rest_nil hend
    have hperm := h'.merging.perm hrest
    refine ⟨out, ?_, hperm, fun k => ?_, fun hsorted => (h'.ordered hsorted).sorted⟩
    · rw [main, hstart, Option.bind_some, h.total, hrounds, Option.bind_some,
        h'.finish hne hperm]
    · have hstream := h'.merging k
      rw [hrest, append_nil] at hstream
      exact hstream.symm

/-- Two children, the second of which has the first access. -/
theorem sorts_sample : Sorts ⟨[⟨64, 7, 9, 0, 0⟩, ⟨65, 5, 30, 1, 3⟩, ⟨66, 8, 9, 0, 1⟩], 2, true⟩
    [⟨64, 7, 9, 0, .GETS⟩, ⟨65, 5, 30, 1, .PUTX⟩, ⟨66, 8, 9, 0, .GETX⟩] :=
  (sorts_iff rfl ⟨rfl, by decide, by decide, by decide⟩).mpr (List.cons_ne_nil _ _)

/-- A trace without records: the loop ends at once, and a division by zero comes after it. -/
theorem not_sorts_empty : Input ⟨[], 2, true⟩ [] ∧ ¬ Sorts ⟨[], 2, true⟩ [] ∧
    ∃ s, start ⟨[], 2, true⟩ = some s ∧ s.rounds 1 1 = some s ∧
      printProgress s.readRecords s.writtenRecords s.totalRecords = none := by
  have hin : Input ⟨[], 2, true⟩ [] := ⟨rfl, nofun, nofun, nofun⟩
  obtain ⟨s, hstart, hheads, h⟩ := start_sorting hin rfl
  obtain ⟨hrounds, -, hprint⟩ := h.finish_nil hin hheads
  refine ⟨hin, ?_, s, hstart, hrounds, hprint⟩
  rintro ⟨out, hmain, -⟩
  exact nomatch (h.main_nil hin hheads hstart).symm.trans hmain

end Doppelganger.Trace.SortTrace
