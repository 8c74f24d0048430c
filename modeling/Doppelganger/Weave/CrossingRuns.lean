import Doppelganger.Weave.Chains

/-! Requests and responses: where accesses are nested, `enqueueCrossing` pairs a response with its
request, and nothing else.  From this and the chains, what holds in every run. -/

namespace Doppelganger.Weave

open Function List Lib

namespace CrossingSim

variable {ι : Type*} [DecidableEq ι]

section

variable {cfg : Config} {numCores thid d cycle limit : Nat} {s s1 : CrossingSim ι} {c ev : ι}
  {x : Crossing ι} {answers : Option ι} {t : Turn ι}

/-- The stacks hold the requests that are not answered, and the pairs are a response and its
request. -/
structure Paired (s : CrossingSim ι) : Prop where
  stack : ∀ i, s.stack i = s.unanswered i
  fresh : ∀ c, s.crossing c = none → s.answers c = none
  pairs : ∀ c r, (c, r) ∈ s.paired ↔ s.answers c = some r

omit [DecidableEq ι] in
theorem init_paired : (init : CrossingSim ι).Paired where
  stack _ := rfl
  fresh _ _ := rfl
  pairs _ _ := by simp [init]

omit [DecidableEq ι] in
theorem response_eq {b : ι} {y : Crossing ι} (hhead : (s.stack x.srcId).head? = some b)
    (hy : s.crossing b = some y) (hans : y.Answers x) : s.response x = some (b, y) := by
  rw [response, hhead, Option.bind_some, hy, Option.bind_some, if_pos hans]

omit [DecidableEq ι] in
theorem enqueueRequest_spec {s' : CrossingSim ι}
    (h : s.enqueueRequest cfg c x cycle = some s') :
    ∃ sim, s' = { s with sim := sim }.pushRequest c x cycle := by
  rw [enqueueRequest] at h
  split at h
  case isTrue =>
    obtain ⟨e, -, h⟩ := Option.bind_eq_some_iff.mp h
    rw [Option.ite_none_right_eq_some] at h
    exact ⟨s.sim, (Option.some.inj h.2).symm⟩
  case isFalse =>
    rw [Option.ite_none_right_eq_some] at h
    obtain ⟨sim, -, h⟩ := Option.map_eq_some_iff.mp h.2
    exact ⟨sim, h.symm⟩

omit [DecidableEq ι] in
/-- A request that is not answered was made before. -/
theorem Inv.ne_new (h : s.Inv cfg numCores) (hnew : s.crossing c = none) {i : Nat} {b : ι}
    (hb : b ∈ s.stack i) : b ≠ c := by
  rintro rfl
  obtain ⟨-, -, y, hy, -⟩ := h.stack i b hb
  rw [hnew] at hy
  cases hy

theorem Paired.fresh_withCrossing (h : s.Paired) (c' : ι)
    (hc' : (s.withCrossing c x answers).crossing c' = none) :
    (s.withCrossing c x answers).answers c' = none := by
  simp only [CrossingSim.withCrossing] at hc' ⊢
  have hne : c' ≠ c := by
    rintro rfl
    rw [update_self] at hc'
    cases hc'
  rw [update_of_ne hne] at hc' ⊢
  exact h.fresh c' hc'

/-- A response is paired with the innermost request. -/
theorem Paired.response {s' : CrossingSim ι} {r : ι} (h : s.Paired) (hinv : s.Inv cfg numCores)
    (hok : Allowed cfg numCores (.crossing c x (some r)) s)
    (hnested : Nested (.crossing c x (some r)) s) (hs : s.newCrossing cfg c x (some r) = some s') :
    s'.Paired := by
  obtain ⟨-, -, -, -, hne, hnew, -, -, hanswers⟩ := hok
  obtain ⟨-, y, hy, hans⟩ := hanswers r rfl
  have hhead : (s.stack x.srcId).head? = some r := by
    rw [h.stack]
    exact hnested
  obtain ⟨rest, hstack⟩ := head?_eq_some_iff.mp hhead
  have hy0 : (s.withCrossing c x (some r)).crossing r = some y := by
    simp only [CrossingSim.withCrossing]
    rw [update_of_ne (hinv.ne_new hnew (mem_of_mem_head? hhead))]
    exact hy
  have hresponse : (s.withCrossing c x (some r)).response x = some (r, y) :=
    response_eq hhead hy0 hans
  rw [newCrossing, if_pos hne, enqueueCrossing, hresponse] at hs
  simp only [Option.ite_none_right_eq_some] at hs
  obtain rfl := Option.some.inj hs.2
  refine ⟨fun i => ?_, fun c' hc' => ?_, fun c' r' => ?_⟩
  · have hunanswered : s.unanswered x.srcId = r :: rest := (h.stack _).symm.trans hstack
    by_cases hi : i = x.srcId
    · subst hi
      simp [CrossingSim.withCrossing, unansweredAfter, hstack, hunanswered]
    · simpa [CrossingSim.withCrossing, hi] using h.stack i
  · exact h.fresh_withCrossing c' hc'
  · by_cases hc : c' = c
    · subst hc
      have hnone : (c', r') ∉ s.paired := by
        rw [h.pairs, h.fresh c' hnew]
        exact (Option.some_ne_none r').symm
      simp [CrossingSim.withCrossing, hnone, eq_comm]
    · simp [CrossingSim.withCrossing, hc, h.pairs]

/-- A request is not taken for a response. -/
theorem Paired.request {s' : CrossingSim ι} (h : s.Paired) (hinv : s.Inv cfg numCores)
    (hok : Allowed cfg numCores (.crossing c x none) s)
    (hnested : Nested (.crossing c x none) s) (hs : s.newCrossing cfg c x none = some s') :
    s'.Paired := by
  obtain ⟨-, -, -, -, hne, hnew, -, -, -⟩ := hok
  have hresponse : (s.withCrossing c x none).response x = none := by
    refine Option.eq_none_iff_forall_ne_some.mpr fun ⟨b, y⟩ hresp => ?_
    obtain ⟨hhead, hy, hans⟩ := response_spec hresp
    have hhead' : (s.stack x.srcId).head? = some b := hhead
    simp only [CrossingSim.withCrossing] at hy
    rw [update_of_ne (hinv.ne_new hnew (mem_of_mem_head? hhead'))] at hy
    exact hnested b ((h.stack _) ▸ hhead') y hy hans
  rw [newCrossing, if_pos hne, enqueueCrossing, hresponse] at hs
  obtain ⟨sim, rfl⟩ := enqueueRequest_spec hs
  refine ⟨fun i => ?_, fun c' hc' => ?_, fun c' r' => ?_⟩
  · by_cases hi : i = x.srcId
    · subst hi
      simp [CrossingSim.pushRequest, CrossingSim.withCrossing, unansweredAfter, h.stack]
    · simpa [CrossingSim.pushRequest, CrossingSim.withCrossing, hi] using h.stack i
  · exact h.fresh_withCrossing c' hc'
  · by_cases hc : c' = c
    · subst hc
      simp [CrossingSim.pushRequest, CrossingSim.withCrossing, h.pairs, h.fresh c' hnew]
    · simp [CrossingSim.pushRequest, CrossingSim.withCrossing, hc, h.pairs]

omit [DecidableEq ι] in
theorem Paired.recorded (h : s.Paired) (srcId : Nat) : (s.recorded srcId).Paired where
  stack i := by
    by_cases hi : i = srcId
    · subst hi
      simp [CrossingSim.recorded]
    · simpa [CrossingSim.recorded, hi] using h.stack i
  fresh := h.fresh
  pairs := h.pairs

theorem Paired.round {s' : CrossingSim ι} (h : s.Paired) (hs : s.round cfg thid t = some s') :
    s'.Paired := by
  obtain ⟨sim, -, hs⟩ := Option.bind_eq_some_iff.mp hs
  split at hs
  case isTrue =>
    rw [Option.ite_none_right_eq_some] at hs
    obtain rfl := Option.some.inj hs.2
    exact ⟨h.stack, h.fresh, h.pairs⟩
  case isFalse =>
    obtain rfl := Option.some.inj hs
    exact ⟨h.stack, h.fresh, h.pairs⟩

theorem Paired.step {op : CrossingOp ι} {s' : CrossingSim ι} (h : s.Paired)
    (hinv : s.Inv cfg numCores) (hok : Allowed cfg numCores op s) (hnested : Nested op s)
    (hs : step cfg op s = some s') : s'.Paired := by
  cases op with
  | queue d ev cycle =>
    rw [CrossingSim.step, CrossingSim.queue, Option.ite_none_right_eq_some] at hs
    obtain ⟨sim, -, rfl⟩ := Option.map_eq_some_iff.mp hs.2
    exact ⟨h.stack, h.fresh, h.pairs⟩
  | crossing c x answers =>
    cases answers with
    | none => exact h.request hinv hok hnested hs
    | some r => exact h.response hinv hok hnested hs
  | recorded srcId =>
    obtain rfl := Option.some.inj hs
    exact h.recorded srcId
  | start limit =>
    obtain ⟨sim, -, rfl⟩ := Option.map_eq_some_iff.mp hs
    exact ⟨h.stack, h.fresh, h.pairs⟩
  | round thid t => exact h.round hs
  | finish =>
    obtain ⟨sim, -, rfl⟩ := Option.map_eq_some_iff.mp hs
    exact ⟨h.stack, h.fresh, h.pairs⟩

end

/-- In every run an event to which a crossing is chained has not run, no crossing runs before its
`minStartCycle` and no crossing is queued before the last limit; where accesses are nested, a
response is paired with its request, and nothing else is. -/
theorem run_crossings (cfg : Config) (numCores : Nat) (ops : List (CrossingOp ι))
    (h : Along (step cfg) (Allowed cfg numCores) ops init) :
    ∃ s, run (step cfg) ops init = some s ∧ s.Chained cfg ∧
      (Along (step cfg) Nested ops init → ∀ c r, (c, r) ∈ s.paired ↔ s.answers c = some r) := by
  obtain ⟨s, hs, hinv⟩ := run_keeps (fun _ _ => Inv.step) ops (init_inv cfg numCores) h
  refine ⟨s, hs, hinv.chained, fun hnested => ?_⟩
  have hstep (op : CrossingOp ι) (s s' : CrossingSim ι) (hs : s.Inv cfg numCores ∧ s.Paired)
      (hok : Allowed cfg numCores op s ∧ Nested op s) (hs' : step cfg op s = some s') :
      s'.Inv cfg numCores ∧ s'.Paired := by
    obtain ⟨s1, hs1, hinv1⟩ := hs.1.step hok.1
    obtain rfl := Option.some.inj (hs'.symm.trans hs1)
    exact ⟨hinv1, hs.2.step hs.1 hok.1 hok.2 hs'⟩
  exact (run_preserves hstep ⟨init_inv cfg numCores, init_paired⟩ (along_and h hnested) hs).2.pairs

/-- Two domains, each with its thread. -/
def twoDomains : Config := ⟨2, 2, 100, by decide, by decide⟩

/-- Two accesses of a core in domain 0 to a bank in domain 1; the second request is chained to the
first. -/
def sampleAccesses : List (CrossingOp Nat) :=
  [.queue 0 0 5, .crossing 0 ⟨0, 0, 1, 6, .other 0⟩ none,
    .crossing 1 ⟨0, 1, 0, 16, .other 1⟩ (some 0),
    .recorded 0, .crossing 2 ⟨0, 0, 1, 10, .other 2⟩ none, .recorded 0, .start 20,
    .round 0 ⟨0, (5, .other 0), none, false, [], none⟩,
    .round 0 ⟨0, (20, .other 0), none, false, [], none⟩,
    .round 1 ⟨1, (6, .crossing 0), none, false, [(7, .crossing 2)], none⟩,
    .round 1 ⟨1, (10, .crossing 2), none, false, [], none⟩,
    .round 1 ⟨1, (20, .other 0), none, false, [], none⟩, .finish]

theorem run_crossings_sample :
    ∃ s, run (step twoDomains) sampleAccesses init = some s ∧ s.Chained twoDomains ∧
      ∀ c r, (c, r) ∈ s.paired ↔ s.answers c = some r := by
  obtain ⟨s, hs, hchained, hpairs⟩ :=
    run_crossings twoDomains 1 sampleAccesses (by decide +kernel)
  exact ⟨s, hs, hchained, hpairs (by decide +kernel)⟩

/-- An access of a core in domain 0 to a bank in domain 1, which reads from a memory controller in
domain 0. -/
def memoryAccess : List (CrossingOp Nat) :=
  [.crossing 0 ⟨0, 0, 1, 6, .other 0⟩ none, .crossing 1 ⟨0, 1, 0, 16, .other 1⟩ none,
    .crossing 2 ⟨0, 0, 1, 90, .other 2⟩ (some 1), .crossing 3 ⟨0, 1, 0, 96, .other 3⟩ (some 0)]

/-- The request of the bank is paired with that of the core. -/
theorem request_paired : Along (step twoDomains) (Allowed twoDomains 1) memoryAccess init ∧
    ∃ s, run (step twoDomains) memoryAccess init = some s ∧
      s.paired = [(3, 2), (1, 0)] ∧ s.answers 1 = none ∧ s.answers 2 = some 1 ∧
      s.answers 3 = some 0 := by
  have hallowed : Along (step twoDomains) (Allowed twoDomains 1) memoryAccess init := by
    decide +kernel
  obtain ⟨s, hs, -⟩ := run_keeps (fun _ _ => Inv.step) memoryAccess (init_inv twoDomains 1) hallowed
  have hpairs : (run (step twoDomains) memoryAccess init).all fun s =>
      s.paired = [(3, 2), (1, 0)] ∧ s.answers 1 = none ∧ s.answers 2 = some 1 ∧
        s.answers 3 = some 0 := by decide +kernel
  rw [hs, Option.all_some, decide_eq_true_eq] at hpairs
  exact ⟨hallowed, s, hs, hpairs⟩

end CrossingSim

end Doppelganger.Weave
