import Mathlib.Data.List.Count
import Mathlib.Order.Lattice.Nat
import Mathlib.Data.List.Nodup

/-! Reservations of ports, each for one cycle.  A request asks for the earliest cycle that has one
of its ports free, and there is one, as only so many cycles have reservations.  Some reservations
count, and the others only keep a port busy. -/

namespace Doppelganger.Lib

/-- A port that is reserved in a cycle. -/
structure Reservation (π : Type*) where
  cycle : ℕ
  port : π
  counted : Bool
deriving DecidableEq

variable {π : Type*} [DecidableEq π]

/-- The port is reserved in the cycle. -/
def booked (t : List (Reservation π)) (cycle : ℕ) (port : π) : Bool :=
  t.any fun b => b.cycle = cycle ∧ b.port = port

/-- Those of `ports` that are free in the cycle. -/
def free (t : List (Reservation π)) (ports : List π) (cycle : ℕ) : List π :=
  ports.filter fun port => !booked t cycle port

/-- The earliest cycle from `start` on with one of `ports` free. -/
noncomputable def earliest (t : List (Reservation π)) (ports : List π) (start : ℕ) : ℕ :=
  sInf {cycle | start ≤ cycle ∧ free t ports cycle ≠ []}

/-- A reservation that counts takes one port, and another takes all that are free. -/
def taken (counted : Bool) (ports : List π) : List π := if counted then ports.take 1 else ports

/-- The reservations after a request for one of `ports` from `start` on, and the cycle. -/
noncomputable def reserve (counted : Bool) (ports : List π) (start : ℕ) (t : List (Reservation π)) :
    List (Reservation π) × ℕ :=
  let cycle := earliest t ports start
  ((taken counted (free t ports cycle)).map (⟨cycle, ·, counted⟩) ++ t, cycle)

/-- No port of a cycle is reserved twice. -/
def Distinct (t : List (Reservation π)) : Prop :=
  t.Pairwise fun b b' => ¬(b.cycle = b'.cycle ∧ b.port = b'.port)

/-- The reservations of a cycle that count. -/
def countAt (t : List (Reservation π)) (cycle : ℕ) : ℕ :=
  t.countP fun b => b.counted && b.cycle = cycle

/-- The reservations that count from a cycle on. -/
def countFrom (t : List (Reservation π)) (cycle : ℕ) : ℕ :=
  t.countP fun b => b.counted && cycle ≤ b.cycle

variable {t : List (Reservation π)} {ports : List π} {start cycle c : ℕ} {counted : Bool} {p : π}

theorem booked_iff : booked t cycle p = true ↔ ∃ b ∈ t, b.cycle = cycle ∧ b.port = p := by
  simp [booked]

theorem mem_free : p ∈ free t ports cycle ↔ p ∈ ports ∧ booked t cycle p = false := by
  simp [free]

omit [DecidableEq π] in
theorem mem_of_mem_taken (h : p ∈ taken counted ports) : p ∈ ports := by
  unfold taken at h
  split at h
  · exact List.mem_of_mem_take h
  · exact h

/-! ### The earliest cycle -/

omit [DecidableEq π] in
/-- There is a cycle after all reservations. -/
theorem exists_unbooked (t : List (Reservation π)) : ∃ n, ∀ b ∈ t, b.cycle < n := by
  induction t with
  | nil => exact ⟨0, fun b hb => absurd hb List.not_mem_nil⟩
  | cons b t ih =>
    obtain ⟨n, hn⟩ := ih
    refine ⟨max n (b.cycle + 1), fun b' hb' => ?_⟩
    rcases List.mem_cons.mp hb' with rfl | hb'
    · omega
    · have := hn b' hb'
      omega

theorem exists_free (hports : ports ≠ []) (t : List (Reservation π)) (start : ℕ) :
    ∃ cycle, start ≤ cycle ∧ free t ports cycle ≠ [] := by
  obtain ⟨n, hn⟩ := exists_unbooked t
  obtain ⟨p, hp⟩ := List.exists_mem_of_ne_nil ports hports
  refine ⟨max start n, le_max_left _ _, List.ne_nil_of_mem (mem_free.mpr ⟨hp, ?_⟩)⟩
  apply Bool.eq_false_iff.mpr
  intro hbooked
  obtain ⟨b, hb, hcycle, -⟩ := booked_iff.mp hbooked
  have := hn b hb
  omega

/-- So the earliest cycle is one of those that have a port free. -/
theorem earliest_spec (hports : ports ≠ []) (t : List (Reservation π)) (start : ℕ) :
    start ≤ earliest t ports start ∧ free t ports (earliest t ports start) ≠ [] :=
  Nat.sInf_mem (exists_free hports t start)

theorem earliest_eq (hstart : start ≤ cycle) (hfree : free t ports cycle ≠ [])
    (hbefore : ∀ c, start ≤ c → c < cycle → free t ports c = []) :
    earliest t ports start = cycle := by
  apply le_antisymm
  · exact Nat.sInf_le ⟨hstart, hfree⟩
  · obtain ⟨hle, hne⟩ := Nat.sInf_mem (s := {cycle | start ≤ cycle ∧ free t ports cycle ≠ []})
      ⟨cycle, hstart, hfree⟩
    by_contra hlt
    exact hne (hbefore _ hle (Nat.lt_of_not_le hlt))

/-! ### Reservations that are added -/

theorem booked_reserve : booked (reserve counted ports start t).1 c p =
    (booked t c p || decide (c = (reserve counted ports start t).2 ∧
      p ∈ taken counted (free t ports (reserve counted ports start t).2))) := by
  rw [Bool.eq_iff_iff, Bool.or_eq_true, booked_iff, booked_iff, decide_eq_true_iff]
  unfold reserve
  dsimp only
  constructor
  · rintro ⟨b, hb, rfl, rfl⟩
    rcases List.mem_append.mp hb with hb | hb
    · obtain ⟨q, hq, rfl⟩ := List.mem_map.mp hb
      exact .inr ⟨rfl, hq⟩
    · exact .inl ⟨b, hb, rfl, rfl⟩
  · rintro (⟨b, hb, hcycle, hport⟩ | ⟨rfl, hp⟩)
    · exact ⟨b, List.mem_append_right _ hb, hcycle, hport⟩
    · exact ⟨_, List.mem_append_left _ (List.mem_map_of_mem hp), rfl, rfl⟩

/-- A request takes free ports only. -/
theorem Distinct.reserve (h : Distinct t) (hports : ports.Nodup) :
    Distinct (reserve counted ports start t).1 := by
  refine List.pairwise_append.mpr ⟨?_, h, ?_⟩
  · have hnodup : (taken counted (free t ports (earliest t ports start))).Nodup := by
      unfold taken
      split
      · exact (hports.filter _).sublist (List.take_sublist _ _)
      · exact hports.filter _
    exact List.pairwise_map.mpr (hnodup.imp fun hne hsame => hne hsame.2)
  · rintro b hb b' hb' ⟨hcycle, hport⟩
    obtain ⟨q, hq, rfl⟩ := List.mem_map.mp hb
    have hfree := (mem_free.mp (mem_of_mem_taken hq)).2
    exact Bool.false_ne_true (hfree.symm.trans (booked_iff.mpr ⟨b', hb', hcycle.symm, hport.symm⟩))

omit [DecidableEq π] in
theorem taken_counted (h : ports ≠ []) : ∃ p, ports.head? = some p ∧ taken true ports = [p] := by
  obtain ⟨p, rest, rfl⟩ := List.exists_cons_of_ne_nil h
  exact ⟨p, rfl, rfl⟩

/-! ### Reservations that count -/

omit [DecidableEq π] in
theorem countFrom_succ (t : List (Reservation π)) (cycle : ℕ) :
    countFrom t cycle = countAt t cycle + countFrom t (cycle + 1) := by
  induction t with
  | nil => rfl
  | cons b t ih =>
    unfold countFrom countAt at ih ⊢
    rw [List.countP_cons, List.countP_cons, List.countP_cons, ih]
    have hsplit : (if (b.counted && decide (cycle ≤ b.cycle)) = true then 1 else 0) =
        (if (b.counted && decide (b.cycle = cycle)) = true then 1 else 0) +
          if (b.counted && decide (cycle + 1 ≤ b.cycle)) = true then 1 else 0 := by
      cases b.counted with
      | false => rfl
      | true =>
        simp only [Bool.true_and, decide_eq_true_eq]
        split <;> split <;> split <;> omega
    omega

omit [DecidableEq π] in
theorem countFrom_anti (t : List (Reservation π)) (h : cycle ≤ c) :
    countFrom t c ≤ countFrom t cycle := by
  induction h with
  | refl => exact le_rfl
  | step _ ih =>
    rw [countFrom_succ t _] at ih
    exact (Nat.le_add_left _ _).trans ih

omit [DecidableEq π] in
theorem countFrom_eq_zero : countFrom t cycle = 0 ↔ ∀ c, cycle ≤ c → countAt t c = 0 := by
  constructor
  case mp =>
    intro h c hc
    have hle := countFrom_anti t hc
    have hsplit := countFrom_succ t c
    omega
  intro h
  apply List.countP_eq_zero.mpr
  intro b hb hcounted
  obtain ⟨hb1, hb2⟩ := (Bool.and_eq_true _ _).mp hcounted
  have hzero := List.countP_eq_zero.mp (h b.cycle (of_decide_eq_true hb2)) b hb
  rw [hb1, decide_eq_true rfl] at hzero
  exact hzero rfl

/-- A request that counts adds one reservation. -/
theorem reserve_counted (hports : ports ≠ []) :
    ∃ p, (free t ports (earliest t ports start)).head? = some p ∧
      (reserve true ports start t).1 = ⟨earliest t ports start, p, true⟩ :: t := by
  obtain ⟨p, hhead, htaken⟩ := taken_counted (earliest_spec hports t start).2
  refine ⟨p, hhead, ?_⟩
  unfold reserve
  dsimp only
  rw [htaken]
  rfl

theorem countP_uncounted (f : Reservation π → Bool) :
    (reserve false ports start t).1.countP (fun b => b.counted && f b) =
      t.countP (fun b => b.counted && f b) := by
  unfold reserve
  dsimp only
  rw [List.countP_append, List.countP_eq_zero.mpr, Nat.zero_add]
  intro b hb
  obtain ⟨q, -, rfl⟩ := List.mem_map.mp hb
  exact Bool.false_ne_true

theorem countAt_reserve (hports : ports ≠ []) :
    countAt (reserve counted ports start t).1 c =
      countAt t c + if counted = true ∧ c = earliest t ports start then 1 else 0 := by
  cases counted with
  | false =>
    rw [if_neg fun h => Bool.false_ne_true h.1]
    exact countP_uncounted _
  | true =>
    obtain ⟨p, -, heq⟩ := reserve_counted hports
    rw [heq, countAt, List.countP_cons]
    simp [countAt, eq_comm]

theorem countFrom_reserve (hports : ports ≠ []) (hc : c ≤ start) :
    countFrom (reserve counted ports start t).1 c =
      countFrom t c + if counted = true then 1 else 0 := by
  cases counted with
  | false =>
    rw [if_neg Bool.false_ne_true]
    exact countP_uncounted _
  | true =>
    obtain ⟨p, -, heq⟩ := reserve_counted hports
    rw [heq, countFrom, List.countP_cons]
    simp [countFrom, hc.trans (earliest_spec hports t start).1]

end Doppelganger.Lib
