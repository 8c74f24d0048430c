import Doppelganger.Lib.Roles
import Doppelganger.Lib.Run
import Mathlib.Algebra.Group.Nat.Defs
import Mathlib.Data.Finset.Card
import Mathlib.Data.Fintype.Card
import Mathlib.Tactic.Common

/-! The ticket lock of `locks.h`: 16 bits of the word have the next ticket, and 16 bits the ticket
that is served.  Each read, compare-and-swap and addition of a thread is one step, and the steps of
all threads come in any order.  Up to 64K threads get the lock one at a time, in the order in which
they have drawn their tickets. -/

namespace Doppelganger.Locks

open Function Lib

/-- `TICKET_MASK` -/
def ticketMask : UInt32 := 0xFFFF

/-- What a thread does next: nothing, or a read of the word or a compare-and-swap of `ticket_lock`
(with `wait`) or of `ticket_trylock`, or a read of the ticket that is served; or it has the lock. -/
inductive TicketPlace
  | idle
  | read (wait : Bool)
  | cas (wait : Bool) (val : UInt32)
  | spin (ticket : UInt32)
  | holds
deriving DecidableEq

/-- The thread has a ticket that was not given back. -/
def TicketPlace.drawn : TicketPlace → Bool
  | .spin _ | .holds => true
  | _ => false

/-- The word, where the threads are, and three ghosts: the threads that have drawn a ticket and
those that have got the lock, in order, and how often it was given back. -/
structure TicketLock (τ : Type*) where
  word : UInt32
  place : τ → TicketPlace
  drawn : List τ
  acquired : List τ
  released : Nat

/-- `ticket_init`. -/
def TicketLock.init {τ : Type*} : TicketLock τ := ⟨0, fun _ => .idle, [], [], 0⟩

/-- The next ticket. -/
def lowOf (val : UInt32) : UInt32 := val &&& ticketMask

/-- The ticket that is served. -/
def highOf (val : UInt32) : UInt32 := (val >>> 16) &&& ticketMask

/-- The word of `ticket_lock` after a ticket is drawn. -/
def nextWord (val : UInt32) : UInt32 := (val &&& (ticketMask <<< 16)) ||| ((val + 1) &&& ticketMask)

/-- The word of `ticket_trylock` after a ticket is drawn. -/
def tryWord (val : UInt32) : UInt32 := (highOf val <<< 16) ||| ((lowOf val + 1) &&& ticketMask)

variable {τ : Type*} [DecidableEq τ]

namespace TicketLock

def setPlace (t : τ) (p : TicketPlace) (s : TicketLock τ) : TicketLock τ :=
  { s with place := update s.place t p }

/-- The next instruction of `t`. -/
def advance (t : τ) (s : TicketLock τ) : Option (TicketLock τ) :=
  match s.place t with
  | .read true => some (s.setPlace t (.cas true s.word))
  | .read false =>
    some (s.setPlace t (if highOf s.word = lowOf s.word then .cas false s.word else .idle))
  | .cas true val =>
    some (if s.word = val then
      { s.setPlace t (.spin (lowOf val)) with word := nextWord val, drawn := s.drawn ++ [t] }
    else s.setPlace t (.read true))
  | .cas false val =>
    some (if s.word = val then
      { s.setPlace t .holds with
        word := tryWord val, drawn := s.drawn ++ [t], acquired := s.acquired ++ [t] }
    else s.setPlace t .idle)
  | .spin ticket =>
    some (if highOf s.word = ticket then
      { s.setPlace t .holds with acquired := s.acquired ++ [t] } else s)
  | _ => none

/-- `ticket_unlock`. -/
def unlock (t : τ) (s : TicketLock τ) : Option (TicketLock τ) :=
  if s.place t = .holds then
    some { s.setPlace t .idle with
      word := s.word + ((1 : UInt32) <<< 16), released := s.released + 1 }
  else none

end TicketLock

inductive TicketOp (τ : Type*)
  | call (t : τ) (wait : Bool)
  | advance (t : τ)
  | unlock (t : τ)

def ticketStep : TicketOp τ → TicketLock τ → Option (TicketLock τ)
  | .call t wait, s => if s.place t = .idle then some (s.setPlace t (.read wait)) else none
  | .advance t, s => s.advance t
  | .unlock t, s => s.unlock t

/-! ### The halves of the word -/

section Words

variable (val : UInt32)

theorem toNat_lowOf : (lowOf val).toNat = val.toNat % 65536 := by
  rw [lowOf, UInt32.toNat_and]
  exact Nat.and_two_pow_sub_one_eq_mod val.toNat 16

theorem toNat_highOf : (highOf val).toNat = val.toNat / 65536 := by
  have hlt : val.toNat / 65536 < 65536 := Nat.div_lt_of_lt_mul val.toNat_lt
  rw [highOf, UInt32.toNat_and, UInt32.toNat_shiftRight, Nat.shiftRight_eq_div_pow]
  exact (Nat.and_two_pow_sub_one_eq_mod _ 16).trans (Nat.mod_eq_of_lt hlt)

/-- Two halves side by side. -/
theorem toNat_join {high low : UInt32} {h l : Nat} (hhigh : high.toNat = 65536 * h)
    (hlow : low.toNat = l) (hl : l < 65536) : (high ||| low).toNat = 65536 * h + l := by
  rw [UInt32.toNat_or, hhigh, hlow]
  exact (Nat.two_pow_add_eq_or_of_lt (show l < 2 ^ 16 from hl) h).symm

theorem toNat_highPart : (val &&& (ticketMask <<< 16)).toNat = 65536 * (val.toNat / 65536) := by
  have hshift : 65536 * (val.toNat / 65536) = val.toNat >>> 16 <<< 16 := by
    rw [Nat.shiftLeft_eq, Nat.shiftRight_eq_div_pow, Nat.mul_comm]
  have hmask : (ticketMask <<< 16).toNat = (2 ^ 16 - 1) <<< 16 := rfl
  rw [UInt32.toNat_and, hshift, hmask]
  apply Nat.eq_of_testBit_eq
  intro i
  have hhigh : 32 ≤ i → val.toNat.testBit i = false := fun hi =>
    Nat.testBit_lt_two_pow (val.toNat_lt.trans_le (Nat.pow_le_pow_right (by decide) hi))
  simp only [Nat.testBit_and, Nat.testBit_shiftLeft, Nat.testBit_two_pow_sub_one,
    Nat.testBit_shiftRight]
  by_cases hi : 16 ≤ i
  · rw [Nat.add_sub_cancel' hi]
    by_cases hi' : 32 ≤ i
    · simp [hhigh hi']
    · simp [hi, show i - 16 < 16 by omega]
  · simp [hi]

theorem toNat_succ_low : ((val + 1) &&& ticketMask).toNat = (val.toNat + 1) % 65536 := by
  rw [UInt32.toNat_and, UInt32.toNat_add]
  refine (Nat.and_two_pow_sub_one_eq_mod _ 16).trans ?_
  exact Nat.mod_mod_of_dvd _ (by decide)

theorem toNat_nextWord :
    (nextWord val).toNat = 65536 * (val.toNat / 65536) + (val.toNat + 1) % 65536 :=
  toNat_join (toNat_highPart val) (toNat_succ_low val) (Nat.mod_lt _ (by decide))

/-- The two functions draw a ticket in the same way. -/
theorem tryWord_eq : tryWord val = nextWord val := by
  apply UInt32.toNat_inj.mp
  rw [toNat_nextWord]
  have hhigh := toNat_highOf val
  have hlt : val.toNat / 65536 < 65536 := Nat.div_lt_of_lt_mul val.toNat_lt
  refine toNat_join ?_ ?_ (Nat.mod_lt _ (by decide))
  · rw [UInt32.toNat_shiftLeft, hhigh, Nat.shiftLeft_eq]
    change val.toNat / 65536 * 65536 % 2 ^ 32 = _
    omega
  · rw [toNat_succ_low, toNat_lowOf]
    omega

theorem highOf_nextWord : (highOf (nextWord val)).toNat = (highOf val).toNat := by
  rw [toNat_highOf, toNat_nextWord, toNat_highOf]
  omega

theorem lowOf_nextWord : (lowOf (nextWord val)).toNat = ((lowOf val).toNat + 1) % 65536 := by
  rw [toNat_lowOf, toNat_nextWord, toNat_lowOf]
  omega

/-- `ticket_unlock` serves the next ticket, and the carry leaves the word. -/
theorem highOf_unlock :
    (highOf (val + ((1 : UInt32) <<< 16))).toNat = ((highOf val).toNat + 1) % 65536 := by
  have hlt := val.toNat_lt
  rw [toNat_highOf, toNat_highOf, UInt32.toNat_add]
  change (val.toNat + 65536) % 2 ^ 32 / 65536 = _
  omega

theorem lowOf_unlock : (lowOf (val + ((1 : UInt32) <<< 16))).toNat = (lowOf val).toNat := by
  rw [toNat_lowOf, toNat_lowOf, UInt32.toNat_add]
  change (val.toNat + 65536) % 2 ^ 32 % 65536 = _
  omega

end Words

/-! ### The invariant -/

namespace TicketLock

/-- What a thread knows where it is: a `ticket_trylock` has seen that nobody is in line, and a
thread that waits has a ticket that was not served yet. -/
def Knows (drawn : List τ) (released : Nat) (t : τ) : TicketPlace → Prop
  | .cas false val => highOf val = lowOf val
  | .spin ticket => ∃ i, drawn[i]? = some t ∧ released ≤ i ∧ ticket.toNat = i % 65536
  | _ => True

/-- The halves of the word count the tickets that were served and drawn, those in between belong to
the threads that wait or have the lock, and the first of these may have it. -/
structure Inv (s : TicketLock τ) : Prop where
  high : (highOf s.word).toNat = s.released % 65536
  low : (lowOf s.word).toNat = s.drawn.length % 65536
  queue : Role (fun p => p.drawn = true) s.place (s.drawn.drop s.released)
  holders : Role (· = TicketPlace.holds) s.place (s.acquired.drop s.released)
  ordered : s.acquired <+: s.drawn
  served : s.released ≤ s.acquired.length
  one : s.acquired.length ≤ s.released + 1
  knows : ∀ t, Knows s.drawn s.released t (s.place t)

omit [DecidableEq τ] in
theorem inv_init : Inv (init : TicketLock τ) where
  high := show (highOf 0).toNat = 0 from rfl
  low := show (lowOf 0).toNat = 0 from rfl
  queue := .nil nofun
  holders := .nil nofun
  ordered := List.prefix_refl []
  served := Nat.le_refl 0
  one := Nat.zero_le 1
  knows := fun _ => trivial

variable {s s' : TicketLock τ} {t : τ} {p : TicketPlace}

omit [DecidableEq τ] in
theorem Inv.released_le (h : Inv s) : s.released ≤ s.drawn.length :=
  h.served.trans h.ordered.length_le

omit [DecidableEq τ] in
/-- Each thread has one ticket at most. -/
theorem Inv.drawn_le [Fintype τ] (h : Inv s) : s.drawn.length ≤ s.released + Fintype.card τ := by
  have hle := h.queue.nodup.length_le_card
  rw [List.length_drop] at hle
  omega

omit [DecidableEq τ] in
/-- A thread without a ticket leaves room for one more. -/
theorem Inv.drawn_lt [Fintype τ] [DecidableEq τ] (h : Inv s) (ht : ¬ (s.place t).drawn = true) :
    s.drawn.length < s.released + Fintype.card τ := by
  have hnodup : (t :: s.drawn.drop s.released).Nodup :=
    h.queue.nodup.cons fun hmem => ht ((h.queue.mem t).mp hmem)
  have hle := hnodup.length_le_card
  have := h.released_le
  rw [List.length_cons, List.length_drop] at hle
  omega

theorem knows_update {drawn : List τ} {released : Nat} {place : τ → TicketPlace}
    (hp : Knows drawn released t p) (h : ∀ u, u ≠ t → Knows drawn released u (place u)) (u : τ) :
    Knows drawn released u (update place t p u) := by
  rcases eq_or_ne u t with rfl | hne
  · rwa [update_self]
  · rw [update_of_ne hne]
    exact h u hne

omit [DecidableEq τ] in
/-- What the others know stays true when a ticket is drawn or given back. -/
theorem Knows.mono {drawn more : List τ} {released released' : Nat}
    (h : Knows drawn released t p)
    (hreleased : ∀ i, drawn[i]? = some t → released ≤ i → released' ≤ i) :
    Knows (drawn ++ more) released' t p := by
  unfold Knows at h ⊢
  split
  case h_1 => exact h
  case h_2 =>
    obtain ⟨i, hi, hle, hmod⟩ := h
    refine ⟨i, ?_, hreleased i hi hle, hmod⟩
    rw [List.getElem?_append_left (List.getElem?_eq_some_iff.mp hi).1, hi]
  case h_3 => trivial

/-- A step of a thread that has no ticket before or after it. -/
theorem Inv.moved (h : Inv s) (hold : ¬ (s.place t).drawn = true) (hnew : ¬ p.drawn = true)
    (hknows : Knows s.drawn s.released t p) : Inv (s.setPlace t p) where
  high := h.high
  low := h.low
  queue := h.queue.stay (iff_of_false hnew hold)
  holders := h.holders.stay (iff_of_false (by rintro rfl; exact hnew rfl)
    fun heq => hold (by rw [heq]; rfl))
  ordered := h.ordered
  served := h.served
  one := h.one
  knows := knows_update hknows fun u _ => h.knows u

/-- `t` draws the next ticket and waits for it. -/
theorem Inv.draw (h : Inv s) (hplace : ¬ (s.place t).drawn = true) :
    Inv { s.setPlace t (.spin (lowOf s.word)) with
      word := nextWord s.word, drawn := s.drawn ++ [t] } where
  high := (highOf_nextWord s.word).trans h.high
  low := by
    rw [lowOf_nextWord, h.low, List.length_append, Nat.mod_add_mod]
    rfl
  queue := by
    change Role _ _ ((s.drawn ++ [t]).drop s.released)
    rw [List.drop_append_of_le_length h.released_le]
    exact h.queue.enterLast hplace rfl
  holders := h.holders.stay (iff_of_false nofun fun heq => hplace (by rw [heq]; rfl))
  ordered := h.ordered.trans (List.prefix_append ..)
  served := h.served
  one := h.one
  knows := by
    refine knows_update ⟨s.drawn.length, ?_, h.released_le, h.low⟩ fun u _ => ?_
    · exact List.getElem?_concat_length
    · exact (h.knows u).mono fun i _ hle => hle

omit [DecidableEq τ] in
/-- Nobody has the lock when the next thread in line has waited so far. -/
theorem Inv.acquired_length (h : Inv s) (hfirst : s.drawn[s.released]? = some t)
    (hplace : s.place t ≠ .holds) : s.acquired.length = s.released := by
  by_contra hne
  have hlen : s.acquired.length = s.released + 1 := by
    have := h.served
    have := h.one
    omega
  have hlt : s.released < s.acquired.length := by omega
  have hget : some s.acquired[s.released] = some t :=
    (List.prefix_iff_getElem?.mp h.ordered s.released hlt).symm.trans hfirst
  apply hplace
  rw [← h.holders.mem, ← Option.some.inj hget]
  exact List.mem_of_getElem?
    (by rw [List.getElem?_drop, Nat.add_zero, List.getElem?_eq_getElem hlt])

/-- The first in line gets the lock. -/
theorem Inv.acquire {ticket : UInt32} (h : Inv s) (hfirst : s.drawn[s.released]? = some t)
    (hplace : s.place t = .spin ticket) :
    Inv { s.setPlace t .holds with acquired := s.acquired ++ [t] } := by
  have hlen := h.acquired_length hfirst (by rw [hplace]; nofun)
  constructor
  case high => exact h.high
  case low => exact h.low
  case queue => exact h.queue.stay (iff_of_true rfl (by rw [hplace]; rfl))
  case holders =>
    change Role _ _ ((s.acquired ++ [t]).drop s.released)
    rw [List.drop_append_of_le_length hlen.ge]
    exact h.holders.enterLast (by rw [hplace]; nofun) rfl
  case ordered =>
    change s.acquired ++ [t] <+: s.drawn
    have htake := List.prefix_iff_eq_take.mp h.ordered
    rw [hlen] at htake
    have hsucc : s.drawn.take (s.released + 1) = s.acquired ++ [t] := by
      rw [List.take_add_one, hfirst, ← htake]
      rfl
    rw [← hsucc]
    exact List.take_prefix ..
  case served => exact h.served.trans (by simp)
  case one =>
    change (s.acquired ++ [t]).length ≤ _
    rw [List.length_append, hlen]
    exact Nat.le_refl _
  case knows => exact knows_update trivial fun u _ => h.knows u

omit [DecidableEq τ] in
/-- The thread that has the lock is the first in line. -/
theorem Inv.first_of_holds (h : Inv s) (hplace : s.place t = .holds) :
    s.acquired.drop s.released = [t] ∧ ∃ rest, s.drawn.drop s.released = t :: rest := by
  have hmem := (h.holders.mem t).mpr hplace
  have hone : s.acquired.drop s.released = [t] := by
    have hlen : (s.acquired.drop s.released).length ≤ 1 := by
      have := h.one
      rw [List.length_drop]
      omega
    match hdrop : s.acquired.drop s.released, hlen with
    | [], _ => rw [hdrop] at hmem; exact nomatch hmem
    | [u], _ => rw [hdrop, List.mem_singleton] at hmem; rw [hmem]
  refine ⟨hone, ?_⟩
  obtain ⟨rest, hrest⟩ := h.ordered.drop s.released
  exact ⟨rest, by rw [← hrest, hone]; rfl⟩

/-- `ticket_unlock` serves the next ticket. -/
theorem Inv.unlock (h : Inv s) (hs' : s.unlock t = some s') : Inv s' := by
  unfold TicketLock.unlock at hs'
  split at hs'
  case isFalse => exact nomatch hs'
  case isTrue hplace =>
    obtain rfl := Option.some.inj hs'
    obtain ⟨hone, rest, hrest⟩ := h.first_of_holds hplace
    have hlen := congrArg List.length hone
    rw [List.length_drop, List.length_singleton] at hlen
    constructor
    case high =>
      rw [highOf_unlock, h.high, Nat.mod_add_mod]
    case low => exact (lowOf_unlock s.word).trans h.low
    case queue =>
      have hqueue := h.queue
      rw [hrest] at hqueue
      change Role _ _ (s.drawn.drop (s.released + 1))
      rw [← List.drop_drop, hrest]
      exact hqueue.leaveFirst nofun
    case holders =>
      have hholders := h.holders
      rw [hone] at hholders
      change Role _ _ (s.acquired.drop (s.released + 1))
      rw [← List.drop_drop, hone]
      exact hholders.leaveFirst nofun
    case ordered => exact h.ordered
    case served =>
      change s.released + 1 ≤ s.acquired.length
      omega
    case one =>
      have := h.one
      change s.acquired.length ≤ s.released + 1 + 1
      omega
    case knows =>
      -- the first in line is `t`
      have hfirst : s.drawn[s.released]? = some t := by
        rw [← Nat.add_zero s.released, ← List.getElem?_drop, hrest]
        rfl
      refine knows_update trivial fun u hu => ?_
      change Knows s.drawn (s.released + 1) u (s.place u)
      rw [← List.append_nil s.drawn]
      refine (h.knows u).mono fun i hi hle => ?_
      have hne : i ≠ s.released := by
        rintro rfl
        exact hu (Option.some.inj (hi.symm.trans hfirst))
      omega

omit [DecidableEq τ] in
/-- A ticket that is served belongs to the first in line, as no more than 64K are out. -/
theorem Inv.first_of_served [Fintype τ] (hcard : Fintype.card τ ≤ 65536) {ticket : UInt32}
    (h : Inv s) (hplace : s.place t = .spin ticket) (hserved : highOf s.word = ticket) :
    s.drawn[s.released]? = some t := by
  have hknows := h.knows t
  rw [hplace] at hknows
  obtain ⟨i, hi, hle, hmod⟩ := hknows
  have hlt := (List.getElem?_eq_some_iff.mp hi).1
  have hdrawn := h.drawn_le
  have hhigh := h.high
  rw [hserved, hmod] at hhigh
  rwa [show s.released = i by omega]

/-- Nobody is in line when the two tickets are the same and another thread is about. -/
theorem Inv.first_of_even [Fintype τ] (hcard : Fintype.card τ ≤ 65536) (h : Inv s)
    (hplace : ¬ (s.place t).drawn = true) (heven : highOf s.word = lowOf s.word) :
    s.drawn.length = s.released := by
  have hlt := h.drawn_lt hplace
  have hle := h.released_le
  have hlow := h.low
  rw [← heven, h.high] at hlow
  omega

omit [DecidableEq τ] in
/-- The first in line has the lock, or waits for the ticket that is served. -/
theorem Inv.first_place (h : Inv s) (hfirst : s.drawn[s.released]? = some t) :
    s.place t = .holds ∨ s.place t = .spin (highOf s.word) := by
  have hget : (s.drawn.drop s.released)[0]? = some t := by
    rw [List.getElem?_drop, Nat.add_zero, hfirst]
  have hdrawn := (h.queue.mem t).mp (List.mem_of_getElem? hget)
  have hknows := h.knows t
  cases hplace : s.place t with
  | holds => exact .inl rfl
  | spin ticket =>
    right
    rw [hplace] at hknows
    obtain ⟨i, hi, hle, hmod⟩ := hknows
    have hget' : (s.drawn.drop s.released)[i - s.released]? = some t := by
      rw [List.getElem?_drop, Nat.add_sub_cancel' hle, hi]
    have hzero : 0 = i - s.released :=
      (List.getElem?_inj (List.getElem?_eq_some_iff.mp hget).1 h.queue.nodup).mp
        (hget.trans hget'.symm)
    rw [TicketPlace.spin.injEq, ← UInt32.toNat_inj, hmod, h.high]
    rw [show i = s.released by omega]
  | idle | read | cas =>
    rw [hplace] at hdrawn
    exact nomatch hdrawn

/-- A step of `ticket_trylock` that draws a ticket which is served at once. -/
theorem Inv.drawServed [Fintype τ] (hcard : Fintype.card τ ≤ 65536) (h : Inv s)
    (hplace : s.place t = .cas false s.word) :
    Inv { s.setPlace t .holds with
      word := tryWord s.word, drawn := s.drawn ++ [t], acquired := s.acquired ++ [t] } := by
  have hknows := h.knows t
  rw [hplace] at hknows
  have hplace : ¬ (s.place t).drawn = true := by
    rw [hplace]
    nofun
  have hlen := h.first_of_even hcard hplace hknows
  have hfirst : (s.drawn ++ [t])[s.released]? = some t := by
    rw [← hlen]
    exact List.getElem?_concat_length
  have hnext := (h.draw hplace).acquire hfirst (update_self ..)
  rw [tryWord_eq]
  simpa [setPlace, update_idem] using hnext

theorem Inv.advance [Fintype τ] (hcard : Fintype.card τ ≤ 65536) (h : Inv s)
    (hs' : s.advance t = some s') : Inv s' := by
  unfold TicketLock.advance at hs'
  split at hs'
  case h_1 hplace =>
    obtain rfl := Option.some.inj hs'
    exact h.moved (by rw [hplace]; nofun) nofun trivial
  case h_2 hplace =>
    obtain rfl := Option.some.inj hs'
    have hplace : ¬ (s.place t).drawn = true := by
      rw [hplace]
      nofun
    split
    case isTrue heven => exact h.moved hplace nofun heven
    case isFalse => exact h.moved hplace nofun trivial
  case h_3 val hplace =>
    obtain rfl := Option.some.inj hs'
    split
    case isTrue hval =>
      subst hval
      exact h.draw (by rw [hplace]; nofun)
    case isFalse => exact h.moved (by rw [hplace]; nofun) nofun trivial
  case h_4 val hplace =>
    obtain rfl := Option.some.inj hs'
    split
    case isTrue hval =>
      subst hval
      exact h.drawServed hcard hplace
    case isFalse => exact h.moved (by rw [hplace]; nofun) nofun trivial
  case h_5 ticket hplace =>
    obtain rfl := Option.some.inj hs'
    split
    case isTrue hserved => exact h.acquire (h.first_of_served hcard hplace hserved) hplace
    case isFalse => exact h
  case h_6 => exact nomatch hs'

theorem Inv.step [Fintype τ] (hcard : Fintype.card τ ≤ 65536) (h : Inv s) (op : TicketOp τ)
    (hs' : ticketStep op s = some s') : Inv s' := by
  cases op with
  | call t wait =>
    change (if s.place t = .idle then _ else none) = _ at hs'
    split at hs'
    case isTrue hidle =>
      obtain rfl := Option.some.inj hs'
      exact h.moved (by rw [hidle]; nofun) nofun trivial
    case isFalse => exact nomatch hs'
  | advance t => exact h.advance hcard hs'
  | unlock t => exact h.unlock hs'

end TicketLock

/-- Up to 64K threads, whatever the order of their steps and however often the tickets wrap around,
get the lock in the order in which they have drawn their tickets, and one at a time; and when nobody
has it, the next read of the first in line finds that it is served. -/
theorem ticket_lock_fair [Fintype τ] (hcard : Fintype.card τ ≤ 2 ^ 16) (ops : List (TicketOp τ))
    {s : TicketLock τ} (hrun : run ticketStep ops TicketLock.init = some s) :
    s.acquired <+: s.drawn ∧ s.released ≤ s.acquired.length ∧
    (∀ t u, s.place t = .holds → s.place u = .holds → t = u) ∧
    ∀ t, s.drawn[s.released]? = some t →
      s.place t = .holds ∨ s.place t = .spin (highOf s.word) := by
  have h : s.Inv := @run_preserves _ _ ticketStep (fun _ _ => True) TicketLock.Inv ops _ _
    (fun op s s' h _ hs' => h.step hcard op hs') TicketLock.inv_init
    (along_of_forall (fun _ _ => trivial) ops _) hrun
  refine ⟨h.ordered, h.served, fun t u ht hu => ?_, fun t hfirst => ?_⟩
  · refine h.holders.eq_of_length_le ?_ ht hu
    have := h.one
    rw [List.length_drop]
    omega
  · exact h.first_place hfirst

/-- Three threads, the second of which tries once while the first has the lock. -/
def queueOps {ι : Type} (a b c : ι) : List (TicketOp ι) :=
  [.call a true, .advance a, .advance a, .call b false, .call c true, .advance a, .advance b,
    .advance c, .advance c, .advance c, .unlock a, .advance c]

theorem ticket_lock_fair_queue :
    ∃ s : TicketLock (Fin 3), run ticketStep (queueOps 0 1 2) TicketLock.init = some s ∧
    s.drawn = [0, 2] ∧ s.acquired <+: [0, 2] ∧ s.released = 1 := by
  obtain ⟨s, hrun, hs⟩ := Option.map_eq_some_iff.mp (show
    (run ticketStep (queueOps (0 : Fin 3) 1 2) TicketLock.init).map
      (fun s => (s.drawn, s.released)) = some ([0, 2], 1) by decide)
  obtain ⟨hdrawn, hreleased⟩ := Prod.mk.inj hs
  have hfair := (ticket_lock_fair (by decide) _ hrun).1
  exact ⟨s, hrun, hdrawn, hdrawn ▸ hfair, hreleased⟩

end Doppelganger.Locks
