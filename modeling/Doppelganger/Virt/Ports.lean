import Mathlib.Data.List.Basic
import Mathlib.Data.UInt
import Mathlib.Logic.Function.Basic
import Mathlib.Tactic.Common

/-! The port virtualization of `virt/port_virtualizer.h` and `virt/ports.cpp`: two maps between the
ports that guests bind and those that the OS gave them.  A bind updates both maps, and removes
nothing from either: a port that had another partner leaves it behind in the other map. -/

namespace Doppelganger.Virt

/-- A bind that succeeded: the port that the guest asked for, and the one that it got. -/
structure Bind where
  virt : UInt16
  real : UInt16
deriving DecidableEq, Repr

/-- `ntohs` of a port, as an `int`. -/
def toInt (port : UInt16) : Int := port.toNat

structure PortVirtualizer where
  realToVirt : Int → Option Int
  virtToReal : Int → Option Int

namespace PortVirtualizer

def init : PortVirtualizer := ⟨fun _ => none, fun _ => none⟩

variable (pv : PortVirtualizer)

def registerBind (virt real : Int) : PortVirtualizer where
  realToVirt := Function.update pv.realToVirt real (some virt)
  virtToReal := Function.update pv.virtToReal virt (some real)

/-- -1 if not in the map. -/
def lookupReal (virt : Int) : Int := (pv.virtToReal virt).getD (-1)

/-- -1 if not in the map. -/
def lookupVirt (real : Int) : Int := (pv.realToVirt real).getD (-1)

/-- The port that `PatchBind` asks the OS for, where 0 stands for any. -/
def bindRequest (port : Int) : Int :=
  let prevPort := pv.lookupReal port
  if prevPort = -1 then 0 else prevPort

/-- `PatchBind`, of a port other than 0; `out` is the port that the OS gave, when `bind` succeeds.
-/
def patchBind (virtPort : UInt16) (out : Option UInt16) : PortVirtualizer :=
  match out with
  | some realPort => pv.registerBind (toInt virtPort) (toInt realPort)
  | none => pv

/-- After a sequence of binds. -/
def after (binds : List Bind) : PortVirtualizer :=
  binds.foldl (fun pv b => pv.patchBind b.virt (some b.real)) init

/-- The two maps are inverse to each other. -/
def Inverse : Prop := ∀ virt real : UInt16,
  pv.lookupReal (toInt virt) = toInt real ↔ pv.lookupVirt (toInt real) = toInt virt

/-- Each map gives what the latest bind of a port gave. -/
def Latest (binds : List Bind) : Prop := ∀ port : UInt16,
  pv.lookupReal (toInt port) =
    ((binds.reverse.find? (·.virt = port)).map fun b => toInt b.real).getD (-1) ∧
  pv.lookupVirt (toInt port) =
    ((binds.reverse.find? (·.real = port)).map fun b => toInt b.virt).getD (-1)

end PortVirtualizer

open PortVirtualizer

variable {binds : List Bind} {b : Bind}

theorem toInt_inj {port port' : UInt16} : toInt port = toInt port' ↔ port = port' := by
  unfold toInt
  rw [Int.ofNat_inj, UInt16.toNat_inj]

theorem toInt_ne (port : UInt16) : toInt port ≠ -1 := by
  unfold toInt
  omega

/-! ### Lookups -/

theorem after_concat (binds : List Bind) (b : Bind) :
    after (binds ++ [b]) = (after binds).registerBind (toInt b.virt) (toInt b.real) :=
  List.foldl_append

@[simp] theorem lookupReal_registerBind (pv : PortVirtualizer) (virt real port : Int) :
    (pv.registerBind virt real).lookupReal port =
      if port = virt then real else pv.lookupReal port := by
  unfold lookupReal registerBind
  dsimp only
  split
  case isTrue heq => rw [heq, Function.update_self, Option.getD_some]
  case isFalse hne => rw [Function.update_of_ne hne]

@[simp] theorem lookupVirt_registerBind (pv : PortVirtualizer) (virt real port : Int) :
    (pv.registerBind virt real).lookupVirt port =
      if port = real then virt else pv.lookupVirt port := by
  unfold lookupVirt registerBind
  dsimp only
  split
  case isTrue heq => rw [heq, Function.update_self, Option.getD_some]
  case isFalse hne => rw [Function.update_of_ne hne]

/-- Whatever the binds were, each map gives the latest one. -/
theorem after_latest (binds : List Bind) : (after binds).Latest binds := by
  induction binds using List.reverseRecOn with
  | nil => exact fun _ => ⟨rfl, rfl⟩
  | append_singleton binds b ih =>
    intro port
    obtain ⟨hreal, hvirt⟩ := ih port
    simp only [after_concat, lookupReal_registerBind, lookupVirt_registerBind, List.reverse_concat,
      List.find?_cons, toInt_inj, hreal, hvirt]
    constructor
    · by_cases h : b.virt = port
      · simp [h]
      · simp [h, Ne.symm h]
    · by_cases h : b.real = port
      · simp [h]
      · simp [h, Ne.symm h]

/-- A port that is found was bound to what is found. -/
theorem lookupReal_bound {virt real : UInt16}
    (h : (after binds).lookupReal (toInt virt) = toInt real) : ⟨virt, real⟩ ∈ binds := by
  rw [(after_latest binds virt).1] at h
  cases hfind : binds.reverse.find? (·.virt = virt) with
  | none =>
    rw [hfind] at h
    exact absurd h.symm (toInt_ne real)
  | some b =>
    rw [hfind] at h
    have hvirt : b.virt = virt := by simpa using List.find?_some hfind
    have hreal : b.real = real := toInt_inj.mp h
    have hmem := List.mem_reverse.mp (List.mem_of_find?_eq_some hfind)
    rw [← hvirt, ← hreal]
    exact hmem

theorem lookupVirt_bound {virt real : UInt16}
    (h : (after binds).lookupVirt (toInt real) = toInt virt) : ⟨virt, real⟩ ∈ binds := by
  rw [(after_latest binds real).2] at h
  cases hfind : binds.reverse.find? (·.real = real) with
  | none =>
    rw [hfind] at h
    exact absurd h.symm (toInt_ne virt)
  | some b =>
    rw [hfind] at h
    have hreal : b.real = real := by simpa using List.find?_some hfind
    have hvirt : b.virt = virt := toInt_inj.mp h
    have hmem := List.mem_reverse.mp (List.mem_of_find?_eq_some hfind)
    rw [← hvirt, ← hreal]
    exact hmem

/-! ### Binds that do not overlap -/

/-- No port is bound to two others. -/
def OneToOne (binds : List Bind) : Prop :=
  ∀ b ∈ binds, ∀ b' ∈ binds, b.virt = b'.virt ↔ b.real = b'.real

instance (binds : List Bind) : Decidable (OneToOne binds) :=
  inferInstanceAs (Decidable (∀ _ ∈ _, ∀ _ ∈ _, _))

theorem OneToOne.subset {binds' : List Bind} (h : OneToOne binds) (hsub : binds' ⊆ binds) :
    OneToOne binds' := fun b hb b' hb' => h b (hsub hb) b' (hsub hb')

theorem OneToOne.lookupReal_eq (h : OneToOne binds) (hb : b ∈ binds) :
    (after binds).lookupReal (toInt b.virt) = toInt b.real := by
  rw [(after_latest binds b.virt).1]
  cases hfind : binds.reverse.find? (·.virt = b.virt) with
  | none =>
    have hne := List.find?_eq_none.mp hfind b (List.mem_reverse.mpr hb)
    simp at hne
  | some b' =>
    have hvirt : b'.virt = b.virt := by simpa using List.find?_some hfind
    have hb' := List.mem_reverse.mp (List.mem_of_find?_eq_some hfind)
    exact toInt_inj.mpr ((h b' hb' b hb).mp hvirt)

theorem OneToOne.lookupVirt_eq (h : OneToOne binds) (hb : b ∈ binds) :
    (after binds).lookupVirt (toInt b.real) = toInt b.virt := by
  rw [(after_latest binds b.real).2]
  cases hfind : binds.reverse.find? (·.real = b.real) with
  | none =>
    have hne := List.find?_eq_none.mp hfind b (List.mem_reverse.mpr hb)
    simp at hne
  | some b' =>
    have hreal : b'.real = b.real := by simpa using List.find?_some hfind
    have hb' := List.mem_reverse.mp (List.mem_of_find?_eq_some hfind)
    exact toInt_inj.mpr ((h b' hb' b hb).mpr hreal)

theorem OneToOne.inverse (h : OneToOne binds) : (after binds).Inverse := fun _ _ =>
  ⟨fun hreal => h.lookupVirt_eq (lookupReal_bound hreal),
    fun hvirt => h.lookupReal_eq (lookupVirt_bound hvirt)⟩

/-- A bind after which the maps are inverse to each other overlaps with no earlier one. -/
theorem OneToOne.concat (h : OneToOne binds) (hinverse : (after (binds ++ [b])).Inverse) :
    OneToOne (binds ++ [b]) := by
  have hnew : ∀ b' ∈ binds, b'.virt = b.virt ↔ b'.real = b.real := by
    intro b' hb'
    have hpair := hinverse b'.virt b'.real
    simp only [after_concat, lookupReal_registerBind, lookupVirt_registerBind, toInt_inj,
      h.lookupReal_eq hb', h.lookupVirt_eq hb'] at hpair
    by_cases hvirt : b'.virt = b.virt
    · by_cases hreal : b'.real = b.real
      · exact iff_of_true hvirt hreal
      · rw [if_pos hvirt, if_neg hreal] at hpair
        exact absurd (toInt_inj.mp (hpair.mpr rfl)).symm hreal
    · by_cases hreal : b'.real = b.real
      · rw [if_neg hvirt, if_pos hreal] at hpair
        exact absurd (toInt_inj.mp (hpair.mp rfl)).symm hvirt
      · exact iff_of_false hvirt hreal
  intro b1 h1 b2 h2
  obtain h1 | h1 := List.mem_append.mp h1
  · obtain h2 | h2 := List.mem_append.mp h2
    · exact h b1 h1 b2 h2
    · rw [List.mem_singleton.mp h2]
      exact hnew b1 h1
  · rw [List.mem_singleton.mp h1]
    obtain h2 | h2 := List.mem_append.mp h2
    · have hiff := hnew b2 h2
      exact ⟨fun heq => (hiff.mp heq.symm).symm, fun heq => (hiff.mpr heq.symm).symm⟩
    · rw [List.mem_singleton.mp h2]
      exact iff_of_true rfl rfl

/-- After each bind of a sequence, the maps are inverse to each other and each gives what the latest
bind gave, exactly when no port is bound to two others. -/
theorem maps_inverse_iff (binds : List Bind) :
    (∀ n, (after (binds.take n)).Inverse ∧ (after (binds.take n)).Latest (binds.take n)) ↔
      OneToOne binds := by
  constructor
  · intro h
    replace h : ∀ n, (after (binds.take n)).Inverse := fun n => (h n).1
    induction binds using List.reverseRecOn with
    | nil => exact fun b hb => absurd hb List.not_mem_nil
    | append_singleton binds b ih =>
      have hbefore : OneToOne binds := ih fun n => by
        have hn := h (min n binds.length)
        rwa [List.take_append_of_le_length (Nat.min_le_right _ _), ← List.take_take,
          List.take_length] at hn
      have hlast := h (binds ++ [b]).length
      rw [List.take_length] at hlast
      exact hbefore.concat hlast
  · exact fun h n => ⟨(h.subset (List.take_subset n binds)).inverse, after_latest _⟩

/-! ### The binds that the OS makes -/

/-- Binds that `PatchBind` asks for: of a virtual port to its real port, or to any real port when it
has none. -/
def Requested (binds : List Bind) : Prop := ∀ n, ∀ h : n < binds.length, binds[n].real ≠ 0 ∧
  ((after (binds.take n)).bindRequest (toInt binds[n].virt) ≠ 0 →
    (after (binds.take n)).bindRequest (toInt binds[n].virt) = toInt binds[n].real)

instance (binds : List Bind) : Decidable (Requested binds) :=
  inferInstanceAs (Decidable (∀ n, ∀ _ : n < binds.length, _ ∧ (_ → _)))

theorem Requested.concat (h : Requested (binds ++ [b])) : Requested binds ∧ b.real ≠ 0 ∧
    ((after binds).bindRequest (toInt b.virt) ≠ 0 →
      (after binds).bindRequest (toInt b.virt) = toInt b.real) := by
  constructor
  · intro n hn
    have hlast := h n (by rw [List.length_append]; omega)
    rwa [List.getElem_append_left hn, List.take_append_of_le_length (Nat.le_of_lt hn)] at hlast
  · have hlast := h binds.length (by simp)
    rwa [List.getElem_concat_length rfl, List.take_left] at hlast

theorem Requested.real_ne (h : Requested binds) (hb : b ∈ binds) : b.real ≠ 0 := by
  obtain ⟨n, hn, rfl⟩ := List.mem_iff_getElem.mp hb
  exact (h n hn).1

/-- A virtual port keeps its real port. -/
theorem Requested.real_eq (h : Requested binds) {b' : Bind} (hb : b ∈ binds) (hb' : b' ∈ binds)
    (hvirt : b.virt = b'.virt) : b.real = b'.real := by
  induction binds using List.reverseRecOn generalizing b b' with
  | nil => exact absurd hb List.not_mem_nil
  | append_singleton binds new ih =>
    obtain ⟨hbefore, -, hrequest⟩ := h.concat
    have hnew : ∀ old ∈ binds, old.virt = new.virt → old.real = new.real := by
      intro old hold hvirt
      have hlookup : (after binds).lookupReal (toInt new.virt) = toInt old.real := by
        rw [(after_latest binds new.virt).1]
        cases hfind : binds.reverse.find? (·.virt = new.virt) with
        | none =>
          have hne := List.find?_eq_none.mp hfind old (List.mem_reverse.mpr hold)
          simp [hvirt] at hne
        | some last =>
          have hlast : last.virt = new.virt := by simpa using List.find?_some hfind
          have hmem := List.mem_reverse.mp (List.mem_of_find?_eq_some hfind)
          exact toInt_inj.mpr (ih hbefore hmem hold (hlast.trans hvirt.symm))
      have hask : (after binds).bindRequest (toInt new.virt) = toInt old.real := by
        unfold bindRequest
        rw [hlookup, if_neg (toInt_ne old.real)]
      have hne : toInt old.real ≠ 0 := fun hzero =>
        hbefore.real_ne hold (toInt_inj.mp hzero)
      rw [hask] at hrequest
      exact toInt_inj.mp (hrequest hne)
    obtain hb | hb := List.mem_append.mp hb
    · obtain hb' | hb' := List.mem_append.mp hb'
      · exact ih hbefore hb hb' hvirt
      · rw [List.mem_singleton.mp hb'] at hvirt ⊢
        exact hnew b hb hvirt
    · rw [List.mem_singleton.mp hb] at hvirt ⊢
      obtain hb' | hb' := List.mem_append.mp hb'
      · exact (hnew b' hb' hvirt.symm).symm
      · rw [List.mem_singleton.mp hb']

/-- When the binds go through `PatchBind`, only a real port that the OS gives for a second virtual
port makes the maps differ. -/
theorem requested_oneToOne_iff (h : Requested binds) :
    OneToOne binds ↔ ∀ b ∈ binds, ∀ b' ∈ binds, b.real = b'.real → b.virt = b'.virt :=
  ⟨fun hone b hb b' hb' => (hone b hb b' hb').mpr,
    fun hreal b hb b' hb' => ⟨h.real_eq hb hb', hreal b hb b' hb'⟩⟩

/-- A server on port 80 ends, and the OS gives its real port to one on port 81. -/
def reusedPort : List Bind := [⟨80, 40000⟩, ⟨81, 40000⟩]

theorem maps_differ :
    Requested reusedPort ∧ (after reusedPort).lookupReal (toInt 80) = toInt 40000 ∧
    (after reusedPort).lookupVirt (toInt 40000) = toInt 81 ∧ ¬(after reusedPort).Inverse := by
  refine ⟨by decide, by decide, by decide, fun hinverse => ?_⟩
  have hpair := hinverse 80 40000
  revert hpair
  decide

end Doppelganger.Virt
