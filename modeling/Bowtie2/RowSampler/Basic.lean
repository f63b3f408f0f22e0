import Bowtie2.SeedPos
import Mathlib

/-!
# Bowtie2.RowSampler.Basic

`RowSampler` (`aligner_sw_driver.h`): weighted sampling, without replacement, of the seed-hit
range the driver resolves its next row from. `init` gives each range of `salist[sai, saf)` the
mass `1 / sqrt(size)`, `finishedRange(i)` eliminates range `i` and takes its mass off the total,
and `next` throws a dart at the total mass and walks the ranges not eliminated until the
running mass passes it.

Arithmetic is exact, in any linear ordered field `K`; `sqrt` is a parameter (the source calls
the C library's). Failed assertions are `none`. A run of the sampler is a list of `Call`s, and
`run` performs them in order.
-/

namespace Bowtie2

/-- `RowSampler`'s state: the mass darts are thrown at, and per range whether it is eliminated
and its mass. `elim_` and `masses_` are always resized together. -/
structure RowSampler (K : Type) where
  mass : K
  elim : List Bool
  masses : List K
  length_elim : elim.length = masses.length

/-- A call of one of `RowSampler`'s public methods; `next` is given its dart
`rnd.nextFloat()`. -/
inductive RowSampler.Call (S K : Type) where
  | init (salist : List (SATupleAndPos S)) (sai saf : Nat)
  | finishedRange (i : Nat)
  | next (u : K)

namespace RowSampler

variable {S K : Type} [LinearOrderedField K]

/-- `RowSampler::RowSampler`: no ranges and no mass. -/
def empty : RowSampler K := ⟨0, [], [], rfl⟩

/-- The ranges `init` samples from: `salist[sai, saf)`. -/
def ranges (salist : List (SATupleAndPos S)) (sai saf : Nat) : List (SATupleAndPos S) :=
  (salist.drop sai).take (saf - sai)

/-- The mass `init` gives a range: `1 / sqrt(size)`. For an empty range the code divides by
`sqrt(0) = 0` and gets `+inf`; in a field `1 / 0 = 0`, so the model gives it no mass, and the
theorems that need positive masses assume every range has an element. -/
def weight (sqrt : K → K) (ops : SATupleOps S) (t : SATupleAndPos S) : K :=
  1 / sqrt (ops.size t.sat)

/-- `RowSampler::init`. `none` is a failed assertion: `saf ≤ sai`, or a range past the end of
`salist`. `mass_` is summed range by range, as the loop does. -/
def init (sqrt : K → K) (ops : SATupleOps S) (salist : List (SATupleAndPos S)) (sai saf : Nat) :
    Option (RowSampler K) :=
  if h : sai < saf ∧ saf ≤ salist.length then
    some ⟨((ranges salist sai saf).map (weight sqrt ops)).foldl (· + ·) 0,
      List.replicate (saf - sai) false, (ranges salist sai saf).map (weight sqrt ops),
      by simp [ranges]; omega⟩
  else none

/-- `RowSampler::finishedRange`. `none` is a failed assertion: no range `i`. -/
def finishedRange (s : RowSampler K) (i : Nat) : Option (RowSampler K) :=
  if h : i < s.masses.length then
    some ⟨s.mass - s.masses[i], s.elim.set i true, s.masses, by simp [s.length_elim]⟩
  else none

/-- The loop of `RowSampler::next` from range `i` on, with `mass_sofar` accumulated so far. -/
def nextFrom (rd : K) : List Bool → List K → K → Nat → Option Nat
  | e :: elim, m :: masses, sofar, i =>
    if !e then
      if rd < sofar + m then some i else nextFrom rd elim masses (sofar + m) (i + 1)
    else nextFrom rd elim masses sofar (i + 1)
  | _, _, _, _ => none

/-- `RowSampler::next` with dart `u`. `none` is the fall-through to `assert(false)`. -/
def next (s : RowSampler K) (u : K) : Option Nat := nextFrom (u * s.mass) s.elim s.masses 0 0

def activeSum : List Bool → List K → K
  | e :: elim, m :: masses => (if e then 0 else m) + activeSum elim masses
  | _, _ => 0

/-- The mass of the sampler's ranges not eliminated. -/
def activeMass (s : RowSampler K) : K := activeSum s.elim s.masses

def Call.isInit : Call S K → Bool
  | .init .. => true
  | _ => false

/-- One call on the sampler. `next` leaves the state as it is, and fails, as the call does, when
its loop falls through to `assert(false)`. -/
def step (sqrt : K → K) (ops : SATupleOps S) (s : RowSampler K) :
    Call S K → Option (RowSampler K)
  | .init salist sai saf => init sqrt ops salist sai saf
  | .finishedRange i => s.finishedRange i
  | .next u => (s.next u).map fun _ => s

/-- The calls performed in order; `none` as soon as one fails its assertion. -/
def run (sqrt : K → K) (ops : SATupleOps S) : RowSampler K → List (Call S K) → Option (RowSampler K)
  | s, [] => some s
  | s, c :: cs => (s.step sqrt ops c).bind fun s' => run sqrt ops s' cs

/-! ## The operations, one lemma each -/

@[simp] theorem activeSum_cons (e : Bool) (es : List Bool) (m : K) (ms : List K) :
    activeSum (e :: es) (m :: ms) = (if e then 0 else m) + activeSum es ms := rfl

@[simp] theorem activeSum_nil_left (ms : List K) : activeSum [] ms = 0 := rfl

@[simp] theorem activeSum_nil_right (es : List Bool) : activeSum es ([] : List K) = 0 := by
  cases es <;> rfl

theorem init_eq_some {sqrt : K → K} {ops : SATupleOps S} {salist : List (SATupleAndPos S)}
    {sai saf : Nat} {s : RowSampler K} (h : init sqrt ops salist sai saf = some s) :
    s.masses = (ranges salist sai saf).map (weight sqrt ops) ∧
      s.elim = List.replicate s.masses.length false ∧ s.mass = s.masses.sum := by
  unfold init at h
  split_ifs at h with hs
  cases h
  refine ⟨rfl, ?_, List.sum_eq_foldl.symm⟩
  simp [ranges]
  omega

theorem finishedRange_eq_some {s s' : RowSampler K} {i : Nat} (h : s.finishedRange i = some s') :
    ∃ hi : i < s.masses.length,
      s'.mass = s.mass - s.masses[i] ∧ s'.elim = s.elim.set i true ∧ s'.masses = s.masses := by
  unfold finishedRange at h
  split_ifs at h with hi
  cases h
  exact ⟨hi, rfl, rfl, rfl⟩

theorem step_eq_some {sqrt : K → K} {ops : SATupleOps S} {s s' : RowSampler K} {c : Call S K}
    (h : s.step sqrt ops c = some s') :
    (∃ salist sai saf, c = .init salist sai saf ∧ init sqrt ops salist sai saf = some s') ∨
      (∃ i, c = .finishedRange i ∧ s.finishedRange i = some s') ∨
      ((∃ u, c = .next u) ∧ s' = s) := by
  cases c with
  | init salist sai saf => exact .inl ⟨salist, sai, saf, rfl, h⟩
  | finishedRange i => exact .inr (.inl ⟨i, rfl, h⟩)
  | next u =>
    obtain ⟨_, -, rfl⟩ := Option.map_eq_some'.1 h
    exact .inr (.inr ⟨⟨u, rfl⟩, rfl⟩)

@[simp] theorem run_nil (sqrt : K → K) (ops : SATupleOps S) (s : RowSampler K) :
    run sqrt ops s [] = some s := rfl

theorem run_cons_eq_some {sqrt : K → K} {ops : SATupleOps S} {s s' : RowSampler K}
    {c : Call S K} {cs : List (Call S K)} :
    run sqrt ops s (c :: cs) = some s' ↔
      ∃ s₁, s.step sqrt ops c = some s₁ ∧ run sqrt ops s₁ cs = some s' := by
  simp [run, Option.bind_eq_some]

end RowSampler

end Bowtie2
