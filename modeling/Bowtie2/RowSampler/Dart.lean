import Bowtie2.RowSampler.Mass

/-!
# Bowtie2.RowSampler.Dart

`next` is an inverse-CDF sampler. Order the active ranges by index and lay their masses end
to end on `[0, A)`, `A` the active mass: range `i` gets `[P i, P i + masses_[i])`, `P i` the
mass of the active ranges before it. When `mass_ = A`, a dart `u` selects the range whose
interval holds `u * A`.

* `nextFrom_sound`, `nextFrom_complete`: the dart loop returns exactly the active range whose
  interval holds the dart, from any point of the walk.
* `next_eq_some_active`: whatever the state and the dart, `next` returns no eliminated range.
* `next_ne_of_mass_le_prefixMass`: a dart never passes `mass_`, so once `mass_` has fallen
  below the active mass (a range finished twice) the last active ranges are never drawn.
* `next_active`: on every run, a dart in `[0, 1)` thrown while some range is active hits an
  active range; `next` never reaches its `assert(false)`.
* `next_inverse_cdf`: on every run, in a state with `mass_` equal to the active mass `A > 0`,
  the darts in `[0, 1)` that select range `i` are `[P i / A, P i / A + masses_[i] / A)` if
  `i` is active and none otherwise, where `masses_[i] = 1 / sqrt(size)` of the `i`-th range of
  the run's last `init`.
* `next_prob_of_run`, `next_prob_antitone_size`: for a uniform dart, the chance of each range
  is `(1 / sqrt(size)) / A`, so smaller ranges are drawn at least as often as larger ones.
* `next_ne_of_finishedRange`: a finished range is not drawn again before the next `init`.
-/

namespace Bowtie2
namespace RowSampler

variable {S K : Type} [LinearOrderedField K]

/-- The mass of the active ranges before range `i`. -/
def prefixMass (s : RowSampler K) (i : Nat) : K := activeSum (s.elim.take i) (s.masses.take i)

@[simp] theorem activeSum_take_zero (es : List Bool) (ms : List K) :
    activeSum (es.take 0) (ms.take 0) = 0 := rfl

@[simp] theorem activeSum_take_succ (e : Bool) (es : List Bool) (m : K) (ms : List K) (j : Nat) :
    activeSum ((e :: es).take (j + 1)) ((m :: ms).take (j + 1)) =
      (if e then 0 else m) + activeSum (es.take j) (ms.take j) := rfl

/-! ## The dart loop -/

theorem nextFrom_active : ∀ {es : List Bool} {ms : List K} {rd sofar : K} (i : Nat),
    es.length = ms.length → false ∈ es → rd < sofar + activeSum es ms →
      ∃ j, nextFrom rd es ms sofar i = some (i + j) ∧ es[j]? = some false
  | [], _, _, _, _, _, h, _ => by simp at h
  | _ :: _, [], _, _, _, hl, _, _ => by simp at hl
  | false :: es, m :: ms, rd, sofar, i, hl, _, hrd => by
    simp only [activeSum_cons, Bool.false_eq_true, ite_false] at hrd
    by_cases hhit : rd < sofar + m
    · exact ⟨0, by simp [nextFrom, hhit], by simp⟩
    · have hrest : false ∈ es := by
        by_contra hno
        rw [activeSum_eq_zero hno, add_zero] at hrd
        exact hhit hrd
      obtain ⟨j, hj, hej⟩ :=
        nextFrom_active (i + 1) (by simpa using hl) hrest (by rw [add_assoc]; exact hrd)
      exact ⟨j + 1, by simp [nextFrom, hhit, hj, Nat.add_assoc, Nat.add_comm 1], by simpa using hej⟩
  | true :: es, m :: ms, rd, sofar, i, hl, he, hrd => by
    obtain ⟨j, hj, hej⟩ :=
      nextFrom_active (i + 1) (by simpa using hl) (by simpa using he) (by simpa using hrd)
    exact ⟨j + 1, by simp [nextFrom, hj, Nat.add_assoc, Nat.add_comm 1], by simpa using hej⟩

theorem dart_lt {u m A : K} (hu0 : 0 ≤ u) (hu1 : u < 1) (hm : m ≤ A) (hA : 0 < A) :
    u * m < A := by
  rcases le_or_lt m 0 with h | h
  · exact (mul_nonpos_of_nonneg_of_nonpos hu0 h).trans_lt hA
  · exact (mul_lt_of_lt_one_left h hu1).trans_le hm

theorem nextFrom_sound : ∀ {es : List Bool} {ms : List K} {rd sofar : K} {i k : Nat},
    nextFrom rd es ms sofar i = some k →
      ∃ j m, k = i + j ∧ es[j]? = some false ∧ ms[j]? = some m ∧
        (sofar ≤ rd → sofar + activeSum (es.take j) (ms.take j) ≤ rd) ∧
        rd < sofar + activeSum (es.take j) (ms.take j) + m
  | [], _, _, _, _, _, h | _ :: _, [], _, _, _, _, h => by simp [nextFrom] at h
  | false :: es, m :: ms, rd, sofar, i, k, h => by
    by_cases hhit : rd < sofar + m
    · simp only [nextFrom, Bool.not_false, ite_true, hhit, Option.some.injEq] at h
      exact ⟨0, m, by omega, by simp, by simp, by simp, by simpa using hhit⟩
    · simp only [nextFrom, Bool.not_false, ite_true, hhit, ite_false] at h
      obtain ⟨j, m', rfl, he, hm, hlo, hhi⟩ := nextFrom_sound h
      refine ⟨j + 1, m', by omega, by simpa using he, by simpa using hm, fun _ => ?_, ?_⟩ <;>
        simp only [activeSum_take_succ, Bool.false_eq_true, ite_false, ← add_assoc]
      exacts [hlo (not_lt.1 hhit), hhi]
  | true :: es, m :: ms, rd, sofar, i, k, h => by
    simp only [nextFrom, Bool.not_true, Bool.false_eq_true, ite_false] at h
    obtain ⟨j, m', rfl, he, hm, hlo, hhi⟩ := nextFrom_sound h
    exact ⟨j + 1, m', by omega, by simpa using he, by simpa using hm, by simpa using hlo,
      by simpa using hhi⟩

theorem nextFrom_complete : ∀ {es : List Bool} {ms : List K} {rd sofar m : K} (i j : Nat),
    (∀ x ∈ ms, 0 ≤ x) → es[j]? = some false → ms[j]? = some m →
    sofar + activeSum (es.take j) (ms.take j) ≤ rd →
    rd < sofar + activeSum (es.take j) (ms.take j) + m →
      nextFrom rd es ms sofar i = some (i + j)
  | [], _, _, _, _, _, _, _, he, _, _, _ => by simp at he
  | _ :: _, [], _, _, _, _, _, _, _, hm, _, _ => by simp at hm
  | e :: es, m' :: ms, rd, sofar, m, i, 0, _, he, hm, _, hhi => by
    simp only [List.getElem?_cons_zero, Option.some.injEq] at he hm
    subst he hm
    simp_all [nextFrom]
  | e :: es, m' :: ms, rd, sofar, m, i, j + 1, hnn, he, hm, hlo, hhi => by
    simp only [List.getElem?_cons_succ] at he hm
    have hnn' : ∀ x ∈ ms, 0 ≤ x := fun x hx => hnn x (List.mem_cons_of_mem m' hx)
    have hrest : 0 ≤ activeSum (es.take j) (ms.take j) :=
      activeSum_nonneg fun x hx => hnn' x (List.mem_of_mem_take hx)
    simp only [activeSum_take_succ, ← add_assoc] at hlo hhi
    cases e with
    | false =>
      simp only [Bool.false_eq_true, ite_false] at hlo hhi
      have hmiss : ¬rd < sofar + m' := by linarith
      rw [nextFrom, Bool.not_false, if_pos rfl, if_neg hmiss,
        nextFrom_complete (i + 1) j hnn' he hm hlo hhi]
      simp only [Nat.add_assoc, Nat.add_comm 1]
    | true =>
      simp only [ite_true, add_zero] at hlo hhi
      rw [nextFrom, Bool.not_true, if_neg Bool.false_ne_true,
        nextFrom_complete (i + 1) j hnn' he hm hlo hhi]
      simp only [Nat.add_assoc, Nat.add_comm 1]

theorem activeSum_take_add_le : ∀ {es : List Bool} {ms : List K} {j : Nat} {m : K},
    (∀ x ∈ ms, 0 ≤ x) → es[j]? = some false → ms[j]? = some m →
      activeSum (es.take j) (ms.take j) + m ≤ activeSum es ms
  | [], _, _, _, _, he, _ | _ :: _, [], _, _, _, _, hm => by simp_all
  | e :: es, m' :: ms, 0, m, hnn, he, hm => by
    simp only [List.getElem?_cons_zero, Option.some.injEq] at he hm
    subst he hm
    simpa using activeSum_nonneg fun x hx => hnn x (List.mem_cons_of_mem _ hx)
  | e :: es, m' :: ms, j + 1, m, hnn, he, hm => by
    simp only [List.getElem?_cons_succ] at he hm
    have := activeSum_take_add_le (fun x hx => hnn x (List.mem_cons_of_mem m' hx)) he hm
    simp only [activeSum_take_succ, activeSum_cons, add_assoc]
    exact add_le_add_left this _

/-! ## `next` -/

theorem next_sound {s : RowSampler K} {u : K} {i : Nat} (h : s.next u = some i) :
    ∃ m, s.elim[i]? = some false ∧ s.masses[i]? = some m ∧
      (0 ≤ u * s.mass → s.prefixMass i ≤ u * s.mass) ∧ u * s.mass < s.prefixMass i + m := by
  obtain ⟨j, m, rfl, he, hm, hlo, hhi⟩ := nextFrom_sound h
  rw [zero_add] at hlo hhi ⊢
  exact ⟨m, he, hm, hlo, hhi⟩

/-- `next` never returns an eliminated range, whatever the state and the dart. -/
theorem next_eq_some_active {s : RowSampler K} {u : K} {j : Nat} (h : s.next u = some j) :
    s.elim[j]? = some false :=
  (next_sound h).elim fun _ hm => hm.1

theorem next_eq_some_active_finishFirstOfTwo :
    ∃ s, run Real.sqrt SATupleOps.bySize empty finishFirstOfTwo = some s ∧
      s.next (1 / 2) = some 1 ∧ s.elim[1]? = some false := by
  have hnext : (⟨1, [true, false], [1, 1], rfl⟩ : RowSampler ℝ).next (1 / 2) = some 1 := by
    norm_num [next, nextFrom]
  exact ⟨_, run_finishFirstOfTwo, hnext, next_eq_some_active hnext⟩

theorem next_active_of_massBound {s : RowSampler K} (hb : MassBound s) (hact : false ∈ s.elim)
    {u : K} (hu0 : 0 ≤ u) (hu1 : u < 1) :
    ∃ j, s.next u = some j ∧ j < s.masses.length ∧ s.elim[j]? = some false := by
  have hA : 0 < s.activeMass := activeSum_pos s.length_elim hact hb.masses_pos
  obtain ⟨j, hj, hej⟩ := nextFrom_active 0 s.length_elim hact
    (show u * s.mass < 0 + s.activeMass by rw [zero_add]; exact dart_lt hu0 hu1 hb.mass_le hA)
  obtain ⟨hjl, -⟩ := List.getElem?_eq_some_iff.1 hej
  exact ⟨j, by simpa [next] using hj, s.length_elim ▸ hjl, hej⟩

/-- On every run whose `init` calls sample non-empty ranges, a dart in `[0, 1)` thrown while
some range is active hits an active range: `next` never falls through to `assert(false)`. -/
theorem next_active (ops : SATupleOps S) (calls : List (Call S ℝ)) {s : RowSampler ℝ}
    (hrun : run Real.sqrt ops empty calls = some s) (hcalls : ∀ c ∈ calls, c.RangesNonempty ops)
    (hact : false ∈ s.elim) {u : ℝ} (hu0 : 0 ≤ u) (hu1 : u < 1) :
    ∃ j, s.next u = some j ∧ j < s.masses.length ∧ s.elim[j]? = some false :=
  next_active_of_massBound (massBound_of_run ops calls hrun hcalls) hact hu0 hu1

theorem next_active_finishFirstOfTwo :
    ∃ s, run Real.sqrt SATupleOps.bySize empty finishFirstOfTwo = some s ∧
      (∀ c ∈ finishFirstOfTwo, c.RangesNonempty SATupleOps.bySize) ∧ false ∈ s.elim ∧
      (0 : ℝ) ≤ 1 / 2 ∧ (1 / 2 : ℝ) < 1 ∧
      ∃ j, s.next (1 / 2) = some j ∧ j < s.masses.length ∧ s.elim[j]? = some false := by
  have hcalls : ∀ c ∈ finishFirstOfTwo, c.RangesNonempty SATupleOps.bySize := by
    simp [finishFirstOfTwo, Call.RangesNonempty, ranges, SATupleOps.bySize]
  have hact : false ∈ (List.replicate 2 false).set 0 true := by decide
  exact ⟨_, rfl, hcalls, hact, by norm_num, by norm_num,
    next_active _ finishFirstOfTwo rfl hcalls hact (by norm_num) (by norm_num)⟩

theorem next_eq_some_iff {s : RowSampler K} (hnn : ∀ m ∈ s.masses, 0 ≤ m) {u : K}
    (hrd : 0 ≤ u * s.mass) (i : Nat) :
    s.next u = some i ↔ ∃ m, s.elim[i]? = some false ∧ s.masses[i]? = some m ∧
      s.prefixMass i ≤ u * s.mass ∧ u * s.mass < s.prefixMass i + m := by
  constructor
  · intro h
    obtain ⟨m, he, hm, hlo, hhi⟩ := next_sound h
    exact ⟨m, he, hm, hlo hrd, hhi⟩
  · rintro ⟨m, he, hm, hlo, hhi⟩
    simpa using nextFrom_complete 0 i hnn he hm (by simpa [prefixMass] using hlo)
      (by simpa [prefixMass] using hhi)

/-- A dart in `[0, 1)` stops short of `mass_`, so no range whose active ranges before it
already weigh `mass_` is ever drawn, active or not. When `mass_` has fallen below the active
mass, as after a range is finished twice, the last active ranges are never drawn. -/
theorem next_ne_of_mass_le_prefixMass {s : RowSampler K} (hpos : 0 < s.mass) {i : Nat}
    (hi : s.mass ≤ s.prefixMass i) {u : K} (hu0 : 0 ≤ u) (hu1 : u < 1) : s.next u ≠ some i := by
  intro h
  obtain ⟨-, -, -, hlo, -⟩ := next_sound h
  have hrd : u * s.mass < s.mass := mul_lt_of_lt_one_left hpos hu1
  exact absurd (hi.trans (hlo (mul_nonneg hu0 hpos.le))) (not_le.2 hrd)

/-- Three ranges of one element each; the first is finished twice. -/
def finishFirstTwiceOfThree : List (Call Nat ℝ) :=
  [.init [⟨1, ⟨true, 0, 0, 0⟩, 1⟩, ⟨1, ⟨false, 0, 0, 0⟩, 1⟩, ⟨1, ⟨false, 1, 0, 0⟩, 1⟩] 0 3,
    .finishedRange 0, .finishedRange 0]

theorem next_ne_of_mass_le_prefixMass_finishFirstTwiceOfThree :
    ∃ s, run Real.sqrt SATupleOps.bySize empty finishFirstTwiceOfThree = some s ∧
      s.elim[2]? = some false ∧ 0 < s.mass ∧ s.mass ≤ s.prefixMass 2 ∧
      ∀ u : ℝ, 0 ≤ u → u < 1 → s.next u ≠ some 2 := by
  obtain ⟨s, hrun, he, hpos, hi⟩ : ∃ s, run Real.sqrt SATupleOps.bySize empty
      finishFirstTwiceOfThree = some s ∧ s.elim[2]? = some false ∧ 0 < s.mass ∧
      s.mass ≤ s.prefixMass 2 := by
    refine ⟨_, rfl, rfl, ?_, ?_⟩ <;> norm_num [init, ranges, weight, SATupleOps.bySize,
      finishedRange, prefixMass, finishFirstTwiceOfThree, List.replicate_succ]
  exact ⟨s, hrun, he, hpos, hi, fun u hu0 hu1 => next_ne_of_mass_le_prefixMass hpos hi hu0 hu1⟩

theorem darts_eq {s : RowSampler K} (hnn : ∀ m ∈ s.masses, 0 ≤ m)
    (hmass : s.mass = s.activeMass) (hA : 0 < s.mass) {i : Nat} {m : K}
    (hm : s.masses[i]? = some m) :
    {u | 0 ≤ u ∧ u < 1 ∧ s.next u = some i} =
      if s.elim[i]? = some false then
        Set.Ico (s.prefixMass i / s.mass) (s.prefixMass i / s.mass + m / s.mass)
      else ∅ := by
  ext u
  simp only [Set.mem_setOf_eq]
  split_ifs with he
  · have hP : 0 ≤ s.prefixMass i := activeSum_nonneg fun x hx => hnn x (List.mem_of_mem_take hx)
    have hPm : s.prefixMass i + m ≤ s.mass := hmass ▸ activeSum_take_add_le hnn he hm
    rw [Set.mem_Ico, ← add_div, div_le_iff₀ hA, lt_div_iff₀ hA]
    constructor
    · rintro ⟨hu0, -, h⟩
      obtain ⟨m', -, hm', hlo, hhi⟩ := (next_eq_some_iff hnn (mul_nonneg hu0 hA.le) i).1 h
      obtain rfl : m' = m := Option.some.inj (hm'.symm.trans hm)
      exact ⟨hlo, hhi⟩
    · rintro ⟨hlo, hhi⟩
      have hu0 : 0 ≤ u := nonneg_of_mul_nonneg_left (hP.trans hlo) hA
      refine ⟨hu0, ?_, (next_eq_some_iff hnn (mul_nonneg hu0 hA.le) i).2 ⟨m, he, hm, hlo, hhi⟩⟩
      nlinarith
  · simp only [Set.mem_empty_iff_false, iff_false, not_and]
    intro hu0 _ h
    obtain ⟨m', he', -⟩ := (next_eq_some_iff hnn (mul_nonneg hu0 hA.le) i).1 h
    exact he he'

/-- On every run, in a state whose `mass_` is the active mass `A > 0`, a dart `u ∈ [0, 1)`
selects range `i` exactly when `i` is active and `P i ≤ u * A < P i + masses_[i]`. So the darts
selecting an active range form an interval of length `masses_[i] / A`, no dart selects an
eliminated range, and `masses_[i]` is `1 / sqrt(size)` of the `i`-th range of the run's last
`init`. -/
theorem next_inverse_cdf (ops : SATupleOps S) (calls : List (Call S ℝ)) {s : RowSampler ℝ}
    (hrun : run Real.sqrt ops empty calls = some s) (hmass : s.mass = s.activeMass)
    (hA : 0 < s.mass) :
    (∀ u, 0 ≤ u → u < 1 → ∀ i, s.next u = some i ↔ ∃ m, s.elim[i]? = some false ∧
      s.masses[i]? = some m ∧ s.prefixMass i ≤ u * s.mass ∧ u * s.mass < s.prefixMass i + m) ∧
    (∀ i m, s.masses[i]? = some m → {u | 0 ≤ u ∧ u < 1 ∧ s.next u = some i} =
      if s.elim[i]? = some false then
        Set.Ico (s.prefixMass i / s.mass) (s.prefixMass i / s.mass + m / s.mass)
      else ∅) ∧
    s.masses = (rangesAfter [] calls).map (weight Real.sqrt ops) := by
  have hnn := masses_nonneg_of_run ops calls hrun
  exact ⟨fun u hu0 _ => next_eq_some_iff hnn (mul_nonneg hu0 hA.le),
    fun _ _ => darts_eq hnn hmass hA, masses_of_run rfl hrun⟩

theorem next_inverse_cdf_finishFirstOfTwo :
    ∃ s, run Real.sqrt SATupleOps.bySize empty finishFirstOfTwo = some s ∧
      s.mass = s.activeMass ∧ 0 < s.mass ∧
      ∀ u : ℝ, 0 ≤ u → u < 1 → ∀ i, s.next u = some i ↔ ∃ m, s.elim[i]? = some false ∧
        s.masses[i]? = some m ∧ s.prefixMass i ≤ u * s.mass ∧ u * s.mass < s.prefixMass i + m := by
  obtain ⟨s, hrun, hmass, hA⟩ := mass_finishFirstOfTwo
  exact ⟨s, hrun, hmass, hA, (next_inverse_cdf _ finishFirstOfTwo hrun hmass hA).1⟩

/-! ## The chance of each range -/

theorem volume_darts {s : RowSampler ℝ} (hnn : ∀ m ∈ s.masses, 0 ≤ m)
    (hmass : s.mass = s.activeMass) (hA : 0 < s.mass) {i : Nat} {m : ℝ}
    (hm : s.masses[i]? = some m) :
    MeasureTheory.volume {u | 0 ≤ u ∧ u < 1 ∧ s.next u = some i} =
      if s.elim[i]? = some false then ENNReal.ofReal (m / s.mass) else 0 := by
  rw [darts_eq hnn hmass hA hm]
  split_ifs <;> simp [Real.volume_Ico]

theorem masses_getElem?_of_run (ops : SATupleOps S) (calls : List (Call S ℝ)) {s : RowSampler ℝ}
    (hrun : run Real.sqrt ops empty calls = some s) {i : Nat} {t : SATupleAndPos S}
    (ht : (rangesAfter [] calls)[i]? = some t) :
    s.masses[i]? = some (1 / Real.sqrt (ops.size t.sat)) := by
  rw [masses_of_run (r := []) rfl hrun, List.getElem?_map, ht]
  rfl

/-- On every run, in a state whose `mass_` is the active mass `A > 0`, a uniform dart draws
the `i`-th range `t` of the last `init` with chance `(1 / sqrt(size t)) / A` if it is active,
and never if it is eliminated. -/
theorem next_prob_of_run (ops : SATupleOps S) (calls : List (Call S ℝ)) {s : RowSampler ℝ}
    (hrun : run Real.sqrt ops empty calls = some s) (hmass : s.mass = s.activeMass)
    (hA : 0 < s.mass) {i : Nat} {t : SATupleAndPos S} (ht : (rangesAfter [] calls)[i]? = some t) :
    MeasureTheory.volume {u | 0 ≤ u ∧ u < 1 ∧ s.next u = some i} =
      if s.elim[i]? = some false then ENNReal.ofReal (1 / Real.sqrt (ops.size t.sat) / s.mass)
      else 0 :=
  volume_darts (masses_nonneg_of_run ops calls hrun) hmass hA
    (masses_getElem?_of_run ops calls hrun ht)

theorem next_prob_of_run_finishFirstOfTwo :
    ∃ s, run Real.sqrt SATupleOps.bySize empty finishFirstOfTwo = some s ∧
      s.mass = s.activeMass ∧ 0 < s.mass ∧
      (rangesAfter [] finishFirstOfTwo)[1]? = some ⟨1, ⟨false, 0, 0, 0⟩, 1⟩ ∧
      MeasureTheory.volume {u | 0 ≤ u ∧ u < 1 ∧ s.next u = some 1} =
        if s.elim[1]? = some false then ENNReal.ofReal (1 / Real.sqrt ((1 : ℕ) : ℝ) / s.mass)
        else 0 := by
  obtain ⟨s, hrun, hmass, hA⟩ := mass_finishFirstOfTwo
  have ht : (rangesAfter [] finishFirstOfTwo)[1]? = some ⟨1, ⟨false, 0, 0, 0⟩, 1⟩ := rfl
  have hprob := next_prob_of_run _ finishFirstOfTwo hrun hmass hA ht
  simp only [SATupleOps.bySize] at hprob
  exact ⟨s, hrun, hmass, hA, ht, hprob⟩

/-- Two ranges, of one and of four elements, sampled. -/
def sampleOneAndFour : List (Call Nat ℝ) :=
  [.init [⟨1, ⟨true, 0, 0, 0⟩, 1⟩, ⟨4, ⟨false, 0, 0, 0⟩, 4⟩] 0 2]

/-- Of two active ranges, the one with fewer elements is drawn at least as often. -/
theorem next_prob_antitone_size (ops : SATupleOps S) (calls : List (Call S ℝ))
    {s : RowSampler ℝ} (hrun : run Real.sqrt ops empty calls = some s)
    (hmass : s.mass = s.activeMass) (hA : 0 < s.mass) {i j : Nat} {ti tj : SATupleAndPos S}
    (hti : (rangesAfter [] calls)[i]? = some ti) (htj : (rangesAfter [] calls)[j]? = some tj)
    (hi : s.elim[i]? = some false) (hj : s.elim[j]? = some false)
    (hpos : 1 ≤ ops.size ti.sat) (hle : ops.size ti.sat ≤ ops.size tj.sat) :
    MeasureTheory.volume {u | 0 ≤ u ∧ u < 1 ∧ s.next u = some j} ≤
      MeasureTheory.volume {u | 0 ≤ u ∧ u < 1 ∧ s.next u = some i} := by
  have hnn := masses_nonneg_of_run ops calls hrun
  rw [volume_darts hnn hmass hA (masses_getElem?_of_run ops calls hrun htj), if_pos hj,
    volume_darts hnn hmass hA (masses_getElem?_of_run ops calls hrun hti), if_pos hi]
  refine ENNReal.ofReal_le_ofReal (div_le_div_of_nonneg_right ?_ hA.le)
  exact one_div_le_one_div_of_le (sqrt_pos_of_one_le _ hpos)
    (Real.sqrt_le_sqrt (Nat.cast_le.2 hle))

theorem next_prob_antitone_size_oneAndFour :
    ∃ s, run Real.sqrt SATupleOps.bySize empty sampleOneAndFour = some s ∧
      s.mass = s.activeMass ∧ 0 < s.mass ∧
      (rangesAfter [] sampleOneAndFour)[0]? = some ⟨1, ⟨true, 0, 0, 0⟩, 1⟩ ∧
      (rangesAfter [] sampleOneAndFour)[1]? = some ⟨4, ⟨false, 0, 0, 0⟩, 4⟩ ∧
      s.elim[0]? = some false ∧ s.elim[1]? = some false ∧
      MeasureTheory.volume {u | 0 ≤ u ∧ u < 1 ∧ s.next u = some 1} ≤
        MeasureTheory.volume {u | 0 ≤ u ∧ u < 1 ∧ s.next u = some 0} := by
  obtain ⟨s, hrun, hmass, hA, h0, h1⟩ : ∃ s, run Real.sqrt SATupleOps.bySize empty
      sampleOneAndFour = some s ∧ s.mass = s.activeMass ∧ 0 < s.mass ∧
      s.elim[0]? = some false ∧ s.elim[1]? = some false := by
    refine ⟨_, rfl, ?_, ?_, rfl, rfl⟩
    · simp [init, ranges, weight, activeMass, sampleOneAndFour, List.replicate_succ]
    · norm_num [init, ranges, weight, SATupleOps.bySize, sampleOneAndFour]
      positivity
  have ht0 : (rangesAfter [] sampleOneAndFour)[0]? = some ⟨1, ⟨true, 0, 0, 0⟩, 1⟩ := rfl
  have ht1 : (rangesAfter [] sampleOneAndFour)[1]? = some ⟨4, ⟨false, 0, 0, 0⟩, 4⟩ := rfl
  exact ⟨s, hrun, hmass, hA, ht0, ht1, h0, h1,
    next_prob_antitone_size _ sampleOneAndFour hrun hmass hA ht0 ht1 h0 h1 le_rfl (by decide)⟩

/-! ## Without replacement -/

/-- Once `finishedRange(i)` has been called, `next` does not return `i` again before the next
`init`, whatever the darts. -/
theorem next_ne_of_finishedRange {sqrt : K → K} {ops : SATupleOps S} {s s₁ s' : RowSampler K}
    {i : Nat} (cs : List (Call S K)) (hf : s.finishedRange i = some s₁)
    (hcs : ∀ c ∈ cs, c.isInit = false) (hrun : run sqrt ops s₁ cs = some s') (u : K) :
    s'.next u ≠ some i := by
  obtain ⟨hi, -, he, -⟩ := finishedRange_eq_some hf
  have hi₁ : s₁.elim[i]? = some true := by
    rw [he, List.getElem?_set_self (s.length_elim ▸ hi)]
  intro h
  obtain ⟨-, he', -⟩ := next_sound h
  rw [elim_true_of_run hcs hi₁ hrun] at he'
  cases he'

theorem next_ne_of_finishedRange_twoRanges :
    ∃ s s₁, init Real.sqrt SATupleOps.bySize
        [⟨1, ⟨true, 0, 0, 0⟩, 1⟩, ⟨1, ⟨false, 0, 0, 0⟩, 1⟩] 0 2 = some s ∧
      s.finishedRange 0 = some s₁ ∧ (∀ c ∈ [(Call.next (1 / 2) : Call Nat ℝ)], c.isInit = false) ∧
      run Real.sqrt SATupleOps.bySize s₁ [Call.next (1 / 2)] = some s₁ ∧
      s₁.next (1 / 2) ≠ some 0 := by
  obtain ⟨s, hs, s₁, hs₁, hnext⟩ : ∃ s, init Real.sqrt SATupleOps.bySize
      [⟨1, ⟨true, 0, 0, 0⟩, 1⟩, ⟨1, ⟨false, 0, 0, 0⟩, 1⟩] 0 2 = some s ∧
      ∃ s₁, s.finishedRange 0 = some s₁ ∧ s₁.next (1 / 2) = some 1 :=
    ⟨_, rfl, _, rfl, by norm_num [next, nextFrom, ranges, weight, SATupleOps.bySize]⟩
  have hcs : ∀ c ∈ [(Call.next (1 / 2) : Call Nat ℝ)], c.isInit = false := by simp [Call.isInit]
  have hrun : run Real.sqrt SATupleOps.bySize s₁ [Call.next (1 / 2)] = some s₁ := by
    simp only [run, step, hnext, Option.map_some', Option.some_bind]
  exact ⟨s, s₁, hs, hs₁, hcs, hrun, next_ne_of_finishedRange _ hs₁ hcs hrun _⟩

end RowSampler
end Bowtie2
