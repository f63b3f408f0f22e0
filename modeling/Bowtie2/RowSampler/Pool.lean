import Bowtie2.RowSampler.Draw

/-!
# Bowtie2.RowSampler.Pool

What `RowSampler` is for, stated without its arrays: a pool of weighted ranges. `init` fills
the pool, `finishedRange(i)` takes range `i` out of it, and a draw picks a range of the pool
with chance its weight over the pool's total. `RowSampler.pool` reads this abstract state off a
sampler.

* `pool_run`: every run of the sampler performs the same calls on the pool, whether or not its
  `finishedRange` calls name active ranges.
* `next_refines_pool`: on every run whose `finishedRange` calls name active ranges, the sampler
  stands for the pool the same calls build, and a uniform dart draws each range with exactly the
  pool's chance.
-/

namespace Bowtie2

/-- A pool of ranges with their weights; `active` are the ranges still in play. -/
@[ext] structure WeightedPool (K : Type) where
  weights : List K
  active : Finset Nat
  active_lt : ∀ i ∈ active, i < weights.length

namespace WeightedPool

variable {S K : Type} [LinearOrderedField K]

def total (p : WeightedPool K) : K := ∑ i ∈ p.active, p.weights.getD i 0

def prob (p : WeightedPool K) (i : Nat) : K :=
  if i ∈ p.active then p.weights.getD i 0 / p.total else 0

def ofWeights (ws : List K) : WeightedPool K :=
  ⟨ws, Finset.range ws.length, fun _ => Finset.mem_range.1⟩

def empty : WeightedPool K := ofWeights []

def remove (p : WeightedPool K) (i : Nat) : WeightedPool K :=
  ⟨p.weights, p.active.erase i, fun j hj => p.active_lt j (Finset.mem_of_mem_erase hj)⟩

/-- The pool after one of the sampler's calls, each range of an `init` weighing `w` of it. -/
def step (w : SATupleAndPos S → K) (p : WeightedPool K) : RowSampler.Call S K → WeightedPool K
  | .init salist sai saf => ofWeights ((RowSampler.ranges salist sai saf).map w)
  | .finishedRange i => p.remove i
  | .next _ => p

def run (w : SATupleAndPos S → K) : WeightedPool K → List (RowSampler.Call S K) → WeightedPool K
  | p, [] => p
  | p, c :: cs => run w (p.step w c) cs

theorem prob_remove (p : WeightedPool K) (hnn : ∀ w ∈ p.weights, 0 ≤ w) {i j : Nat}
    (hj : j ∈ p.active) (hij : i ≠ j) : (p.remove j).prob i = p.prob i / (1 - p.prob j) := by
  have htot : (p.remove j).total = p.total - p.weights.getD j 0 := Finset.sum_erase_eq_sub hj
  have hw : ∀ k, 0 ≤ p.weights.getD k 0 := fun k => by
    rw [List.getD_eq_getElem?_getD]
    cases h : p.weights[k]? with
    | none => exact le_rfl
    | some w => exact hnn w (List.getElem?_mem h)
  rw [prob, htot, prob, prob, if_pos hj]
  simp only [remove, Finset.mem_erase, ne_eq, hij, not_false_eq_true, true_and]
  split_ifs with hi
  · rcases eq_or_ne p.total 0 with h0 | h0
    · have hzero : p.weights.getD i 0 = 0 :=
        (Finset.sum_eq_zero_iff_of_nonneg fun k _ => hw k).1 h0 i hi
      rw [hzero, zero_div, zero_div, zero_div]
    · rw [one_sub_div h0, div_div_div_cancel_right₀ h0]
  · simp

end WeightedPool

namespace RowSampler

variable {S K : Type} [LinearOrderedField K]

/-- The pool a sampler stands for: its masses, and the ranges not eliminated. -/
def pool (s : RowSampler K) : WeightedPool K :=
  ⟨s.masses, (Finset.range s.masses.length).filter fun i => s.elim[i]? = some false,
    fun _ hi => Finset.mem_range.1 (Finset.mem_filter.1 hi).1⟩

omit [LinearOrderedField K] in
theorem mem_pool_active {s : RowSampler K} {i : Nat} :
    i ∈ s.pool.active ↔ s.elim[i]? = some false := by
  simp only [pool, Finset.mem_filter, Finset.mem_range, and_iff_right_iff_imp]
  intro h
  exact s.length_elim ▸ (List.getElem?_eq_some_iff.1 h).1

/-! ## The active mass is the pool's total -/

theorem activeSum_eq_sum : ∀ (es : List Bool) (ms : List K),
    activeSum es ms = ∑ i ∈ Finset.range es.length, if es[i]? = some false then ms.getD i 0 else 0
  | [], _ => by simp
  | _ :: es, [] => by simp
  | e :: es, m :: ms => by
    rw [activeSum_cons, List.length_cons, Finset.sum_range_succ', activeSum_eq_sum es ms, add_comm]
    cases e <;> simp

theorem activeMass_eq_total (s : RowSampler K) : s.activeMass = s.pool.total := by
  rw [activeMass, activeSum_eq_sum, WeightedPool.total, pool, Finset.sum_filter, s.length_elim]

/-! ## Simulation -/

theorem pool_empty : (empty : RowSampler K).pool = WeightedPool.empty := by
  ext <;> simp [pool, empty, WeightedPool.empty, WeightedPool.ofWeights]

theorem pool_step {sqrt : K → K} {ops : SATupleOps S} {s s' : RowSampler K} {c : Call S K}
    (h : s.step sqrt ops c = some s') : s'.pool = s.pool.step (weight sqrt ops) c := by
  rcases step_eq_some h with ⟨salist, sai, saf, rfl, hi⟩ | ⟨i, rfl, hf⟩ | ⟨⟨u, rfl⟩, rfl⟩
  · obtain ⟨hms, he, -⟩ := init_eq_some hi
    ext x
    · simp [pool, WeightedPool.step, WeightedPool.ofWeights, hms]
    · simp only [mem_pool_active, he, WeightedPool.step, WeightedPool.ofWeights, hms,
        Finset.mem_range, List.length_map, List.getElem?_replicate]
      split_ifs <;> simp_all
  · obtain ⟨-, -, he, hms⟩ := finishedRange_eq_some hf
    ext x
    · simp [pool, WeightedPool.step, WeightedPool.remove, hms]
    · simp only [mem_pool_active, he, getElem?_set_true_eq_false, WeightedPool.step,
        WeightedPool.remove, Finset.mem_erase]
  · rfl

theorem pool_run {sqrt : K → K} {ops : SATupleOps S} :
    ∀ {cs : List (Call S K)} {s s' : RowSampler K}, run sqrt ops s cs = some s' →
      s'.pool = s.pool.run (weight sqrt ops) cs
  | [], _, _, h => by cases h; rfl
  | _ :: _, _, _, h => by
    obtain ⟨s₁, h₁, h₂⟩ := run_cons_eq_some.1 h
    rw [pool_run h₂, pool_step h₁]
    rfl

/-! ## Draws -/

theorem prob_pool {s : RowSampler K} (hmass : s.mass = s.activeMass) (i : Nat) :
    s.pool.prob i = if s.elim[i]? = some false then s.masses.getD i 0 / s.mass else 0 := by
  simp only [WeightedPool.prob, mem_pool_active, hmass, activeMass_eq_total]
  rfl

theorem next_eq_none {s : RowSampler K} (hnn : ∀ m ∈ s.masses, 0 ≤ m)
    (hmass : s.mass = s.activeMass) (h0 : s.activeMass = 0) (u : K) : s.next u = none := by
  rw [Option.eq_none_iff_forall_not_mem]
  intro k h
  obtain ⟨m, he, hm, -, hhi⟩ := next_sound h
  have hle : s.prefixMass k + m ≤ 0 := h0 ▸ activeSum_take_add_le hnn he hm
  rw [hmass, h0, mul_zero] at hhi
  exact absurd hle (not_le.2 hhi)

theorem volume_darts_eq_prob {s : RowSampler ℝ} (hnn : ∀ m ∈ s.masses, 0 ≤ m)
    (hmass : s.mass = s.activeMass) (i : Nat) :
    MeasureTheory.volume {u | 0 ≤ u ∧ u < 1 ∧ s.next u = some i} =
      ENNReal.ofReal (s.pool.prob i) := by
  rw [prob_pool hmass]
  rcases (hmass ▸ activeSum_nonneg hnn : 0 ≤ s.mass).eq_or_lt with h0 | hA
  · have hnone : ∀ u, s.next u = none := next_eq_none hnn hmass (hmass ▸ h0.symm)
    simp [hnone, ← h0]
  · rcases hm : s.masses[i]? with _ | m
    · have he : s.elim[i]? = none := by
        rw [List.getElem?_eq_none_iff] at hm ⊢
        exact s.length_elim ▸ hm
      have hnot : ∀ u, s.next u ≠ some i := fun u h => by
        obtain ⟨m, -, hm', -⟩ := next_sound h
        rw [hm] at hm'
        cases hm'
      simp [he, hnot]
    · rw [volume_darts hnn hmass hA hm, List.getD_eq_getElem?_getD, hm, Option.getD_some]
      split_ifs <;> simp

/-- On every run whose `finishedRange` calls name active ranges, the sampler stands for the
pool the same calls build (weights `1 / sqrt(size)`), and a dart uniform on `[0, 1)` draws each
range with exactly that pool's chance: its weight over the weight in play if it is in play,
none otherwise. -/
theorem next_refines_pool (ops : SATupleOps S) (calls : List (Call S ℝ)) {s : RowSampler ℝ}
    (hrun : run Real.sqrt ops empty calls = some s)
    (hcalls : AllCalls Real.sqrt ops FinishesActive empty calls) :
    s.pool = WeightedPool.empty.run (weight Real.sqrt ops) calls ∧
      ∀ i, MeasureTheory.volume {u | 0 ≤ u ∧ u < 1 ∧ s.next u = some i} =
        ENNReal.ofReal ((WeightedPool.empty.run (weight Real.sqrt ops) calls).prob i) := by
  have hpool : s.pool = WeightedPool.empty.run (weight Real.sqrt ops) calls :=
    pool_empty (K := ℝ) ▸ pool_run hrun
  exact ⟨hpool, fun i => hpool ▸ volume_darts_eq_prob (masses_nonneg_of_run ops calls hrun)
    (mass_eq_activeMass_run rfl hcalls hrun) i⟩

theorem next_refines_pool_finishFirstOfTwo :
    ∃ s, run Real.sqrt SATupleOps.bySize empty finishFirstOfTwo = some s ∧
      AllCalls Real.sqrt SATupleOps.bySize FinishesActive empty finishFirstOfTwo ∧
      s.pool = WeightedPool.empty.run (weight Real.sqrt SATupleOps.bySize) finishFirstOfTwo ∧
      ∀ i, MeasureTheory.volume {u | 0 ≤ u ∧ u < 1 ∧ s.next u = some i} =
        ENNReal.ofReal
          ((WeightedPool.empty.run (weight Real.sqrt SATupleOps.bySize) finishFirstOfTwo).prob i) :=
  ⟨_, rfl, finishesActive_finishFirstOfTwo,
    next_refines_pool _ finishFirstOfTwo rfl finishesActive_finishFirstOfTwo⟩

/-- On every run whose `finishedRange` calls name active ranges, finishing an active range `j`
renormalises the others: a uniform dart then draws range `i ≠ j` with the pool's chance of `i`
before, over one less the chance `j` had. -/
theorem next_prob_finishedRange (ops : SATupleOps S) (calls : List (Call S ℝ))
    {s s' : RowSampler ℝ} (hrun : run Real.sqrt ops empty calls = some s)
    (hcalls : AllCalls Real.sqrt ops FinishesActive empty calls) {j : Nat}
    (hj : s.elim[j]? = some false) (hf : s.finishedRange j = some s') {i : Nat} (hij : i ≠ j) :
    MeasureTheory.volume {u | 0 ≤ u ∧ u < 1 ∧ s'.next u = some i} =
      ENNReal.ofReal (s.pool.prob i / (1 - s.pool.prob j)) := by
  have hstep : s.step Real.sqrt ops (.finishedRange j) = some s' := hf
  have hnn := masses_nonneg_of_run ops calls hrun
  have hmass' : s'.mass = s'.activeMass :=
    mass_eq_activeMass_step (mass_eq_activeMass_run rfl hcalls hrun)
      (show FinishesActive s (.finishedRange j) from hj) hstep
  rw [volume_darts_eq_prob ((finishedRange_eq_some hf).2.2.2 ▸ hnn) hmass' i, pool_step hstep]
  exact congrArg ENNReal.ofReal (s.pool.prob_remove hnn (mem_pool_active.2 hj) hij)

theorem next_prob_finishedRange_oneAndFour :
    ∃ s s', run Real.sqrt SATupleOps.bySize empty sampleOneAndFour = some s ∧
      AllCalls Real.sqrt SATupleOps.bySize FinishesActive empty sampleOneAndFour ∧
      s.elim[0]? = some false ∧ s.finishedRange 0 = some s' ∧ (1 : Nat) ≠ 0 ∧
      MeasureTheory.volume {u | 0 ≤ u ∧ u < 1 ∧ s'.next u = some 1} =
        ENNReal.ofReal (s.pool.prob 1 / (1 - s.pool.prob 0)) := by
  obtain ⟨s, hrun, hj, s', hf⟩ : ∃ s, run Real.sqrt SATupleOps.bySize empty sampleOneAndFour =
      some s ∧ s.elim[0]? = some false ∧ ∃ s', s.finishedRange 0 = some s' := ⟨_, rfl, rfl, _, rfl⟩
  have hcalls : AllCalls Real.sqrt SATupleOps.bySize FinishesActive empty sampleOneAndFour :=
    ⟨trivial, fun _ _ => trivial⟩
  exact ⟨s, s', hrun, hcalls, hj, hf, by decide,
    next_prob_finishedRange _ sampleOneAndFour hrun hcalls hj hf (by decide)⟩

end RowSampler

end Bowtie2
