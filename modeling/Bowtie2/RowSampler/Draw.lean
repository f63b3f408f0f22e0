import Bowtie2.RowSampler.Dart

/-!
# Bowtie2.RowSampler.Draw

Sampling without replacement. The driver draws a range with `next` and calls `finishedRange`
on it once it has no elements left. `drawAll` is that loop for ranges finished as soon as they
are drawn, one dart per draw.

* `draw_step`: from a state with an active range, a draw succeeds, draws an active range,
  eliminates it and keeps `MassBound`.
* `drawAll_without_replacement`: from any state a run reaches, with no more darts in `[0, 1)`
  than active ranges, every draw succeeds, only active ranges are drawn and none twice; as many
  darts as active ranges draw every one of them.
-/

namespace Bowtie2
namespace RowSampler

variable {S K : Type} [LinearOrderedField K]

/-- Draw a range with each dart and finish it at once; `none` when `next` falls through or
`finishedRange` fails its assertion. -/
def drawAll (s : RowSampler K) : List K → Option (List Nat)
  | [] => some []
  | u :: us => do
    let j ← s.next u
    let s' ← s.finishedRange j
    let js ← drawAll s' us
    pure (j :: js)

theorem drawAll_cons_of_eq_some {s s' : RowSampler K} {u : K} {us : List K} {j : Nat}
    {js : List Nat} (hj : s.next u = some j) (hf : s.finishedRange j = some s')
    (hjs : s'.drawAll us = some js) : s.drawAll (u :: us) = some (j :: js) := by
  simp [drawAll, hj, hf, hjs]

/-! ## Eliminated flags -/

theorem count_false_set_true {es : List Bool} {j : Nat} (h : es[j]? = some false) :
    (es.set j true).count false + 1 = es.count false := by
  obtain ⟨hj, hej⟩ := List.getElem?_eq_some_iff.1 h
  have hpos : 0 < es.count false := List.count_pos_iff.2 (List.getElem?_mem h)
  rw [List.count_set _ _ _ _ hj, hej]
  simp only [beq_self_eq_true, ite_true, Bool.true_beq, Bool.false_eq_true, ite_false]
  omega

theorem getElem?_set_true_eq_false {es : List Bool} {j x : Nat} :
    (es.set j true)[x]? = some false ↔ x ≠ j ∧ es[x]? = some false := by
  rw [List.getElem?_set]
  by_cases h : j = x
  · subst h
    split_ifs <;> simp_all
  · simp [h, Ne.symm h]

/-! ## Draws -/

theorem draw_step {s : RowSampler K} (hs : MassBound s) (hact : false ∈ s.elim) {u : K}
    (hu0 : 0 ≤ u) (hu1 : u < 1) :
    ∃ j s', s.next u = some j ∧ s.elim[j]? = some false ∧ s.finishedRange j = some s' ∧
      MassBound s' ∧ s'.elim = s.elim.set j true := by
  obtain ⟨j, hj, hjl, hej⟩ := next_active_of_massBound hs hact hu0 hu1
  obtain ⟨s', hf⟩ : ∃ s', s.finishedRange j = some s' := ⟨_, dif_pos hjl⟩
  exact ⟨j, s', hj, hej, hf, massBound_finishedRange hs hf, (finishedRange_eq_some hf).2.2.1⟩

theorem drawAll_spec : ∀ {us : List K} {s : RowSampler K}, MassBound s →
    (∀ u ∈ us, 0 ≤ u ∧ u < 1) → us.length ≤ s.elim.count false →
    ∃ js, s.drawAll us = some js ∧ js.Nodup ∧ (∀ j ∈ js, s.elim[j]? = some false) ∧
      (us.length = s.elim.count false → ∀ j, s.elim[j]? = some false → j ∈ js)
  | [], s, _, _, _ => ⟨[], rfl, List.nodup_nil, by simp, fun h j hj => by
      have := List.count_pos_iff.2 (List.getElem?_mem hj)
      simp only [List.length_nil] at h
      omega⟩
  | u :: us, s, hs, hus, hlen => by
    simp only [List.length_cons] at hlen
    obtain ⟨hu0, hu1⟩ := hus u (List.mem_cons_self u us)
    obtain ⟨j, s', hj, hej, hf, hs', he'⟩ :=
      draw_step hs (List.count_pos_iff.1 (by omega)) hu0 hu1
    have hcount : s'.elim.count false + 1 = s.elim.count false := he' ▸ count_false_set_true hej
    have hact' : ∀ x, s'.elim[x]? = some false ↔ x ≠ j ∧ s.elim[x]? = some false := by
      simp [he', getElem?_set_true_eq_false]
    obtain ⟨js, hjs, hnd, hsub, hall⟩ :=
      drawAll_spec hs' (fun v hv => hus v (List.mem_cons_of_mem u hv)) (by omega)
    refine ⟨j :: js, drawAll_cons_of_eq_some hj hf hjs,
      List.nodup_cons.2 ⟨fun hmem => ((hact' j).1 (hsub j hmem)).1 rfl, hnd⟩, ?_, ?_⟩
    · simp only [List.mem_cons, forall_eq_or_imp]
      exact ⟨hej, fun x hx => ((hact' x).1 (hsub x hx)).2⟩
    · intro heq x hx
      by_cases hxj : x = j
      · exact hxj ▸ List.mem_cons_self j js
      · exact List.mem_cons_of_mem j (hall (by simp only [List.length_cons] at heq; omega) x
          ((hact' x).2 ⟨hxj, hx⟩))

/-- On every run whose `init` calls sample non-empty ranges, drawing with darts in `[0, 1)` and
finishing each range drawn, no more times than there are active ranges, never fails, draws only
active ranges and none twice; as many draws as active ranges draw every active range. -/
theorem drawAll_without_replacement (ops : SATupleOps S) (calls : List (Call S ℝ))
    {s : RowSampler ℝ} (hrun : run Real.sqrt ops empty calls = some s)
    (hcalls : ∀ c ∈ calls, c.RangesNonempty ops) {us : List ℝ} (hus : ∀ u ∈ us, 0 ≤ u ∧ u < 1)
    (hlen : us.length ≤ s.elim.count false) :
    ∃ js, s.drawAll us = some js ∧ js.Nodup ∧ (∀ j ∈ js, s.elim[j]? = some false) ∧
      (us.length = s.elim.count false → ∀ j, s.elim[j]? = some false → j ∈ js) :=
  drawAll_spec (massBound_of_run ops calls hrun hcalls) hus hlen

theorem drawAll_without_replacement_oneAndFour :
    ∃ s, run Real.sqrt SATupleOps.bySize empty sampleOneAndFour = some s ∧
      (∀ c ∈ sampleOneAndFour, c.RangesNonempty SATupleOps.bySize) ∧
      (∀ u ∈ [(1 / 2 : ℝ), 1 / 2], 0 ≤ u ∧ u < 1) ∧ [(1 / 2 : ℝ), 1 / 2].length ≤ s.elim.count false ∧
      ∃ js, s.drawAll [1 / 2, 1 / 2] = some js ∧ js.Nodup ∧ (∀ j ∈ js, s.elim[j]? = some false) ∧
        ([(1 / 2 : ℝ), 1 / 2].length = s.elim.count false → ∀ j, s.elim[j]? = some false → j ∈ js) := by
  have hcalls : ∀ c ∈ sampleOneAndFour, c.RangesNonempty SATupleOps.bySize := by
    simp [sampleOneAndFour, Call.RangesNonempty, ranges, SATupleOps.bySize]
  have hus : ∀ u ∈ [(1 / 2 : ℝ), 1 / 2], 0 ≤ u ∧ u < 1 := by norm_num
  exact ⟨_, rfl, hcalls, hus, by decide,
    drawAll_without_replacement _ sampleOneAndFour rfl hcalls hus (by decide)⟩

end RowSampler
end Bowtie2
