import Bowtie2.RowSampler.Basic

/-!
# Bowtie2.RowSampler.Mass

What a run of the sampler does to its state. `run_invariant` is the one induction over runs;
each fact below is a property one call keeps.

`finishedRange(i)` takes range `i`'s mass off `mass_` without checking that `i` is still
active, so a range finished twice is paid for twice.

* `mass_eq_activeMass_of_run`: on a run whose `finishedRange` calls each name an active range,
  as the driver's calls do, `mass_` is the mass of the active ranges after every call;
  `finishedRange_twice` is a run where it is not.
* `massBound_of_run`: on every run, `mass_` is at most the active mass and every range's mass
  is positive.
* `masses_of_run`, `elim_true_of_run`: the masses are those of the last `init`, and a range
  eliminated stays eliminated until the next `init`.
-/

namespace Bowtie2
namespace RowSampler

variable {S K : Type} [LinearOrderedField K]

/-! ## Active mass -/

theorem activeSum_replicate_false (ms : List K) :
    activeSum (List.replicate ms.length false) ms = ms.sum := by
  induction ms <;> simp [List.replicate_succ, *]

theorem activeSum_eq_zero : ∀ {es : List Bool} {ms : List K}, false ∉ es → activeSum es ms = 0
  | [], _, _ | _ :: _, [], _ => by simp
  | e :: es, m :: ms, h => by
    simp only [List.mem_cons, not_or] at h
    simp [activeSum_eq_zero h.2, eq_true_of_ne_false (Ne.symm h.1)]

theorem activeSum_nonneg :
    ∀ {es : List Bool} {ms : List K}, (∀ m ∈ ms, 0 ≤ m) → 0 ≤ activeSum es ms
  | [], _, _ | _ :: _, [], _ => by simp
  | e :: es, m :: ms, h => by
    have hrest : 0 ≤ activeSum es ms :=
      activeSum_nonneg fun x hx => h x (List.mem_cons_of_mem m hx)
    cases e <;> simp [h m (List.mem_cons_self m ms), hrest, add_nonneg]

theorem activeSum_pos : ∀ {es : List Bool} {ms : List K}, es.length = ms.length → false ∈ es →
    (∀ m ∈ ms, 0 < m) → 0 < activeSum es ms
  | [], _, _, h, _ => by simp at h
  | _ :: _, [], hl, _, _ => by simp at hl
  | e :: es, m :: ms, hl, he, hpos => by
    have hm := hpos m (List.mem_cons_self m ms)
    have hrest : ∀ x ∈ ms, 0 < x := fun x hx => hpos x (List.mem_cons_of_mem m hx)
    cases e with
    | false => simpa using add_pos_of_pos_of_nonneg hm (activeSum_nonneg fun x hx => (hrest x hx).le)
    | true =>
      simp only [List.mem_cons, Bool.false_eq_true, false_or] at he
      simpa using activeSum_pos (by simpa using hl) he hrest

theorem activeSum_set_true : ∀ {es : List Bool} {ms : List K} {i : Nat} {e : Bool} {m : K},
    es[i]? = some e → ms[i]? = some m →
      activeSum es ms = activeSum (es.set i true) ms + (if e then 0 else m)
  | [], _, _, _, _, he, _ => by simp at he
  | _ :: _, [], _, _, _, _, hm => by simp at hm
  | e' :: es, m' :: ms, 0, e, m, he, hm => by
    simp only [List.getElem?_cons_zero, Option.some.injEq] at he hm
    subst he hm
    simp [add_comm]
  | e' :: es, m' :: ms, i + 1, e, m, he, hm => by
    simp only [List.getElem?_cons_succ] at he hm
    simp [activeSum_set_true he hm, add_assoc]

/-! ## Runs -/

section Runs

variable (sqrt : K → K) (ops : SATupleOps S)

/-- Every call of a run satisfies `Q` in the state it is made in. -/
def AllCalls (Q : RowSampler K → Call S K → Prop) : RowSampler K → List (Call S K) → Prop
  | _, [] => True
  | s, c :: cs => Q s c ∧ ∀ s', s.step sqrt ops c = some s' → AllCalls Q s' cs

theorem allCalls_of_forall {Q : Call S K → Prop} :
    ∀ {cs : List (Call S K)} {s : RowSampler K}, (∀ c ∈ cs, Q c) →
      AllCalls sqrt ops (fun _ c => Q c) s cs
  | [], _, _ => trivial
  | c :: _, _, h => ⟨h c (List.mem_cons_self _ _),
      fun _ _ => allCalls_of_forall fun c' hc' => h c' (List.mem_cons_of_mem c hc')⟩

theorem run_invariant (P : RowSampler K → Prop) (Q : RowSampler K → Call S K → Prop)
    (hstep : ∀ s c s', P s → Q s c → s.step sqrt ops c = some s' → P s') :
    ∀ {cs : List (Call S K)} {s s' : RowSampler K}, P s → AllCalls sqrt ops Q s cs →
      run sqrt ops s cs = some s' → P s'
  | [], _, _, hs, _, h => Option.some.inj h ▸ hs
  | _ :: _, _, _, hs, ⟨hq, hall⟩, h => by
    obtain ⟨s₁, h₁, h₂⟩ := run_cons_eq_some.1 h
    exact run_invariant P Q hstep (hstep _ _ _ hs hq h₁) (hall s₁ h₁) h₂

end Runs

section Contract

variable {sqrt : K → K} {ops : SATupleOps S}

/-- The driver's side of the contract: `finishedRange(i)` names a range still active. -/
def FinishesActive (s : RowSampler K) : Call S K → Prop
  | .finishedRange i => s.elim[i]? = some false
  | _ => True

theorem mass_eq_activeMass_step {s s' : RowSampler K} {c : Call S K}
    (hs : s.mass = s.activeMass) (hc : FinishesActive s c) (h : s.step sqrt ops c = some s') :
    s'.mass = s'.activeMass := by
  rcases step_eq_some h with ⟨salist, sai, saf, rfl, hi⟩ | ⟨i, rfl, hf⟩ | ⟨-, rfl⟩
  · obtain ⟨-, he, hm⟩ := init_eq_some hi
    rw [activeMass, he, hm, activeSum_replicate_false]
  · obtain ⟨hi, hm, he, hms⟩ := finishedRange_eq_some hf
    rw [activeMass, he, hms, hm, hs, activeMass,
      activeSum_set_true hc (List.getElem?_eq_getElem hi)]
    simp
  · exact hs

theorem mass_eq_activeMass_run {cs : List (Call S K)} {s s' : RowSampler K}
    (hs : s.mass = s.activeMass) (hcalls : AllCalls sqrt ops FinishesActive s cs)
    (h : run sqrt ops s cs = some s') : s'.mass = s'.activeMass :=
  run_invariant sqrt ops (fun s => s.mass = s.activeMass) FinishesActive
    (fun _ _ _ => mass_eq_activeMass_step) hs hcalls h

end Contract

/-- On a run whose `finishedRange` calls each name a range still active, `mass_` is the mass
of the active ranges after every call. -/
theorem mass_eq_activeMass_of_run (ops : SATupleOps S) (calls : List (Call S ℝ))
    {s : RowSampler ℝ} (hrun : run Real.sqrt ops empty calls = some s)
    (hcalls : AllCalls Real.sqrt ops FinishesActive empty calls) :
    s.mass = s.activeMass :=
  mass_eq_activeMass_run rfl hcalls hrun

/-- Two ranges of one element each, sampled, and the first then finished. -/
def finishFirstOfTwo : List (Call Nat ℝ) :=
  [.init [⟨1, ⟨true, 0, 0, 0⟩, 1⟩, ⟨1, ⟨false, 0, 0, 0⟩, 1⟩] 0 2, .finishedRange 0]

theorem run_finishFirstOfTwo : run Real.sqrt SATupleOps.bySize empty finishFirstOfTwo =
    some ⟨1, [true, false], [1, 1], rfl⟩ := by
  norm_num [finishFirstOfTwo, run, step, init, ranges, weight, SATupleOps.bySize, finishedRange,
    List.replicate_succ]

theorem mass_finishFirstOfTwo :
    ∃ s, run Real.sqrt SATupleOps.bySize empty finishFirstOfTwo = some s ∧
      s.mass = s.activeMass ∧ 0 < s.mass :=
  ⟨_, run_finishFirstOfTwo, by norm_num [activeMass], one_pos⟩

theorem finishesActive_finishFirstOfTwo :
    AllCalls Real.sqrt SATupleOps.bySize FinishesActive empty finishFirstOfTwo := by
  refine ⟨trivial, fun s' h => ⟨?_, fun _ _ => trivial⟩⟩
  cases h
  rfl

theorem mass_eq_activeMass_of_run_finishFirstOfTwo :
    ∃ s, run Real.sqrt SATupleOps.bySize empty finishFirstOfTwo = some s ∧
      AllCalls Real.sqrt SATupleOps.bySize FinishesActive empty finishFirstOfTwo ∧
      s.mass = s.activeMass :=
  ⟨_, run_finishFirstOfTwo, finishesActive_finishFirstOfTwo,
    mass_eq_activeMass_of_run _ finishFirstOfTwo run_finishFirstOfTwo
      finishesActive_finishFirstOfTwo⟩

/-- A range finished twice is paid for twice: `mass_` ends at `-1`, with no mass active. -/
theorem finishedRange_twice :
    ∃ s, run Real.sqrt SATupleOps.bySize empty
        [.init [⟨1, ⟨true, 0, 0, 0⟩, 1⟩] 0 1, .finishedRange 0, .finishedRange 0] = some s ∧
      s.mass = -1 ∧ s.activeMass = 0 := by
  refine ⟨_, rfl, ?_, ?_⟩ <;>
    norm_num [init, ranges, weight, SATupleOps.bySize, finishedRange, activeMass]

/-! ## A bound on every run -/

structure MassBound (s : RowSampler K) : Prop where
  mass_le : s.mass ≤ s.activeMass
  masses_pos : ∀ m ∈ s.masses, 0 < m

def Call.RangesNonempty (ops : SATupleOps S) : Call S K → Prop
  | .init salist sai saf => ∀ t ∈ ranges salist sai saf, 1 ≤ ops.size t.sat
  | _ => True

section Bound

variable {sqrt : K → K} {ops : SATupleOps S}

theorem massBound_finishedRange {s s' : RowSampler K} {i : Nat} (hs : MassBound s)
    (h : s.finishedRange i = some s') : MassBound s' := by
  obtain ⟨hi, hm, he, hms⟩ := finishedRange_eq_some h
  have hpos := hs.masses_pos _ (List.getElem_mem hi)
  have hset := activeSum_set_true
    (List.getElem?_eq_getElem (s.length_elim ▸ hi)) (List.getElem?_eq_getElem hi)
  have hle := hs.mass_le
  refine ⟨?_, hms ▸ hs.masses_pos⟩
  rw [activeMass, hset] at hle
  rw [activeMass, he, hms, hm]
  split_ifs at hle <;> linarith

theorem masses_pos_of_init (hsqrt : ∀ n : Nat, 1 ≤ n → 0 < sqrt n)
    {salist : List (SATupleAndPos S)} {sai saf : Nat} {s : RowSampler K}
    (hne : ∀ t ∈ ranges salist sai saf, 1 ≤ ops.size t.sat)
    (h : init sqrt ops salist sai saf = some s) : ∀ m ∈ s.masses, 0 < m := by
  rw [(init_eq_some h).1]
  simp only [List.mem_map]
  rintro _ ⟨t, ht, rfl⟩
  exact one_div_pos.2 (hsqrt _ (hne t ht))

theorem massBound_step (hsqrt : ∀ n : Nat, 1 ≤ n → 0 < sqrt n) {s s' : RowSampler K}
    {c : Call S K} (hs : MassBound s) (hc : c.RangesNonempty ops)
    (h : s.step sqrt ops c = some s') : MassBound s' := by
  rcases step_eq_some h with ⟨salist, sai, saf, rfl, hi⟩ | ⟨i, rfl, hf⟩ | ⟨-, rfl⟩
  · obtain ⟨-, he, hm⟩ := init_eq_some hi
    exact ⟨by rw [activeMass, he, hm, activeSum_replicate_false], masses_pos_of_init hsqrt hc hi⟩
  · exact massBound_finishedRange hs hf
  · exact hs

end Bound

theorem sqrt_pos_of_one_le (n : Nat) (hn : 1 ≤ n) : 0 < Real.sqrt n :=
  Real.sqrt_pos.2 (Nat.cast_pos.2 hn)

theorem massBound_of_run (ops : SATupleOps S) (calls : List (Call S ℝ))
    {s : RowSampler ℝ} (hrun : run Real.sqrt ops empty calls = some s)
    (hcalls : ∀ c ∈ calls, c.RangesNonempty ops) : MassBound s :=
  run_invariant Real.sqrt ops MassBound (fun _ c => c.RangesNonempty ops)
    (fun _ _ _ => massBound_step sqrt_pos_of_one_le) ⟨le_rfl, by simp [empty]⟩
    (allCalls_of_forall _ _ hcalls) hrun

/-! ## What a run leaves -/

/-- The ranges sampled after a run: those of its last `init`, or `r` if it makes none. -/
def rangesAfter (r : List (SATupleAndPos S)) : List (Call S K) → List (SATupleAndPos S)
  | [] => r
  | .init salist sai saf :: cs => rangesAfter (ranges salist sai saf) cs
  | _ :: cs => rangesAfter r cs

theorem masses_of_run {sqrt : K → K} {ops : SATupleOps S} :
    ∀ {cs : List (Call S K)} {s s' : RowSampler K} {r : List (SATupleAndPos S)},
      s.masses = r.map (weight sqrt ops) → run sqrt ops s cs = some s' →
        s'.masses = (rangesAfter r cs).map (weight sqrt ops)
  | [], _, _, _, hs, h => Option.some.inj h ▸ hs
  | _ :: _, _, _, _, hs, h => by
    obtain ⟨s₁, h₁, h₂⟩ := run_cons_eq_some.1 h
    rcases step_eq_some h₁ with ⟨salist, sai, saf, rfl, hi⟩ | ⟨i, rfl, hf⟩ | ⟨⟨u, rfl⟩, rfl⟩
    · exact (masses_of_run (init_eq_some hi).1 h₂ :)
    · exact (masses_of_run ((finishedRange_eq_some hf).2.2.2.trans hs) h₂ :)
    · exact (masses_of_run hs h₂ :)

theorem elim_true_step {sqrt : K → K} {ops : SATupleOps S} {s s' : RowSampler K} {c : Call S K}
    {i : Nat} (hc : c.isInit = false) (hi : s.elim[i]? = some true)
    (h : s.step sqrt ops c = some s') : s'.elim[i]? = some true := by
  rcases step_eq_some h with ⟨_, _, _, rfl, -⟩ | ⟨j, rfl, hf⟩ | ⟨-, rfl⟩
  · cases hc
  · obtain ⟨-, -, he, -⟩ := finishedRange_eq_some hf
    have hlt := (List.getElem?_eq_some_iff.1 hi).1
    rw [he, List.getElem?_set]
    split_ifs with h1 h2
    · rfl
    · exact absurd (h1 ▸ hlt) h2
    · exact hi
  · exact hi

theorem elim_true_of_run {sqrt : K → K} {ops : SATupleOps S} {s s' : RowSampler K}
    {cs : List (Call S K)} {i : Nat} (hcs : ∀ c ∈ cs, c.isInit = false)
    (hi : s.elim[i]? = some true) (h : run sqrt ops s cs = some s') : s'.elim[i]? = some true :=
  run_invariant sqrt ops (fun s => s.elim[i]? = some true) (fun _ c => c.isInit = false)
    (fun _ _ _ hs hc h => elim_true_step hc hs h) hi (allCalls_of_forall _ _ hcs) h

theorem masses_nonneg_of_run (ops : SATupleOps S) (calls : List (Call S ℝ)) {s : RowSampler ℝ}
    (hrun : run Real.sqrt ops empty calls = some s) : ∀ m ∈ s.masses, 0 ≤ m := by
  rw [masses_of_run (r := []) rfl hrun]
  simp only [List.mem_map]
  rintro _ ⟨t, -, rfl⟩
  exact one_div_nonneg.2 (Real.sqrt_nonneg _)

end RowSampler
end Bowtie2
