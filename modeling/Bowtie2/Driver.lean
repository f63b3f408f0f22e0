import Mathlib

/-!
# Bowtie2.Driver

`SwDriver::nextRead` (`aligner_sw_driver.h`): the per-read state the driver resets before each
new read or pair, namely the three redundant-alignment databases (`RedundantAlns`) and the two
seen-diagonal sets (`EIvalMergeList`). Both types are defined outside these sources; their
`reset` and `init` are parameters.

* `nextRead_paired`, `nextRead_unpaired`: what each mode leaves; the anchor database is sized
  for the longer mate, and in unpaired mode the mate databases are left as they were.
-/

namespace Bowtie2

/-- What `nextRead` calls on `RedundantAlns` (`reset`, `init`) and on `EIvalMergeList`
(`reset`). -/
structure ReadStateOps (R D : Type) where
  reset : R → R
  init : R → Nat → R
  resetDiags : D → D

/-- The fields of `SwDriver` that `nextRead` touches. -/
structure ReadState (R D : Type) where
  redAnchor : R
  redMate1 : R
  redMate2 : R
  seenDiags1 : D
  seenDiags2 : D

namespace ReadState

variable {R D : Type} (ops : ReadStateOps R D)

/-- `SwDriver::nextRead`. -/
def nextRead (s : ReadState R D) (paired : Bool) (mate1len mate2len : Nat) : ReadState R D :=
  let s := { s with redAnchor := ops.reset s.redAnchor, seenDiags1 := ops.resetDiags s.seenDiags1,
                    seenDiags2 := ops.resetDiags s.seenDiags2 }
  let maxlen := mate1len
  let (s, maxlen) :=
    if paired then
      ({ s with redMate1 := ops.init (ops.reset s.redMate1) mate1len,
                redMate2 := ops.init (ops.reset s.redMate2) mate2len },
        if mate2len > maxlen then mate2len else maxlen)
    else (s, maxlen)
  { s with redAnchor := ops.init s.redAnchor maxlen }

theorem nextRead_paired (s : ReadState R D) (mate1len mate2len : Nat) :
    nextRead ops s true mate1len mate2len =
      ⟨ops.init (ops.reset s.redAnchor) (max mate1len mate2len),
        ops.init (ops.reset s.redMate1) mate1len, ops.init (ops.reset s.redMate2) mate2len,
        ops.resetDiags s.seenDiags1, ops.resetDiags s.seenDiags2⟩ := by
  simp only [nextRead, ite_true, gt_iff_lt, mk.injEq, and_true]
  congr 1
  split_ifs <;> omega

theorem nextRead_unpaired (s : ReadState R D) (mate1len mate2len : Nat) :
    nextRead ops s false mate1len mate2len =
      ⟨ops.init (ops.reset s.redAnchor) mate1len, s.redMate1, s.redMate2,
        ops.resetDiags s.seenDiags1, ops.resetDiags s.seenDiags2⟩ := rfl

end ReadState

end Bowtie2
