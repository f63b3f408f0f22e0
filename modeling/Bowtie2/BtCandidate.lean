import Bowtie2.SeedPos

/-!
# Bowtie2.BtCandidate

`DpNucBtCandidate` (`aligner_sw_nuc.h`): a cell of a filled DP matrix that a backtrace may start
from, the five comparison operators that order the candidate queue, and the `dominatedBy`
heuristic that skips a candidate lying close to one already tried.

* `btCandidate_lt_total_order`: `operator<` puts higher scores first, then higher rows, then
  higher columns; `operator>` is its converse, `operator==` compares the three keys,
  `operator<=` and `operator>=` are the non-strict forms, and exactly one of `<`, `==`, `>`
  holds of any pair.
* `dominatedBy_down_right`: `dominatedBy` tests a square of side `2 * 40` centred on the other
  cell, where its comment promises the `40 × 40` square up and to the left; this is a pair taken
  in queue order where the two differ.
-/

namespace Bowtie2

/-- A backtrace start cell: row, column (`size_t`), score (`int64_t`) and fate (`int`). The
operators below only compare these and subtract the smaller from the larger, so no value
wraps. -/
structure DpNucBtCandidate where
  row : Nat
  col : Nat
  score : Int
  fate : Int
  deriving DecidableEq, Repr

namespace DpNucBtCandidate

/-- `DpNucBtCandidate::init`: fate `0` means not yet decided. -/
def init (row col : Nat) (score : Int) : DpNucBtCandidate := ⟨row, col, score, 0⟩

/-- `DpNucBtCandidate::reset`, which the default constructor calls. -/
def reset : DpNucBtCandidate := init 0 0 0

/-- `DpNucBtCandidate::dominatedBy`. -/
def dominatedBy (self o : DpNucBtCandidate) : Bool :=
  let SQ := 40
  let (rowhi, rowlo) := if self.row < o.row then (o.row, self.row) else (self.row, o.row)
  let (colhi, collo) := if self.col < o.col then (o.col, self.col) else (self.col, o.col)
  decide (colhi - collo ≤ SQ) && decide (rowhi - rowlo ≤ SQ)

/-- `DpNucBtCandidate::operator>`: `a` is to be tried later than `o`. -/
def gt (a o : DpNucBtCandidate) : Bool :=
  cmpStep a.score o.score true false <|
  cmpStep a.row o.row true false <|
  cmpStep a.col o.col true false false

/-- `DpNucBtCandidate::operator<`: `a` is to be tried sooner than `o`. Each rung tests
`score > o.score` first, the cascade of `gt` with the operands exchanged. -/
def lt (a o : DpNucBtCandidate) : Bool :=
  cmpStep o.score a.score true false <|
  cmpStep o.row a.row true false <|
  cmpStep o.col a.col true false false

/-- `DpNucBtCandidate::operator==`; the fate takes no part. -/
def eq (a o : DpNucBtCandidate) : Bool :=
  a.row == o.row && a.col == o.col && a.score == o.score

/-- `DpNucBtCandidate::operator>=`. -/
def ge (a o : DpNucBtCandidate) : Bool := !(a.lt o)

/-- `DpNucBtCandidate::operator<=`. -/
def le (a o : DpNucBtCandidate) : Bool := !(a.gt o)

/-! ## The candidate order -/

/-- The queue order, ascending: `operator<` sorts by descending key. -/
def key (a : DpNucBtCandidate) : Int ×ₗ Nat ×ₗ Nat := toLex (a.score, toLex (a.row, a.col))

theorem gt_iff_key (a b : DpNucBtCandidate) : a.gt b = true ↔ a.key < b.key := by
  simp [gt, key, cmpStep_true_false, Prod.Lex.lt_iff]

theorem lt_iff_key (a b : DpNucBtCandidate) : a.lt b = true ↔ b.key < a.key := by
  simp [lt, key, cmpStep_true_false, Prod.Lex.lt_iff]

theorem eq_iff_key (a b : DpNucBtCandidate) : a.eq b = true ↔ a.key = b.key := by
  simp only [eq, key, Bool.and_eq_true, beq_iff_eq, toLex_inj, Prod.mk.injEq]
  exact and_comm

theorem gt_eq_lt (a b : DpNucBtCandidate) : a.gt b = b.lt a :=
  Bool.eq_iff_iff.2 ((gt_iff_key a b).trans (lt_iff_key b a).symm)

theorem le_iff (a b : DpNucBtCandidate) : a.le b = true ↔ a.lt b = true ∨ a.eq b = true := by
  rw [le, Bool.not_eq_true', ← Bool.not_eq_true, gt_iff_key, lt_iff_key, eq_iff_key, not_lt,
    le_iff_lt_or_eq, eq_comm]

theorem ge_iff (a b : DpNucBtCandidate) : a.ge b = true ↔ a.gt b = true ∨ a.eq b = true := by
  rw [ge, Bool.not_eq_true', ← Bool.not_eq_true, gt_iff_key, lt_iff_key, eq_iff_key, not_lt,
    le_iff_lt_or_eq]

theorem lt_isStrictWeakOrder :
    IsStrictWeakOrder DpNucBtCandidate (fun a b => a.lt b = true) where
  irrefl a := by simp [lt_iff_key]
  trans a b c hab hbc := by
    rw [lt_iff_key] at hab hbc ⊢
    exact hbc.trans hab
  incomp_trans a b c := by
    simp only [lt_iff_key, not_lt]
    exact fun hab hbc => ⟨hab.1.trans hbc.1, hbc.2.trans hab.2⟩

/-- The five operators of `DpNucBtCandidate` agree with one order, descending in
`(score, row, col)`: strict, and total up to `operator==`. -/
theorem btCandidate_lt_total_order :
    (∀ a b : DpNucBtCandidate, a.lt b = true ↔ b.key < a.key) ∧
    (∀ a b : DpNucBtCandidate, a.gt b = b.lt a) ∧
    (∀ a b : DpNucBtCandidate,
      a.eq b = true ↔ a.row = b.row ∧ a.col = b.col ∧ a.score = b.score) ∧
    (∀ a b : DpNucBtCandidate, a.le b = true ↔ a.lt b = true ∨ a.eq b = true) ∧
    (∀ a b : DpNucBtCandidate, a.ge b = true ↔ a.gt b = true ∨ a.eq b = true) ∧
    IsStrictWeakOrder DpNucBtCandidate (fun a b => a.lt b = true) ∧
    (∀ a b : DpNucBtCandidate, ExactlyOne (a.lt b) (a.eq b) (a.gt b)) :=
  ⟨lt_iff_key, gt_eq_lt, fun a b => by simp [eq, and_assoc], le_iff, ge_iff, lt_isStrictWeakOrder,
    fun a b => exactlyOne_of_trichotomy (lt_iff_key a b) ((eq_iff_key a b).trans eq_comm)
      (gt_iff_key a b)⟩

/-! ## Domination -/

/-- A candidate taken after `a`, below and to the right of it, that `dominatedBy` still
counts as dominated by `a`. -/
theorem dominatedBy_down_right :
    (init 0 0 10).le (init 10 10 5) = true ∧ (init 10 10 5).dominatedBy (init 0 0 10) = true ∧
      ¬(init 10 10 5).row ≤ (init 0 0 10).row :=
  ⟨by decide, by decide, by decide⟩

end DpNucBtCandidate

end Bowtie2
