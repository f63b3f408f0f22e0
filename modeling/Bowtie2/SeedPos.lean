import Mathlib.Order.RelClasses
import Mathlib.Data.Prod.Lex
import Mathlib.Data.Bool.Basic

/-!
# Bowtie2.SeedPos

The seed-hit position `SeedPos` and its pairing with a suffix-array range, `SATupleAndPos`
(`aligner_sw_driver.h`), with the comparison operators the driver sorts and deduplicates
them by.

Every C++ comparison operator of these sources is a cascade of
`if (x < y) return A; if (x > y) return B;` over the fields, ending in a default. `cmpStep` is
one rung of it, and its two lemmas turn a cascade into a lexicographic comparison.

* `seedPos_lt_total_order`: `SeedPos::operator<` compares `(offidx, rdoff, seedlen, !fw)`
  lexicographically, `operator>` is its converse, `operator==` is field equality, and exactly
  one of the three holds of any pair.
* `satupleAndPos_lt_strictWeakOrder`: whenever `SATuple`'s `operator<` is a strict weak order
  and its `operator>` the converse, so is `SATupleAndPos::operator<`, and its incomparability
  is `operator==` as soon as `SATuple`'s is.
-/

namespace Bowtie2

/-! ## Comparison cascades -/

/-- One rung of a comparison cascade: `if (x < y) return onLt; if (x > y) return onGt;`, and
otherwise the rest of the cascade. -/
def cmpStep {α : Type} [LinearOrder α] (x y : α) (onLt onGt rest : Bool) : Bool :=
  if x < y then onLt else if y < x then onGt else rest

section Cascade

variable {α : Type} [LinearOrder α] (x y : α) (rest : Bool)

theorem cmpStep_swap (onLt onGt : Bool) :
    cmpStep x y onLt onGt rest = cmpStep y x onGt onLt rest := by
  unfold cmpStep
  split_ifs with h1 h2 h3 <;> first | rfl | exact absurd (h1.trans h2) (lt_irrefl x)

theorem cmpStep_true_false :
    cmpStep x y true false rest = true ↔ x < y ∨ x = y ∧ rest = true := by
  unfold cmpStep
  split_ifs with h1 h2
  · simp [h1]
  · simp [h1, h2.ne']
  · simp [h1, le_antisymm (not_lt.1 h2) (not_lt.1 h1)]

theorem cmpStep_false_true :
    cmpStep x y false true rest = true ↔ y < x ∨ x = y ∧ rest = true := by
  rw [cmpStep_swap, cmpStep_true_false, eq_comm]

end Cascade

def ExactlyOne (p q r : Bool) : Prop := [p, q, r].count true = 1

instance (p q r : Bool) : Decidable (ExactlyOne p q r) := inferInstanceAs (Decidable (_ = _))

theorem exactlyOne_of_trichotomy {β : Type} [LinearOrder β] {x y : β} {p q r : Bool}
    (hp : p = true ↔ x < y) (hq : q = true ↔ x = y) (hr : r = true ↔ y < x) :
    ExactlyOne p q r := by
  rw [Bool.eq_iff_iff.2 (hp.trans decide_eq_true_iff.symm),
    Bool.eq_iff_iff.2 (hq.trans decide_eq_true_iff.symm),
    Bool.eq_iff_iff.2 (hr.trans decide_eq_true_iff.symm)]
  rcases lt_trichotomy x y with h | rfl | h
  · simp [ExactlyOne, h, h.ne, h.asymm]
  · simp [ExactlyOne]
  · simp [ExactlyOne, h, h.ne', h.asymm]

/-! ## `SeedPos` -/

/-- A seed hit's position: strand, offset-set index, offset into the read and seed length
(`uint32_t` in the source, which the comparisons below never overflow). -/
structure SeedPos where
  fw : Bool
  offidx : Nat
  rdoff : Nat
  seedlen : Nat
  deriving DecidableEq, Repr

namespace SeedPos

/-- `SeedPos::operator<`. -/
def lt (a o : SeedPos) : Bool :=
  cmpStep a.offidx o.offidx true false <|
  cmpStep a.rdoff o.rdoff true false <|
  cmpStep a.seedlen o.seedlen true false <|
  if a.fw && !o.fw then true else if !a.fw && o.fw then false else false

/-- `SeedPos::operator>`. -/
def gt (a o : SeedPos) : Bool :=
  cmpStep a.offidx o.offidx false true <|
  cmpStep a.rdoff o.rdoff false true <|
  cmpStep a.seedlen o.seedlen false true <|
  if a.fw && !o.fw then false else if !a.fw && o.fw then true else false

/-- `SeedPos::operator==`. -/
def eq (a o : SeedPos) : Bool :=
  a.fw == o.fw && a.offidx == o.offidx && a.rdoff == o.rdoff && a.seedlen == o.seedlen

/-- The order `operator<` sorts by: offset-set index, read offset, seed length, and the
forward strand before the reverse one. -/
def key (a : SeedPos) : Nat ×ₗ Nat ×ₗ Nat ×ₗ Bool :=
  toLex (a.offidx, toLex (a.rdoff, toLex (a.seedlen, !a.fw)))

theorem key_injective : Function.Injective key := by
  rintro ⟨f, o, r, s⟩ ⟨f', o', r', s'⟩ h
  simp only [key, toLex_inj, Prod.mk.injEq, Bool.not_inj_iff] at h
  obtain ⟨rfl, rfl, rfl, rfl⟩ := h
  rfl

theorem lt_iff_key (a b : SeedPos) : a.lt b = true ↔ a.key < b.key := by
  simp only [lt, key, cmpStep_true_false, Prod.Lex.lt_iff]
  cases a.fw <;> cases b.fw <;> simp [Bool.lt_iff]

theorem gt_iff_key (a b : SeedPos) : a.gt b = true ↔ b.key < a.key := by
  simp only [gt, key, cmpStep_false_true, Prod.Lex.lt_iff, eq_comm (a := b.offidx),
    eq_comm (a := b.rdoff), eq_comm (a := b.seedlen)]
  cases a.fw <;> cases b.fw <;> simp [Bool.lt_iff]

theorem gt_eq_lt (a b : SeedPos) : a.gt b = b.lt a :=
  Bool.eq_iff_iff.2 ((gt_iff_key a b).trans (lt_iff_key b a).symm)

theorem eq_iff (a b : SeedPos) : a.eq b = true ↔ a = b := by
  cases a; cases b; simp [eq, and_assoc]

theorem lt_isStrictTotalOrder : IsStrictTotalOrder SeedPos (fun a b => a.lt b = true) where
  irrefl a := by simp [lt_iff_key]
  trans a b c := by simpa only [lt_iff_key] using lt_trans
  trichotomous a b := by
    simp only [lt_iff_key, ← key_injective.eq_iff]
    exact lt_trichotomy _ _

theorem incomp_iff_eq (a b : SeedPos) : ¬a.lt b = true ∧ ¬b.lt a = true ↔ a = b := by
  rw [lt_iff_key, lt_iff_key, ← key_injective.eq_iff]
  exact ⟨fun h => le_antisymm (not_lt.1 h.2) (not_lt.1 h.1), fun h => by simp [h]⟩

theorem exactlyOne_lt_eq_gt (a b : SeedPos) : ExactlyOne (a.lt b) (a.eq b) (a.gt b) :=
  exactlyOne_of_trichotomy (lt_iff_key a b) ((eq_iff a b).trans key_injective.eq_iff.symm)
    (gt_iff_key a b)

/-- `SeedPos`'s three operators agree with one lexicographic order on
`(offidx, rdoff, seedlen, !fw)`, and that order is strict and total. -/
theorem seedPos_lt_total_order :
    (∀ a b : SeedPos, a.lt b = true ↔ a.key < b.key) ∧
    (∀ a b : SeedPos, a.gt b = b.lt a) ∧
    (∀ a b : SeedPos, a.eq b = true ↔ a = b) ∧
    IsStrictTotalOrder SeedPos (fun a b => a.lt b = true) ∧
    (∀ a b : SeedPos, ExactlyOne (a.lt b) (a.eq b) (a.gt b)) :=
  ⟨lt_iff_key, gt_eq_lt, eq_iff, lt_isStrictTotalOrder, exactlyOne_lt_eq_gt⟩

end SeedPos

/-! ## `SATupleAndPos` -/

section WeakOrder

variable {β : Type} {r : β → β → Prop} [IsStrictWeakOrder β r] {a b c : β}

theorem rel_of_rel_of_incomp (hab : r a b) (hbc : ¬r b c) (hcb : ¬r c b) : r a c := by
  by_contra hac
  have hca : ¬r c a := fun hca => hcb (IsTrans.trans _ _ _ hca hab)
  exact (IsStrictWeakOrder.incomp_trans a c b ⟨hac, hca⟩ ⟨hcb, hbc⟩).1 hab

theorem rel_of_incomp_of_rel (hab : ¬r a b) (hba : ¬r b a) (hbc : r b c) : r a c := by
  by_contra hac
  have hca : ¬r c a := fun hca => hba (IsTrans.trans _ _ _ hbc hca)
  exact (IsStrictWeakOrder.incomp_trans b a c ⟨hba, hab⟩ ⟨hac, hca⟩).1 hbc

end WeakOrder

/-- What the driver uses of `SATuple`, which these sources include but do not define: its
comparison operators and the size of its suffix-array range. -/
structure SATupleOps (S : Type) where
  lt : S → S → Bool
  gt : S → S → Bool
  eq : S → S → Bool
  size : S → Nat

def SATupleOps.Lt {S : Type} (ops : SATupleOps S) (x y : S) : Prop := ops.lt x y = true

/-- Ranges that compare by their size alone. -/
def SATupleOps.bySize : SATupleOps Nat where
  lt x y := decide (x < y)
  gt x y := decide (y < x)
  eq x y := decide (x = y)
  size x := x

/-- `SATupleAndPos`: a suffix-array range, the seed position that yielded it, and the size of
the range it was taken from. -/
structure SATupleAndPos (S : Type) where
  sat : S
  pos : SeedPos
  origSz : Nat

namespace SATupleAndPos

variable {S : Type} (ops : SATupleOps S)

/-- `SATupleAndPos::operator<`. -/
def lt (a o : SATupleAndPos S) : Bool :=
  if ops.lt a.sat o.sat then true else if ops.gt a.sat o.sat then false else a.pos.lt o.pos

/-- `SATupleAndPos::operator==`; `origSz` takes no part. -/
def eq (a o : SATupleAndPos S) : Bool := ops.eq a.sat o.sat && a.pos.eq o.pos

section StrictWeakOrder

variable {ops} (hgt : ∀ x y, ops.gt x y = ops.lt y x)
include hgt

theorem lt_iff (a b : SATupleAndPos S) :
    a.lt ops b = true ↔ ops.Lt a.sat b.sat ∨
      (¬ops.Lt b.sat a.sat ∧ ¬ops.Lt a.sat b.sat ∧ a.pos.lt b.pos = true) := by
  unfold lt SATupleOps.Lt
  rw [hgt]
  cases ops.lt a.sat b.sat <;> cases ops.lt b.sat a.sat <;> simp

theorem incomp_iff (a b : SATupleAndPos S) :
    ¬a.lt ops b = true ∧ ¬b.lt ops a = true ↔
      (¬ops.Lt a.sat b.sat ∧ ¬ops.Lt b.sat a.sat) ∧ a.pos = b.pos := by
  rw [lt_iff hgt, lt_iff hgt, ← SeedPos.incomp_iff_eq]
  by_cases h1 : ops.Lt a.sat b.sat <;> by_cases h2 : ops.Lt b.sat a.sat <;>
    simp [h1, h2]

variable [IsStrictWeakOrder S ops.Lt]

theorem lt_isStrictWeakOrder :
    IsStrictWeakOrder (SATupleAndPos S) (fun a b => a.lt ops b = true) where
  irrefl a := by
    simp [lt_iff hgt, irrefl a.sat, SeedPos.lt_isStrictTotalOrder.irrefl a.pos]
  trans a b c hab hbc := by
    rw [lt_iff hgt] at hab hbc ⊢
    rcases hab with hab | ⟨hba, hab, hpab⟩ <;> rcases hbc with hbc | ⟨hcb, hbc, hpbc⟩
    · exact .inl (IsTrans.trans _ _ _ hab hbc)
    · exact .inl (rel_of_rel_of_incomp hab hbc hcb)
    · exact .inl (rel_of_incomp_of_rel hab hba hbc)
    · obtain ⟨hac, hca⟩ := IsStrictWeakOrder.incomp_trans _ _ _ ⟨hab, hba⟩ ⟨hbc, hcb⟩
      exact .inr ⟨hca, hac, SeedPos.lt_isStrictTotalOrder.trans _ _ _ hpab hpbc⟩
  incomp_trans a b c hab hbc := by
    rw [incomp_iff hgt] at hab hbc ⊢
    exact ⟨IsStrictWeakOrder.incomp_trans _ _ _ hab.1 hbc.1, hab.2.trans hbc.2⟩

/-- `SATupleAndPos::operator<` orders by range, then by seed position, and is a strict weak
order whenever `SATuple`'s is; when `SATuple`'s incomparability is its `operator==`, the
tuples' incomparability is theirs. -/
theorem satupleAndPos_lt_strictWeakOrder :
    IsStrictWeakOrder (SATupleAndPos S) (fun a b => a.lt ops b = true) ∧
    ((∀ x y, ¬ops.Lt x y ∧ ¬ops.Lt y x ↔ ops.eq x y = true) →
      ∀ a b : SATupleAndPos S, ¬a.lt ops b = true ∧ ¬b.lt ops a = true ↔ a.eq ops b = true) := by
  refine ⟨lt_isStrictWeakOrder hgt, fun heq a b => ?_⟩
  rw [incomp_iff hgt, heq, eq, Bool.and_eq_true, SeedPos.eq_iff]

end StrictWeakOrder

theorem satupleAndPos_lt_strictWeakOrder_bySize :
    IsStrictWeakOrder Nat SATupleOps.bySize.Lt ∧
    (∀ x y, SATupleOps.bySize.gt x y = SATupleOps.bySize.lt y x) ∧
    IsStrictWeakOrder (SATupleAndPos Nat) (fun a b => a.lt SATupleOps.bySize b = true) ∧
    ((∀ x y, ¬SATupleOps.bySize.Lt x y ∧ ¬SATupleOps.bySize.Lt y x ↔
        SATupleOps.bySize.eq x y = true) →
      ∀ a b : SATupleAndPos Nat, ¬a.lt SATupleOps.bySize b = true ∧
        ¬b.lt SATupleOps.bySize a = true ↔ a.eq SATupleOps.bySize b = true) := by
  have hlt : SATupleOps.bySize.Lt = (· < ·) := by
    funext x y
    simp [SATupleOps.Lt, SATupleOps.bySize]
  have hswo : IsStrictWeakOrder Nat SATupleOps.bySize.Lt := hlt ▸ inferInstance
  exact ⟨hswo, fun _ _ => rfl, satupleAndPos_lt_strictWeakOrder (fun _ _ => rfl)⟩

end SATupleAndPos

end Bowtie2
