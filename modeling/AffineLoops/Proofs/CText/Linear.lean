import AffineLoops.Proofs.CText.Denotes
import AffineLoops.Text.Linear
import Mathlib.Data.List.Forall2
/-!
# What written linear forms denote

A linear form is written without its zero and unit coefficients, with every sign as an operator except
the first. The text denotes the inner product with the values of the names, plus the constant.

## Main definitions

- `Names` — names that have the given values
- `Names.denotes_linear` — the value of a written linear form
-/

namespace AffineLoops.CText

open Text

/-- The names are in scope and have the values, in this order. -/
def Names (env : Env) (names : List String) (values : Point) : Prop :=
  List.Forall₂ (fun x v => IsName x ∧ env.lookup x = some v) names values

/-- Different names have the values that they are listed with. -/
theorem names_zip {names : List String} {values : Point} (hname : ∀ x ∈ names, IsName x)
    (hnodup : names.Nodup) (hlen : names.length = values.length) :
    Names (names.zip values) names values := by
  induction names generalizing values with
  | nil =>
    obtain rfl := List.length_eq_zero_iff.mp hlen.symm
    exact .nil
  | cons x names ih =>
    obtain ⟨v, values, rfl⟩ := List.exists_cons_of_length_eq_add_one hlen.symm
    obtain ⟨hx, hrest⟩ := List.nodup_cons.mp hnodup
    have htail : Names (names.zip values) names values :=
      ih (fun y hy => hname y (List.mem_cons_of_mem x hy)) hrest (by simpa using hlen)
    have hother : ∀ y ∈ names, y ≠ x := fun y hy => ne_of_mem_of_not_mem hy hx
    refine .cons ⟨hname x List.mem_cons_self, by simp⟩
      (((List.forall₂_and_left names values).mpr ⟨hother, htail⟩).imp ?_)
    rintro y w ⟨hne, hy, hw⟩
    exact ⟨hy, by simpa [List.lookup_cons, beq_eq_false_iff_ne.mpr hne] using hw⟩

variable {env : Env} {x s : String} {v w a : ℤ}

/-! ### One term -/

theorem IsName.apart_minus (hx : IsName x) : Apart "-" x :=
  apart_of_classes (by decide : endsWith .operator "-") hx.startsWith_word (by decide)

theorem apart_minus_number (n : ℕ) : Apart "-" (toString n) :=
  apart_of_classes (by decide : endsWith .operator "-")
    (startsWith_of_forall fun _ => charClass_of_mem_toString) (by decide)

/-- A written number, with or without a sign, before a star and a name. -/
theorem denotes_product {n : ℕ} {sign : String} (hs : Denotes env 4 (sign ++ toString n) a)
    (hx : IsName x) (hw : env.lookup x = some w) :
    Denotes env 4 (sign ++ toString n ++ "*" ++ x) (a * w) := by
  have hstar : tokens? "*" = some [.operator .mul] := by decide
  refine .binary_apart .mul hs ((Denotes.name hx hw).mono (by decide)) hstar ?_ ?_ rfl
  · have hend : endsWith .word (toString n) :=
      endsWith_of_forall fun _ => charClass_of_mem_toString
    exact apart_append (by simp)
      (apart_of_classes hend (by decide : startsWith .operator "*") (by decide))
  · exact apart_append (by decide) (apart_of_classes (by decide : endsWith .operator "*")
      hx.startsWith_word (by decide))

theorem denotes_term (hx : IsName x) (hw : env.lookup x = some w) (m : ℕ) :
    Denotes env 4 (term m x) (m * w) := by
  unfold term
  split
  · next hone =>
    rw [hone, Int.natCast_one, Int.one_mul]
    exact (Denotes.name hx hw).mono (by decide)
  · have hm : Denotes env 4 ("" ++ toString m) m := by
      rw [String.empty_append]
      exact (Denotes.literal m).mono (by decide)
    simpa only [String.empty_append] using denotes_product hm hx hw

/-- The sign before a product belongs to the number in front. -/
theorem denotes_neg_term (hx : IsName x) (hw : env.lookup x = some w) (m : ℕ) :
    Denotes env 4 ("-" ++ term m x) (-(m * w)) := by
  unfold term
  split
  · next hone =>
    rw [hone, Int.natCast_one, Int.one_mul]
    exact ((Denotes.name hx hw).neg hx.apart_minus).mono (by decide)
  · have hm : Denotes env 4 ("-" ++ toString m) (-m) :=
      ((Denotes.literal m).neg (apart_minus_number m)).mono (by decide)
    rw [← Int.neg_mul, ← String.append_assoc, ← String.append_assoc]
    exact denotes_product hm hx hw

/-! ### Sums of terms -/

/-- The text of a sum of terms, empty for a sum without any. -/
def DenotesTerms (env : Env) (s : String) (v : ℤ) : Prop :=
  s = "" ∧ v = 0 ∨ Denotes env 3 s v

theorem DenotesTerms.addTerm (h : DenotesTerms env s v) (hx : IsName x)
    (hw : env.lookup x = some w) (c : ℤ) : DenotesTerms env (addTerm s c x) (v + c * w) := by
  unfold Text.addTerm
  split
  · next hzero => simpa [hzero] using h
  · refine Or.inr ?_
    have hterm := denotes_term hx hw c.natAbs
    by_cases hneg : c < 0
    · have hc : c * w = -(c.natAbs * w) := by
        rw [Int.ofNat_natAbs_of_nonpos hneg.le, Int.neg_mul, Int.neg_neg]
      rw [if_pos hneg, if_pos hneg, hc]
      rcases h with ⟨rfl, rfl⟩ | h
      · rw [Int.zero_add]
        exact (denotes_neg_term hx hw c.natAbs).mono (by decide)
      · rw [h.isEmpty_eq_false]
        exact h.sub hterm
    · rw [if_neg hneg, if_neg hneg]
      have hc : (c.natAbs : ℤ) = c := Int.natAbs_of_nonneg (by omega)
      rw [hc] at hterm
      rcases h with ⟨rfl, rfl⟩ | h
      · rw [Int.zero_add]
        exact hterm.mono (by decide)
      · rw [h.isEmpty_eq_false]
        exact h.add hterm

/-- The terms are added one after the other to the text of those before. -/
theorem Names.denotes_foldl {names : List String} {values : Point} (h : Names env names values)
    (coeffs : List ℤ) (hs : DenotesTerms env s v) :
    DenotesTerms env ((coeffs.zip names).foldl (fun text term => Text.addTerm text term.1 term.2) s)
      (v + Point.dot coeffs values) := by
  induction h generalizing coeffs s v with
  | nil => cases coeffs <;> simpa [Point.dot] using hs
  | cons hhead _ ih =>
    cases coeffs with
    | nil => simpa [Point.dot] using hs
    | cons c coeffs =>
      rw [Point.dot, ← Int.add_assoc]
      exact ih coeffs (hs.addTerm hhead.1 hhead.2 c)

theorem Names.denotes_linearTerms {names : List String} {values : Point}
    (h : Names env names values) (coeffs : List ℤ) :
    DenotesTerms env (linearTerms coeffs names) (Point.dot coeffs values) := by
  have hterms := h.denotes_foldl coeffs (Or.inl ⟨rfl, rfl⟩)
  rwa [Int.zero_add] at hterms

theorem toString_of_nonneg {k : ℤ} (hk : 0 ≤ k) : toString k = toString k.natAbs := by
  obtain ⟨n, rfl⟩ := Int.eq_ofNat_of_zero_le hk
  rfl

theorem denotes_int (k : ℤ) : Denotes env 5 (toString k) k := by
  cases k with
  | ofNat n => exact (Denotes.literal n).mono (by decide)
  | negSucc n => exact (Denotes.literal (n + 1)).neg (apart_minus_number (n + 1))

/-- A linear form, with the sign of its constant as an operator where there are terms. -/
theorem Names.denotes_linear {names : List String} {values : Point}
    (h : Names env names values) (coeffs : List ℤ) (k : ℤ) :
    Denotes env 3 (linear coeffs names k) (Point.dot coeffs values + k) := by
  unfold linear
  rcases h.denotes_linearTerms coeffs with ⟨hempty, hzero⟩ | hterms
  · rw [hempty, hzero, Int.zero_add]
    exact (denotes_int k).mono (by decide)
  · simp only [hterms.isEmpty_eq_false, Bool.false_eq_true, if_false]
    split
    · next hk => rwa [hk, Int.add_zero]
    · have hnumber : Denotes env 4 (toString k.natAbs) k.natAbs :=
        (Denotes.literal k.natAbs).mono (by decide)
      split
      · next hneg =>
        rw [Int.ofNat_natAbs_of_nonpos hneg.le] at hnumber
        simpa using hterms.sub hnumber
      · next hneg =>
        rw [toString_of_nonneg (by omega)]
        rw [Int.natAbs_of_nonneg (by omega)] at hnumber
        exact hterms.add hnumber

end AffineLoops.CText
