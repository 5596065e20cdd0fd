import AffineLoops.Text.Indented
import Mathlib.Data.List.Basic
/-!
# Additions to indented texts

Whatever is written after a text leaves it as it is. A line is written after the indentation in
force, unless it is empty or has breaks of its own.

## Main definitions

- `Indented.Extends` — a text goes on from another one
- `Indented.margin_lines` — lines do not change the indentation
- `Indented.line_unindented`, `Indented.lines_indented` — the text of lines
-/

namespace AffineLoops.Indented

variable {t u v : Indented} {s : String}

/-- The second text is the first one with something after it. -/
def Extends (t u : Indented) : Prop :=
  ∃ s, u.text = t.text ++ s

theorem foldl_append (s : String) (l : List String) : l.foldl (· ++ ·) s = s ++ String.join l := by
  induction l generalizing s with
  | nil => exact String.append_empty.symm
  | cons a l ih => rw [List.foldl_cons, ih, String.join_cons, String.append_assoc]

theorem extends_writeChar (t : Indented) (c : Char) : t.Extends (t.writeChar c) := by
  unfold writeChar
  split
  · exact ⟨_, String.push_eq_append c⟩
  · split
    · rw [foldl_append]
      exact ⟨_, (String.push_eq_append c).trans String.append_assoc⟩
    · exact ⟨_, String.push_eq_append c⟩

namespace Extends

theorem refl (t : Indented) : t.Extends t :=
  ⟨"", String.append_empty.symm⟩

theorem trans (h : t.Extends u) (h' : u.Extends v) : t.Extends v := by
  obtain ⟨s, hs⟩ := h
  obtain ⟨s', hs'⟩ := h'
  exact ⟨s ++ s', by rw [hs', hs, String.append_assoc]⟩

theorem foldl {α : Type} {f : Indented → α → Indented} (h : t.Extends u)
    (hf : ∀ u a, Indented.Extends u (f u a)) (l : List α) : t.Extends (l.foldl f u) := by
  induction l generalizing u with
  | nil => exact h
  | cons a l ih => exact ih (h.trans (hf u a))

theorem newline (h : t.Extends u) : t.Extends u.newline :=
  h.trans (extends_writeChar u '\n')

theorem line (h : t.Extends u) (s : String) : t.Extends (u.line s) :=
  (h.foldl extends_writeChar s.toList).trans (extends_writeChar _ '\n')

theorem lines (h : t.Extends u) (ss : List String) : t.Extends (u.lines ss) :=
  h.foldl (fun u s => (refl u).line s) ss

theorem indent (h : t.Extends u) : t.Extends u.indent :=
  h

theorem dedent (h : t.Extends u) : t.Extends u.dedent :=
  h

end Extends

/-! ### Levels -/

/-- The level of the indentation and what one level looks like. -/
def margin (t : Indented) : ℕ × String :=
  (t.level, t.unit)

theorem margin_foldl {α : Type} {f : Indented → α → Indented}
    (hf : ∀ t a, (f t a).margin = t.margin) (t : Indented) (l : List α) :
    (l.foldl f t).margin = t.margin := by
  induction l generalizing t with
  | nil => rfl
  | cons a l ih => rw [List.foldl_cons, ih, hf]

theorem margin_writeChar (t : Indented) (c : Char) : (t.writeChar c).margin = t.margin := by
  unfold writeChar
  split
  · rfl
  · split <;> rfl

theorem margin_line (t : Indented) (s : String) : (t.line s).margin = t.margin :=
  (margin_writeChar _ _).trans (margin_foldl margin_writeChar t s.toList)

theorem margin_lines (t : Indented) (ss : List String) : (t.lines ss).margin = t.margin :=
  margin_foldl margin_line t ss

/-! ### Lines -/

/-- What the lines start with. -/
def indentation (t : Indented) : String :=
  String.join (List.replicate t.level t.unit)

theorem foldl_writeChar_eq {cs : List Char} (ht : t.atLineStart = false) (hcs : '\n' ∉ cs) :
    cs.foldl writeChar t = { t with text := t.text ++ .ofList cs } := by
  induction cs generalizing t with
  | nil => simp
  | cons c cs ih =>
    obtain ⟨hc, hcs⟩ := not_or.mp (List.mem_cons.not.mp hcs)
    rw [List.foldl_cons, writeChar, if_neg (Ne.symm hc), ht, if_neg Bool.false_ne_true,
      ih rfl hcs]
    simp [← String.toList_inj]

/-- A line is written after the indentation, and what comes next starts a line again. -/
theorem line_eq (ht : t.atLineStart) (hne : s.toList ≠ []) (hs : '\n' ∉ s.toList) :
    t.line s = { t with text := t.text ++ t.indentation ++ s ++ "\n" } := by
  obtain ⟨c, cs, hcs⟩ := List.exists_cons_of_ne_nil hne
  rw [hcs] at hs
  obtain ⟨hc, hs⟩ := not_or.mp (List.mem_cons.not.mp hs)
  have hstart : t.writeChar c =
      { t with text := (t.text ++ t.indentation).push c, atLineStart := false } := by
    rw [writeChar, if_neg (Ne.symm hc), if_pos ht, foldl_append]
    rfl
  have htext : ((t.text ++ t.indentation).push c ++ .ofList cs).push '\n' =
      t.text ++ t.indentation ++ s ++ "\n" := by
    simp [← String.toList_inj, hcs]
  rw [line, write, hcs, List.foldl_cons, hstart, foldl_writeChar_eq rfl hs, writeChar, if_pos rfl,
    htext, ← ht]

theorem lines_eq {ss : List String} (ht : t.atLineStart) (hne : ∀ s ∈ ss, s.toList ≠ [])
    (hss : ∀ s ∈ ss, '\n' ∉ s.toList) :
    t.lines ss =
      { t with text := t.text ++ String.join (ss.map fun s => t.indentation ++ s ++ "\n") } := by
  induction ss generalizing t with
  | nil => simp [lines]
  | cons s ss ih =>
    obtain ⟨hs, hss⟩ := List.forall_mem_cons.mp hss
    obtain ⟨hne, hnes⟩ := List.forall_mem_cons.mp hne
    have hrest := ih (t := { t with text := t.text ++ t.indentation ++ s ++ "\n" }) ht hnes hss
    rw [lines, List.foldl_cons, line_eq ht hne hs]
    refine hrest.trans ?_
    simp [String.append_assoc, indentation]

theorem line_unindented {text unit : String} (hne : s.toList ≠ []) (hs : '\n' ∉ s.toList) :
    line ⟨text, 0, unit, true⟩ s = ⟨text ++ s ++ "\n", 0, unit, true⟩ := by
  have hnone : indentation ⟨text, 0, unit, true⟩ = "" := rfl
  rw [line_eq rfl hne hs, hnone, String.append_empty]

theorem lines_indented {text unit : String} {ss : List String} (hne : ∀ s ∈ ss, s.toList ≠ [])
    (hss : ∀ s ∈ ss, '\n' ∉ s.toList) : lines ⟨text, 1, unit, true⟩ ss =
      ⟨text ++ String.join (ss.map fun s => unit ++ s ++ "\n"), 1, unit, true⟩ := by
  have hone : indentation ⟨text, 1, unit, true⟩ = unit := by simp [indentation]
  rw [lines_eq rfl hne hss, hone]

end AffineLoops.Indented
