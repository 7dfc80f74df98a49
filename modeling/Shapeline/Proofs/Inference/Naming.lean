import Mathlib
import Shapeline.Inference
import Shapeline.Proofs.Term.Authored

/-!
# The names of placeholders

The name of a placeholder joins the name of the layer type, the number of the node, the position of
the step and the key of the parameter by separators, and the position is left out at the first step.
Keys may hold any characters. The name is read from the left all the same: no mark occurs in the name
of the layer type, and no separator in the digits and signs of a number.
-/

namespace Shapeline

variable {layer layer' parameter parameter' : String} {node node' step step' : ℤ}

/-- A run of characters of one kind ends where the first character of another kind stands, so texts
that begin with such a run are read in one way only. -/
theorem eq_of_append_cons_eq {α : Type} {P : α → Prop} {run run' rest rest' : List α} {x y : α}
    (hrun : ∀ c ∈ run, P c) (hrun' : ∀ c ∈ run', P c) (hx : ¬ P x) (hy : ¬ P y)
    (h : run ++ x :: rest = run' ++ y :: rest') : run = run' ∧ x = y ∧ rest = rest' := by
  induction run generalizing run' with
  | nil =>
    cases run' with
    | nil => exact ⟨rfl, List.cons.inj h⟩
    | cons c others => exact absurd ((List.cons.inj h).1 ▸ hrun' c List.mem_cons_self) hx
  | cons c others ih =>
    obtain ⟨hc, hothers⟩ := List.forall_mem_cons.mp hrun
    cases run' with
    | nil => exact absurd ((List.cons.inj h).1 ▸ hc) hy
    | cons c' others' =>
      obtain ⟨rfl, hrest⟩ := List.cons.inj h
      obtain ⟨rfl, hxy⟩ := ih hothers (List.forall_mem_cons.mp hrun').2 hrest
      exact ⟨rfl, hxy⟩

/-- A character of a written integer: a decimal digit or the sign. -/
def IsNumeral (c : Char) : Prop := c.isDigit = true ∨ c = '-'

instance : DecidablePred IsNumeral := fun c =>
  inferInstanceAs (Decidable (c.isDigit = true ∨ c = '-'))

/-- A written integer has digits and signs only. -/
theorem isNumeral_of_mem_toString {n : ℤ} : ∀ c ∈ (toString n).toList, IsNumeral c := by
  have hdigits (m : ℕ) : ∀ c ∈ m.repr.toList, IsNumeral c := by
    intro c hc
    rw [Nat.toList_repr] at hc
    exact Or.inl (Nat.isDigit_of_mem_toDigits (by decide) (by decide) hc)
  rw [Int.toString_eq_repr, Int.repr_eq_if]
  split
  · exact hdigits _
  · have hsign : ∀ c ∈ "-".toList, IsNumeral c := List.forall_mem_singleton.mpr (Or.inr rfl)
    rw [String.toList_append]
    exact List.forall_mem_append.mpr ⟨hsign, hdigits _⟩

/-- An integer is determined by how it is written. -/
theorem eq_of_toList_toString {m n : ℤ} (h : (toString m).toList = (toString n).toList) : m = n := by
  rw [String.toList_inj, Int.toString_eq_repr, Int.toString_eq_repr] at h
  exact Int.repr_inj.mp h

/-- The part of a name that mentions the step: nothing for the first one, otherwise its position
after a colon. -/
def stepSuffix (step : ℤ) : List Char := if step = 0 then [] else ':' :: (toString step).toList

/-- The characters of a name are those of its parts, in order. -/
theorem toList_placeholderName :
    (placeholderName layer node step parameter).toList =
      layer.toList ++ '#' :: ((toString node).toList ++ (stepSuffix step ++
        '.' :: parameter.toList)) := by
  have hsuffix : (if step = 0 then "" else ":" ++ toString step).toList = stepSuffix step := by
    unfold stepSuffix
    split
    · rfl
    · exact String.toList_append
  calc (placeholderName layer node step parameter).toList
    _ = (layer ++ ("#" ++ toString node) ++ (if step = 0 then "" else ":" ++ toString step) ++
          "." ++ parameter).toList := rfl
    _ = layer.toList ++ (['#'] ++ (toString node).toList) ++ stepSuffix step ++ ['.'] ++
          parameter.toList := by
      simp only [String.toList_append, hsuffix]
      rfl
    _ = _ := by simp only [List.append_assoc, List.cons_append, List.nil_append]

/-- What follows the number of the node tells the position of the step and the key. -/
theorem eq_of_stepSuffix_append
    {rest rest' : List Char} {numeral numeral' : List Char} (hnumeral : ∀ c ∈ numeral, IsNumeral c)
    (hnumeral' : ∀ c ∈ numeral', IsNumeral c)
    (h : numeral ++ (stepSuffix step ++ '.' :: rest) =
      numeral' ++ (stepSuffix step' ++ '.' :: rest')) :
    numeral = numeral' ∧ step = step' ∧ rest = rest' := by
  have hdot : ¬ IsNumeral '.' := by decide
  have hcolon : ¬ IsNumeral ':' := by decide
  unfold stepSuffix at h
  split at h <;> split at h
  · rename_i hzero hzero'
    obtain ⟨hsame, -, hrest⟩ := eq_of_append_cons_eq hnumeral hnumeral' hdot hdot h
    exact ⟨hsame, hzero.trans hzero'.symm, hrest⟩
  · cases (eq_of_append_cons_eq hnumeral hnumeral' hdot hcolon h).2.1
  · cases (eq_of_append_cons_eq hnumeral hnumeral' hcolon hdot h).2.1
  · obtain ⟨hsame, -, hrest⟩ := eq_of_append_cons_eq hnumeral hnumeral' hcolon hcolon h
    obtain ⟨hstep, -, hrest⟩ := eq_of_append_cons_eq isNumeral_of_mem_toString
      isNumeral_of_mem_toString hdot hdot hrest
    exact ⟨hsame, eq_of_toList_toString hstep, hrest⟩

/-- The name of a placeholder determines all that it is made of, as long as the name of the layer
type carries no mark. -/
theorem placeholderName_inj (hlayer : ¬ Marked layer) (hlayer' : ¬ Marked layer') :
    placeholderName layer node step parameter = placeholderName layer' node' step' parameter' ↔
      layer = layer' ∧ node = node' ∧ step = step' ∧ parameter = parameter' := by
  refine ⟨fun h => ?_, by rintro ⟨rfl, rfl, rfl, rfl⟩; rfl⟩
  have hunmarked {name : String} (hname : ¬ Marked name) : ∀ c ∈ name.toList, c ≠ '#' := by
    rintro c hc rfl
    exact hname hc
  rw [← String.toList_inj, toList_placeholderName, toList_placeholderName] at h
  obtain ⟨hfirst, -, hrest⟩ := eq_of_append_cons_eq (hunmarked hlayer) (hunmarked hlayer')
    (not_not_intro rfl) (not_not_intro rfl) h
  obtain ⟨hnode, hstep, hparameter⟩ := eq_of_stepSuffix_append isNumeral_of_mem_toString
    isNumeral_of_mem_toString hrest
  exact ⟨String.toList_inj.mp hfirst, eq_of_toList_toString hnode, hstep,
    String.toList_inj.mp hparameter⟩

/-- A mark in the name of a layer type spoils this: the key of one placeholder may read like the
number of a node, the position of a step and the key of another one. -/
example : placeholderName "Conv" 1 0 "a#2:3.b" = placeholderName "Conv#1.a" 2 3 "b" := by
  decide +kernel

/-- The name of a placeholder that is minted tells the layer type, the node and the step. -/
theorem place_of_mintPlaceholder {layer layer' : LayerType} {j j' : ℕ}
    (hlayer : ¬ Marked layer.name) (hlayer' : ¬ Marked layer'.name)
    (h : (mintPlaceholder layer node j parameter).name =
      (mintPlaceholder layer' node' j' parameter').name) :
    layer.name = layer'.name ∧ node = node' ∧ j = j' := by
  obtain ⟨hname, hnode, hstep, -⟩ := (placeholderName_inj hlayer hlayer').mp h
  exact ⟨hname, hnode, Int.ofNat_inj.mp hstep⟩

end Shapeline
