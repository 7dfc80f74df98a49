import Shapeline.Proofs.Inference.Course
import Shapeline.Proofs.Inference.Invariants
import Shapeline.Proofs.Rule.Symbols

/-!
# The thread through the steps of a node

A place binds placeholders in all steps that have been applied before it. Shapes that are declared
have no placeholders and stay as they are. So every step keeps starting from the output of the step
before or, if a shape is declared in between, from the last such shape.
-/

namespace Shapeline

variable {settings : InferenceSettings} {planned : PlannedNode} {node : Int} {π : Substitution}
  {c d : Chain} {input declared a b : Shape} {layer : Option String} {what : String}
  {visits more : List Visit} {places before : List (String × Shape)} {outputs : List Shape}

/-- A shape with the bindings of all visits replaced, one after another. -/
def rewritten (visits : List Visit) (s : Shape) : Outcome Shape :=
  visits.foldlM (fun shape v => shape.substitute v.binding) s

/-- The steps of a chain follow one another past the declared shapes between them, and the shape of
the chain follows the last step past the places that have been visited since. -/
structure Chain.Threaded (planned : PlannedNode) (input : Shape) (before : List (String × Shape))
    (visits : List Visit) (c : Chain) : Prop where
  /-- The placeholders of the shape are told from the author's symbols. -/
  distinguished : c.shape.Distinguished
  /-- The visits bind placeholders only. -/
  marked : ∀ v ∈ visits, ∀ name, (v.binding name).isSome → Marked name
  /-- The first step starts from the input, or from the last shape that is declared before it. -/
  first : ∀ s, c.steps[0]? = some s →
    rewritten visits (carried input (planned.due 0)) = .ok s.input
  /-- Every other step starts from the output of the step before, or from the last shape that is
  declared in between. -/
  between : ∀ (j : Nat) (s t : LayerStep), c.steps[j]? = some s → c.steps[j + 1]? = some t →
    t.input = carried s.output (planned.due (j + 1))
  /-- The shape is the output of the last step, or the last shape that is declared after it. -/
  last : ∀ s, c.steps.getLast? = some s → c.shape = carried s.output before

/-- Every place of a list declares a shape of the author. -/
def AuthoredPlaces (places : List (String × Shape)) : Prop := ∀ place ∈ places, place.2.Authored

/-- The declared shapes of an inline model are the author's. -/
theorem PlannedNode.Authored.due (h : planned.Authored) (done : Nat) :
    AuthoredPlaces (planned.due done) := by
  intro place hplace
  obtain ⟨checkpoint, hcheckpoint, rfl⟩ := List.mem_map.mp hplace
  have hmem := (List.mem_filter.mp hcheckpoint).1
  exact h.checkpoints checkpoint hmem

/-- What is carried past places is the arriving shape, or a shape of the author. -/
theorem carried_cases (hplaces : AuthoredPlaces places) :
    places = [] ∨ ∃ declared : Shape, declared.Authored ∧ ∀ a, carried a places = declared := by
  rcases List.eq_nil_or_concat places with hnil | ⟨front, place, rfl⟩
  · exact Or.inl hnil
  · have hauthored := hplaces place (by simp)
    exact Or.inr ⟨place.2, hauthored, fun a => by simp [carried]⟩

/-- The replacement of marked names commutes with carrying a shape past places. -/
theorem carried_substitute (hplaces : AuthoredPlaces places)
    (hmarked : ∀ name, (π name).isSome → Marked name) (h : a.substitute π = .ok b) :
    (carried a places).substitute π = .ok (carried b places) := by
  rcases carried_cases hplaces with rfl | ⟨declared, hdeclared, hcarried⟩
  · exact h
  · rw [hcarried, hcarried]
    exact hdeclared.substitute_eq_self hmarked

/-- A shape of the author is not rewritten. -/
theorem rewritten_eq_self (ha : a.Authored)
    (hmarked : ∀ v ∈ visits, ∀ name, (v.binding name).isSome → Marked name) :
    rewritten visits a = .ok a := by
  induction visits with
  | nil => rfl
  | cons v rest ih =>
    obtain ⟨hfirst, hothers⟩ := List.forall_mem_cons.mp hmarked
    have hself := ha.substitute_eq_self hfirst
    exact bind_eq_ok_iff.mpr ⟨a, hself, ih hothers⟩

/-- Rewriting by further visits comes after rewriting by the first ones. -/
theorem rewritten_append (h : rewritten visits a = .ok b) :
    rewritten (visits ++ more) a = rewritten more b := by
  rw [rewritten, List.foldlM_append]
  change rewritten visits a >>= rewritten more = _
  rw [h]
  rfl

/-- The steps of a chain after a substitution are those before it, with symbols replaced. -/
theorem Chain.substitute_getElem? (h : c.substitute π = .ok d) {j : Nat} {t : LayerStep}
    (ht : d.steps[j]? = some t) : ∃ s, c.steps[j]? = some s ∧ s.input.substitute π = .ok t.input ∧
      s.output.substitute π = .ok t.output := by
  obtain ⟨hlength, hsteps⟩ := List.forall₂_iff_get.mp (Chain.substitute_eq_ok_iff.mp h).2
  obtain ⟨hj, rfl⟩ := List.getElem?_eq_some_iff.mp ht
  have hj' : j < c.steps.length := by omega
  have hstep := LayerStep.substitute_eq_ok_iff.mp (hsteps j hj' hj)
  exact ⟨c.steps[j], List.getElem?_eq_getElem hj', hstep.2.2⟩

/-- An item of a list with one more item is one of the list, or the last one. -/
theorem getElem?_snoc {α : Type} {items : List α} {item other : α} {j : Nat}
    (h : (items ++ [item])[j]? = some other) :
    items[j]? = some other ∨ j = items.length ∧ item = other := by
  rcases Nat.lt_or_ge j items.length with hlt | hge
  · rw [List.getElem?_append_left hlt] at h
    exact Or.inl h
  · have hj := (List.getElem?_eq_some_iff.mp h).1
    rw [List.length_append, List.length_singleton] at hj
    obtain rfl : j = items.length := by omega
    exact Or.inr ⟨rfl, by simpa using h⟩

namespace Chain.Threaded

/-- A place that is visited keeps the chain threaded, whose shape is now the declared one. -/
theorem check (h : c.Threaded planned input before visits) (hplanned : planned.Authored)
    (hdeclared : declared.Authored) (hd : c.substitute (c.shape.binding declared) = .ok d) :
    Chain.Threaded planned input (before ++ [(what, declared)])
      (visits ++ [⟨node, layer, what, declared, c.shape⟩]) ⟨d.steps, declared⟩ := by
  have hmarked : ∀ name, (c.shape.binding declared name).isSome → Marked name :=
    h.distinguished.marked_binding
  refine ⟨hdeclared.distinguished, fun v hv => ?_, fun t ht => ?_, fun j s t hs ht => ?_,
    fun t _ => by simp [carried]⟩
  · rcases List.mem_append.mp hv with hv | hv
    · exact h.marked v hv
    · obtain rfl := List.mem_singleton.mp hv
      exact hmarked
  · obtain ⟨s, hs, hinput, _⟩ := Chain.substitute_getElem? hd ht
    rw [rewritten_append (h.first s hs)]
    exact bind_eq_ok_iff.mpr ⟨t.input, hinput, rfl⟩
  · obtain ⟨s', hs', _, houtput⟩ := Chain.substitute_getElem? hd hs
    obtain ⟨t', ht', hinput, _⟩ := Chain.substitute_getElem? hd ht
    have hcarried := carried_substitute (hplanned.due (j + 1)) hmarked houtput
    rw [h.between j s' t' hs' ht'] at hinput
    exact Except.ok.inj (hinput.symm.trans hcarried)

/-- Visiting places keeps the chain threaded. -/
theorem checks (h : c.Threaded planned input before visits) (hplanned : planned.Authored)
    (hplaces : AuthoredPlaces places) (hd : Checks node places c more d) :
    d.Threaded planned input (before ++ places) (visits ++ more) := by
  induction hd generalizing before visits with
  | nil =>
    rw [List.append_nil, List.append_nil]
    exact h
  | @cons what declared places c d e more hsubstitute _ ih =>
    obtain ⟨hdeclared, hothers⟩ := List.forall_mem_cons.mp hplaces
    have hfirst : Chain.Threaded planned input (before ++ [(what, declared)])
        (visits ++ [⟨node, c.lastLayer, what, declared, c.shape⟩]) ⟨d.steps, declared⟩ :=
      h.check hplanned hdeclared hsubstitute
    have hrest := ih hfirst hothers
    rw [List.append_assoc, List.append_assoc] at hrest
    exact hrest

/-- The chain that a node starts with is threaded. -/
theorem initial (h : input.Distinguished) : Chain.Threaded planned input [] [] ⟨[], input⟩ where
  distinguished := h
  marked := by simp
  first := by simp
  between := by simp
  last := by simp

/-- Applying a step keeps a chain threaded that has passed all places before the step. -/
theorem apply {step : PlannedStep} {s : LayerStep} {position : Nat}
    (h : c.Threaded planned input (planned.due c.steps.length) visits)
    (hplanned : planned.Authored) (hstep : step ∈ planned.steps)
    (hstart : c.steps = [] → rewritten visits (carried input (planned.due 0)) = .ok c.shape)
    (happly : applyStep settings node position step c.shape = .ok s) :
    Chain.Threaded planned input [] visits ⟨c.steps ++ [s], s.output⟩ := by
  obtain ⟨_, hinput⟩ := applyStep_eq_ok happly
  have houtput : s.output.Distinguished := by
    obtain ⟨outcome, houtcome, heq⟩ := bind_eq_ok_iff.mp happly
    obtain rfl := pure_eq_ok_iff.mp heq
    have hparams := fun name t ht => (hplanned.steps step hstep name t ht).distinguished
    exact Rule.distinguished_of_apply houtcome hparams h.distinguished
      (marked_mintPlaceholder step.layerType node position)
  refine ⟨houtput, h.marked, fun t ht => ?_, fun j t u ht hu => ?_, fun t ht => ?_⟩
  · rcases getElem?_snoc ht with ht | ⟨hlength, rfl⟩
    · exact h.first t ht
    · have hnil : c.steps = [] := List.eq_nil_of_length_eq_zero hlength.symm
      rw [hinput]
      exact hstart hnil
  · rcases getElem?_snoc hu with hu | ⟨hlength, rfl⟩
    · have hlt := (List.getElem?_eq_some_iff.mp hu).1
      rcases getElem?_snoc ht with ht | ⟨hsame, _⟩
      · exact h.between j t u ht hu
      · omega
    · rcases getElem?_snoc ht with ht | ⟨hsame, _⟩
      · have hlast : c.steps.getLast? = some t := by
          rw [List.getLast?_eq_getElem?, ← hlength, Nat.add_sub_cancel, ht]
        rw [hinput, h.last t hlast, hlength]
      · omega
  · obtain rfl : s = t := by simpa using ht
    rfl

end Chain.Threaded

/-- The chain that is reached is threaded. -/
theorem Reaches.threaded (h : Reaches settings planned input outputs c visits)
    (hplanned : planned.Authored) (hinput : input.Distinguished) :
    c.Threaded planned input (planned.due outputs.length) visits := by
  induction h with
  | start hchecks =>
    have hthreaded := (Chain.Threaded.initial hinput).checks hplanned (hplanned.due 0) hchecks
    exact hthreaded
  | @step outputs visits more c d step s hreaches hstep happly hchecks ih =>
    have hlength := hreaches.length_steps
    have hmem := List.mem_of_getElem? hstep
    rw [← hlength] at ih
    have hstart (hnil : c.steps = []) :
        rewritten visits (carried input (planned.due 0)) = .ok c.shape := by
      have houtputs : outputs = [] := by
        rw [hnil] at hlength
        exact List.eq_nil_of_length_eq_zero hlength.symm
      obtain ⟨hshape, _, hvisits⟩ := hreaches.visits_eq
      rw [houtputs] at hshape hvisits
      rw [hshape]
      rcases carried_cases (hplanned.due 0) with hdue | ⟨declared, hdeclared, hcarried⟩
      · have hnone : visits = [] := by simp [hvisits, PlannedNode.innerVisits, hdue, visitsAt]
        rw [hnone]
        rfl
      · have hsame : planned.upcoming input [] = declared := hcarried input
        rw [hsame, hcarried input]
        exact rewritten_eq_self hdeclared ih.marked
    have hthreaded := (ih.apply hplanned hmem hstart happly).checks hplanned
      (hplanned.due (outputs.length + 1)) hchecks
    rw [List.length_append, List.length_singleton]
    exact hthreaded

end Shapeline
