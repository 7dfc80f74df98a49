import Shapeline.Compilation
import Shapeline.Proofs.Outcome

/-!
# What a compilation tells

Every event of a compilation can be told in words, except that the output shape of a compiled model
may hold an integer that is too long to be written. A compilation that comes to a result thus has
this result, unless it has built a graph with such an output shape; then it fails, although nothing
is wrong with the graph.
-/

namespace Shapeline

variable {options : Options} {registry : Registry} {program : Program} {definition : Definition}
  {model : ResolvedModel} {plan : List PlannedNode} {attempt : Attempt} {result : CompilationResult}
  {events : List Event} {event : Event} {name : String} {graph : Graph} {failure : Failure}

/-- An event can be told: it holds no integer that is too long to be written. -/
def Event.IsTellable : Event → Prop
  | compiled _ output => output.isWritable = true
  | _ => True

/-- The output shape of a graph can be told. -/
def Graph.IsTellable (graph : Graph) : Prop :=
  ∀ shape, graph.outputShape = .ok shape → shape.isWritable = true

/-- The result of a graph, if there is one, can be told. -/
def CompilationResult.IsTellable (result : CompilationResult) : Prop :=
  ∀ graph, result.graph = some graph → graph.IsTellable

/-- A record is made of an event that can be told, and the others have a number that is too long. -/
theorem Event.record_cases (name : String) (event : Event) :
    (event.IsTellable ∧ ∃ record, event.record name = .ok record) ∨
      (¬ event.IsTellable ∧ event.record name = .error .notConstant) := by
  cases event with
  | compiled model output =>
    by_cases hwritable : output.isWritable = true
    · exact Or.inl ⟨hwritable, _, bind_eq_ok_iff.mpr ⟨_, if_pos hwritable, rfl⟩⟩
    · exact Or.inr ⟨hwritable, bind_eq_error_iff.mpr (Or.inl (if_neg hwritable))⟩
  | _ => exact Or.inl ⟨trivial, _, bind_eq_ok_iff.mpr ⟨_, rfl, rfl⟩⟩

/-- Events are recorded if all of them can be told, and otherwise a number is too long. -/
theorem records_cases (name : String) (events : List Event) :
    ((∀ event ∈ events, event.IsTellable) ∧
        ∃ records, events.mapM (Event.record name) = .ok records) ∨
      ((¬ ∀ event ∈ events, event.IsTellable) ∧
        events.mapM (Event.record name) = .error .notConstant) := by
  induction events with
  | nil => exact Or.inl ⟨List.forall_mem_nil _, _, rfl⟩
  | cons event rest ih =>
    rw [List.forall_mem_cons, List.mapM_cons]
    rcases event.record_cases name with ⟨hevent, record, hrecord⟩ | ⟨hevent, hrecord⟩
    · rcases ih with ⟨hrest, records, hrecords⟩ | ⟨hrest, hrecords⟩
      · rw [hrecord, hrecords]
        exact Or.inl ⟨⟨hevent, hrest⟩, _, rfl⟩
      · rw [hrecord, hrecords]
        exact Or.inr ⟨fun h => hrest h.2, rfl⟩
    · rw [hrecord]
      exact Or.inr ⟨fun h => hevent h.1, rfl⟩

/-- What is told before the end of inference can be told. -/
theorem tellable_inferGraph :
    ∀ event ∈ (inferGraph options model plan).events, event.IsTellable := by
  unfold inferGraph
  dsimp only
  split
  · simp [Event.IsTellable]
  · have hnotes (notes : List Note) :
        ∀ event ∈ [Event.inferring plan.length] ++ notes.map .noted, event.IsTellable := by
      simp [Event.IsTellable]
    split
    · exact hnotes _
    · exact hnotes _
    · exact List.forall_mem_append.mpr ⟨hnotes _, List.forall_mem_singleton.mpr trivial⟩

/-- What is told of a resolved model before the end of its compilation can be told. -/
theorem tellable_planGraph :
    ∀ event ∈ (planGraph options model).events, event.IsTellable := by
  unfold planGraph
  split
  · exact List.forall_mem_singleton.mpr trivial
  · exact List.forall_mem_cons.mpr ⟨trivial, tellable_inferGraph⟩

/-- What is told of a definition before the end of its compilation can be told. -/
theorem tellable_buildGraph :
    ∀ event ∈ (buildGraph options registry definition).events, event.IsTellable := by
  unfold buildGraph
  split
  · exact List.forall_mem_singleton.mpr trivial
  · exact List.forall_mem_cons.mpr ⟨trivial, tellable_planGraph⟩

/-- What is told of a program before the end of its compilation can be told. -/
theorem tellable_buildProgram :
    ∀ event ∈ (buildProgram options registry program).events, event.IsTellable := by
  unfold buildProgram
  dsimp only
  split
  · exact List.forall_mem_singleton.mpr trivial
  · exact List.forall_mem_cons.mpr ⟨trivial, tellable_buildGraph⟩

/-- An attempt comes to a result of success with its graph, or to a result of failure. -/
inductive Attempt.Concludes (attempt : Attempt) : CompilationResult → List Event → Prop
  /-- The graph becomes the result. -/
  | succeeded {graph : Graph} : attempt.outcome = .ok graph → Concludes attempt
    { graph := some graph, resolved := attempt.resolved, warnings := attempt.warnings }
    (attempt.events ++ compiledEvents graph ++ attempt.warnings.map .warned)
  /-- The diagnostics of a failure become the result. -/
  | failed {failure : Failure} {summary : Diagnostic} {errors : List Diagnostic} :
    attempt.outcome = .error failure → failure.diagnostic? = some summary →
    failure.diagnostics? = some errors → Concludes attempt
    { resolved := attempt.resolved, warnings := attempt.warnings, errors, success := false }
    (attempt.events ++ [.failed summary] ++ attempt.warnings.map .warned)

/-- What an attempt comes to. -/
theorem Attempt.concludes_of_conclude (h : attempt.conclude = .ok (result, events)) :
    attempt.Concludes result events := by
  unfold conclude at h
  dsimp only at h
  split at h
  · rename_i graph houtcome
    obtain ⟨rfl, rfl⟩ := Prod.mk.inj (pure_eq_ok_iff.mp h)
    exact .succeeded houtcome
  · rename_i failure houtcome
    split at h
    · rename_i summary errors hsummary herrors
      obtain ⟨rfl, rfl⟩ := Prod.mk.inj (pure_eq_ok_iff.mp h)
      exact .failed houtcome hsummary herrors
    · cases h

/-- An attempt that leads to a graph comes to a result of success. -/
theorem Attempt.conclude_of_outcome (h : attempt.outcome = .ok graph) :
    attempt.conclude = .ok
      ({ graph := some graph, resolved := attempt.resolved, warnings := attempt.warnings },
        attempt.events ++ compiledEvents graph ++ attempt.warnings.map .warned) := by
  unfold conclude
  rw [h]
  rfl

/-- The event that a graph was compiled can be told if its output shape can. -/
theorem tellable_compiledEvents :
    (∀ event ∈ compiledEvents graph, event.IsTellable) ↔ graph.IsTellable := by
  unfold compiledEvents Graph.IsTellable
  cases graph.outputShape with
  | ok shape => simp [Event.IsTellable]
  | error failure => simp

/-- If an attempt has told nothing yet that cannot be told, all its events can be told exactly if
its result can. -/
theorem Attempt.Concludes.tellable_iff (h : attempt.Concludes result events)
    (hevents : ∀ event ∈ attempt.events, event.IsTellable) :
    (∀ event ∈ events, event.IsTellable) ↔ result.IsTellable := by
  have hwarned (warnings : List Warning) :
      ∀ event ∈ warnings.map Event.warned, event.IsTellable := by
    simp [Event.IsTellable]
  cases h with
  | @succeeded graph houtcome =>
    have hresult : CompilationResult.IsTellable
        { graph := some graph, resolved := attempt.resolved, warnings := attempt.warnings } ↔
        graph.IsTellable := by
      simp [CompilationResult.IsTellable]
    rw [hresult, ← tellable_compiledEvents]
    simp only [List.forall_mem_append]
    exact ⟨fun h => h.1.2, fun h => ⟨⟨hevents, h⟩, hwarned _⟩⟩
  | failed houtcome =>
    refine iff_of_true ?_ nofun
    simp only [List.forall_mem_append]
    exact ⟨⟨hevents, List.forall_mem_singleton.mpr trivial⟩, hwarned _⟩

section Conclusion

variable (h : (buildProgram options registry program).conclude = .ok (result, events))

include h

/-- A compilation has the result that it comes to if this result can be told, and otherwise fails
because a number is too long. -/
theorem compileProgram_cases :
    (result.IsTellable ∧ ∃ log, compileProgram options registry program = .ok ⟨result, log⟩) ∨
      (¬ result.IsTellable ∧ compileProgram options registry program = .error .notConstant) := by
  have hevents := (Attempt.concludes_of_conclude h).tellable_iff tellable_buildProgram
  have hrecorded : compileProgram options registry program = do
      let log ← events.mapM (Event.record ((program.model.map (·.name)).getD noModelName))
      return ⟨result, log⟩ := by
    unfold compileProgram
    rw [h]
    rfl
  rw [hrecorded, ← hevents]
  rcases records_cases _ events with ⟨htell, records, hrecords⟩ | ⟨htell, hrecords⟩
  · rw [hrecords]
    exact Or.inl ⟨htell, records, rfl⟩
  · rw [hrecords]
    exact Or.inr ⟨htell, rfl⟩

/-- A compilation that comes to a result which can be told has this result. -/
theorem exists_compileProgram (htell : result.IsTellable) :
    ∃ log, compileProgram options registry program = .ok ⟨result, log⟩ :=
  ((compileProgram_cases h).resolve_right fun hnot => hnot.1 htell).2

/-- A compilation that comes to a result of failure has this result. -/
theorem exists_compileProgram_of_failed (hfailed : result.success = false) :
    ∃ log, compileProgram options registry program = .ok ⟨result, log⟩ := by
  refine exists_compileProgram h ?_
  cases Attempt.concludes_of_conclude h with
  | succeeded => cases hfailed
  | failed => exact nofun

end Conclusion

/-- The result of a compilation is the one that it comes to, and can be told. -/
theorem conclude_of_compileProgram {compilation : Compilation}
    (h : compileProgram options registry program = .ok compilation) :
    ∃ events, (buildProgram options registry program).conclude =
      .ok (compilation.result, events) ∧ compilation.result.IsTellable := by
  obtain ⟨⟨result, events⟩, hconclude, hlogged⟩ := bind_eq_ok_iff.mp h
  obtain ⟨records, -, hpair⟩ := bind_eq_ok_iff.mp hlogged
  obtain rfl := pure_eq_ok_iff.mp hpair
  refine ⟨events, hconclude, ?_⟩
  rcases compileProgram_cases hconclude with ⟨htell, -⟩ | ⟨-, hfails⟩
  · exact htell
  · cases h.symm.trans hfails

end Shapeline
