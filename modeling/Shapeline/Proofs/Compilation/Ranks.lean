import Shapeline.Proofs.Compilation.Stages
import Shapeline.Proofs.Diagnosis
import Shapeline.Proofs.Inference.Ranks
import Shapeline.Proofs.Rule.Failure
import Shapeline.Standard

/-!
# Validation of inferred graphs

Inference makes graphs whose steps have layer types and accept their inputs, and whose nodes start
where the ones before them end. So of the structure of such a graph validation can complain about
one thing only: an inline model that declares, before its first step, a shape with another number of
axes than its node starts from.
-/

namespace Shapeline

variable {options : Options} {registry : Registry} {program : Program} {definition : Definition}
  {model : ResolvedModel} {plan : List PlannedNode} {bindings : Dictionary Term}
  {errors found : List Diagnostic} {nodes : List GraphNode} {n p : GraphNode} {input : Shape}
  {settings : InferenceSettings} {declared : List String} {d : Diagnostic}

/-- A diagnostic says that an inline model declares, before its first step, a shape with another
number of axes than the node of the model starts from. -/
def EntryMismatch (plan : List PlannedNode) (nodes : List GraphNode) (d : Diagnostic) : Prop :=
  ∃ (planned : PlannedNode) (n : GraphNode), (planned, n) ∈ plan.zip nodes ∧ n.steps ≠ [] ∧
    (planned.entry n.input).rank ≠ n.input.rank ∧
    d = .arity n.firstLayer? (toString n.input.rank) (planned.entry n.input).rank (some n.index)

/-- Boundaries of nodes whose steps have layer types can be named. -/
theorem GraphNode.Nameable.of_accepted (h : ∀ s ∈ n.steps, s.Accepted) : p.Nameable n := by
  have hlayer : ∀ s ∈ n.steps, s.layerType ≠ none := fun s hs => by
    obtain ⟨layer, hlayer, -⟩ := h s hs
    exact Option.ne_none_iff_exists'.mpr ⟨layer, hlayer⟩
  exact ⟨fun _ => hlayer, fun _ first hfirst _ => hlayer first (List.mem_of_mem_head? hfirst)⟩

/-- Between two nodes that inference makes one after another only the first step can be wrong: it
starts from another number of axes if the inline model declares so. -/
theorem break_iff_entry {planned : PlannedNode} (hordered : planned.Ordered)
    (h : (inferNode settings planned p.output).Yields errors (some n)) :
    p.Break n d ↔ n.steps ≠ [] ∧ (planned.entry n.input).rank ≠ n.input.rank ∧
      d = .arity n.firstLayer? (toString n.input.rank) (planned.entry n.input).rank
        (some n.index) := by
  have hinput := (made_of_inferNode h).2.2
  have hentry := entry_of_inferNode hordered h
  rw [← hinput] at hentry
  constructor
  · rintro (hne | ⟨first, -, hfirst, hne⟩)
    · exact absurd (congrArg Shape.rank hinput) hne
    · rw [hentry first hfirst, ← hinput] at *
      exact ⟨fun hnil => by simp [hnil] at hfirst, hne, rfl⟩
  · rintro ⟨hsteps, hne, rfl⟩
    obtain ⟨first, hfirst⟩ := Option.ne_none_iff_exists'.mp (List.head?_eq_none_iff.not.mpr hsteps)
    rw [← hentry first hfirst] at hne ⊢
    rw [hinput] at hne ⊢
    exact .start first (congrArg Shape.rank hinput) hfirst hne

/-- What is wrong between the nodes that inference makes is that inline models declare other numbers
of axes. -/
theorem Infers.break_iff (h : Infers settings plan input errors nodes)
    (hordered : ∀ planned ∈ plan, planned.Ordered) (hp : p.output = input) :
    (∃ a b, [a, b] <:+: p :: nodes ∧ a.Break b d) ↔ EntryMismatch plan nodes d := by
  have hshort {x : GraphNode} : ¬ ∃ a b, [a, b] <:+: [x] ∧ a.Break b d :=
    fun ⟨a, b, hab, _⟩ => absurd hab.length_le (by simp)
  induction h generalizing p with
  | nil => simp [EntryMismatch, hshort]
  | stop => simp [EntryMismatch, hshort]
  | @cons planned rest input _ _ made others hmade _ ih =>
    obtain ⟨hplanned, hrest⟩ := List.forall_mem_cons.mp hordered
    subst hp
    have hfirst := break_iff_entry (d := d) hplanned hmade
    have hothers := ih hrest rfl
    simp only [pair_infix_cons_iff]
    constructor
    · rintro ⟨a, b, ⟨rfl, rfl⟩ | hab, hbreak⟩
      · exact ⟨planned, b, List.mem_cons_self, hfirst.mp hbreak⟩
      · obtain ⟨other, n, hmem, hn⟩ := hothers.mp ⟨a, b, hab, hbreak⟩
        exact ⟨other, n, List.mem_cons_of_mem _ hmem, hn⟩
    · rintro ⟨other, n, hmem, hn⟩
      rcases List.mem_cons.mp hmem with heq | hmem
      · obtain ⟨rfl, rfl⟩ := Prod.mk.inj heq
        exact ⟨p, n, Or.inl ⟨rfl, rfl⟩, hfirst.mpr hn⟩
      · obtain ⟨a, b, hab, hbreak⟩ := hothers.mpr ⟨other, n, hmem, hn⟩
        exact ⟨a, b, Or.inr hab, hbreak⟩

namespace Assembles

variable (h : Assembles options registry program definition model plan bindings errors nodes)

include h

/-- The steps of the graph accept their inputs. -/
theorem accepted : ∀ n ∈ nodes, ∀ s ∈ n.steps, s.Accepted := by
  obtain ⟨first, rest, shape, others, -, -, rfl, hinfers⟩ := h.infers
  exact List.forall_mem_cons.mpr ⟨List.forall_mem_nil _, persistent_accepted.infers hinfers⟩

/-- What is wrong between the nodes of the graph is that inline models declare other numbers of
axes. -/
theorem break_iff : (∃ a b, [a, b] <:+: nodes ∧ a.Break b d) ↔ EntryMismatch plan nodes d := by
  obtain ⟨first, rest, shape, others, hplan, -, rfl, hinfers⟩ := h.infers
  have hordered := ordered_planModel h.planned
  rw [hplan] at hordered
  rw [hinfers.break_iff (List.forall_mem_cons.mp hordered).2 rfl, hplan]
  constructor
  · rintro ⟨planned, n, hmem, hn⟩
    exact ⟨planned, n, List.mem_cons_of_mem _ hmem, hn⟩
  · rintro ⟨planned, n, hmem, hsteps, hn⟩
    rcases List.mem_cons.mp hmem with heq | hmem
    · obtain ⟨rfl, rfl⟩ := Prod.mk.inj heq
      exact absurd rfl hsteps
    · exact ⟨planned, n, hmem, hsteps, hn⟩

/-- Validation finds the symbols and the axes of the graph that are wrong, and the inline models
that declare other numbers of axes. -/
theorem mem_diagnose_iff (hfound : (assembleGraph model nodes).diagnose = .ok found) :
    d ∈ found ↔ (d.code ∈ [.undeclaredSymbol, .axisRange] ∧ (assembleGraph model nodes).Flaw d) ∨
      EntryMismatch plan nodes d := by
  let declared := (assembleGraph model nodes).declaredSymbols
  have hwalk : checkNodes declared none nodes = .ok found := hfound
  obtain ⟨-, other, hother, hlists⟩ := (walks_checkNodes declared none
    (axesLower_of_checkNodes hwalk)).resolve_right fun hstops => by
      cases hwalk.symm.trans hstops.2
  obtain rfl := Except.ok.inj (hwalk.symm.trans hother)
  rw [hlists.mem_iff, Option.toList_none, List.nil_append, h.break_iff]
  refine or_congr_left' fun hentry => ?_
  constructor
  · rintro ⟨n, hn, hd⟩
    refine ⟨?_, .node n d hn hd⟩
    cases hd with
    | symbol => exact .head _
    | step s _ hs hflaw =>
      obtain ⟨layer, hlayer, haccepts⟩ := h.accepted n hn s hs
      cases hflaw with
      | untyped hnone => cases hlayer.symm.trans hnone
      | arity other hother hrefuses =>
        obtain rfl := Option.some.inj (hlayer.symm.trans hother)
        cases haccepts.symm.trans hrefuses
      | axis _ _ _ _ _ haxis =>
        obtain ⟨_, -, -, rfl⟩ := haxis
        exact .tail _ (.head _)
  · rintro ⟨-, hflaw⟩
    cases hflaw with
    | node n _ hn hd => exact ⟨n, hn, hd⟩
    | boundary a b _ hab hbreak => exact absurd (h.break_iff.mp ⟨a, b, hab, hbreak⟩) hentry

/-- Validation returns exactly if the terms that select axes lower, and otherwise meets a division
by zero. -/
theorem diagnose_returns_iff :
    (∃ found, (assembleGraph model nodes).diagnose = .ok found) ↔
      ∀ n ∈ nodes, ∀ s ∈ n.steps, s.AxesLower := by
  constructor
  · rintro ⟨found, hfound⟩
    exact axesLower_of_checkNodes hfound
  · intro hterms
    have hnameable : ∀ a b, [a, b] <:+: nodes → a.Nameable b := fun a b hab =>
      .of_accepted (h.accepted b (hab.subset (.tail _ (.head _))))
    obtain ⟨-, found, hfound, -⟩ := (walks_checkNodes (assembleGraph model nodes).declaredSymbols
      none hterms).resolve_right fun hnot => hnot.1 hnameable
    exact ⟨found, hfound⟩

/-- Validation returns if the program and the registry have what authors write. -/
theorem exists_diagnose (hmodel : model.Written) :
    ∃ found, (assembleGraph model nodes).diagnose = .ok found := by
  refine h.diagnose_returns_iff.mpr fun n hn s hs => .of_params fun name t ht => ?_
  obtain ⟨layer, hvalid⟩ := (h.valid hmodel n hn).steps s hs
  exact (hvalid.params.terms name t ht).lowers

/-- The compilation comes to a result with what inference and validation find, which is a success if
they find nothing. -/
theorem conclude_of_diagnose (hfound : (assembleGraph model nodes).diagnose = .ok found) :
    ∃ result events, (buildProgram options registry program).conclude = .ok (result, events) ∧
      (result.success = true ↔ result.errors = []) ∧ result.errors = errors ++ found := by
  cases hall : errors ++ found with
  | nil =>
    have hcheck : checkGraph (assembleGraph model nodes) errors = .ok (assembleGraph model nodes) :=
      bind_eq_ok_iff.mpr ⟨found, hfound, by rw [hall]; rfl⟩
    unfold Attempt.conclude
    rw [h.outcome, hcheck]
    exact ⟨_, _, rfl, by simp, rfl⟩
  | cons first rest =>
    have hcheck : checkGraph (assembleGraph model nodes) errors =
        .error (.problems (first :: rest)) :=
      bind_eq_error_iff.mpr (Or.inr ⟨found, hfound, by rw [hall]; rfl⟩)
    unfold Attempt.conclude
    rw [h.outcome, hcheck]
    exact ⟨_, _, rfl, by simp [CompilationResult.fail], rfl⟩

end Assembles

end Shapeline
