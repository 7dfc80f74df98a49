import Shapeline.Proofs.Inference.Invariants
import Shapeline.Proofs.Inference.Simulation
import Shapeline.Proofs.Inference.Symbols
import Shapeline.Proofs.Term.Rewording
import Shapeline.Proofs.Validation

/-!
# Inference under reworded declarations

Two plans declare the same shapes in different words. The shapes and the parameters that inference
carries on are then reworded: a placeholder that is bound in one run is bound in the other, to an
extent in other words. So every rule that applies in one run applies in the other, and every
comparison that is passed in one is passed in the other.
-/

namespace Shapeline

variable {σ π π' : Substitution} {known : String → Prop} {p q p' : Parameters} {s s' t : LayerStep}
  {a a' b b' : Shape} {c c' d : Chain} {name : String} {settings : InferenceSettings} {n n' : GraphNode}

/-- Every extent of a shape is reworded. -/
def Shape.Rewords (σ : Substitution) (known : String → Prop) (a b : Shape) : Prop :=
  List.Forall₂ (Term.Rewords σ known) a.axes b.axes

/-- The terms among the parameters are reworded. Only those that a rule derives may differ. -/
structure Parameters.Rewords (σ : Substitution) (known : String → Prop) (p q : Parameters) :
    Prop where
  /-- The terms are reworded. -/
  related : p.Related (Term.Rewords σ known) q
  /-- What is not derived is equal. -/
  fixed : ∀ name, ¬ IsDerived name → q.get? name = p.get? name
  /-- What is not derived can be written by an author. -/
  written : ∀ name t, ¬ IsDerived name → p.get? name = some (.dim t) → t.Written

/-- A step has reworded shapes and parameters. -/
structure LayerStep.Rewords (σ : Substitution) (known : String → Prop) (s s' : LayerStep) :
    Prop where
  /-- The layer types are equal. -/
  layerType : s'.layerType = s.layerType
  /-- The parameters are reworded. -/
  params : s.params.Rewords σ known s'.params
  /-- The input is reworded. -/
  input : s.input.Rewords σ known s'.input
  /-- The output is reworded. -/
  output : s.output.Rewords σ known s'.output
  /-- What selects an axis is not derived. -/
  axes : ∀ layer, s.layerType = some layer → layer.FixesAxes

/-- Two plans declare no shape, or shapes of the author of which one is reworded. -/
inductive DeclaresReworded (σ : Substitution) (known : String → Prop) :
    Option Shape → Option Shape → Prop
  /-- No shape is declared. -/
  | none : DeclaresReworded σ known none none
  /-- The declared shape is reworded. -/
  | some {a b : Shape} : a.Rewords σ known b → DeclaresReworded σ known (some a) (some b)

/-- An axis that is no placeholder of a name is not bound to it. -/
theorem Shape.boundAxis_eq_none {x y : Term} (h : ∀ p, x = .hole p → p.name ≠ name) :
    boundAxis name (x, y) = none := by
  cases x with
  | hole p => rw [boundAxis, if_neg (h p rfl)]
  | _ => rfl

/-- Binding the placeholders of reworded shapes against reworded shapes fills the same ones. -/
theorem Shape.Rewords.fill (h : a.Rewords σ known a') (hdeclared : b.Rewords σ known b') :
    Term.Rewords.Fill σ known (a.binding b) (a'.binding b') where
  marked name hname := by
    obtain ⟨r, hr⟩ := Option.isSome_iff_exists.mp hname
    obtain ⟨⟨p, hp, rfl⟩, -⟩ := mem_of_binding hr
    obtain ⟨x, -, hx⟩ := exists_of_mem_left h hp
    exact hx.marked
  alike name := by
    have hpairs {as as' bs bs' : List Term} (ha : List.Forall₂ (Term.Rewords σ known) as as')
        (hb : List.Forall₂ (Term.Rewords σ known) bs bs') :
        ((as.zip bs).findSome? (boundAxis name) = none ∧
          (as'.zip bs').findSome? (boundAxis name) = none) ∨
        ∃ d d', (as.zip bs).findSome? (boundAxis name) = some (.ok d) ∧
          (as'.zip bs').findSome? (boundAxis name) = some (.ok d') ∧ Term.Rewords σ known d d' := by
      induction ha generalizing bs bs' with
      | nil => exact Or.inl ⟨rfl, rfl⟩
      | @cons x x' as as' hx has ih =>
        cases hb with
        | nil => exact Or.inl ⟨rfl, rfl⟩
        | @cons y y' bs bs' hy hbs =>
          simp only [List.zip_cons_cons, List.findSome?_cons]
          by_cases hbound : ∃ p, x = .hole p ∧ p.name = name
          · obtain ⟨p, rfl, rfl⟩ := hbound
            obtain rfl := hx.eq_hole.mp rfl
            simp only [boundAxis, if_true]
            exact Or.inr ⟨y, y', rfl, rfl, hy⟩
          · have hnone : ∀ p, x = .hole p → p.name ≠ name :=
              fun p hp hname => hbound ⟨p, hp, hname⟩
            rw [boundAxis_eq_none hnone,
              boundAxis_eq_none fun p hp => hnone p (hx.eq_hole.mpr hp)]
            exact ih hbs
    have hrank : (a'.rank = b'.rank) = (a.rank = b.rank) := by
      simp only [rank, h.length_eq, hdeclared.length_eq]
    unfold binding
    simp only [hrank]
    split
    · exact hpairs h hdeclared
    · exact Or.inl ⟨rfl, rfl⟩

/-- A reworded shape stays reworded when placeholders are filled. -/
theorem Shape.Rewords.substitute (hπ : Term.Rewords.Fill σ known π π') (h : a.Rewords σ known b)
    (ha : a.substitute π = .ok a') : ∃ b', b.substitute π' = .ok b' ∧ a'.Rewords σ known b' := by
  have haxis (x y x' : Term) (hxy : Term.Rewords σ known x y) (hx : x.substitute π = .ok x') :
      ∃ y', y.substitute π' = .ok y' ∧ Term.Rewords σ known x' y' := by
    obtain ⟨u, y', hu, hy', hrewords⟩ := hxy.substitute hπ
    obtain rfl := Except.ok.inj (hx.symm.trans hu)
    exact ⟨y', hy', hrewords⟩
  obtain ⟨bs', hbs, hrewords⟩ := exists_forall₂_image haxis h (substitute_eq_ok_iff.mp ha)
  exact ⟨⟨bs'⟩, substitute_eq_ok_iff.mpr hbs, hrewords⟩

/-- Reworded parameters stay reworded when placeholders are filled. -/
theorem Parameters.Rewords.substitute (hπ : Term.Rewords.Fill σ known π π')
    (h : p.Rewords σ known q) (hp : p.substitute π = .ok p') :
    ∃ q', q.substitute π' = .ok q' ∧ p'.Rewords σ known q' := by
  obtain ⟨q', hq⟩ : ∃ q', q.substitute π' = .ok q' := by
    refine exists_substitute fun name y hy => ?_
    rcases h.related name with ⟨-, hnone⟩ | ⟨v, w, -, hw, hvw⟩
    · cases hnone.symm.trans hy
    · obtain rfl := Option.some.inj (hw.symm.trans hy)
      cases hvw with
      | plain hplain => exact absurd rfl (hplain y)
      | dim hxy =>
        obtain ⟨-, y', -, hy', -⟩ := hxy.substitute hπ
        exact ⟨y', hy'⟩
  have hstays {name : String} (hname : ¬ IsDerived name) :
      p'.get? name = p.get? name ∧ q'.get? name = q.get? name := by
    rw [h.fixed name hname]
    cases hv : p.get? name with
    | none =>
      exact ⟨get?_substitute_of_none hp hv,
        get?_substitute_of_none hq ((h.fixed name hname).trans hv)⟩
    | some v =>
      have hv' := (h.fixed name hname).trans hv
      cases v with
      | dim t =>
        have hwritten := h.written name t hname hv
        obtain ⟨u, hu, hp'⟩ := get?_substitute_of_dim hp hv
        obtain ⟨u', hu', hq'⟩ := get?_substitute_of_dim hq hv'
        rw [hwritten.authored.substitute_eq_self hπ.marked] at hu
        rw [hwritten.authored.substitute_eq_self hπ.marked'] at hu'
        obtain rfl := Except.ok.inj hu
        obtain rfl := Except.ok.inj hu'
        exact ⟨hp', hq'⟩
      | _ => exact ⟨get?_substitute_of_plain hp hv nofun, get?_substitute_of_plain hq hv' nofun⟩
  refine ⟨q', hq, ⟨fun name => ?_, fun name hname => ?_, fun name t hname ht => ?_⟩⟩
  · rcases h.related name with ⟨hnone, hnone'⟩ | ⟨v, w, hv, hw, hvw⟩
    · exact Or.inl ⟨get?_substitute_of_none hp hnone, get?_substitute_of_none hq hnone'⟩
    · cases hvw with
      | plain hplain =>
        exact Or.inr ⟨v, v, get?_substitute_of_plain hp hv hplain,
          get?_substitute_of_plain hq hw hplain, .plain hplain⟩
      | dim hxy =>
        obtain ⟨x', hx', hp'⟩ := get?_substitute_of_dim hp hv
        obtain ⟨y', hy', hq'⟩ := get?_substitute_of_dim hq hw
        obtain ⟨x'', y'', hx'', hy'', hrewords⟩ := hxy.substitute hπ
        obtain rfl := Except.ok.inj (hx'.symm.trans hx'')
        obtain rfl := Except.ok.inj (hy'.symm.trans hy'')
        exact Or.inr ⟨_, _, hp', hq', .dim hrewords⟩
  · rw [(hstays hname).1, (hstays hname).2, h.fixed name hname]
  · exact h.written name t hname ((hstays hname).1 ▸ ht)

/-- A reworded step stays reworded when placeholders are filled. -/
theorem LayerStep.Rewords.substitute (hπ : Term.Rewords.Fill σ known π π')
    (h : s.Rewords σ known s') (hs : s.substitute π = .ok t) :
    ∃ t', s'.substitute π' = .ok t' ∧ t.Rewords σ known t' := by
  obtain ⟨hlayer, hparams, hinput, houtput⟩ := LayerStep.substitute_eq_ok_iff.mp hs
  obtain ⟨params, hparams', hp⟩ := h.params.substitute hπ hparams
  obtain ⟨input, hinput', hi⟩ := h.input.substitute hπ hinput
  obtain ⟨output, houtput', ho⟩ := h.output.substitute hπ houtput
  exact ⟨⟨s'.layerType, params, input, output⟩,
    LayerStep.substitute_eq_ok_iff.mpr ⟨rfl, hparams', hinput', houtput'⟩,
    ⟨h.layerType.trans hlayer.symm, hp, hi, ho, fun layer ht => h.axes layer (hlayer ▸ ht)⟩⟩

/-- A reworded chain stays reworded when placeholders are filled. -/
theorem Chain.Related.substitute_rewords (hπ : Term.Rewords.Fill σ known π π')
    (h : c.Related (Shape.Rewords σ known) (LayerStep.Rewords σ known) c')
    (hc : c.substitute π = .ok d) :
    ∃ d', c'.substitute π' = .ok d' ∧
      d.Related (Shape.Rewords σ known) (LayerStep.Rewords σ known) d' := by
  obtain ⟨hshape, hsteps⟩ := Chain.substitute_eq_ok_iff.mp hc
  obtain ⟨shape', hshape', hrewords⟩ := h.shape.substitute hπ hshape
  obtain ⟨steps', hsteps', hall⟩ :=
    exists_forall₂_image (fun _ _ _ hss hs => hss.substitute hπ hs) h.steps hsteps
  exact ⟨⟨steps', shape'⟩, Chain.substitute_eq_ok_iff.mpr ⟨hshape', hsteps'⟩, ⟨hall, hrewords⟩⟩

/-- Shapes that match do so in other words. -/
theorem Shape.Matches.rewords (h : a.Matches σ b) (hσ : σ.Lowers) (ha : a.Rewords σ known a')
    (hb : b.Rewords σ known b') : a'.Matches σ b' :=
  forall₂_transport (fun _ _ _ _ hxy hx hy => hxy.congr hσ hx.lowers.1 hy.lowers.1 hx.lowers.2
    hy.lowers.2 hx.sameUnder hy.sameUnder) h ha hb

/-- A step that is applied to a shape is applied to a reworded one, and is reworded itself. -/
theorem rewords_of_applyStep {node : Int} {position : Nat} {step : PlannedStep}
    {applied : LayerStep} (hσ : (Substitution.ofTerms settings.bindings).Lowers)
    (hstep : step.params.Written) (hfixes : step.layerType.FixesAxes)
    (ha : a.Rewords (.ofTerms settings.bindings) known b)
    (h : applyStep settings node position step a = .ok applied) :
    ∃ applied', applyStep settings node position step b = .ok applied' ∧
      applied.Rewords (.ofTerms settings.bindings) known applied' := by
  have hmint := marked_mintPlaceholder step.layerType node position
  obtain ⟨derived, derived', output, output', rfl, happly, haxes, hderived, hderives, -⟩ :=
    exists_applyStep_related (Term.ruleRelation_rewords _ known) hσ hstep
      (fun name _ => ⟨fun t ht => .same (hstep name t ht), fun _ => .hole (hmint name)⟩) ha h
  have hwritten (name : String) (t : Term) (ht : step.params.get? name = some (.dim t)) :
      t.Written := hstep name t (by rw [Parameters.term?, ht]; rfl)
  refine ⟨_, happly, ⟨rfl, ⟨?_, ?_, ?_⟩, ha, haxes,
    fun layer hlayer => Option.some.inj hlayer ▸ hfixes⟩⟩
  · exact (Parameters.Related.refl fun name t ht => .same (hwritten name t ht)).merged hderived
  · exact fun name => Parameters.get?_merged_eq_of_related hderived hderives
  · intro name t hname ht
    rw [Parameters.get?_merged] at ht
    cases hv : derived.get? name with
    | none => exact hwritten name t (by rwa [hv, Option.none_or] at ht)
    | some v =>
      rw [hv, Option.some_or] at ht
      obtain rfl := Option.some.inj ht
      cases hderives name _ hv with
      | extent _ _ hmem _ => exact absurd hmem hname
      | hole _ _ hmem => exact absurd hmem hname

/-- A run under declared shapes follows one under reworded declarations. -/
theorem simulates_rewords (known : String → Prop)
    (hσ : (Substitution.ofTerms settings.bindings).Lowers) :
    Simulates settings (DeclaresReworded (.ofTerms settings.bindings) known)
      (fun step => step.params.Written ∧ step.layerType.FixesAxes)
      (Shape.Rewords (.ofTerms settings.bindings) known)
      (LayerStep.Rewords (.ofTerms settings.bindings) known) where
  undeclared _ := nofun
  apply _ _ _ _ _ _ hstep ha h := by
    obtain ⟨applied', happly, hrewords⟩ := rewords_of_applyStep hσ hstep.1 hstep.2 ha h
    exact ⟨applied', happly, hrewords, hrewords.output⟩
  keep c c' d declared declared' hc hW hd hmatches := by
    cases hW with
    | some hdeclared =>
      obtain ⟨d', hd', hrewords⟩ := hc.substitute_rewords (hc.shape.fill hdeclared) hd
      exact ⟨hdeclared, d', hd', hmatches.rewords hσ hrewords.shape hdeclared, hrewords⟩
  drop _ _ _ _ _ := nofun

/-- Reworded steps resemble each other. -/
theorem LayerStep.Rewords.resembles (h : s.Rewords σ known s') : s.Resembles s' where
  layerType := h.layerType
  input := h.input.length_eq.symm
  output := h.output.length_eq.symm
  params layer hlayer name hname := h.params.fixed name (h.axes layer hlayer name hname)

/-- Nodes that inference makes of reworded shapes resemble each other. -/
theorem GraphNode.Related.resembles_rewords
    (h : n.Related (Shape.Rewords σ known) (LayerStep.Rewords σ known) n') : n.Resembles n' where
  index := h.index
  steps := h.steps.imp fun _ _ hs => hs.resembles
  input := h.input.length_eq.symm
  output := h.output.length_eq.symm

/-- The symbols of a reworded shape are symbols of the shape or known. -/
theorem Shape.Rewords.symbols (h : a.Rewords σ known b) (hname : name ∈ b.symbols) :
    name ∈ a.symbols ∨ known name := by
  obtain ⟨y, hy, hname⟩ := mem_symbols.mp hname
  obtain ⟨x, hx, hxy⟩ := exists_of_mem_right h hy
  exact (hxy.symbols hname).imp_left fun hmem => mem_symbols.mpr ⟨x, hx, hmem⟩

/-- The symbols in the parameters of a reworded step are recorded in the step or known. -/
theorem LayerStep.Rewords.records (h : s.Rewords σ known s') (hname : s'.Records name) :
    s.Records name ∨ known name := by
  obtain ⟨parameter, t, ht, hname⟩ := hname
  obtain ⟨w, hw, hterm⟩ := Parameters.term?_absent_iff.mp ht
  rcases h.params.related parameter with ⟨-, hnone⟩ | ⟨v, w', hv, hw', hvw⟩
  · cases hnone.symm.trans hw
  · obtain rfl := Option.some.inj (hw.symm.trans hw')
    cases hvw with
    | plain _ =>
      exact Or.inl ⟨parameter, t, Parameters.term?_absent_iff.mpr ⟨w, hv, hterm⟩, hname⟩
    | @dim x y hxy =>
      obtain rfl := Option.some.inj hterm
      exact (hxy.symbols hname).imp_left fun hmem =>
        ⟨parameter, x, Parameters.term?_absent_iff.mpr ⟨_, hv, rfl⟩, hmem⟩

/-- The symbols of a node that inference makes of reworded shapes are symbols of the node or
known. -/
theorem GraphNode.Related.symbols_rewords
    (h : n.Related (Shape.Rewords σ known) (LayerStep.Rewords σ known) n')
    (hname : name ∈ n'.symbols) : name ∈ n.symbols ∨ known name := by
  rcases GraphNode.mem_symbols.mp hname with hmem | hmem | ⟨s', hs', hrecords⟩
  · exact (h.inferred.symbols hmem).imp_left fun h => GraphNode.mem_symbols.mpr (Or.inl h)
  · exact (h.output.symbols hmem).imp_left fun h => GraphNode.mem_symbols.mpr (Or.inr (Or.inl h))
  · obtain ⟨s, hs, hss⟩ := exists_of_mem_right h.steps hs'
    exact (hss.records hrecords).imp_left fun h =>
      GraphNode.mem_symbols.mpr (Or.inr (Or.inr ⟨s, hs, h⟩))

end Shapeline
